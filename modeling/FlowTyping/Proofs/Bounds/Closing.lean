import FlowTyping.Proofs.Bounds.Building

/-!
The close of a construction with checked accesses: chains of removed blocks, the final ids, and
the parts that are handed over.
-/

namespace FlowTyping

namespace Checked

section Compaction

variable (drafts : Array Draft)

def forwardOf (at_ : BlockId) : Option (Option BlockId) := do
  let d ← drafts[at_]?
  return d.forward?

def cycleFrom (removable : Array Bool) :
    Nat → List BlockId → BlockId → Option (Option (List BlockId))
  | 0, _, _ => some none
  | fuel + 1, path, at_ => do
      let removed ← removable[at_]?
      if removed = false then return none
      else if at_ ∈ path then return some path
      else
        match ← forwardOf drafts at_ with
        | some next => cycleFrom removable fuel (at_ :: path) next
        | none => return none

def keepCycle (removable : Array Bool) (start : BlockId) : Option (Array Bool) := do
  match ← cycleFrom drafts removable (drafts.size + 1) [] start with
  | some path => path.foldlM (fun flags block => write flags block false) removable
  | none => return removable

def removableBlocks : Option (Array Bool) :=
  (List.range drafts.size).foldlM (keepCycle drafts) (drafts.map fun d => d.forward?.isSome)

def destination (removable : Array Bool) : Nat → BlockId → Option BlockId
  | 0, at_ => some at_
  | fuel + 1, at_ => do
      let removed ← removable[at_]?
      if removed then
        match ← forwardOf drafts at_ with
        | some next => destination removable fuel next
        | none => return at_
      else return at_

/-- The number of a block, and whether it is kept. -/
def compactId (removable : Array Bool) (numbers : Array BlockId) (i : BlockId) :
    Option (Bool × BlockId) := do
  let removed ← removable[i]?
  let target ← destination drafts removable (drafts.size + 1) i
  let number ← numbers[target]?
  return (!removed, number)

def compactIds : Option (Array (Bool × BlockId)) := do
  let removable ← removableBlocks drafts
  let numbers ← (List.range drafts.size).foldlM
    (fun (acc : Array BlockId × BlockId) i => do
      let removed ← removable[i]?
      return (acc.1.push acc.2, if removed then acc.2 else acc.2 + 1)) (#[], 0)
  let ids ← (List.range drafts.size).mapM (compactId drafts removable numbers.1)
  return ids.toArray

end Compaction

variable (ids : Array (Bool × BlockId))

def rename (block : BlockId) : Option BlockId := do
  let id ← ids[block]?
  return id.2

def toKind (exit : BlockId) : Exits → Option BlockKind
  | .openEnd => do
      let target ← rename ids exit
      return .regular target
  | .goto target => do
      let target ← rename ids target
      return .regular target
  | .branch condition thenSuccessor elseSuccessor => do
      let thenSuccessor ← rename ids thenSuccessor
      let elseSuccessor ← rename ids elseSuccessor
      return .conditional condition thenSuccessor elseSuccessor
  | .raise successor handlers _ => do
      let successor ← successor.toList.mapM (rename ids)
      let handlers ← handlers.mapM fun h => do
        let target ← rename ids h.2
        return (h.1, target)
      return .exceptional successor.head? handlers
  | .special kind successor => do
      let successor ← successor.toList.mapM (rename ids)
      return .special kind successor.head?

/-- The block that a draft becomes, if it is kept. Its nodes are given its id. -/
def toBlock (nodes : Array Node) (d : Draft) (index : Nat) : Option (Option Block) := do
  let (kept, id) ← ids[index]?
  if kept then
    let kind ← toKind ids Build.exitId d.exits
    let _ ← d.nodes.mapM fun id => do
      let _ ← nodes[id]?
      return ()
    return some ⟨id, d.nodes, kind⟩
  else return none

def finish (name : String) (b : Building) : Checked GraphError FlowGraph := do
  let drafts := b.drafts.map fun d => { d with exits := d.exits.finish Build.exitId }
  let ids ← access (compactIds drafts)
  let blocks ← access (drafts.toList.zipIdx.mapM fun (d, index) => toBlock ids b.nodes d index)
  let nodes ← access (b.nodes.toList.mapM fun n => do
    let block ← rename ids n.block
    return { n with block })
  let entry ← access (rename ids Build.entryId)
  let exit ← access (rename ids Build.exitId)
  let exceptionalExit ← access (rename ids Build.exceptionalExitId)
  toGraph {
    name
    blocks := (blocks.filterMap fun block => block).toArray
    nodes := nodes.toArray
    entry
    exit
    exceptionalExit }

end Checked

open Checked Build

/-- Every edge of the drafts leads to one of them. -/
abbrev Compaction.Leading (drafts : Array Draft) : Prop :=
  ∀ d ∈ drafts, ∀ t ∈ d.exits.targets, t < drafts.size

namespace Compaction

variable {drafts : Array Draft} {removable : Array Bool} {at_ : BlockId}

theorem forward?_mem {d : Draft} {t : BlockId} (h : d.forward? = some t) :
    t ∈ d.exits.targets := by
  unfold Draft.forward? at h
  split at h
  · rename_i target hexits
    split at h
    · cases h
      simp [hexits, Exits.targets]
    · cases h
  · cases h

theorem gives_forwardOf (hleads : Leading drafts) (hat : at_ < drafts.size) :
    Gives (Checked.forwardOf drafts at_) (forwardOf drafts at_)
      fun next => ∀ t : Nat, next = some t → t < drafts.size := by
  have hdraft := Array.getElem?_eq_getElem hat
  unfold Checked.forwardOf forwardOf
  rw [hdraft]
  exact .pure fun t ht => hleads _ (Array.mem_of_getElem? hdraft) t (forward?_mem ht)

theorem gives_cycleFrom (hleads : Leading drafts) (hsize : removable.size = drafts.size)
    (fuel : Nat) {path : List BlockId} (hpath : ∀ b ∈ path, b < drafts.size)
    (hat : at_ < drafts.size) :
    Gives (Checked.cycleFrom drafts removable fuel path at_)
      (cycleFrom drafts removable fuel path at_)
      fun found => ∀ l, found = some l → ∀ b ∈ l, b < drafts.size := by
  induction fuel generalizing path at_ with
  | zero => exact .pure nofun
  | succ fuel ih =>
      unfold Checked.cycleFrom cycleFrom
      apply (gives_getD (hsize ▸ hat) false).bind
      intro _
      split
      · exact .pure nofun
      · split
        · apply Gives.pure
          rintro _ ⟨⟩
          exact hpath
        · apply (gives_forwardOf hleads hat).bind
          intro hnext
          cases hforward : forwardOf drafts at_ with
          | none => exact .pure nofun
          | some next =>
              exact ih (List.forall_mem_cons.mpr ⟨hat, hpath⟩) (hnext next hforward)

theorem gives_keepCycle (hleads : Leading drafts) (hsize : removable.size = drafts.size)
    {start : BlockId} (hstart : start < drafts.size) :
    Gives (Checked.keepCycle drafts removable start) (keepCycle drafts removable start)
      fun flags => flags.size = drafts.size := by
  unfold Checked.keepCycle keepCycle
  apply (gives_cycleFrom hleads hsize (drafts.size + 1) (by simp) hstart).bind
  intro hfound
  cases hpath : cycleFrom drafts removable (drafts.size + 1) [] start with
  | none => exact .pure hsize
  | some path =>
      refine Gives.foldlM (fun flags hflags block hblock => ?_) hsize
      have hlt : block < flags.size := hflags ▸ hfound path hpath block hblock
      exact (gives_write hlt false).weaken fun h => h.trans hflags

theorem gives_removableBlocks (hleads : Leading drafts) :
    Gives (Checked.removableBlocks drafts) (removableBlocks drafts)
      fun flags => flags.size = drafts.size :=
  Gives.foldlM (fun _ hflags _ hi => gives_keepCycle hleads hflags (List.mem_range.mp hi))
    Array.size_map

theorem gives_destination (hleads : Leading drafts) (hsize : removable.size = drafts.size)
    (fuel : Nat) (hat : at_ < drafts.size) :
    Gives (Checked.destination drafts removable fuel at_) (destination drafts removable fuel at_)
      fun target => target < drafts.size := by
  induction fuel generalizing at_ with
  | zero => exact .pure hat
  | succ fuel ih =>
      unfold Checked.destination destination
      apply (gives_getD (hsize ▸ hat) false).bind
      intro _
      split
      · apply (gives_forwardOf hleads hat).bind
        intro hnext
        cases hforward : forwardOf drafts at_ with
        | none => exact .pure hat
        | some next => exact ih (hnext next hforward)
      · exact .pure hat

end Compaction

/-- The numbers of blocks up to each block, given which ones are removed. -/
theorem numbers_size (removed : Nat → Bool) (l : List Nat) (acc : Array BlockId × BlockId) :
    (l.foldl (fun (acc : Array BlockId × BlockId) i =>
      (acc.1.push acc.2, if removed i then acc.2 else acc.2 + 1)) acc).1.size =
        acc.1.size + l.length := by
  induction l generalizing acc with
  | nil => rfl
  | cons i rest ih =>
      rw [List.foldl_cons, ih, Array.size_push, List.length_cons]
      omega

theorem gives_compactIds {drafts : Array Draft} (hleads : Compaction.Leading drafts) :
    Gives (Checked.compactIds drafts) (compactIds drafts) fun ids => ids.size = drafts.size := by
  unfold Checked.compactIds compactIds
  apply (Compaction.gives_removableBlocks hleads).bind
  intro hsize
  have hnumbers : Gives
      ((List.range drafts.size).foldlM
        (fun (acc : Array BlockId × BlockId) i => do
          let removed ← (Compaction.removableBlocks drafts)[i]?
          return (acc.1.push acc.2, if removed then acc.2 else acc.2 + 1)) (#[], 0))
      ((List.range drafts.size).foldl
        (fun (acc : Array BlockId × BlockId) i => (acc.1.push acc.2,
          if (Compaction.removableBlocks drafts).getD i false then acc.2 else acc.2 + 1)) (#[], 0))
      fun _ => True := by
    refine Gives.foldlM (fun acc _ i hi => ?_) trivial
    have hlt : i < (Compaction.removableBlocks drafts).size := hsize ▸ List.mem_range.mp hi
    exact (gives_getD hlt false).bind fun _ => .pure trivial
  have hcount := numbers_size (fun i => (Compaction.removableBlocks drafts).getD i false)
    (List.range drafts.size) (#[], 0)
  rw [List.length_range] at hcount
  apply hnumbers.bind
  intro _
  dsimp only
  generalize (List.range drafts.size).foldl _ _ = numbers at hcount ⊢
  have hcount : numbers.1.size = drafts.size := by simpa using hcount
  have hids : Gives
      ((List.range drafts.size).mapM
        (compactId drafts (Compaction.removableBlocks drafts) numbers.1))
      ((List.range drafts.size).map fun i =>
        (!(Compaction.removableBlocks drafts).getD i false,
          numbers.1.getD (Compaction.destination drafts (Compaction.removableBlocks drafts)
            (drafts.size + 1) i) 0)) fun _ => True := by
    refine (Gives.mapM (Q := fun _ => True) fun i hi => ?_).weaken fun _ => trivial
    have hlt := List.mem_range.mp hi
    have hremoved : i < (Compaction.removableBlocks drafts).size := hsize ▸ hlt
    apply (gives_getD hremoved false).bind
    intro _
    apply (Compaction.gives_destination hleads hsize (drafts.size + 1) hlt).bind
    intro htarget
    exact (gives_getD (hcount ▸ htarget) 0).bind fun _ => .pure trivial
  apply hids.bind
  intro _
  refine ⟨congrArg some (Array.ext' ?_), by simp⟩
  rw [Array.toList_map, Array.toList_range]

section Renaming

variable {ids : Array (Bool × BlockId)} {n : Nat} {block : BlockId}

theorem gives_rename (hids : ids.size = n) (hblock : block < n) :
    Gives (Checked.rename ids block) (ids.getD block (false, 0)).2 fun _ => True :=
  (gives_getD (hids ▸ hblock) (false, 0)).bind fun _ => .pure trivial

theorem gives_toKind (hids : ids.size = n) (hexit : Build.exitId < n) {exits : Exits}
    (h : ∀ t ∈ exits.targets, t < n) :
    Gives (Checked.toKind ids Build.exitId exits)
      (exits.toKind (fun block => (ids.getD block (false, 0)).2) Build.exitId) fun _ => True := by
  have hrename {t : BlockId} (ht : t ∈ exits.targets) := gives_rename hids (h t ht)
  cases exits with
  | openEnd => exact (gives_rename hids hexit).bind fun _ => .pure trivial
  | goto target =>
      exact (hrename (by simp [Exits.targets])).bind fun _ => .pure trivial
  | branch condition thenSuccessor elseSuccessor =>
      apply (hrename (t := thenSuccessor) (by simp [Exits.targets])).bind
      intro _
      exact (hrename (t := elseSuccessor) (by simp [Exits.targets])).bind fun _ => .pure trivial
  | raise successor handlers terminal =>
      have hsuccessor := Gives.mapM (l := successor.toList) fun t ht =>
        hrename (List.mem_append_left (handlers.map Prod.snd) ht)
      have hhandlers := Gives.mapM (Q := fun _ => True) (l := handlers)
        (g := fun h => (h.1, (ids.getD h.2 (false, 0)).2)) fun h hh =>
          (hrename (List.mem_append_right successor.toList (List.mem_map_of_mem hh))).bind
            (k := fun target => some (h.1, target)) fun _ => .pure trivial
      apply hsuccessor.bind
      intro _
      apply hhandlers.bind
      intro _
      refine ⟨?_, trivial⟩
      cases successor <;> rfl
  | special kind successor =>
      have hsuccessor := Gives.mapM (l := successor.toList) fun t ht => hrename ht
      apply hsuccessor.bind
      intro _
      refine ⟨?_, trivial⟩
      cases successor <;> rfl

theorem gives_toBlock (hids : ids.size = n) (hexit : Build.exitId < n) {nodes : Array Node}
    {d : Draft} {index : Nat} (htargets : ∀ t ∈ d.exits.targets, t < n)
    (hlisted : ∀ id ∈ d.nodes, id < nodes.size) (hindex : index < n) :
    Gives (Checked.toBlock ids nodes d index)
      (if (ids.getD index (false, 0)).1 then
        some ⟨(ids.getD index (false, 0)).2, d.nodes,
          d.exits.toKind (fun block => (ids.getD block (false, 0)).2) Build.exitId⟩
      else none) fun _ => True := by
  unfold Checked.toBlock
  apply (gives_getD (hids ▸ hindex) (false, 0)).bind
  intro _
  generalize ids.getD index (false, 0) = id
  obtain ⟨kept, id⟩ := id
  cases kept with
  | false => exact .pure trivial
  | true =>
      have hnodes : Gives (d.nodes.mapM fun id => do
          let _ ← nodes[id]?
          return ()) (d.nodes.map fun _ => ()) fun _ => True := by
        refine (Gives.mapM (Q := fun _ => True) fun id hid => ?_).weaken fun _ => trivial
        rw [Array.getElem?_eq_getElem (hlisted id hid)]
        exact .pure trivial
      apply (gives_toKind hids hexit htargets).bind
      intro _
      exact hnodes.bind fun _ => .pure trivial

end Renaming

/-- The close of a construction accesses no table out of range. -/
theorem Building.Ranged.delivers_finish {b : Building} (hb : b.Ranged) (name : String) :
    Delivers (Checked.finish name b) (Build.finish name b) fun _ => True := by
  have hexit : exitId < b.drafts.size := Nat.lt_of_lt_of_le (by decide) hb.designated
  unfold Checked.finish Build.finish
  generalize hdrafts : b.drafts.map (fun d => { d with exits := d.exits.finish exitId }) = drafts
  have hsize : drafts.size = b.drafts.size := by
    rw [← hdrafts, Array.size_map]
  have hmem {d : Draft} (hd : d ∈ drafts) :
      (∀ t ∈ d.exits.targets, t < b.drafts.size) ∧ ∀ id ∈ d.nodes, id < b.nodes.size := by
    rw [← hdrafts] at hd
    obtain ⟨d', hd', rfl⟩ := Array.mem_map.mp hd
    refine ⟨fun t ht => ?_, hb.listed d' hd'⟩
    rcases Exits.mem_targets_finish ht with ht | rfl
    · exact hb.targets d' hd' t ht
    · exact hexit
  have hleads : Compaction.Leading drafts := fun d hd t ht => hsize ▸ (hmem hd).1 t ht
  apply (gives_compactIds hleads).access
  intro hids
  have hids := hids.trans hsize
  dsimp only
  generalize compactIds drafts = ids at hids ⊢
  have hblocks : Gives
      (drafts.toList.zipIdx.mapM fun (d, index) => toBlock ids b.nodes d index)
      (drafts.toList.zipIdx.map fun (d, index) =>
        if (ids.getD index (false, 0)).1 then
          some (⟨(ids.getD index (false, 0)).2, d.nodes,
            d.exits.toKind (fun block => (ids.getD block (false, 0)).2) exitId⟩ : Block)
        else none) fun _ => True := by
    refine (Gives.mapM (Q := fun _ => True) fun p hp => ?_).weaken fun _ => trivial
    obtain ⟨hd, hnodes⟩ := hmem (Array.mem_toList_iff.mp (List.fst_mem_of_mem_zipIdx hp))
    have hindex : p.2 < b.drafts.size := by
      have hlt := List.snd_lt_of_mem_zipIdx hp
      simpa [hsize] using hlt
    exact gives_toBlock hids hexit hd hnodes hindex
  apply hblocks.access
  intro _
  have hnodes : Gives
      (b.nodes.toList.mapM fun n => do
        let block ← Checked.rename ids n.block
        return { n with block })
      (b.nodes.toList.map fun n => { n with block := (ids.getD n.block (false, 0)).2 })
      fun _ => True := by
    refine (Gives.mapM (Q := fun _ => True) fun n hn => ?_).weaken fun _ => trivial
    exact (gives_rename hids (hb.homes n (Array.mem_toList_iff.mp hn))).bind fun _ => .pure trivial
  apply hnodes.access
  intro _
  apply (gives_rename hids (Nat.lt_of_lt_of_le (by decide) hb.designated : entryId < _)).access
  intro _
  apply (gives_rename hids hexit).access
  intro _
  apply (gives_rename hids
    (Nat.lt_of_lt_of_le (by decide) hb.designated : exceptionalExitId < _)).access
  intro _
  have hparts : (b.nodes.toList.map fun n =>
      { n with block := (ids.getD n.block (false, 0)).2 }).toArray =
        b.nodes.map fun n => { n with block := (ids.getD n.block (false, 0)).2 } := by
    apply Array.ext'
    rw [Array.toList_map]
  rw [hparts, List.filterMap_map]
  exact GraphParts.delivers_toGraph _

end FlowTyping
