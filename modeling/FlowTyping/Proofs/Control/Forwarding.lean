import FlowTyping.Proofs.Bounds.Closing
import FlowTyping.Proofs.Control.Circles
import Mathlib.Data.PFun

/-!
What compaction does with any drafts whose edges stay among them. Its loops come to an end
although nothing bounds them, kept blocks are numbered in order, and a removed block leads by
removed blocks alone to the block whose id it is given.
-/

namespace FlowTyping

open Relation Layout

/-!
The loops without a bound. Each access is checked as well, so there is a result only if every
loop comes to its end and no access is out of range.
-/

namespace Unbounded

section

variable {σ α : Type} {round : σ → Option (α ⊕ σ)} {s : σ} {a : α}

/-- The rounds of a loop. A round fails, ends the loop with a result or leaves a state. -/
def rounds (round : σ → Option (α ⊕ σ)) : σ →. α ⊕ σ := fun s => Part.ofOption (round s)

theorem mem_rounds {r : α ⊕ σ} : r ∈ rounds round s ↔ round s = some r := Part.mem_ofOption

open scoped Classical in
/-- The result of a loop. There is none if no round ends the loop, or if a round fails. -/
noncomputable def loop (round : σ → Option (α ⊕ σ)) (s : σ) : Option α :=
  ((rounds round).fix s).toOption

theorem loop_eq_some_iff : loop round s = some a ↔ a ∈ (rounds round).fix s := by
  classical exact Part.mem_toOption

/-- The first round, and then the others. -/
theorem loop_eq (round : σ → Option (α ⊕ σ)) (s : σ) :
    loop round s = (round s).bind (Sum.elim some (loop round)) := by
  ext a
  rw [loop_eq_some_iff, PFun.mem_fix_iff, Option.bind_eq_some_iff]
  simp only [mem_rounds, ← loop_eq_some_iff]
  constructor
  · rintro (hround | ⟨s', hround, hrest⟩)
    · exact ⟨.inl a, hround, rfl⟩
    · exact ⟨.inr s', hround, hrest⟩
  · rintro ⟨result | s', hround, hrest⟩
    · cases hrest
      exact .inl hround
    · exact .inr ⟨s', hround, hrest⟩

/-- A loop does not end if every state that it comes to leads to another one. -/
theorem loop_eq_none (P : σ → Prop) (hs : P s)
    (h : ∀ s, P s → ∃ s', round s = some (.inr s') ∧ P s') : loop round s = none := by
  refine Option.eq_none_iff_forall_ne_some.mpr fun a hends => ?_
  refine PFun.fixInduction (C := fun s => ¬ P s) (loop_eq_some_iff.mp hends) ?_ hs
  intro s _ ih hs
  obtain ⟨s', hround, hs'⟩ := h s hs
  exact ih s' (mem_rounds.mpr hround) hs'

end

variable (drafts : Array Draft)

/-- A round of the walk along removable blocks that ends with its blocks if it runs into itself.
The blocks met so far come with the one where it stands. -/
def walkRound (removable : Array Bool) :
    List BlockId × BlockId → Option (Option (List BlockId) ⊕ List BlockId × BlockId)
  | (path, at_) => do
      let removed ← removable[at_]?
      if removed = false then return .inl none
      else if at_ ∈ path then return .inl (some path)
      else
        match ← Checked.forwardOf drafts at_ with
        | some next => return .inr (at_ :: path, next)
        | none => return .inl none

/-- A round of the way along removed blocks. -/
def wayRound (removable : Array Bool) (at_ : BlockId) : Option (BlockId ⊕ BlockId) := do
  let removed ← removable[at_]?
  if removed then
    match ← Checked.forwardOf drafts at_ with
    | some next => return .inr next
    | none => return .inl at_
  else return .inl at_

noncomputable section

def keepCycle (removable : Array Bool) (start : BlockId) : Option (Array Bool) := do
  match ← loop (walkRound drafts removable) ([], start) with
  | some path => path.foldlM (fun flags block => Checked.write flags block false) removable
  | none => return removable

def removableBlocks : Option (Array Bool) :=
  (List.range drafts.size).foldlM (keepCycle drafts) (drafts.map fun d => d.forward?.isSome)

def compactId (removable : Array Bool) (numbers : Array BlockId) (i : BlockId) :
    Option (Bool × BlockId) := do
  let removed ← removable[i]?
  let target ← loop (wayRound drafts removable) i
  let number ← numbers[target]?
  return (!removed, number)

def compactIds : Option (Array (Bool × BlockId)) := do
  let removable ← removableBlocks drafts
  let numbers ← (List.range drafts.size).foldlM
    (fun (acc : Array BlockId × BlockId) i => do
      let removed ← removable[i]?
      return (acc.1.push acc.2, if removed then acc.2 else acc.2 + 1)) (#[], 0)
  let ids ← (List.range drafts.size).mapM (compactId drafts removable numbers.1)
  return ids.toArray

end

end Unbounded

open Unbounded (loop loop_eq loop_eq_none walkRound wayRound)

namespace Compaction

variable {drafts : Array Draft} {flags : Array Bool} {a b c : Nat} {n : Nat}

/-- A walk through removable blocks ends: it passes no block twice. -/
theorem loop_walkRound (hsize : flags.size = drafts.size) {fuel : Nat} {path : List Nat}
    (hnodup : path.Nodup) (hpath : ∀ b ∈ path, b < drafts.size)
    (hfuel : drafts.size < path.length + fuel) :
    loop (walkRound drafts flags) (path, a) = Checked.cycleFrom drafts flags fuel path a := by
  induction fuel generalizing path a with
  | zero =>
      have := length_le_of_nodup hnodup hpath
      omega
  | succ fuel ih =>
      rw [loop_eq, walkRound, Checked.cycleFrom]
      refine (Option.bind_assoc _ _ _).trans (Option.bind_congr fun removed hremoved => ?_)
      have hlt : a < drafts.size := hsize ▸ (Array.getElem?_eq_some_iff.mp hremoved).1
      split
      · rfl
      split
      · rfl
      rename_i hnew
      refine (Option.bind_assoc _ _ _).trans (Option.bind_congr fun next _ => ?_)
      cases next with
      | none => rfl
      | some b =>
          exact ih (List.nodup_cons.mpr ⟨hnew, hnodup⟩) (List.forall_mem_cons.mpr ⟨hlt, hpath⟩)
            (by rw [List.length_cons]; omega)

theorem gives_unbounded_removableBlocks (hleads : Leading drafts) :
    Checked.Gives (Unbounded.removableBlocks drafts) (removableBlocks drafts)
      fun flags => flags.size = drafts.size := by
  refine Checked.Gives.foldlM (fun flags hsize start hstart => ?_) Array.size_map
  have hgives := gives_keepCycle hleads hsize (List.mem_range.mp hstart)
  rw [Checked.keepCycle, ← loop_walkRound hsize List.nodup_nil (by simp) (by simp)] at hgives
  exact hgives

theorem checked_forwardOf (h : forwardOf drafts a = some b) :
    Checked.forwardOf drafts a = some (some b) := by
  obtain ⟨d, hd, hforward⟩ := Option.bind_eq_some_iff.mp h
  rw [Checked.forwardOf, hd]
  exact congrArg some hforward

/-- The way along a chain of removed blocks ends where the chain does. -/
theorem Chain.loop_wayRound (h : Chain drafts flags a n c) {fuel : Nat} (hfuel : n < fuel) :
    loop (wayRound drafts flags) a = Checked.destination drafts flags fuel a := by
  induction h generalizing fuel with
  | @stop a hkept =>
      obtain ⟨fuel, rfl⟩ := Nat.exists_eq_add_one.mpr hfuel
      rw [loop_eq, wayRound, Checked.destination]
      refine (Option.bind_assoc _ _ _).trans (Option.bind_congr fun removed hremoved => ?_)
      have hfalse : removed = false := by
        rwa [Array.getD_eq_getD_getElem?, hremoved, Option.getD_some] at hkept
      rw [hfalse]
      rfl
  | @skip a b c n _ hnext _ ih =>
      obtain ⟨fuel, rfl⟩ := Nat.exists_eq_add_one.mpr (Nat.zero_lt_of_lt hfuel)
      rw [loop_eq, wayRound, Checked.destination, checked_forwardOf hnext]
      refine (Option.bind_assoc _ _ _).trans (Option.bind_congr fun removed _ => ?_)
      split
      · exact ih (Nat.lt_of_succ_lt_succ hfuel)
      · rfl

/-- On a circle of removed blocks the way would never end, so a circle has to keep a block. -/
theorem loop_wayRound_of_circles (h : Circles drafts c)
    (hremoved : ∀ a, ReflTransGen (Forwards drafts) c a → flags[a]? = some true) :
    loop (wayRound drafts flags) c = none := by
  refine loop_eq_none (ReflTransGen (Forwards drafts) c) .refl fun a ha => ?_
  obtain ⟨b, hb, -⟩ := TransGen.head'_iff.mp (h.back ha)
  refine ⟨b, ?_, ha.tail hb⟩
  rw [wayRound, hremoved a ha, checked_forwardOf (forwards_iff.mp hb)]
  rfl

theorem unbounded_compactIds (hleads : Leading drafts) :
    Unbounded.compactIds drafts = some (compactIds drafts) := by
  have hid : Unbounded.compactId drafts (removableBlocks drafts) =
      Checked.compactId drafts (removableBlocks drafts) := by
    funext numbers i
    obtain ⟨n, hn, c, hchain⟩ := removableBlocks_chain drafts i
    rw [Unbounded.compactId, Checked.compactId,
      hchain.loop_wayRound (Nat.lt_succ_of_le hn)]
  rw [← (gives_compactIds hleads).eq, Unbounded.compactIds, Checked.compactIds,
    (gives_unbounded_removableBlocks hleads).eq, (gives_removableBlocks hleads).eq]
  simp only [Option.bind_eq_bind, Option.bind_some, hid]

/-!
What the ids say of the drafts. A block is kept if it has an id of its own, and otherwise it has
the id of the block that it leads to.
-/

/-- A draft is kept as a block. -/
def Kept (ids : Array (Bool × BlockId)) (a : BlockId) : Prop :=
  ∃ id, ids[a]? = some (true, id)

/-- A removed block forwards to a block. -/
def Skips (drafts : Array Draft) (ids : Array (Bool × BlockId)) (a b : BlockId) : Prop :=
  (∃ id, ids[a]? = some (false, id)) ∧ Forwards drafts a b

/-- The ids that compaction gives to drafts. Blocks that hold nodes or do more than forward are
kept, kept blocks are numbered in order, and a removed one gets the id of the block to which
removed blocks lead. Of the other blocks those are kept to which the first block that leads to
a circle leads, so they lead to that circle. -/
structure Compacts (drafts : Array Draft) (ids : Array (Bool × BlockId)) : Prop where
  size : ids.size = drafts.size
  keeps : ∀ (a : Nat) (d : Draft), drafts[a]? = some d →
    (d.nodes ≠ [] ∨ ∀ t, d.exits ≠ .goto t) → Kept ids a
  numbered : ∃ k, (ids.toList.filter Prod.fst).map Prod.snd = List.range k
  forwarded : ∀ a id : Nat, ids[a]? = some (false, id) →
    ∃ c, ids[c]? = some (true, id) ∧ TransGen (Skips drafts ids) a c
  circling : ∀ a b : Nat, Forwards drafts a b → Kept ids a →
    ∃ c, ReflTransGen (Forwards drafts) a c ∧ Circles drafts c
  first : ∀ a b : Nat, Forwards drafts a b →
    (Kept ids a ↔ ∃ s c, FirstTo drafts s c ∧ ReflTransGen (Forwards drafts) s a)

theorem compactIds_size (drafts : Array Draft) : (compactIds drafts).size = drafts.size := by
  simp [compactIds]

theorem compactIds_getElem? (ha : a < drafts.size) : (compactIds drafts)[a]? =
    some (!(removableBlocks drafts).getD a false, rename drafts a) := by
  have hlt : a < (compactIds drafts).size := (compactIds_size drafts).symm ▸ ha
  have hget : (compactIds drafts).getD a (false, 0) = (compactIds drafts)[a] := by simp [hlt]
  rw [Array.getElem?_eq_getElem hlt, rename, ← hget, compactIds_getD ha]

theorem compactIds_toList (drafts : Array Draft) : (compactIds drafts).toList =
    (List.range drafts.size).map fun a =>
      (!(removableBlocks drafts).getD a false, rename drafts a) := by
  refine List.ext_getElem? fun a => ?_
  rw [Array.getElem?_toList, List.getElem?_map]
  by_cases ha : a < drafts.size
  · rw [compactIds_getElem? ha, List.getElem?_range ha]
    rfl
  · rw [Array.getElem?_eq_none (by rw [compactIds_size]; omega),
      List.getElem?_eq_none (by rw [List.length_range]; omega)]
    rfl

theorem lt_size_of_getElem? {id : Bool × BlockId} (h : (compactIds drafts)[a]? = some id) :
    a < drafts.size :=
  compactIds_size drafts ▸ (Array.getElem?_eq_some_iff.mp h).1

theorem kept_iff (ha : a < drafts.size) : Kept (compactIds drafts) a ↔ Keeps drafts a := by
  simp [Kept, Keeps, compactIds_getElem? ha]

theorem removed_of_getElem? {id : Nat} (h : (compactIds drafts)[a]? = some (false, id)) :
    (removableBlocks drafts).getD a false = true ∧ rename drafts a = id := by
  simpa [compactIds_getElem? (lt_size_of_getElem? h)] using h

/-- The kept blocks among the first ones have the first ranks in order. -/
theorem map_rank_filter (flags : Array Bool) (n : Nat) :
    ((List.range n).filter fun a => !flags.getD a false).map (rank flags) =
      List.range (rank flags n) := by
  induction n with
  | zero => rfl
  | succ n ih =>
      rw [rank_succ, List.range_succ, List.filter_append, List.map_append, ih]
      cases h : flags.getD n false with
      | true =>
          simp only [List.filter_cons, List.filter_nil, h]
          simp
      | false =>
          simp only [List.filter_cons, List.filter_nil, h]
          simp [List.range_succ]

theorem compactIds_numbered (drafts : Array Draft) :
    ((compactIds drafts).toList.filter Prod.fst).map Prod.snd =
      List.range (rank (removableBlocks drafts) drafts.size) := by
  rw [← map_rank_filter, compactIds_toList, List.filter_map, List.map_map]
  refine List.map_congr_left fun a ha => ?_
  obtain ⟨hlt, hkept⟩ := List.mem_filter.mp ha
  exact rename_of_keeps (List.mem_range.mp hlt) (by simpa [Keeps] using hkept)

/-- A chain of removed blocks stays among the drafts. -/
theorem Chain.lt_size (hleads : Leading drafts) (h : Chain drafts flags a n c)
    (ha : a < drafts.size) : c < drafts.size := by
  induction h with
  | stop => exact ha
  | skip _ hnext _ ih =>
      have hd := goto_of_forwardOf hnext
      exact ih (hleads _ (Array.mem_of_getElem? hd) _ (by simp [Exits.targets]))

theorem compactIds_forwarded (hleads : Leading drafts) {id : Nat}
    (h : (compactIds drafts)[a]? = some (false, id)) :
    ∃ c, (compactIds drafts)[c]? = some (true, id) ∧
      TransGen (Skips drafts (compactIds drafts)) a c := by
  have ha := lt_size_of_getElem? h
  obtain ⟨hremoved, rfl⟩ := removed_of_getElem? h
  obtain ⟨n, hn, c, hchain⟩ := removableBlocks_chain drafts a
  have hc := hchain.lt_size hleads ha
  refine ⟨c, ?_, ?_⟩
  · rw [compactIds_getElem? hc, hchain.kept, rename_of_chain ha hc hn hchain]
    rfl
  · have hskips : ReflTransGen (Skips drafts (compactIds drafts)) a c := by
      refine ReflTransGen.mono (fun x y hstep => ⟨⟨rename drafts x, ?_⟩, hstep.2⟩) _ _ hchain.leads
      rw [compactIds_getElem? hstep.2.lt_size, hstep.1]
      rfl
    refine (reflTransGen_iff_eq_or_transGen.mp hskips).resolve_left ?_
    rintro rfl
    exact absurd (hremoved.symm.trans hchain.kept) (by simp)

theorem compactIds_first (hb : Forwards drafts a b) : Kept (compactIds drafts) a ↔
    ∃ s c, FirstTo drafts s c ∧ ReflTransGen (Forwards drafts) s a := by
  rw [kept_iff hb.lt_size, keeps_iff_firstTo hb]

/-- Compaction comes to an end and does what it has to do, for all drafts whose edges stay among
them. -/
theorem compactIds_forwards (hleads : Leading drafts) :
    Unbounded.compactIds drafts = some (compactIds drafts) ∧
      Compacts drafts (compactIds drafts) := by
  refine ⟨unbounded_compactIds hleads, ?_⟩
  constructor
  case size => exact compactIds_size drafts
  case keeps =>
    intro a d hd hholds
    rw [kept_iff (Array.getElem?_eq_some_iff.mp hd).1]
    by_contra hremoved
    obtain ⟨t, hforwards⟩ := goto_of_not_keeps hremoved
    cases hd.symm.trans hforwards
    simp at hholds
  case numbered => exact ⟨_, compactIds_numbered drafts⟩
  case forwarded => exact fun _ _ => compactIds_forwarded hleads
  case circling =>
    intro a b hb hkept
    obtain ⟨s, c, hfirst, hs⟩ := (compactIds_first hb).mp hkept
    exact ⟨c, hfirst.circles.leads_of_leads hfirst.leads hs, hfirst.circles⟩
  case first => exact fun _ _ => compactIds_first

/-- Code that forwards to the exit, and a circle of the blocks 7 and 8. Block 6 leads to the
circle and is scanned before it, block 9 is scanned after it. -/
def circlingDrafts : Array Draft :=
  #[⟨[], .special .entry (some 3)⟩, ⟨[], .special .exit none⟩,
    ⟨[], .special .exceptionalExit none⟩, ⟨[0], .goto 4⟩, ⟨[], .goto 5⟩, ⟨[], .goto 1⟩,
    ⟨[], .goto 7⟩, ⟨[], .goto 8⟩, ⟨[], .goto 7⟩, ⟨[], .goto 8⟩]

theorem circlingDrafts_forwards :
    Leading circlingDrafts ∧
      compactIds circlingDrafts = #[(true, 0), (true, 1), (true, 2), (true, 3), (false, 1),
        (false, 1), (true, 4), (true, 5), (true, 6), (false, 6)] ∧
      Unbounded.compactIds circlingDrafts = some (compactIds circlingDrafts) ∧
      Compacts circlingDrafts (compactIds circlingDrafts) :=
  ⟨by decide, by decide +kernel, compactIds_forwards (by decide)⟩

end Compaction

end FlowTyping
