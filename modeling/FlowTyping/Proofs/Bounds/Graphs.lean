import FlowTyping.Proofs.Bounds.Access
import FlowTyping.Proofs.Graph.Postorder

/-!
Graphs made from parts with checked accesses, whatever the parts contain, and the walks and
ranks of the graphs that come out. A table of flags is given by the ids that are flagged.
-/

namespace FlowTyping

/-- The refusal of the first node that is not among those listed. -/
def GraphParts.refuseOrphan (p : GraphParts) (listed : List NodeId) : Except GraphError Unit :=
  match (List.range p.nodes.size).find? fun id => id ∉ listed with
  | some id => .error (.orphanNode id)
  | none => .ok ()

namespace Checked

def flagged (size : Nat) (flags : List Nat) (id : Nat) : Option Bool :=
  if id < size then some (id ∈ flags) else none

def flag (size : Nat) (flags : List Nat) (id : Nat) : Option (List Nat) :=
  if id < size then some (id :: flags) else none

theorem flagged_eq {size id : Nat} (h : id < size) (flags : List Nat) :
    flagged size flags id = some (decide (id ∈ flags)) := if_pos h

theorem flag_eq {size id : Nat} (h : id < size) (flags : List Nat) :
    flag size flags id = some (id :: flags) := if_pos h

/-- A depth-first walk that flags the vertices seen. -/
def explore (next : Nat → Option (List Nat)) (size : Nat) :
    Nat → Digraph.Walk → Nat → Option Digraph.Walk
  | 0, w, _ => some w
  | fuel + 1, w, v => do
      let known ← flagged size w.seen v
      if known then return w
      else
        let seen ← flag size w.seen v
        let targets ← next v
        let after ← targets.foldlM
          (fun w u => do
            let known ← flagged size w.seen u
            if u ∈ w.finished then return w
            else if known then return { w with closing := (v, u) :: w.closing }
            else explore next size fuel w u)
          { w with seen := seen }
        return { after with finished := v :: after.finished }

section Parts

variable (p : GraphParts)

/-- Notes a block as a predecessor of one of its targets, once. -/
def addPredecessor (source : BlockId) (table : Array (List BlockId)) (target : BlockId) :
    Option (Array (List BlockId)) := do
  let known ← table[target]?
  if source ∈ known then return table
  else write table target (known ++ [source])

def predecessorTable : Option (Array (List BlockId)) :=
  p.blocks.toList.foldlM
    (fun table block => block.successors.foldlM (addPredecessor block.id) table)
    (Array.replicate p.blocks.size [])

def checkListing (listed : List NodeId) (block : Block) : Checked GraphError (List NodeId) :=
  block.nodes.foldlM
    (fun listed id =>
      match p.nodes[id]? with
      | none => throw (.orphanNode id)
      | some node => do
          ofExcept (GraphParts.refuseIf (node.block ≠ block.id)
            (.nodeBlockMismatch id node.block block.id))
          access (flag p.nodes.size listed id))
    listed

/-- The nodes of a block noted as listed. -/
def noteNodes (listed : List NodeId) (block : Block) : List NodeId :=
  block.nodes.foldl (fun ids id => id :: ids) listed

/-- Whether the only predecessor of a block ends with its condition. -/
def endsWith (predecessors : Array (List BlockId)) (block : Block) (condition : NodeId) :
    Option Bool := do
  match ← predecessors[block.id]? with
  | [only] => do
      let source ← p.blocks[only]?
      return source.lastNode? = some condition
  | _ => return false

def checkBlock (predecessors : Array (List BlockId)) (block : Block) :
    Checked GraphError Unit :=
  match block.kind with
  | .conditional condition _ _ => do
      ofExcept (GraphParts.refuseIf (!block.nodes.isEmpty) (.nonEmptyBlock block.id "conditional"))
      let ends ← access (endsWith p predecessors block condition)
      ofExcept (GraphParts.refuseIf (!ends) (.conditionNotInPredecessor block.id condition))
  | _ => ofExcept (p.checkBlock predecessors block)

def checkStructure (predecessors : Array (List BlockId)) : Checked GraphError Unit := do
  let listed ← p.blocks.toList.foldlM
    (fun listed block => do
      let listed ← checkListing p listed block
      checkBlock p predecessors block
      return listed)
    []
  ofExcept (p.refuseOrphan listed)

def successors (id : BlockId) : Option (List BlockId) := do
  let block ← p.blocks[id]?
  return block.successors

def entryWalk : Option Digraph.Walk :=
  explore (successors p) p.blocks.size (p.blocks.size + 1) .start p.entry

def toGraph : Checked GraphError FlowGraph := do
  ofExcept p.checkBlocks
  ofExcept p.checkDesignated
  ofExcept p.checkNodes
  let predecessors ← access (predecessorTable p)
  checkStructure p predecessors
  let walk ← access (entryWalk p)
  return {
    p with
    predecessors
    unreachable := (List.range p.blocks.size).filter fun id => id ∉ walk.finished }

end Parts

/-- The places of blocks in reverse postorder, written one after the other. -/
def ranks (g : FlowGraph) : Option (Array Nat) := do
  let walk ← entryWalk g.toGraphParts
  walk.finished.zipIdx.foldlM (fun ranks p => write ranks p.1 p.2)
    (Array.replicate g.size walk.finished.length)

theorem gives_explore {next : Nat → Option (List Nat)} {succ : Nat → List Nat} {size : Nat}
    (hnext : ∀ v < size, Gives (next v) (succ v) fun l => ∀ u ∈ l, u < size) (fuel : Nat)
    (w : Digraph.Walk) {v : Nat} (hv : v < size) :
    Gives (explore next size fuel w v) (Digraph.visit succ fuel w v) fun _ => True := by
  induction fuel generalizing w v with
  | zero => exact .pure trivial
  | succ fuel ih =>
      unfold explore Digraph.visit
      rw [flagged_eq hv, flag_eq hv]
      by_cases hseen : v ∈ w.seen
      · rw [if_pos hseen]
        simp only [hseen, decide_true, Option.bind_eq_bind, Option.bind_some, if_true]
        exact .pure trivial
      · rw [if_neg hseen]
        simp only [hseen, decide_false, Option.bind_eq_bind, Option.bind_some]
        apply (hnext v hv).bind
        intro htargets
        refine (Gives.foldlM (Q := fun _ => True) (fun w _ u hu => ?_) trivial).bind
          fun _ => .pure trivial
        rw [flagged_eq (htargets u hu)]
        simp only [Option.bind_some, decide_eq_true_eq]
        split
        · exact .pure trivial
        · split
          · exact .pure trivial
          · exact ih w (htargets u hu)

/-- Checks that one after the other note something in a table. -/
theorem Delivers.noting {ε α β : Type} {f : β → α → Checked ε β} {g : α → Except ε Unit}
    {step : β → α → β} {l : List α} {b : β}
    (h : ∀ b, ∀ a ∈ l, Delivers (f b a) ((g a).map fun _ => step b a) fun _ => True) :
    Delivers (l.foldlM f b) ((l.forM g).map fun _ => l.foldl step b) fun _ => True := by
  induction l generalizing b with
  | nil => exact .ok trivial
  | cons a rest ih =>
      rw [List.foldlM_cons]
      have hall := (h b a List.mem_cons_self).bind (Q := fun _ => True) fun b _ =>
        ih (b := b) fun b c hc => h b c (List.mem_cons_of_mem a hc)
      have hsame : (((g a).map fun _ => step b a) >>= fun b =>
          (rest.forM g).map fun _ => rest.foldl step b) =
            ((a :: rest).forM g).map fun _ => (a :: rest).foldl step b := by
        change _ = Except.map _ (g a >>= fun _ => rest.forM g)
        cases g a <;> rfl
      exact hsame ▸ hall

/-- A table with a cell for each of the first naturals. -/
def cells {α : Type} (n : Nat) (f : Nat → α) : Array α := (Array.range n).map f

section Cells

variable {α : Type} {n i : Nat} {f g : Nat → α}

theorem getElem?_cells (hi : i < n) : (cells n f)[i]? = some (f i) := by
  simp [cells, hi]

theorem cells_congr (h : ∀ i < n, f i = g i) : cells n f = cells n g := by
  apply Array.ext'
  simp only [cells, Array.toList_map, Array.toList_range]
  exact List.map_congr_left fun i hi => h i (List.mem_range.mp hi)

theorem write_cells (hi : i < n) (a : α) :
    write (cells n f) i a = some (cells n (Function.update f i a)) := by
  rw [write_eq (by simpa [cells] using hi)]
  congr 1
  apply Array.ext (by simp [cells])
  intro j hj _
  rw [Array.getElem_setIfInBounds (by simpa using hj)]
  by_cases hij : i = j
  · subst hij
    simp [cells]
  · simp [cells, hij, Function.update_of_ne (Ne.symm hij)]

end Cells

/-- The blocks of a list that have an edge to a target. -/
def sources (blocks : List Block) (target : BlockId) : List BlockId :=
  blocks.filterMap fun block => if target ∈ block.successors then some block.id else none

theorem sources_append (blocks : List Block) (block : Block) (target : BlockId) :
    sources (blocks ++ [block]) target =
      sources blocks target ++ if target ∈ block.successors then [block.id] else [] := by
  rw [sources, List.filterMap_append]
  congr 1
  by_cases h : target ∈ block.successors <;> simp [h]

theorem addPredecessors_eq {n source : Nat} {f : Nat → List BlockId} (hf : ∀ t, source ∉ f t)
    {targets : List BlockId} (htargets : ∀ t ∈ targets, t < n) (before : List BlockId) :
    targets.foldlM (addPredecessor source)
        (cells n fun t => f t ++ if t ∈ before then [source] else []) =
      some (cells n fun t => f t ++ if t ∈ before ++ targets then [source] else []) := by
  induction targets generalizing before with
  | nil => simp
  | cons target rest ih =>
      rw [List.forall_mem_cons] at htargets
      have hnext : addPredecessor source
          (cells n fun t => f t ++ if t ∈ before then [source] else []) target =
            some (cells n fun t => f t ++ if t ∈ before ++ [target] then [source] else []) := by
        unfold addPredecessor
        rw [getElem?_cells htargets.1]
        by_cases hmem : target ∈ before
        · simp only [Option.bind_eq_bind, Option.bind_some, hmem, if_true, List.mem_append,
            List.mem_singleton, or_true]
          refine congrArg some (cells_congr fun t _ => ?_)
          by_cases ht : t = target
          · subst ht
            simp [hmem]
          · simp [ht]
        · simp only [Option.bind_eq_bind, Option.bind_some, hmem, if_false, List.append_nil, hf]
          rw [write_cells htargets.1]
          refine congrArg some (cells_congr fun t _ => ?_)
          by_cases ht : t = target
          · subst ht
            simp
          · simp [ht]
      rw [List.foldlM_cons, hnext]
      change rest.foldlM _ _ = _
      rw [ih htargets.2, List.append_assoc]
      rfl

theorem predecessors_eq {n : Nat} {rest : List Block}
    (htargets : ∀ b ∈ rest, ∀ t ∈ b.successors, t < n) (done : List Block)
    (hids : ((done ++ rest).map Block.id).Nodup) :
    rest.foldlM (fun table block => block.successors.foldlM (addPredecessor block.id) table)
      (cells n (sources done)) = some (cells n (sources (done ++ rest))) := by
  induction rest generalizing done with
  | nil => simp
  | cons block rest ih =>
      rw [List.forall_mem_cons] at htargets
      have hnew : ∀ t, block.id ∉ sources done t := by
        intro t hmem
        obtain ⟨b, hb, heq⟩ := List.mem_filterMap.mp hmem
        rw [List.map_append, List.nodup_append] at hids
        have hid : b.id = block.id := by
          split at heq
          · exact Option.some.inj heq
          · cases heq
        exact hids.2.2 b.id (List.mem_map_of_mem hb) block.id (by simp) hid
      have hblock := addPredecessors_eq hnew htargets.1 []
      simp only [List.not_mem_nil, if_false, List.append_nil, List.nil_append] at hblock
      rw [List.foldlM_cons]
      change (block.successors.foldlM (addPredecessor block.id) (cells n (sources done)) >>= _) = _
      rw [hblock]
      have hsame : (cells n fun t => sources done t ++ if t ∈ block.successors then [block.id]
          else []) = cells n (sources (done ++ [block])) :=
        cells_congr fun t _ => (sources_append done block t).symm
      change rest.foldlM _ (cells n _) = _
      rw [hsame, ih htargets.2 (done ++ [block]) (by simpa using hids), List.append_assoc]
      rfl

end Checked

namespace GraphParts

open Checked

variable {p : GraphParts}

theorem gives_predecessorTable (hblocks : p.checkBlocks = .ok ()) :
    Gives (Checked.predecessorTable p) p.predecessorTable fun table =>
      table.size = p.blocks.size ∧ ∀ {b i : Nat}, b ∈ table.getD i [] → b < p.blocks.size := by
  have hplaced {i : Nat} {b : Block} (hb : p.blocks[i]? = some b) := checkBlocks_ok hblocks hb
  have hids : p.blocks.toList.map Block.id = List.range p.blocks.size := by
    apply List.ext_getElem (by simp)
    intro i hi _
    have hlt : i < p.blocks.size := by simpa using hi
    simpa using (hplaced (Array.getElem?_eq_getElem hlt)).1
  have htargets : ∀ b ∈ p.blocks.toList, ∀ t ∈ b.successors, t < p.blocks.size := by
    intro b hb
    obtain ⟨i, hi⟩ := Array.mem_iff_getElem?.mp (Array.mem_toList_iff.mp hb)
    exact (hplaced hi).2
  refine ⟨?_, by simp [predecessorTable], fun {b i} hb => ?_⟩
  · have hall := predecessors_eq htargets [] (by simpa [hids] using List.nodup_range)
    have hempty : Array.replicate p.blocks.size [] = cells p.blocks.size (sources []) := by
      apply Array.ext (by simp [cells])
      intro i _ _
      simp [cells, sources]
    rw [Checked.predecessorTable, hempty, hall]
    rfl
  · obtain ⟨-, hedge⟩ := (mem_predecessorTable fun hb => (hplaced hb).1).mp hb
    cases hsource : p.blocks[b]? with
    | none => simp [successors, hsource] at hedge
    | some _ => exact (Array.getElem?_eq_some_iff.mp hsource).1

theorem delivers_checkListing (listed : List NodeId) (block : Block) :
    Delivers (Checked.checkListing p listed block)
      ((p.checkListing block).map fun _ => noteNodes listed block)
      fun _ => True := by
  apply Delivers.noting
  intro listed id _
  cases hnode : p.nodes[id]? with
  | none => exact .error _
  | some node =>
      have hid : id < p.nodes.size := (Array.getElem?_eq_some_iff.mp hnode).1
      dsimp only
      rw [flag_eq hid]
      cases refuseIf (node.block ≠ block.id) (.nodeBlockMismatch id node.block block.id) with
      | error e => exact .error e
      | ok _ => exact .ok trivial

theorem mem_noteNodes (blocks : List Block) (listed : List NodeId) (id : NodeId) :
    id ∈ blocks.foldl noteNodes listed ↔ id ∈ listed ∨ id ∈ blocks.flatMap Block.nodes := by
  induction blocks generalizing listed with
  | nil => simp
  | cons block rest ih =>
      rw [List.foldl_cons, ih, noteNodes, List.foldl_flip_cons_eq_append', List.flatMap_cons]
      simp only [List.mem_append, List.mem_reverse]
      tauto

theorem delivers_checkBlock {predecessors : Array (List BlockId)}
    (hsize : predecessors.size = p.blocks.size)
    (hbelow : ∀ {b i : Nat}, b ∈ predecessors.getD i [] → b < p.blocks.size) {block : Block}
    (hblock : block.id < p.blocks.size) :
    Delivers (Checked.checkBlock p predecessors block) (p.checkBlock predecessors block)
      fun _ => True := by
  unfold Checked.checkBlock
  split
  · rename_i condition _ _ hkind
    rw [checkBlock, hkind]
    apply (Delivers.ofExcept (P := fun _ => True) fun _ _ => trivial).bind
    rintro _ -
    have hends : Gives (endsWith p predecessors block condition)
        (match predecessors.getD block.id [] with
          | [only] => decide ((p.blocks[only]?.bind Block.lastNode?) = some condition)
          | _ => false) fun _ => True := by
      have hcell : predecessors[block.id]? = some (predecessors.getD block.id []) := by
        simp [hsize, hblock]
      unfold endsWith
      rw [hcell]
      dsimp only [Option.bind_eq_bind, Option.bind_some]
      split
      · rename_i only honly
        have hlt : only < p.blocks.size := hbelow (i := block.id) (by rw [honly]; simp)
        rw [Array.getElem?_eq_getElem hlt]
        exact .pure trivial
      · exact .pure trivial
    apply hends.access
    intro _
    exact .ofExcept fun _ _ => trivial
  · exact .ofExcept fun _ _ => trivial

theorem delivers_checkStructure {predecessors : Array (List BlockId)}
    (hsize : predecessors.size = p.blocks.size)
    (hbelow : ∀ {b i : Nat}, b ∈ predecessors.getD i [] → b < p.blocks.size)
    (hplaced : ∀ block ∈ p.blocks.toList, block.id < p.blocks.size) :
    Delivers (Checked.checkStructure p predecessors) (p.checkStructure predecessors)
      fun _ => True := by
  have hblocks : Delivers
      (p.blocks.toList.foldlM
        (fun listed block => do
          let listed ← Checked.checkListing p listed block
          Checked.checkBlock p predecessors block
          return listed) [])
      ((p.blocks.toList.forM fun block => do
          p.checkListing block
          p.checkBlock predecessors block).map fun _ => p.blocks.toList.foldl noteNodes [])
      fun _ => True := by
    apply Delivers.noting
    intro listed block hblock
    have hlisting := delivers_checkListing (p := p) listed block
    have hrest := hlisting.bind (Q := fun _ => True) fun ids _ =>
      (delivers_checkBlock hsize hbelow (hplaced block hblock)).bind
        (f := fun _ => pure ids) (g := fun _ => .ok ids) fun _ _ => .ok trivial
    have hsame : (((p.checkListing block).map fun _ => noteNodes listed block) >>= fun ids =>
        p.checkBlock predecessors block >>= fun _ => .ok ids) =
          (p.checkListing block >>= fun _ => p.checkBlock predecessors block).map
            fun _ => noteNodes listed block := by
      cases p.checkListing block with
      | error e => rfl
      | ok _ =>
          change (p.checkBlock predecessors block >>= fun _ => _) = (p.checkBlock _ _).map _
          cases p.checkBlock predecessors block <;> rfl
    exact hsame ▸ hrest
  have hall := hblocks.bind (Q := fun _ => True)
    (f := fun listed => ofExcept (p.refuseOrphan listed)) (g := p.refuseOrphan)
    fun listed _ => .ofExcept fun _ _ => trivial
  have hsame : p.refuseOrphan (p.blocks.toList.foldl noteNodes []) =
      p.refuseOrphan (p.blocks.toList.flatMap Block.nodes) := by
    simp only [refuseOrphan, mem_noteNodes, List.not_mem_nil, false_or]
  refine ⟨hall.eq.trans ?_, fun _ _ => trivial⟩
  unfold checkStructure
  cases p.blocks.toList.forM fun block => do
      p.checkListing block
      p.checkBlock predecessors block with
  | error e => rfl
  | ok _ => exact congrArg some hsame

theorem gives_entryWalk
    (htargets : ∀ {i : Nat} {b : Block}, p.blocks[i]? = some b →
      ∀ t ∈ b.successors, t < p.blocks.size) (hentry : p.entry < p.blocks.size) :
    Gives (Checked.entryWalk p) p.entryWalk fun _ => True := by
  refine gives_explore (fun v hv => ?_) _ _ hentry
  have hblock := Array.getElem?_eq_getElem hv
  have hsucc : p.successors v = p.blocks[v].successors := by
    rw [successors, hblock]
    rfl
  have hchecked : Checked.successors p v = some p.blocks[v].successors := by
    rw [Checked.successors, hblock]
    rfl
  rw [hchecked, hsucc]
  exact .pure (htargets hblock)

/-- Whatever the parts contain, no check of them accesses a table out of range. -/
theorem delivers_toGraph (p : GraphParts) :
    Delivers (Checked.toGraph p) p.toGraph fun _ => True := by
  apply (Delivers.ofExcept (P := fun _ => p.checkBlocks = .ok ()) fun _ h => h).bind
  intro _ hblocks
  apply (Delivers.ofExcept (P := fun _ => p.checkDesignated = .ok ()) fun _ h => h).bind
  intro _ hdesignated
  apply (Delivers.ofExcept (P := fun _ => True) fun _ _ => trivial).bind
  rintro _ -
  have hentry : p.entry < p.blocks.size := by
    simpa using refuseIf_ok.mp (forM_ok.mp hdesignated p.entry (by simp))
  have hplaced : ∀ block ∈ p.blocks.toList, block.id < p.blocks.size := by
    intro block hblock
    obtain ⟨i, hi⟩ := Array.mem_iff_getElem?.mp (Array.mem_toList_iff.mp hblock)
    rw [(checkBlocks_ok hblocks hi).1]
    exact (Array.getElem?_eq_some_iff.mp hi).1
  apply (gives_predecessorTable hblocks).access
  rintro ⟨hsize, hbelow⟩
  apply (delivers_checkStructure hsize hbelow hplaced).bind
  rintro _ -
  apply (gives_entryWalk (fun hb => (checkBlocks_ok hblocks hb).2) hentry).access
  intro _
  exact .ok trivial

theorem checkNodes_operands (h : p.checkNodes = .ok ()) {i : Nat} {n : Node}
    (hn : p.nodes[i]? = some n) : ∀ o ∈ n.kind.operands, o < p.nodes.size := by
  have hmem : (n, i) ∈ p.nodes.toList.zipIdx := by
    rw [List.mk_mem_zipIdx_iff_getElem?, Array.getElem?_toList]
    exact hn
  obtain ⟨_, -, hoperands⟩ := bind_ok.mp (forM_ok.mp h _ hmem)
  dsimp only at hoperands
  split at hoperands
  · cases hoperands
  · rename_i hnone
    intro o ho
    simpa using List.find?_eq_none.mp hnone o ho

end GraphParts

namespace Checked

/-- The places of a list written one after the other into a table. -/
theorem writePlaces_eq {n : Nat} {order : List Nat} (horder : ∀ b ∈ order, b < n)
    (hnodup : order.Nodup) (f : Nat → Nat) (k : Nat) :
    (order.zipIdx k).foldlM (fun ranks p => write ranks p.1 p.2) (cells n f) =
      some (cells n fun b => if b ∈ order then k + order.idxOf b else f b) := by
  induction order generalizing f k with
  | nil => simp
  | cons a rest ih =>
      rw [List.forall_mem_cons] at horder
      rw [List.nodup_cons] at hnodup
      rw [List.zipIdx_cons, List.foldlM_cons]
      change write (cells n f) a k >>= _ = _
      rw [write_cells horder.1]
      change (rest.zipIdx (k + 1)).foldlM _ (cells n _) = _
      rw [ih horder.2 hnodup.2]
      refine congrArg some (cells_congr fun b _ => ?_)
      by_cases hb : b = a
      · subst hb
        simp [hnodup.1]
      · by_cases hmem : b ∈ rest
        · simp only [hmem, if_true, List.mem_cons, or_true, List.idxOf_cons_ne _ (Ne.symm hb)]
          omega
        · simp [hmem, hb]

end Checked

namespace FlowGraph

open Checked

variable {g : FlowGraph}

/-- Every id in a graph is that of one of its blocks or nodes. -/
structure Closed (g : FlowGraph) : Prop extends g.Valid where
  operands : ∀ {i : Nat} {n : Node}, g.node? i = some n → ∀ o ∈ n.kind.operands, o < g.nodeCount
  home : ∀ {i : Nat} {n : Node}, g.node? i = some n → n.block < g.size
  table : g.predecessors.size = g.size

theorem closed_of_toGraph {p : GraphParts} (h : p.toGraph = .ok g) : g.Closed := by
  have hvalid := GraphParts.toGraph_valid h
  have hhome {i : Nat} {n : Node} (hn : g.node? i = some n) : n.block < g.size := by
    obtain ⟨a, block, hblock, hid⟩ := GraphParts.toGraph_homed h hn
    obtain ⟨n', hn', rfl⟩ := hvalid.listed hblock i hid
    cases hn.symm.trans hn'
    exact (Array.getElem?_eq_some_iff.mp hblock).1
  obtain ⟨_, -, h⟩ := bind_ok.mp h
  obtain ⟨_, -, h⟩ := bind_ok.mp h
  obtain ⟨_, hnodes, h⟩ := bind_ok.mp h
  obtain ⟨_, -, h⟩ := bind_ok.mp h
  cases h
  exact {
    hvalid with
    operands := GraphParts.checkNodes_operands hnodes
    home := hhome
    table := by simp [GraphParts.predecessorTable, size] }

theorem Valid.gives_entryWalk (hg : g.Valid) :
    Gives (Checked.entryWalk g.toGraphParts) g.entryWalk fun _ => True :=
  GraphParts.gives_entryWalk (fun hb => (hg.block hb).2) hg.entry

theorem Valid.gives_ranks (hg : g.Valid) :
    Gives (Checked.ranks g) g.ranks fun ranks => ranks.size = g.size := by
  refine ⟨?_, by simp [FlowGraph.ranks]⟩
  have hbelow : ∀ b ∈ g.reversePostorder, b < g.size :=
    fun b hb => hg.lt_of_reach (hg.mem_reversePostorder.mp hb)
  have hstart : Array.replicate g.size g.reversePostorder.length =
      cells g.size fun _ => g.reversePostorder.length := by
    apply Array.ext (by simp [cells])
    intro i _ _
    simp [cells]
  unfold Checked.ranks
  rw [hg.gives_entryWalk.eq]
  change g.reversePostorder.zipIdx.foldlM (fun ranks p => write ranks p.1 p.2)
    (Array.replicate g.size g.reversePostorder.length) = _
  rw [hstart, writePlaces_eq hbelow hg.nodup_reversePostorder]
  refine congrArg some (cells_congr fun b _ => ?_)
  split
  · exact Nat.zero_add _
  · rename_i hmem
    exact (List.idxOf_eq_length hmem).symm

end FlowGraph

end FlowTyping
