import FlowTyping.Proofs.Bounds.Solver
import FlowTyping.Proofs.Bounds.Transfer
import FlowTyping.Proofs.Flow.Keys

/-!
The analysis of a unit with checked accesses: the table of consumers, the transfer of blocks, and
the passes over blocks that nothing reaches.
-/

namespace FlowTyping

namespace Checked

/-- Notes a user of an operand of another block among those that read it, once. -/
def addReader (g : FlowGraph) (user : Node) (readers : Array (List BlockId)) (operand : NodeId) :
    Option (Array (List BlockId)) := do
  let known ← readers[operand]?
  let source ← g.nodes[operand]?
  if source.block ≠ user.block ∧ user.block ∉ known then
    write readers operand (known ++ [user.block])
  else return readers

def consumers (g : FlowGraph) : Option (Array (List BlockId)) :=
  g.nodes.toList.foldlM
    (fun readers user => user.kind.operands.foldlM (addReader g user) readers)
    (Array.replicate g.nodeCount [])

def new (checker : Checker) (graph : FlowGraph) (initial : Store) : Option UnitAnalysis := do
  let consumers ← consumers graph
  return { UnitAnalysis.new checker graph initial with consumers }

variable (u : UnitAnalysis)

def transferBlock (values : NodeValues) (id : BlockId) (input : TransferResult) :
    Checked AnalysisError (BlockTransfer TransferResult × NodeValues) := do
  let h := u.checker.hierarchy
  let block ← access u.graph.blocks[id]?
  match block.kind with
  | .conditional _ thenSuccessor elseSuccessor =>
      let edges := [(thenSuccessor, .regular input.thenStore),
        (elseSuccessor, .regular input.elseStore)]
      return (⟨input, edges, []⟩, values)
  | .special _ successor =>
      let store ← access (collapse h input)
      return (⟨.regular store, successor.toList.map (·, .regular store), []⟩, values)
  | .regular successor =>
      match ← access (runBlock u block values input) with
      | (_, some e) => throw e
      | (run, none) =>
          return (⟨run.current, [(successor, run.current)], run.revisit⟩, run.values)
  | .exceptional successor handlers =>
      let before ← access (collapse h input)
      match ← access (runBlock u block values input) with
      | (_, some e) => throw e
      | (run, none) =>
          let edges := successor.toList.map (·, run.current) ++
            handlers.map fun handler => (handler.2, .regular before)
          return (⟨run.current, edges, run.revisit⟩, run.values)

def dataflow : CheckedAnalysis TransferResult NodeValues where
  join := joinResults u.checker.hierarchy
  transfer := transferBlock u

def detachedPass : List BlockId → NodeValues →
    Checked AnalysisError (NodeValues × List (BlockId × AnalysisError))
  | [], values => return (values, [])
  | id :: rest, values => do
      let block ← access u.graph.blocks[id]?
      match ← access (runBlock u block values (.regular u.initial)) with
      | (run, none) => detachedPass rest run.values
      | (run, some (.missingOperand operand node at_)) => do
          let (values, waiting) ← detachedPass rest run.values
          return (values, (id, .missingOperand operand node at_) :: waiting)
      | (_, some e) => throw e

def evaluateDetached (pending : List BlockId) (values : NodeValues) :
    Checked AnalysisError NodeValues := do
  match ← detachedPass u pending values with
  | (values, []) => return values
  | (values, first :: others) =>
      if others.length + 1 < pending.length then
        evaluateDetached (first.1 :: others.map Prod.fst) values
      else throw first.2
  termination_by pending.length
  decreasing_by simpa

end Checked

namespace Digraph

variable {α : Type} [DecidableEq α]

theorem distinct_concat (l : List α) (a : α) :
    distinct (l ++ [a]) = if a ∈ l then distinct l else distinct l ++ [a] := by
  induction l with
  | nil => rfl
  | cons b rest ih =>
      rw [List.cons_append, distinct, ih, distinct]
      by_cases hmem : a ∈ rest
      · rw [if_pos hmem, if_pos (List.mem_cons_of_mem b hmem)]
      · by_cases hab : a = b
        · subst hab
          simp [hmem]
        · simp [hmem, hab]

end Digraph

namespace Checked

variable {g : FlowGraph}

/-- The user of a node stands in another block. -/
abbrev Away (g : FlowGraph) (user : Node) (id : NodeId) : Prop :=
  (g.node? id).map Node.block ≠ some user.block

/-- The blocks of some users other than its own that read a node. -/
def readersAmong (g : FlowGraph) (users : List Node) (id : NodeId) : List BlockId :=
  users.filterMap fun user =>
    if id ∈ user.kind.operands && (g.node? id).map Node.block ≠ some user.block then
      some user.block
    else none

theorem readersAmong_concat (users : List Node) (user : Node) (id : NodeId) :
    readersAmong g (users ++ [user]) id = readersAmong g users id ++
      if id ∈ user.kind.operands ∧ Away g user id then [user.block] else [] := by
  rw [readersAmong, List.filterMap_append]
  congr 1
  simp only [List.filterMap_cons, List.filterMap_nil, Bool.and_eq_true, decide_eq_true_eq]
  by_cases h : id ∈ user.kind.operands ∧ Away g user id
  · simp only [if_pos h]
  · simp only [if_neg h]

theorem addReader_eq (user : Node) (R : NodeId → List BlockId) (before : List NodeId)
    {operand : NodeId} (hoperand : operand < g.nodeCount) :
    addReader g user
        (cells g.nodeCount fun id =>
          Digraph.distinct (R id ++ if id ∈ before ∧ Away g user id then [user.block] else []))
        operand =
      some (cells g.nodeCount fun id => Digraph.distinct
        (R id ++ if id ∈ before ++ [operand] ∧ Away g user id then [user.block] else [])) := by
  obtain ⟨source, hsource⟩ : ∃ source, g.node? operand = some source :=
    ⟨_, Array.getElem?_eq_getElem hoperand⟩
  have hchecked : g.nodes[operand]? = some source := hsource
  have haway : Away g user operand ↔ source.block ≠ user.block := by
    rw [Away, hsource]
    simp
  have hother : ∀ id, id ≠ operand → (id ∈ before ++ [operand] ↔ id ∈ before) := by
    intro id hid
    simp [hid]
  unfold addReader
  rw [getElem?_cells hoperand, hchecked]
  dsimp only [Option.bind_eq_bind, Option.bind_some]
  generalize hknown : Digraph.distinct (R operand ++
    if operand ∈ before ∧ Away g user operand then [user.block] else []) = known
  split
  · rename_i hnew
    rw [← haway, ← hknown, Digraph.mem_distinct, List.mem_append, not_or] at hnew
    obtain ⟨haway, hfirst, hrest⟩ := hnew
    have hbefore : operand ∉ before := by
      intro hmem
      exact hrest (by simp [hmem, haway])
    rw [write_cells hoperand]
    refine congrArg some (cells_congr fun id _ => ?_)
    by_cases hid : id = operand
    · subst hid
      simp [← hknown, hbefore, haway, Digraph.distinct_concat, hfirst]
    · simp only [Function.update_of_ne hid, hother id hid]
  · rename_i hnew
    rw [← haway, ← hknown] at hnew
    refine congrArg some (cells_congr fun id _ => ?_)
    by_cases hid : id = operand
    · subst hid
      by_cases haway : Away g user id
      · have hknown : user.block ∈ R id ++ if id ∈ before ∧ Away g user id then [user.block]
            else [] := by
          rw [← Digraph.mem_distinct]
          by_contra hmem
          exact hnew ⟨haway, hmem⟩
        by_cases hbefore : id ∈ before
        · simp [hbefore]
        · simp only [hbefore, false_and, if_false, List.append_nil] at hknown
          simp [hbefore, haway, Digraph.distinct_concat, hknown]
      · simp only [haway, and_false]
    · simp only [hother id hid]

theorem addReaders_eq (user : Node) (R : NodeId → List BlockId) {operands : List NodeId}
    (hoperands : ∀ id ∈ operands, id < g.nodeCount) (before : List NodeId) :
    operands.foldlM (addReader g user)
        (cells g.nodeCount fun id =>
          Digraph.distinct (R id ++ if id ∈ before ∧ Away g user id then [user.block] else [])) =
      some (cells g.nodeCount fun id => Digraph.distinct
        (R id ++ if id ∈ before ++ operands ∧ Away g user id then [user.block] else [])) := by
  induction operands generalizing before with
  | nil => simp
  | cons operand rest ih =>
      rw [List.forall_mem_cons] at hoperands
      rw [List.foldlM_cons, addReader_eq user R before hoperands.1]
      change rest.foldlM _ _ = _
      rw [ih hoperands.2, List.append_assoc]
      rfl

theorem consumers_eq {rest : List Node}
    (hoperands : ∀ user ∈ rest, ∀ id ∈ user.kind.operands, id < g.nodeCount)
    (done : List Node) :
    rest.foldlM (fun readers user => user.kind.operands.foldlM (addReader g user) readers)
        (cells g.nodeCount fun id => Digraph.distinct (readersAmong g done id)) =
      some (cells g.nodeCount fun id => Digraph.distinct (readersAmong g (done ++ rest) id)) := by
  induction rest generalizing done with
  | nil => simp
  | cons user rest ih =>
      rw [List.forall_mem_cons] at hoperands
      have huser := addReaders_eq user (readersAmong g done) hoperands.1 []
      simp only [List.not_mem_nil, false_and, if_false, List.append_nil, List.nil_append,
        ← readersAmong_concat] at huser
      rw [List.foldlM_cons, huser]
      change rest.foldlM _ _ = _
      rw [ih hoperands.2, List.append_assoc]
      rfl

theorem gives_consumers (hg : g.Closed) :
    Gives (consumers g) ((Array.range g.nodeCount).map g.consumersOf) fun table =>
      table.size = g.nodeCount ∧ ∀ id, ∀ b ∈ table.getD id [], b < g.size := by
  have hnodes {user : Node} (h : user ∈ g.nodes.toList) : ∃ i, g.node? i = some user :=
    Array.mem_iff_getElem?.mp (Array.mem_toList_iff.mp h)
  refine ⟨?_, by simp, fun id b hb => ?_⟩
  · have hempty : Array.replicate g.nodeCount [] =
        cells g.nodeCount fun id => Digraph.distinct (readersAmong g [] id) := by
      apply Array.ext (by simp [cells])
      intro i _ _
      simp [cells, readersAmong, Digraph.distinct]
    rw [consumers, hempty, consumers_eq _ []]
    · rfl
    · intro user huser
      obtain ⟨i, hi⟩ := hnodes huser
      exact hg.operands hi
  · by_cases hid : id < g.nodeCount
    · have hcell : ((Array.range g.nodeCount).map g.consumersOf).getD id [] = g.consumersOf id := by
        simp [hid]
      rw [hcell, FlowGraph.consumersOf, Digraph.mem_distinct, List.mem_filterMap] at hb
      obtain ⟨user, huser, heq⟩ := hb
      obtain ⟨i, hi⟩ := hnodes huser
      split at heq
      · cases heq
        exact hg.home hi
      · cases heq
    · simp [hid] at hb

end Checked

namespace UnitAnalysis

open Checked

theorem gives_new {c : Checker} (hc : c.Sound) (hh : c.hierarchy.Closed) {g : FlowGraph}
    (hg : g.Closed) {initial : Store} (hinitial : initial.Wf c.hierarchy) :
    Gives (Checked.new c g initial) (UnitAnalysis.new c g initial) UnitAnalysis.Closed := by
  apply (gives_consumers hg).bind
  rintro ⟨hsize, hreaders⟩
  exact .pure {
    sound := hc
    hierarchy := hh
    graph := hg
    initial := hinitial
    keys := c.nodeKeys_size g
    consumers := hsize
    readers := hreaders }

namespace Closed

variable {u : UnitAnalysis} {V : NodeValues}

theorem delivers_transferBlock (hu : u.Closed)
    (hV : V.Bounded u.checker.hierarchy u.graph.nodeCount) {id : BlockId}
    (hid : id < u.graph.size) {input : TransferResult} (hinput : input.Wf u.checker.hierarchy) :
    Delivers (Checked.transferBlock u V id input) (u.transferBlock V id input) fun r =>
      r.1.output.Wf u.checker.hierarchy ∧
        (∀ e ∈ r.1.edges, e.1 < u.graph.size ∧ e.2.Wf u.checker.hierarchy) ∧
          (∀ b ∈ r.1.revisit, b < u.graph.size) ∧
            r.2.Bounded u.checker.hierarchy u.graph.nodeCount := by
  obtain ⟨block, hblock⟩ : ∃ block, u.graph.block? id = some block :=
    ⟨_, Array.getElem?_eq_getElem hid⟩
  have htargets := (hu.graph.block hblock).2
  have hnodes : ∀ i ∈ block.nodes, i < u.graph.nodeCount := by
    intro i hi
    obtain ⟨n, hn, -⟩ := hu.graph.listed hblock i hi
    exact (Array.getElem?_eq_some_iff.mp hn).1
  have hcollapse := hu.hierarchy.gives_collapse hinput
  have hrun := hu.gives_runBlock hnodes hV hinput
  have hchecked : u.graph.blocks[id]? = some block := hblock
  unfold Checked.transferBlock UnitAnalysis.transferBlock
  rw [hblock, hchecked]
  obtain ⟨_, nodes, kind⟩ := block
  cases kind with
  | conditional condition thenSuccessor elseSuccessor =>
      refine .ok ⟨hinput, ?_, by simp, hV⟩
      simp only [List.mem_cons, List.not_mem_nil, or_false]
      rintro e (rfl | rfl)
      · exact ⟨htargets _ (by simp [Block.successors, BlockKind.successors]),
          TransferResult.wf_regular hinput.thenStore⟩
      · exact ⟨htargets _ (by simp [Block.successors, BlockKind.successors]),
          TransferResult.wf_regular hinput.elseStore⟩
  | special kind successor =>
      apply hcollapse.access
      intro hstore
      have hstore := TransferResult.wf_regular hstore
      refine .ok ⟨hstore, ?_, by simp, hV⟩
      intro e he
      obtain ⟨t, ht, rfl⟩ := List.mem_map.mp he
      exact ⟨htargets t ht, hstore⟩
  | regular successor =>
      apply hrun.access
      intro halong
      dsimp only
      rcases hr : u.runBlock ⟨_, nodes, .regular successor⟩ V input with ⟨run, _ | e⟩
      · rw [hr] at halong
        refine .ok ⟨halong.current, ?_, halong.revisit, halong.values⟩
        simp only [List.mem_singleton]
        rintro e rfl
        exact ⟨htargets successor (by simp [Block.successors, BlockKind.successors]),
          halong.current⟩
      · exact .error e
  | exceptional successor handlers =>
      apply hcollapse.access
      intro hstore
      have hstore := TransferResult.wf_regular hstore
      apply hrun.access
      intro halong
      dsimp only
      rcases hr : u.runBlock ⟨_, nodes, .exceptional successor handlers⟩ V input with ⟨run, _ | e⟩
      · rw [hr] at halong
        refine .ok ⟨halong.current, ?_, halong.revisit, halong.values⟩
        intro e he
        rcases List.mem_append.mp he with he | he
        · obtain ⟨t, ht, rfl⟩ := List.mem_map.mp he
          exact ⟨htargets t (List.mem_append_left _ ht), halong.current⟩
        · obtain ⟨handler, hh, rfl⟩ := List.mem_map.mp he
          exact ⟨htargets handler.2 (List.mem_append_right _ (List.mem_map_of_mem hh)), hstore⟩
      · exact .error e

theorem covers (hu : u.Closed) :
    (Checked.dataflow u).Covers u.dataflow u.graph (TransferResult.Wf u.checker.hierarchy)
      (NodeValues.Bounded u.checker.hierarchy u.graph.nodeCount) where
  initial := TransferResult.wf_regular hu.initial
  bottom := TransferResult.wf_regular ⟨rfl, nofun⟩
  join hx hy := hu.hierarchy.gives_joinResults hx hy
  transfer hV hb hx := hu.delivers_transferBlock hV hb hx

theorem noValues (u : UnitAnalysis) :
    u.noValues.Bounded u.checker.hierarchy u.graph.nodeCount where
  size := Array.size_replicate
  has hq := by
    rw [UnitAnalysis.noValues, Solving.getD_replicate_none] at hq
    cases hq

theorem delivers_detachedPass (hu : u.Closed) {pending : List BlockId}
    (hpending : ∀ b ∈ pending, b < u.graph.size)
    (hV : V.Bounded u.checker.hierarchy u.graph.nodeCount) :
    Delivers (Checked.detachedPass u pending V) (u.detachedPass pending V) fun r =>
      r.1.Bounded u.checker.hierarchy u.graph.nodeCount ∧ ∀ e ∈ r.2, e.1 < u.graph.size := by
  induction pending generalizing V with
  | nil => exact .ok ⟨hV, by simp⟩
  | cons id rest ih =>
      rw [List.forall_mem_cons] at hpending
      obtain ⟨block, hblock⟩ : ∃ block, u.graph.block? id = some block :=
        ⟨_, Array.getElem?_eq_getElem hpending.1⟩
      have hnodes : ∀ i ∈ block.nodes, i < u.graph.nodeCount := by
        intro i hi
        obtain ⟨n, hn, -⟩ := hu.graph.listed hblock i hi
        exact (Array.getElem?_eq_some_iff.mp hn).1
      have hrun := hu.gives_runBlock hnodes hV (TransferResult.wf_regular hu.initial)
      have hchecked : u.graph.blocks[id]? = some block := hblock
      unfold Checked.detachedPass UnitAnalysis.detachedPass
      rw [hblock, hchecked]
      apply hrun.access
      intro halong
      dsimp only
      rcases hr : u.runBlock block V (.regular u.initial) with ⟨run, _ | e⟩
      · rw [hr] at halong
        exact ih hpending.2 halong.values
      · rw [hr] at halong
        cases e with
        | missingOperand operand node at_ =>
            apply (ih hpending.2 halong.values).bind
            rintro ⟨values, waiting⟩ ⟨hvalues, hwaiting⟩
            exact .ok ⟨hvalues, List.forall_mem_cons.mpr ⟨hpending.1, hwaiting⟩⟩
        | _ => exact .error _

theorem delivers_evaluateDetached (hu : u.Closed) {pending : List BlockId}
    (hpending : ∀ b ∈ pending, b < u.graph.size)
    (hV : V.Bounded u.checker.hierarchy u.graph.nodeCount) :
    Delivers (Checked.evaluateDetached u pending V) (u.evaluateDetached pending V)
      (NodeValues.Bounded u.checker.hierarchy u.graph.nodeCount) := by
  fun_induction UnitAnalysis.evaluateDetached u pending V with
  | case1 pending V e herror =>
      have hpass := hu.delivers_detachedPass hpending hV
      rw [herror] at hpass
      unfold Checked.evaluateDetached
      exact hpass.bind_error
  | case2 pending V values hdone =>
      have hpass := hu.delivers_detachedPass hpending hV
      rw [hdone] at hpass
      unfold Checked.evaluateDetached
      exact hpass.bind_ok fun hvalues => .ok hvalues.1
  | case3 pending V values first others hdone hlt ih =>
      have hpass := hu.delivers_detachedPass hpending hV
      rw [hdone] at hpass
      unfold Checked.evaluateDetached
      apply hpass.bind_ok
      rintro ⟨hvalues, hwaiting⟩
      dsimp only
      rw [if_pos hlt]
      refine ih (fun b hb => ?_) hvalues
      have hb : b ∈ (first :: others).map Prod.fst := by simpa using hb
      obtain ⟨e, he, rfl⟩ := List.mem_map.mp hb
      exact hwaiting e he
  | case4 pending V values first others hdone hlt =>
      have hpass := hu.delivers_detachedPass hpending hV
      rw [hdone] at hpass
      unfold Checked.evaluateDetached
      apply hpass.bind_ok
      intro _
      dsimp only
      rw [if_neg hlt]
      exact .error _

end Closed

end UnitAnalysis

end FlowTyping
