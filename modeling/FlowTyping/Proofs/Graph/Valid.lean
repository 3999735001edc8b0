import FlowTyping.Graph.Basic
import FlowTyping.Proofs.Graph.Reachable

/-!
What an accepted graph satisfies: its references exist, and its blocks have the nodes
and edges of their kind.
-/

namespace FlowTyping

open Relation

/-- A check of every item succeeds when it does for each of them. -/
theorem forM_ok {α ε : Type} {f : α → Except ε Unit} {l : List α} :
    l.forM f = .ok () ↔ ∀ a ∈ l, f a = .ok () := by
  induction l with
  | nil => simp [pure, Except.pure]
  | cons a rest ih =>
      rw [List.forM_eq_forM] at ih ⊢
      rw [List.forM_cons, List.forall_mem_cons, ← ih]
      cases ha : f a with
      | error e => simp [bind, Except.bind]
      | ok => simp [bind, Except.bind]

theorem bind_ok {α β ε : Type} {x : Except ε α} {f : α → Except ε β} {b : β} :
    (x >>= f) = .ok b ↔ ∃ a, x = .ok a ∧ f a = .ok b := by
  cases x <;> simp [bind, Except.bind]

/-- A check of every item fails on one of them. -/
theorem forM_error {α ε : Type} {f : α → Except ε Unit} {l : List α} {e : ε}
    (h : l.forM f = .error e) : ∃ a ∈ l, f a = .error e := by
  induction l with
  | nil => cases h
  | cons a rest ih =>
      rw [List.forM_eq_forM, List.forM_cons] at h
      cases ha : f a with
      | error e' =>
          rw [ha] at h
          cases h
          exact ⟨a, List.mem_cons_self, ha⟩
      | ok =>
          rw [ha] at h
          obtain ⟨b, hb, he⟩ := ih h
          exact ⟨b, List.mem_cons_of_mem a hb, he⟩

theorem bind_error {α β ε : Type} {x : Except ε α} {f : α → Except ε β} {e : ε} :
    (x >>= f) = .error e ↔ x = .error e ∨ ∃ a, x = .ok a ∧ f a = .error e := by
  cases x <;> simp [bind, Except.bind]

theorem map_error {α β ε : Type} {x : Except ε α} {f : α → β} {e : ε} :
    x.map f = .error e ↔ x = .error e := by
  cases x <;> simp [Except.map]

theorem ok_of_toOption {α ε : Type} {x : Except ε α} {a : α} (h : x.toOption = some a) :
    x = .ok a := by
  cases x with
  | error e => cases h
  | ok b =>
      cases h
      rfl

/-- The graph is well-formed. -/
structure FlowGraph.Valid (g : FlowGraph) : Prop where
  block : ∀ {i : Nat} {b : Block}, g.block? i = some b →
    b.id = i ∧ ∀ t ∈ b.successors, t < g.size
  entry : g.entry < g.size
  node : ∀ {i : Nat} {n : Node}, g.node? i = some n → n.id = i
  listed : ∀ {i : Nat} {b : Block}, g.block? i = some b →
    ∀ id ∈ b.nodes, ∃ n, g.node? id = some n ∧ n.block = i
  tested : ∀ {i : Nat} {b : Block} {condition t e : Nat}, g.block? i = some b →
    b.kind = .conditional condition t e → b.nodes = [] ∧
      ∃ p b', g.predecessorsOf i = [p] ∧ g.block? p = some b' ∧ b'.lastNode? = some condition
  raising : ∀ {i : Nat} {b : Block} {successor : Option BlockId}
    {handlers : List (String × BlockId)}, g.block? i = some b →
    b.kind = .exceptional successor handlers → ∃ id, b.nodes = [id]
  special : ∀ {i : Nat} {b : Block} {kind : SpecialKind} {successor : Option BlockId},
    g.block? i = some b → b.kind = .special kind successor → b.nodes = []
  predecessors : ∀ {p i : Nat}, p ∈ g.predecessorsOf i ↔ i < g.size ∧ i ∈ g.successors p
  unreachable : ∀ {i : Nat}, i ∈ g.unreachable ↔
    i < g.size ∧ ¬ ReflTransGen (Digraph.Edge g.successors) g.entry i

/-- Blocks list their nodes in ascending order, and operands come before their users. -/
structure FlowGraph.Ordered (g : FlowGraph) : Prop where
  ascending : ∀ {i : Nat} {b : Block}, g.block? i = some b → b.nodes.Pairwise (· < ·)
  operands : ∀ {i : Nat} {n : Node}, g.node? i = some n → ∀ o ∈ n.kind.operands, o < i

namespace FlowGraph

variable {g : FlowGraph} {p t : Nat}

theorem mem_successors : t ∈ g.successors p ↔ ∃ b, g.block? p = some b ∧ t ∈ b.successors := by
  change t ∈ (((g.block? p).map Block.successors).getD []) ↔ _
  cases g.block? p <;> simp

theorem Valid.lt_of_mem_successors (hg : g.Valid) (h : t ∈ g.successors p) : t < g.size := by
  obtain ⟨b, hb, ht⟩ := mem_successors.mp h
  exact (hg.block hb).2 t ht

theorem Valid.lt_of_reach (hg : g.Valid)
    (h : ReflTransGen (Digraph.Edge g.successors) g.entry t) : t < g.size := by
  rcases h.cases_tail with rfl | ⟨p, -, hedge⟩
  · exact hg.entry
  · exact hg.lt_of_mem_successors hedge

theorem mem_blockGraph {p t : BlockId} (hg : g.Valid) :
    (p, t) ∈ g.blockGraph.edges ↔ t ∈ g.successors p := by
  simp only [blockGraph, Digraph.ofEdges, Digraph.mem_distinct, List.mem_flatMap, List.mem_map,
    Prod.mk.injEq, mem_successors]
  constructor
  · rintro ⟨block, hblock, target, htarget, rfl, rfl⟩
    obtain ⟨i, hi⟩ := Array.mem_iff_getElem?.mp (Array.mem_toList_iff.mp hblock)
    obtain rfl := (hg.block hi).1
    exact ⟨block, hi, htarget⟩
  · rintro ⟨block, hblock, htarget⟩
    exact ⟨block, Array.mem_toList_iff.mpr (Array.mem_of_getElem? hblock), t, htarget,
      (hg.block hblock).1, rfl⟩

/-- The block lists the node. -/
def Home (g : FlowGraph) (id : NodeId) (b : BlockId) : Prop :=
  ∃ block, g.block? b = some block ∧ id ∈ block.nodes

theorem Valid.home_unique (hg : g.Valid) {id : NodeId} {a b : BlockId} (ha : g.Home id a)
    (hb : g.Home id b) : a = b := by
  obtain ⟨block, hblock, hid⟩ := ha
  obtain ⟨block', hblock', hid'⟩ := hb
  obtain ⟨n, hn, rfl⟩ := hg.listed hblock id hid
  obtain ⟨n', hn', rfl⟩ := hg.listed hblock' id hid'
  rw [hn] at hn'
  cases hn'
  rfl

end FlowGraph

namespace GraphParts

variable {p : GraphParts} {predecessors : Array (List BlockId)}

theorem refuseIf_ok {condition : Bool} {e : GraphError} :
    refuseIf condition e = .ok () ↔ condition = false := by
  cases condition <;> simp [refuseIf]

theorem checkBlocks_ok (h : p.checkBlocks = .ok ()) {i : Nat} {b : Block}
    (hb : p.blocks[i]? = some b) : b.id = i ∧ ∀ t ∈ b.successors, t < p.blocks.size := by
  have hmem : (b, i) ∈ p.blocks.toList.zipIdx := by
    rw [List.mk_mem_zipIdx_iff_getElem?, Array.getElem?_toList]
    exact hb
  obtain ⟨_, hid, htargets⟩ := bind_ok.mp (forM_ok.mp h _ hmem)
  refine ⟨by simpa using refuseIf_ok.mp hid, fun t ht => ?_⟩
  simpa using refuseIf_ok.mp (forM_ok.mp htargets t ht)

theorem checkNodes_ok (h : p.checkNodes = .ok ()) {i : Nat} {n : Node}
    (hn : p.nodes[i]? = some n) : n.id = i := by
  have hmem : (n, i) ∈ p.nodes.toList.zipIdx := by
    rw [List.mk_mem_zipIdx_iff_getElem?, Array.getElem?_toList]
    exact hn
  obtain ⟨_, hid, -⟩ := bind_ok.mp (forM_ok.mp h _ hmem)
  simpa using refuseIf_ok.mp hid

theorem checkStructure_ok (h : p.checkStructure predecessors = .ok ()) {i : Nat} {b : Block}
    (hb : p.blocks[i]? = some b) :
    p.checkListing b = .ok () ∧ p.checkBlock predecessors b = .ok () := by
  obtain ⟨_, hall, -⟩ := bind_ok.mp h
  have hmem : b ∈ p.blocks.toList := by
    rw [Array.mem_toList_iff]
    exact Array.mem_of_getElem? hb
  obtain ⟨_, hlisting, hblock⟩ := bind_ok.mp (forM_ok.mp hall b hmem)
  exact ⟨hlisting, hblock⟩

theorem checkListing_ok {b : Block} (h : p.checkListing b = .ok ()) :
    ∀ id ∈ b.nodes, ∃ n, p.nodes[id]? = some n ∧ n.block = b.id := by
  intro id hid
  have hnode := forM_ok.mp h id hid
  split at hnode
  · cases hnode
  · rename_i n hn
    exact ⟨n, hn, by simpa using refuseIf_ok.mp hnode⟩

theorem mem_predecessorTable {a i : Nat}
    (hid : ∀ {j : Nat} {b : Block}, p.blocks[j]? = some b → b.id = j) :
    a ∈ p.predecessorTable.getD i [] ↔ i < p.blocks.size ∧ i ∈ p.successors a := by
  by_cases hi : i < p.blocks.size
  · simp only [predecessorTable, Array.getD_eq_getD_getElem?, Array.getElem?_map,
      Array.getElem?_range, hi, if_true, Option.map_some, Option.getD_some, List.mem_filterMap,
      Option.ite_none_right_eq_some, Option.some.injEq, true_and, successors]
    constructor
    · rintro ⟨b, hb, hmem, rfl⟩
      obtain ⟨j, hj⟩ := Array.mem_iff_getElem?.mp (Array.mem_toList_iff.mp hb)
      rw [hid hj, hj]
      exact hmem
    · intro hmem
      cases hb : p.blocks[a]? with
      | none => simp [hb] at hmem
      | some b =>
          rw [hb] at hmem
          exact ⟨b, Array.mem_toList_iff.mpr (Array.mem_of_getElem? hb), hmem, hid hb⟩
  · simp [predecessorTable, hi]

theorem toGraph_valid {g : FlowGraph} (h : p.toGraph = .ok g) : g.Valid := by
  obtain ⟨_, hblocks, h⟩ := bind_ok.mp h
  obtain ⟨_, hdesignated, h⟩ := bind_ok.mp h
  obtain ⟨_, hnodes, h⟩ := bind_ok.mp h
  obtain ⟨_, hstructure, h⟩ := bind_ok.mp h
  cases h
  have hentry : p.entry < p.blocks.size := by
    simpa using refuseIf_ok.mp (forM_ok.mp hdesignated p.entry (by simp))
  have hblock {i : Nat} {b : Block} (hb : p.blocks[i]? = some b) := checkBlocks_ok hblocks hb
  have hnext : ∀ v < p.blocks.size, ∀ u ∈ p.successors v, u < p.blocks.size := by
    intro v hv u hu
    rw [successors, Array.getElem?_eq_getElem hv] at hu
    exact (hblock (Array.getElem?_eq_getElem hv)).2 u hu
  refine {
    block := hblock
    entry := hentry
    node := checkNodes_ok hnodes
    listed := fun hb id hid => ?_
    tested := fun hb hkind => ?_
    raising := fun hb hkind => ?_
    special := fun hb hkind => ?_
    predecessors := mem_predecessorTable fun hb => (hblock hb).1
    unreachable := ?_ }
  · rw [← (hblock hb).1]
    exact checkListing_ok (checkStructure_ok hstructure hb).1 id hid
  · have hcheck := (checkStructure_ok hstructure hb).2
    rw [checkBlock, hkind, (hblock hb).1] at hcheck
    obtain ⟨_, hempty, hcondition⟩ := bind_ok.mp hcheck
    refine ⟨by simpa using refuseIf_ok.mp hempty, ?_⟩
    have hends := refuseIf_ok.mp hcondition
    simp only [Bool.not_eq_false'] at hends
    split at hends
    · rename_i only honly
      obtain ⟨b', hb', hlast⟩ := Option.bind_eq_some_iff.mp (of_decide_eq_true hends)
      exact ⟨only, b', honly, hb', hlast⟩
    · cases hends
  · have hcheck := (checkStructure_ok hstructure hb).2
    rw [checkBlock, hkind] at hcheck
    obtain ⟨_, hone, -⟩ := bind_ok.mp hcheck
    exact List.length_eq_one_iff.mp (by simpa using refuseIf_ok.mp hone)
  · have hcheck := (checkStructure_ok hstructure hb).2
    rw [checkBlock, hkind] at hcheck
    obtain ⟨_, hempty, -⟩ := bind_ok.mp hcheck
    simpa using refuseIf_ok.mp hempty
  · intro i
    simp only [List.mem_filter, List.mem_range, decide_eq_true_eq]
    rw [entryWalk, Digraph.mem_walk_finished hnext (by simpa using hentry)]
    simp [FlowGraph.size]

/-- What is made of parts that pass every check. -/
theorem toGraph_eq {g : FlowGraph} (h : p.toGraph = .ok g) :
    g = { p with
      predecessors := p.predecessorTable
      unreachable := (List.range p.blocks.size).filter fun id => id ∉ p.entryWalk.finished } := by
  obtain ⟨_, -, h⟩ := bind_ok.mp h
  obtain ⟨_, -, h⟩ := bind_ok.mp h
  obtain ⟨_, -, h⟩ := bind_ok.mp h
  obtain ⟨_, -, h⟩ := bind_ok.mp h
  cases h
  rfl

theorem toGraph_parts {g : FlowGraph} (h : p.toGraph = .ok g) : g.toGraphParts = p := by
  rw [toGraph_eq h]

theorem toGraph_unreachable_sorted {g : FlowGraph} (h : p.toGraph = .ok g) :
    g.unreachable.Pairwise (· < ·) := by
  rw [toGraph_eq h]
  exact List.pairwise_lt_range.filter _

/-- Every node is listed by some block. -/
theorem toGraph_homed {g : FlowGraph} (h : p.toGraph = .ok g) {id : NodeId} {n : Node}
    (hn : g.node? id = some n) : ∃ b, g.Home id b := by
  obtain ⟨_, hblocks, h⟩ := bind_ok.mp h
  obtain ⟨_, -, h⟩ := bind_ok.mp h
  obtain ⟨_, -, h⟩ := bind_ok.mp h
  obtain ⟨_, hstructure, h⟩ := bind_ok.mp h
  cases h
  obtain ⟨_, -, hlisted⟩ := bind_ok.mp hstructure
  split at hlisted
  · cases hlisted
  · rename_i hnone
    have hlt : id < p.nodes.size := (Array.getElem?_eq_some_iff.mp hn).1
    obtain ⟨b, hb, hid⟩ : ∃ b ∈ p.blocks, id ∈ b.nodes := by
      simpa using List.find?_eq_none.mp hnone id (List.mem_range.mpr hlt)
    obtain ⟨i, hi⟩ := Array.mem_iff_getElem?.mp hb
    exact ⟨i, b, hi, hid⟩

end GraphParts

end FlowTyping
