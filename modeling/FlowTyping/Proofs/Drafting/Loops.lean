import FlowTyping.Proofs.Drafting.Finished
import FlowTyping.Proofs.Graph.Nesting

/-!
Loops of graphs of units: they are nested, each of them is entered by its head alone, and
the edges back to the heads are the only ones that lead backwards.
-/

namespace FlowTyping

open Build

namespace FlowGraph

/-- A block is the head of a loop. -/
def IsLoopHead (g : FlowGraph) (id : BlockId) : Prop :=
  ∃ block successor, g.block? id = some block ∧ block.kind = .special .loopHead successor

/-- Every path from the entry to a block goes through another one. -/
def Dominates (g : FlowGraph) : BlockId → BlockId → Prop :=
  Digraph.Dominates g.successors g.entry

/-- The blocks of a cycle. -/
def Cycle (g : FlowGraph) : List BlockId → Prop := Digraph.Cycle g.successors

/-- Loops are entered by their heads alone: the edges that close a cycle lead to heads that
dominate their sources, every cycle goes through a head, and no other edges lead backwards, or
to the same block, in reverse postorder. -/
structure Reducible (g : FlowGraph) : Prop where
  back : ∀ e ∈ g.backEdges, g.IsLoopHead e.2 ∧ g.Dominates e.2 e.1
  cycles : ∀ blocks, g.Cycle blocks → ∃ b ∈ blocks, g.IsLoopHead b
  backwards : ∀ a b, (a, b) ∈ g.backEdges ↔ a ∈ g.reversePostorder ∧ b ∈ g.successors a ∧
    g.reversePostorder.idxOf b ≤ g.reversePostorder.idxOf a

end FlowGraph

/-- The head of a loop is a special block. -/
theorem Draft.Settled.exits_of_head {D : Layout} {i : BlockId} {r : Role} {d : Draft}
    (h : d.Settled D i r) (hr : r = .head) :
    ∃ successor, d.exits = .special .loopHead successor := by
  subst hr
  obtain ⟨nodes, exits⟩ := d
  cases exits with
  | openEnd => exact h.elim
  | goto => cases h
  | branch =>
      obtain ⟨-, p, d', hr, -⟩ := h
      cases hr
  | raise => cases h.1
  | special kind successor =>
      cases kind with
      | loopHead => exact ⟨successor, rfl⟩
      | _ => cases h.2.1

namespace Layout

open Compaction

variable {D : Layout} {G : Marks} {name : String} {g : FlowGraph}

/-- The place of the draft that was kept as a block. -/
def placeOf (D : Layout) (G : Marks) (v : BlockId) : WithTop ℚ :=
  (G.blocks[D.origin v]?.map Mark.place).getD ⊤

/-- A block is in the loop of another one. -/
def IsAround (D : Layout) (G : Marks) (h v : BlockId) : Prop :=
  ∃ m, G.blocks[D.origin v]? = some m ∧ ∃ l ∈ m.loops, rename D.drafts l = h

/-- The block of a draft with the role of a head. -/
theorem Marked.isLoopHead {c : Nat} {m : Mark} (hD : D.Marked G)
    (hparts : g.toGraphParts = D.parts name) (hc : c < D.drafts.size) (hkeeps : Keeps D.drafts c)
    (hm : G.blocks[c]? = some m) (hrole : m.role = .head) : g.IsLoopHead (rename D.drafts c) := by
  have hd := Array.getElem?_eq_getElem hc
  obtain ⟨m', hm', hsettled⟩ := hD.settled c _ hd
  cases hm.symm.trans hm'
  obtain ⟨successor, hexits⟩ := hsettled.exits_of_head hrole
  have hblock : g.block? (rename D.drafts c) = some ⟨rename D.drafts c, D.drafts[c].nodes,
      D.drafts[c].exits.toKind (rename D.drafts) exitId⟩ := by
    rw [FlowGraph.block?, hparts]
    exact parts_blocks hd hkeeps
  exact ⟨_, successor.map (rename D.drafts), hblock, by rw [hexits]; rfl⟩

/-- An edge of the graph leads on in the order of the marks or back to the head of a loop, and
enters loops by their heads. -/
theorem Marked.edge {u v : BlockId} (hD : D.Marked G) (hw : D.Whole) (hg : g.Valid)
    (hparts : g.toGraphParts = D.parts name) (hedge : v ∈ g.successors u) :
    (D.placeOf G u < D.placeOf G v ∨ g.IsLoopHead v ∧ D.IsAround G v u) ∧
      ∀ h, D.IsAround G h v → h = v ∨ D.IsAround G h u := by
  obtain ⟨block, hblock, hv⟩ := FlowGraph.mem_successors.mp hedge
  obtain rfl := (hg.block hblock).1
  rw [FlowGraph.block?, hparts] at hblock
  obtain ⟨a, d, hd, hkeeps, -, rfl⟩ := mem_parts_blocks hblock
  rw [Block.successors, Exits.successors_toKind (hw.finished a d hd)] at hv
  obtain ⟨t, ht, rfl⟩ := List.mem_map.mp hv
  obtain ⟨htarget, n, hn, c, hc, hchain, hrename⟩ := hw.chain_of_target hd ht
  obtain ⟨m, hm, -⟩ := hD.settled a d hd
  obtain ⟨m', hm', honward, hloops⟩ := hD.chain_leads hw hchain hn htarget hm (hD.leads a d hd t ht)
  have horigin := D.origin_rename (Array.getElem?_eq_some_iff.mp hd).1 hkeeps
  have horigin' := D.origin_rename hc hchain.kept
  rw [hrename]
  refine ⟨honward.imp (fun hlt => ?_) (And.imp (hD.isLoopHead hparts hc hchain.kept hm')
    fun hback => ⟨m, by rw [horigin, hm], c, hback, rfl⟩), ?_⟩
  · simpa [placeOf, horigin, horigin', hm, hm'] using hlt
  · rintro h ⟨m₀, hm₀, l, hl, rfl⟩
    rw [horigin', hm'] at hm₀
    cases hm₀
    exact (hloops l hl).imp_right fun hl => ⟨m, by rw [horigin, hm], l, hl, rfl⟩

/-- The loops of a finished layout are those of its graph. -/
theorem Marked.nested (hD : D.Marked G) (hw : D.Whole) (hg : g.Valid)
    (hparts : g.toGraphParts = D.parts name) :
    Digraph.Nested g.successors g.entry g.IsLoopHead (D.placeOf G) (D.IsAround G) where
  outside := by
    rintro h ⟨m, hm, l, hl, -⟩
    have hsize : entryId < D.drafts.size := Nat.lt_of_lt_of_le (by decide) hw.designated
    have hentry : g.entry = rename D.drafts entryId := congrArg GraphParts.entry hparts
    rw [hentry, D.origin_rename hsize (hD.keeps hD.entry nofun), hD.entry] at hm
    cases hm
    cases hl
  onward u v hedge := (hD.edge hw hg hparts hedge).1
  enters u v hedge := (hD.edge hw hg hparts hedge).2

end Layout

namespace FlowGraph

variable {g : FlowGraph} {a b : BlockId}

theorem mem_blockGraph_successors (hg : g.Valid) :
    b ∈ (g.blockGraph.successors a).reverse ↔ b ∈ g.successors a := by
  rw [List.mem_reverse, Digraph.successors, ← mem_blockGraph hg]
  simp [Option.ite_none_right_eq_some]

theorem Valid.edge_blockGraph (hg : g.Valid) :
    Digraph.Edge (fun id => (g.blockGraph.successors id).reverse) = Digraph.Edge g.successors := by
  funext a b
  exact propext (mem_blockGraph_successors hg)

/-- The edges that close a cycle lead back to heads of loops. -/
theorem Valid.mem_backEdges {α : Type} [Preorder α] {head : BlockId → Prop} {place : BlockId → α}
    {around : BlockId → BlockId → Prop} (hg : g.Valid)
    (hn : Digraph.Nested g.successors g.entry head place around) :
    (a, b) ∈ g.backEdges ↔ g.Reaches a ∧ b ∈ g.successors a ∧ head b ∧ around b a := by
  have hnext : ∀ u v, v ∈ (g.blockGraph.successors u).reverse ↔ v ∈ g.successors u :=
    fun u v => mem_blockGraph_successors hg
  have hbelow : ∀ u < g.size, ∀ v ∈ (g.blockGraph.successors u).reverse, v < g.size :=
    fun u _ v hv => hg.lt_of_mem_successors ((hnext u v).mp hv)
  have hclosing := (hn.congr fun u v => (hnext u v).mp).mem_closing_iff (x := a) (y := b)
    hbelow hg.entry
  rw [hg.edge_blockGraph] at hclosing
  rw [backEdges, List.mem_reverse]
  exact hclosing.trans (and_congr_right fun _ => and_congr_left' (hnext a b))

end FlowGraph

namespace ProgramUnit

variable {u : ProgramUnit} {g : FlowGraph}

/-- The graph of a unit is reducible. -/
theorem lower_reducible (h : u.lower = .ok g) : g.Reducible := by
  have hg := u.lower_valid h
  obtain ⟨built, hrun, hfinish⟩ := u.run_of_lower h
  obtain ⟨hw, G, hD⟩ := u.build_marked hrun
  have hn := hD.nested hw hg (Layout.finish_parts hfinish)
  have hback (a b : BlockId) := hg.mem_backEdges hn (a := a) (b := b)
  refine ⟨fun e he => ?_, fun _ => hn.head_of_cycle, fun a b => ?_⟩
  · obtain ⟨-, -, hhead, haround⟩ := (hback e.1 e.2).mp he
    exact ⟨hhead, hn.dominates haround⟩
  · rw [hback, ← hg.mem_reversePostorder]
    refine and_congr_right fun ha => and_congr_right fun hedge => ?_
    exact (hn.idxOf_le_iff (fun _ _ _ ht => hg.lt_of_mem_successors ht) hg.entry ha hedge).symm

end ProgramUnit

/-- A unit that begins a round anew from inside an inner loop, through a final body. -/
def restartingUnit : ProgramUnit where
  name := "restarting"
  params := []
  returnQualifier := none
  body := [.whileLoop (some "rounds") (.call none "pending" [] [])
    [.tryCatch
      [.doWhile none [.ifElse (.call none "failed" [] []) [.continueLoop (some "rounds")] none]
        (.call none "more" [] [])]
      [.clause "*" none []] (some [.expr (.call none "release" [] [])])]]

theorem restartingUnit_reducible : ∃ g, restartingUnit.lower = .ok g ∧ g.backEdges.length = 3 ∧
    g.Reducible := by
  have hedges : (restartingUnit.lower.toOption.map fun g => g.backEdges.length) = some 3 := by
    decide +kernel
  obtain ⟨g, hg, hlength⟩ := Option.map_eq_some_iff.mp hedges
  have hg := ok_of_toOption hg
  exact ⟨g, hg, hlength, ProgramUnit.lower_reducible hg⟩

end FlowTyping
