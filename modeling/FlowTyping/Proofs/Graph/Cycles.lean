import FlowTyping.Proofs.Drafting.LoopFree
import FlowTyping.Proofs.Flow.VisitBound

/-!
Cycles. The edges that a depth-first walk finds to close a cycle cut every cycle that it comes to,
and each of them is on one.
-/

namespace FlowTyping

namespace Digraph

open Relation

variable {next : Nat → List Nat} {size : Nat} {roots : List Nat} {x y : Nat}
  (hnext : ∀ v < size, ∀ u ∈ next v, u < size) (hroots : ∀ r ∈ roots, r < size)

include hnext hroots

/-- An edge that does not close a cycle leads on in the order in which the walk finishes. -/
theorem idxOf_lt_of_not_mem_closing (hx : x ∈ (walk next size roots).finished)
    (hedge : y ∈ next x) (hopen : (x, y) ∉ (walk next size roots).closing) :
    (walk next size roots).finished.idxOf x < (walk next size roots).finished.idxOf y := by
  have hsub : List.Sublist [x, y] (walk next size roots).finished := by
    by_contra hback
    exact hopen ((mem_walk_closing hnext hroots).mpr ⟨hx, hedge, hback⟩)
  exact idxOf_lt_of_sublist (walk_closes hnext hroots).1.nodup hsub

/-- Without the edges that close one, the walk comes to no cycle. -/
theorem closing_cuts (hx : x ∈ (walk next size roots).finished) :
    ¬ TransGen (Edge fun a => (next a).filter fun b => (a, b) ∉ (walk next size roots).closing)
      x x := by
  have hstep {a b : Nat} (ha : a ∈ (walk next size roots).finished)
      (hedge : b ∈ (next a).filter fun b => (a, b) ∉ (walk next size roots).closing) :
      b ∈ (walk next size roots).finished ∧ (walk next size roots).finished.idxOf a <
        (walk next size roots).finished.idxOf b := by
    obtain ⟨hb, hopen⟩ := List.mem_filter.mp hedge
    exact ⟨mem_walk_finished_of_edge hnext hroots ha hb,
      idxOf_lt_of_not_mem_closing hnext hroots ha hb (of_decide_eq_true hopen)⟩
  -- Along the edges that are left, places in the order only grow.
  have hgrows {y : Nat} (h : TransGen (Edge fun a => (next a).filter fun b =>
      (a, b) ∉ (walk next size roots).closing) x y) :
      y ∈ (walk next size roots).finished ∧ (walk next size roots).finished.idxOf x <
        (walk next size roots).finished.idxOf y := by
    induction h with
    | single hedge => exact hstep hx hedge
    | tail _ hedge ih =>
        obtain ⟨hmem, hlt⟩ := hstep ih.1 hedge
        exact ⟨hmem, Nat.lt_trans ih.2 hlt⟩
  exact fun h => Nat.lt_irrefl _ (hgrows h).2

/-- An edge that closes a cycle is followed by a way back to its source. -/
theorem returns_of_mem_closing (h : (x, y) ∈ (walk next size roots).closing) :
    x ∈ (walk next size roots).finished ∧ y ∈ next x ∧ ReflTransGen (Edge next) y x := by
  obtain ⟨hx, hedge, hback⟩ := (mem_walk_closing hnext hroots).mp h
  have hy := mem_walk_finished_of_edge hnext hroots hx hedge
  have hpath := (walk_closes hnext hroots).1.back x hx y hy hedge hback
  exact ⟨hx, hedge, ReflTransGen.mono (fun _ _ hdown => hdown.1) _ _ hpath⟩

/-- The walk finds edges that close a cycle exactly when it comes to one. -/
theorem closing_eq_nil_iff : (walk next size roots).closing = [] ↔
    ∀ x ∈ (walk next size roots).finished, ¬ TransGen (Edge next) x x := by
  constructor
  · intro hnone x hx hcycle
    refine closing_cuts hnext hroots hx (TransGen.mono (fun a b hedge => ?_) _ _ hcycle)
    exact List.mem_filter.mpr ⟨hedge, by simp [hnone]⟩
  · intro hacyclic
    refine List.eq_nil_iff_forall_not_mem.mpr fun ⟨x, y⟩ h => ?_
    obtain ⟨hx, hedge, hback⟩ := returns_of_mem_closing hnext hroots h
    exact hacyclic x hx (.head' hedge hback)

end Digraph

namespace FlowGraph

open Relation

variable {g : FlowGraph} {a b : BlockId}

/-- The successors of a block along the edges that are not back edges. -/
def onward (g : FlowGraph) (a : BlockId) : List BlockId :=
  (g.successors a).filter fun b => (a, b) ∉ g.backEdges

/-- The back edges cut the cycles that the entry leads to: none is left without them, each of them
is on one, and there are none when there is nothing to cut. Every cycle of the graph is found, also
where nothing leads to it. -/
structure CutByBackEdges (g : FlowGraph) : Prop where
  cut : ∀ b, g.Reaches b → ¬ TransGen (Digraph.Edge g.onward) b b
  onCycle : ∀ a b, (a, b) ∈ g.backEdges →
    g.Reaches a ∧ b ∈ g.successors a ∧ ReflTransGen (Digraph.Edge g.successors) b a
  empty : g.backEdges = [] ↔ g.Acyclic
  cyclic : g.hasCycle = true ↔ ∃ b, TransGen (Digraph.Edge g.successors) b b

theorem Valid.mem_successors_blockGraph (hg : g.Valid) :
    b ∈ g.blockGraph.successors a ↔ b ∈ g.successors a := by
  rw [← List.mem_reverse, mem_blockGraph_successors hg]

/-- A block on a cycle exists. -/
theorem Valid.lt_of_cycle (hg : g.Valid) (h : TransGen (Digraph.Edge g.successors) b b) :
    b < g.size := by
  obtain ⟨a, -, hedge⟩ := TransGen.tail'_iff.mp h
  exact hg.lt_of_mem_successors hedge

/-- A walk over the whole graph finds a cycle exactly when there is one. -/
theorem Valid.hasCycle_iff (hg : g.Valid) :
    g.hasCycle = true ↔ ∃ b, TransGen (Digraph.Edge g.successors) b b := by
  have hbelow : ∀ v < g.size, ∀ u ∈ g.blockGraph.successors v, u < g.size := fun _ _ _ hu =>
    hg.lt_of_mem_successors (hg.mem_successors_blockGraph.mp hu)
  have hroots : ∀ r ∈ List.range g.size, r < g.size := fun _ hr => List.mem_range.mp hr
  have hedges : Digraph.Edge g.blockGraph.successors = Digraph.Edge g.successors := by
    funext a b
    exact propext hg.mem_successors_blockGraph
  have hwalk : g.blockGraph.fullWalk =
    Digraph.walk g.blockGraph.successors g.size (List.range g.size) := rfl
  have hnone := Digraph.closing_eq_nil_iff hbelow hroots
  rw [← hwalk, hedges] at hnone
  have hcycle : g.hasCycle = true ↔ g.blockGraph.fullWalk.closing ≠ [] := by
    simp [hasCycle, Digraph.hasCycle]
  rw [hcycle, Ne, hnone]
  push Not
  refine exists_congr fun b => and_iff_right_of_imp fun hb => ?_
  rw [hwalk, Digraph.mem_walk_finished hbelow hroots]
  exact ⟨b, List.mem_range.mpr (hg.lt_of_cycle hb), .refl⟩

/-- Back edges break exactly the cycles that can be reached. -/
theorem Accepted.cutByBackEdges {g : FlowGraph} (hg : g.Accepted) : g.CutByBackEdges := by
  have hvalid := hg.valid
  have hsuccessors (a b : BlockId) := mem_blockGraph_successors hvalid (a := a) (b := b)
  have hbelow : ∀ v < g.size, ∀ u ∈ (g.blockGraph.successors v).reverse, u < g.size :=
    fun v _ u hu => hvalid.lt_of_mem_successors ((hsuccessors v u).mp hu)
  have hroots : ∀ r ∈ [g.entry], r < g.size := by simpa using hvalid.entry
  have hedges := hvalid.edge_blockGraph
  have hreaches {b : BlockId} : b ∈ (Digraph.walk (fun id => (g.blockGraph.successors id).reverse)
      g.size [g.entry]).finished ↔ g.Reaches b := by
    rw [Digraph.mem_walk_finished hbelow hroots, hedges]
    simp [Reaches]
  refine {
    cut := fun b hb hcycle => ?_
    onCycle := fun a b h => ?_
    empty := ?_
    cyclic := hvalid.hasCycle_iff }
  · refine Digraph.closing_cuts hbelow hroots (hreaches.mpr hb)
      (TransGen.mono (fun x y hedge => ?_) _ _ hcycle)
    obtain ⟨hy, hopen⟩ := List.mem_filter.mp hedge
    exact List.mem_filter.mpr ⟨(hsuccessors x y).mpr hy, by simpa [backEdges] using hopen⟩
  · obtain ⟨ha, hedge, hback⟩ :=
      Digraph.returns_of_mem_closing hbelow hroots (List.mem_reverse.mp h)
    rw [hedges] at hback
    exact ⟨hreaches.mp ha, (hsuccessors a b).mp hedge, hback⟩
  · have hnone := Digraph.closing_eq_nil_iff hbelow hroots
    rw [hedges] at hnone
    rw [backEdges, List.reverse_eq_nil_iff]
    exact hnone.trans (forall_congr' fun b => by rw [hreaches])

end FlowGraph

/-- A loop before a call that is tried again when it fails, by an edge to itself too, and two blocks
that lead to each other and that nothing else leads to. -/
def strandedParts : GraphParts where
  name := "stranded"
  blocks := #[⟨0, [], .special .entry (some 3)⟩, ⟨1, [], .special .exit none⟩,
    ⟨2, [], .special .exceptionalExit none⟩, ⟨3, [0], .regular 4⟩, ⟨4, [], .conditional 0 3 5⟩,
    ⟨5, [1], .exceptional (some 1) [("Busy", 5), ("Lost", 5), ("Late", 3)]⟩, ⟨6, [], .regular 7⟩,
    ⟨7, [], .regular 6⟩]
  nodes := #[⟨0, 3, .literal (.bool true)⟩, ⟨1, 5, .call none "fetch" []⟩]
  entry := 0
  exit := 1
  exceptionalExit := 2

theorem strandedParts_cutByBackEdges : ∃ g, strandedParts.toGraph = .ok g ∧ g.CutByBackEdges ∧
    g.backEdges = [(5, 3), (5, 5), (4, 3)] ∧ g.hasCycle = true := by
  have hok : (strandedParts.toGraph.toOption.bind fun g =>
      if g.backEdges = [(5, 3), (5, 5), (4, 3)] ∧ g.hasCycle = true then some g else none).isSome =
        true := by decide +kernel
  obtain ⟨g', h⟩ := Option.isSome_iff_exists.mp hok
  obtain ⟨g, hg, h⟩ := Option.bind_eq_some_iff.mp h
  have hedges := (Option.ite_none_right_eq_some.mp h).1
  have hg := ok_of_toOption hg
  exact ⟨g, hg, FlowGraph.Accepted.cutByBackEdges (.parts hg), hedges⟩

end FlowTyping
