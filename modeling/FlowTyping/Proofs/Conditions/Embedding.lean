import FlowTyping.Proofs.Conditions.Solutions
import FlowTyping.Proofs.Conditions.Twins
import FlowTyping.Proofs.Conditions.Units
import FlowTyping.Proofs.Flow.Keys
import Mathlib.Order.CompletePartialOrder

/-!
What is computed for the nodes of a unit with a single expression. Results pass through the code of
the expression with the qualifiers that are computed, and these are the least with which they do.
The code of the expression as a test is that of its leaves as a value: the nodes of the test stand
for some of the nodes of the value, in their order, and the others only join or negate.
-/

namespace FlowTyping

open Build Building Layout Relation

/-- Nothing passes through nodes but which kinds they have. -/
def Transit.ofKinds (p : NodeId → NodeKind → Prop) : Transit Unit where
  step id kind _ _ := p id kind
  whenTrue := id
  whenFalse := id
  caught := id
  caught_mono := monotone_id
  lost := ()

/-- The kinds of the nodes of a graph. -/
def FlowGraph.kinds (g : FlowGraph) : Transit Unit :=
  .ofKinds fun id kind => g.kindOf id = some kind

namespace Transit

variable {p : NodeId → NodeKind → Prop} {ρ : NodeId → NodeId} {n : Nat} {F : BlockId → Unit}
  {b : Building} {R : Registry}

theorem ofKinds_preserves : (ofKinds p).Preserves fun _ => True where
  mono _ _ := trivial
  step _ _ := trivial
  whenTrue _ := trivial
  whenFalse _ := trivial

theorem ofKinds_outcomes : (ofKinds p).Outcomes where
  whenTrue_mono := monotone_id
  whenFalse_mono := monotone_id
  whenTrue_le _ := le_refl ()
  whenFalse_le _ := le_refl ()
  caught_le_whenTrue _ := le_refl ()
  caught_le_whenFalse _ := le_refl ()
  whenTrue_le_caught _ := le_refl ()
  whenFalse_le_caught _ := le_refl ()
  merge _ _ := le_refl ()
  negation _ := ⟨le_refl (), le_refl ()⟩

theorem ofKinds_moves :
    (ofKinds p).Moves (ofKinds fun id kind => p (ρ id) (kind.relocate ρ)) ρ n where
  step _ _ := Iff.rfl
  whenTrue := rfl
  whenFalse := rfl
  caught := rfl
  lost := rfl

theorem ofKinds_labels (hc : b.Coherent R)
    (hp : ∀ id n, b.nodes[id]? = some n → p id n.kind) : (ofKinds p).Labels F b := by
  intro i d hd
  refine ⟨(), ?_, ?_⟩
  · have hlisted := (hc.listed i d hd).2
    generalize d.nodes = ids at hlisted
    induction ids with
    | nil => exact le_refl ()
    | cons id rest ih =>
        obtain ⟨⟨n, hn, -⟩, hrest⟩ := List.forall_mem_cons.mp hlisted
        exact ⟨n, (), hn, ⟨(), (), le_refl (), hp id n hn, le_refl ()⟩, ih hrest⟩
  · cases d.exits with
    | openEnd => trivial
    | goto => exact le_refl ()
    | branch => exact ⟨le_refl (), le_refl ()⟩
    | raise => exact ⟨fun _ _ => le_refl (), fun _ _ => le_refl ()⟩
    | special => exact fun _ _ => le_refl ()

end Transit

/-- The kinds of the nodes of a graph are those of a construction. -/
theorem kindOf_of_parts {b : Building} {name : String} {g : FlowGraph}
    (hparts : g.toGraphParts = b.layout.parts name) {id : NodeId} {n : Node}
    (hn : b.nodes[id]? = some n) : g.kindOf id = some n.kind := by
  have hn : b.layout.nodes[id]? = some n := hn
  rw [FlowGraph.kindOf, FlowGraph.node?, hparts]
  simp [Layout.parts, hn]

theorem nodeCount_of_parts {b : Building} {name : String} {g : FlowGraph}
    (hparts : g.toGraphParts = b.layout.parts name) : g.nodeCount = b.nodes.size := by
  rw [FlowGraph.nodeCount, hparts]
  simp [Layout.parts, layout]

/-- Facts pass through the code of a unit where they pass through an inlet with as many nodes: from
a fact at the entry on, the blocks can be labelled just if the inlet takes what the entry lets
through. -/
structure ProgramUnit.Realizes (u : ProgramUnit) (p : Inlet) (n : Nat) : Prop where
  labelled : ∀ {Fact : Type} [Preorder Fact] {A : Transit Fact} {b : Building} (f₀ : Fact),
    (∀ f, f ≤ A.lost) → u.build.run (Build.start u.params) = .ok ((), b) →
    b.nodes.size = n ∧ (∃ R, b.Coherent R) ∧
      ((∃ F, F entryId = f₀ ∧ F exitId = A.lost ∧ F exceptionalExitId = A.lost ∧ A.Labels F b) ↔
        ∃ f, A.caught f₀ ≤ f ∧ p Fact A f)
  fills : p.Fills 0 n

namespace ProgramUnit

variable {u : ProgramUnit} {p : Inlet} {n : Nat}

theorem stating_realizes (u : ProgramUnit) (e : Expr) : (u.stating e).Realizes
    (fun _ _ A f => ∃ f', (e.course A u.bodyScopes).value 0 f f') e.extent.value where
  labelled f₀ htop hrun := by
    obtain ⟨hsize, hc, hlabelled⟩ := (u.stating e).build_labelled (.single (.expr e)) htop hrun
    refine ⟨hsize, hc, hlabelled.trans ?_⟩
    exact exists_congr fun f => exists_and_left
  fills := (e.courses_fill.value 0).nodes

theorem testing_realizes (u : ProgramUnit) (e : Expr) : (u.testing e).Realizes
    (fun _ _ A f => ∃ t el, (e.course A u.bodyScopes).test 0 f t el) e.extent.test where
  labelled f₀ htop hrun := by
    obtain ⟨hsize, hc, hlabelled⟩ := (u.testing e).build_labelled (.single (.ifElse e)) htop hrun
    refine ⟨hsize, hc, hlabelled.trans ?_⟩
    constructor
    · rintro ⟨f, -, hf, t, el, hcourse, -⟩
      exact ⟨f, hf, t, el, hcourse⟩
    · rintro ⟨f, hf, t, el, hcourse⟩
      exact ⟨f, _, hf, t, el, hcourse, htop t, htop el⟩
  fills := e.courses_fill.test 0

namespace Realizes

/-- The nodes of the graph of a unit are those of the inlet. -/
theorem kinds (hu : u.Realizes p n) {g : FlowGraph} (h : u.lower = .ok g) :
    g.nodeCount = n ∧ p Unit g.kinds () := by
  obtain ⟨b, hrun, hfinish⟩ := u.run_of_lower h
  have hparts := Layout.finish_parts hfinish
  obtain ⟨hsize, ⟨R, hc⟩, hlabelled⟩ := hu.labelled (A := g.kinds) () (fun _ => le_refl ()) hrun
  have hlabels : g.kinds.Labels (fun _ => ()) b :=
    Transit.ofKinds_labels hc fun id n hn => kindOf_of_parts hparts hn
  obtain ⟨f, -, hp⟩ := hlabelled.mp ⟨_, rfl, rfl, rfl, hlabels⟩
  exact ⟨(nodeCount_of_parts hparts).trans hsize, hp⟩

variable {c : Checker} {s : AnalysisSettings} {a : AnalyzedUnit} {initial : Store}
  {solved : Solving TransferResult NodeValues}

/-- Results pass through the code of a unit with the qualifiers that an analysis computes. -/
theorem passes (hu : u.Realizes p n) (hc : c.Sound) (h : c.Analyzes s u a initial solved) :
    ∃ f, ((hc.start h.fit.initial).collapsed : WithBot (LiveResult hc.lawful)) ≤ f ∧
      p _ (hc.transit a.graph initial solved.state) f := by
  obtain ⟨b, hrun, hfinish⟩ := u.run_of_lower h.lower
  have hlaw : CopyLaw.Holds fun _ _ _ _ _ _ => True := fun _ _ => True.intro
  obtain ⟨hlaid, R, hcoherent⟩ := ProgramUnit.build_spec hlaw hrun
  have htop (f : WithBot (LiveResult hc.lawful)) :
      f ≤ (hc.transit a.graph initial solved.state).lost := Checker.Sound.le_lost f
  have hparts := Layout.finish_parts hfinish
  obtain ⟨F, hreads⟩ := hc.exists_reads h.fit h.steps b.layout
  have hF := hreads.spans h.fit hparts hcoherent.whole hlaid.exit hlaid.exceptionalExit h.steps
    h.empty
  have hexit := hreads.lost exitId (.inl rfl)
  rw [Transit.spans_layout fun f => hexit ▸ htop f] at hF
  have hentry : (hc.start h.fit.initial) ≤ F entryId := by
    obtain ⟨f, hf, hle⟩ := h.fit.entry_under h.steps h.empty
    have hstart : a.graph.entry = Layout.rename b.layout.drafts entryId :=
      congrArg GraphParts.entry hparts
    exact hreads.le (hstart ▸ hf) ((h.fit.sane h.steps).facts.before _ f hf) hle
  obtain ⟨f, hle, hp⟩ := (hu.labelled _ htop hrun).2.2.mp
    ⟨F, rfl, hexit, hreads.lost exceptionalExitId (.inr rfl), hF⟩
  exact ⟨f, (LiveResult.collapsed_mono.withBot_map hentry).trans hle, hp⟩

/-- These qualifiers are the least with which results pass. -/
theorem least (hu : u.Realizes p n) (hc : c.Sound) (h : c.Analyzes s u a initial solved)
    {V : NodeValues} (hV : V.Under c.hierarchy a.graph.nodeCount V)
    {f : WithBot (LiveResult hc.lawful)}
    (hle : ((hc.start h.fit.initial).collapsed : WithBot (LiveResult hc.lawful)) ≤ f)
    (hp : p _ (hc.transit a.graph initial V) f) : solved.state.Le c.hierarchy V := by
  obtain ⟨b, hrun, hfinish⟩ := u.run_of_lower h.lower
  have hlaw : CopyLaw.Holds fun _ _ _ _ _ _ => True := fun _ _ => True.intro
  obtain ⟨-, R, hcoherent⟩ := ProgramUnit.build_spec hlaw hrun
  have htop (f : WithBot (LiveResult hc.lawful)) :
      f ≤ (hc.transit a.graph initial V).lost := Checker.Sound.le_lost f
  obtain ⟨F, hentry, hexit, -, hF⟩ :=
    (hu.labelled (hc.start h.fit.initial : WithBot (LiveResult hc.lawful)) htop hrun).2.2.mpr
      ⟨f, hle, hp⟩
  rw [← Transit.spans_layout fun f => hexit ▸ htop f] at hF
  exact Checker.Sound.solved_le h.fit (Layout.finish_parts hfinish) hcoherent.whole hV h.steps
    hentry.ge hF

/-- Results pass through every node, which then has a qualifier and names known ones. -/
theorem evaluates (hu : u.Realizes p n) (hc : c.Sound) (h : c.Analyzes s u a initial solved)
    {id : NodeId} {node : Node} (hnode : a.graph.node? id = some node) :
    solved.state.Holds id ∧ ∀ name ∈ node.kind.names, c.hierarchy.lookup? name ≠ none := by
  obtain ⟨hcount, hkinds⟩ := hu.kinds h.lower
  obtain ⟨f, hle, hp⟩ := hu.passes hc h
  have hlt : id < n := hcount ▸ (Array.getElem?_eq_some_iff.mp hnode).1
  obtain ⟨kind, hvisits⟩ := hu.fills id hlt
  obtain ⟨_, _, -, hkind⟩ := hvisits Transit.ofKinds_preserves hkinds trivial
  have hpreserves : (hc.transit a.graph initial solved.state).Preserves (· ≠ ⊥) :=
    Checker.Sound.transit_preserves
  have hlive := hvisits hpreserves hp (hpreserves.mono hle WithBot.coe_ne_bot)
  rw [Nat.zero_add] at hkind hlive
  have heq : node.kind = kind := by
    have hkind : a.graph.kindOf id = some kind := hkind
    rw [FlowGraph.kindOf, hnode] at hkind
    exact Option.some.inj hkind
  exact ⟨Checker.Sound.holds_of_visits hlive, heq ▸ Checker.Sound.names_of_visits hlive⟩

end Realizes

end ProgramUnit

/-- The nodes of a graph stand for nodes of another one, with operands that stand for operands.
What stands for no node joins two paths or negates. -/
structure FlowGraph.Embeds (ρ : NodeId → NodeId) (g g' : FlowGraph) : Prop where
  kinds : ∀ k < g.nodeCount, ∃ kind, g.kindOf k = some kind ∧
    g'.kindOf (ρ k) = some (kind.relocate ρ)
  ascending : ∀ k < g.nodeCount, ∀ j < k, ρ j < ρ k
  others : ∀ (id : NodeId) (kind : NodeKind), g'.kindOf id = some kind →
    (∃ k < g.nodeCount, ρ k = id) ∨ kind.isMerge = true ∨ ∃ o, kind = .unary .not o

namespace FlowGraph.Embeds

variable {ρ : NodeId → NodeId} {g g' : FlowGraph} {c : Checker} {k : NodeId}

/-- What stands for a node has its key. -/
theorem keyOf_eq (h : g.Embeds ρ g') (hg : g.Ordered) (hg' : g'.Ordered) (hk : k < g.nodeCount) :
    c.keyOf g' (ρ k) = c.keyOf g k := by
  induction k using Nat.strongRecOn with
  | ind k ih =>
      obtain ⟨kind, hkind, hkind'⟩ := h.kinds k hk
      rw [Checker.keyOf_eq hg', Checker.keyOf_eq hg, hkind, hkind']
      refine Checker.nodeKey_relocate fun o ho => ?_
      have hlt := Checker.lt_of_operand hg hkind ho
      exact ih o hlt (Nat.lt_trans hlt hk)

theorem moved (h : g.Embeds ρ g') (hg : g.Ordered) (hg' : g'.Ordered) {initial : Store}
    {V V' : NodeValues} (hk : k < g.nodeCount) (hvalue : V'.getD (ρ k) none = V.getD k none) :
    UnitAnalysis.Moved (.new c g initial) (.new c g' initial) V V' ρ k :=
  ⟨hvalue, h.keyOf_eq hg hg' hk⟩

end FlowGraph.Embeds

theorem Expr.lands_leafAt (e : Expr) : Lands e.leafAt e.extent.test 0 (e.leafNodes 0) := by
  refine ⟨by rw [e.length_leafNodes, Nat.zero_add], ?_⟩
  rw [e.length_leafNodes, ← List.range_eq_range', map_leafAt]

namespace ProgramUnit

variable {u : ProgramUnit} {e : Expr} {g g' : FlowGraph}

/-- The code of an expression as a test stands for the leaves of its code as a value. -/
theorem leaves_embed (h : (u.testing e).lower = .ok g) (h' : (u.stating e).lower = .ok g') :
    g.Embeds e.leafAt g' := by
  obtain ⟨hcount, hp⟩ := (testing_realizes u e).kinds h
  obtain ⟨hcount', ⟨⟩, hvalue⟩ := (stating_realizes u e).kinds h'
  refine ⟨fun k hk => ?_, fun k hk j hj => e.leafAt_lt (hcount ▸ hk) hj, fun id kind hkind => ?_⟩
  · have htest := e.test_of_value Transit.ofKinds_moves Transit.ofKinds_outcomes e.lands_leafAt
      hvalue ⟨(), le_refl (), le_refl (), le_refl ()⟩
    obtain ⟨kind, hvisits⟩ := (testing_realizes u e).fills k (hcount ▸ hk)
    obtain ⟨_, _, -, hkind⟩ := hvisits Transit.ofKinds_preserves hp trivial
    obtain ⟨_, _, -, hkind'⟩ := hvisits Transit.ofKinds_preserves ⟨(), (), htest⟩ trivial
    rw [Nat.zero_add] at hkind hkind'
    exact ⟨kind, hkind, hkind'⟩
  · by_cases hleaf : id ∈ e.leafNodes 0
    · rw [hcount]
      exact .inl (e.mem_leafNodes_iff.mp hleaf)
    · have hlt : id < e.extent.value := by
        obtain ⟨n, hn, -⟩ := Option.map_eq_some_iff.mp hkind
        exact hcount' ▸ (Array.getElem?_eq_some_iff.mp hn).1
      obtain ⟨kind', _, _, hstep, hkind'⟩ := e.step_of_mem_joinNodes hvalue
        ((e.mem_leafNodes_or (Nat.zero_le id) ((Nat.zero_add _).symm ▸ hlt)).resolve_left hleaf)
      cases hkind.symm.trans hstep
      exact .inr hkind'

end ProgramUnit

end FlowTyping
