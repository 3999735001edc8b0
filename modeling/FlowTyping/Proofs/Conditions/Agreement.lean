import FlowTyping.Proofs.Conditions.Embedding
import Mathlib.Data.List.Forall2
import Mathlib.Data.List.Sort

/-!
A boolean expression as a value and as a test. A test hands what an operand tells on to the next
operand, where the merges of a value join the ways that lead to them.
-/

namespace FlowTyping

open Build Building Relation

namespace Checker

variable {c : Checker} {V V' : NodeValues} {bound : Option Qualifier} {g g' : FlowGraph}
  {ρ : NodeId → NodeId} {findings findings' : List Finding}

theorem Requires.operand_mem {n : Node} {place : Nat} {r : Requirement}
    (h : c.Requires bound n place r) : r.operand ∈ n.kind.operands := by
  cases h with
  | assignLocal hn _ | assignField hn | returned hn _ | cast hn _ =>
      simp [hn, NodeKind.operands]
  | argument hn _ _ harg => simp [hn, NodeKind.operands, List.mem_of_getElem? harg]
  | receiver hn _ _ => simp [hn, NodeKind.operands]

/-- A node that joins paths or negates requires nothing. -/
theorem Requires.not_joins {n : Node} {place : Nat} {r : Requirement}
    (h : c.Requires bound n place r) :
    ¬ (n.kind.isMerge = true ∨ ∃ o, n.kind = .unary .not o) := by
  cases h with
  | assignLocal hn _ | assignField hn | argument hn _ _ _ | receiver hn _ _ | returned hn _
  | cast hn _ => simp [hn, NodeKind.isMerge]

/-- The requirements that the nodes of a graph break, in their order. -/
structure Finds (c : Checker) (g : FlowGraph) (V : NodeValues) (bound : Option Qualifier)
    (findings : List Finding) : Prop where
  ordered : findings.Pairwise Finding.Precedes
  mem : ∀ f, f ∈ findings ↔ g.node? f.node.id = some f.node ∧ c.Breaks V bound f

theorem Finds.unique (h : c.Finds g V bound findings) (h' : c.Finds g V bound findings') :
    findings = findings' := by
  have hasymm : Std.Asymm Finding.Precedes := ⟨by
    rintro f f' (hlt | ⟨heq, hlt⟩) (hlt' | ⟨heq', hlt'⟩)
    · exact Nat.lt_asymm hlt hlt'
    · exact Nat.lt_irrefl _ (heq' ▸ hlt)
    · exact Nat.lt_irrefl _ (heq ▸ hlt')
    · exact Nat.lt_asymm hlt hlt'⟩
  exact h.ordered.eq_of_mem_iff h'.ordered fun f => (h.mem f).trans (h'.mem f).symm

/-- A check that covers all nodes reports what breaks the requirements. -/
theorem exists_finds (hg : g.Accepted) {includeUnreachable : Bool} {found : List Diagnostic}
    (hall : ∀ node, g.node? node.id = some node → g.Includes includeUnreachable node ∧
      ∀ name ∈ node.kind.names, c.hierarchy.lookup? name ≠ none)
    (h : c.checkGraph g V bound includeUnreachable = .ok found) :
    ∃ findings, c.Finds g V bound findings ∧
      found = findings.map (Finding.diagnostic c.hierarchy) := by
  obtain ⟨lists, hlists, heq⟩ := bind_ok.mp h
  cases heq
  have hascending := (nodes_ascending hg.valid).filter fun node =>
    includeUnreachable || g.isReachable node.block
  obtain ⟨found, findings, hfound, hflatten, hordered, hmem⟩ :=
    c.mapM_checkNode V bound hascending fun node hnode =>
      (hall node ((mem_included hg).mp hnode).1).2
  cases hlists.symm.trans hfound
  refine ⟨findings, ⟨hordered, fun f => ?_⟩, hflatten⟩
  rw [hmem, mem_included hg]
  exact and_congr_left' ⟨And.left, fun hnode => (hall _ hnode).1⟩

end Checker

namespace FlowGraph.Embeds

variable {c : Checker} {V V' : NodeValues} {bound : Option Qualifier} {g g' : FlowGraph}
  {ρ : NodeId → NodeId} {findings findings' : List Finding} {f : Finding}

/-- What is found at a node, at the node that stands for it. -/
def finding (g' : FlowGraph) (ρ : NodeId → NodeId) (f : Finding) : Finding :=
  { f with
    node := (g'.node? (ρ f.node.id)).getD f.node
    requirement := f.requirement.relocate ρ }

/-- The node that a node stands for has its kind. -/
theorem node (h : g.Embeds ρ g') (hg' : g'.Valid) {n : Node} (hn : g.node? n.id = some n) :
    ∃ n', g'.node? n'.id = some n' ∧ n'.id = ρ n.id ∧ n'.kind = n.kind.relocate ρ := by
  obtain ⟨kind, hkind, hkind'⟩ := h.kinds n.id (Array.getElem?_eq_some_iff.mp hn).1
  rw [kindOf, hn] at hkind
  cases hkind
  obtain ⟨n', hn', heq⟩ := Option.map_eq_some_iff.mp hkind'
  have hid := hg'.node hn'
  exact ⟨n', hid.symm ▸ hn', hid, heq⟩

/-- A requirement that is broken is broken by qualifiers that are above. -/
theorem breaks (h : g.Embeds ρ g') (hg : g.Ordered) (hg' : g'.Valid) (hh : c.hierarchy.Lawful)
    (hV : ∀ k < g.nodeCount, ∀ q, V.getD k none = some q →
      ∃ q', V'.getD (ρ k) none = some q' ∧ c.hierarchy.isSubtype q q' = true)
    (hn : g.node? f.node.id = some f.node) (hf : c.Breaks V bound f) :
    ∃ f', g'.node? f'.node.id = some f'.node ∧ c.Breaks V' bound f' ∧ f'.node.id = ρ f.node.id ∧
      f'.requirement = f.requirement.relocate ρ := by
  obtain ⟨n', hn', hid, hkind⟩ := h.node hg' hn
  have ho : f.requirement.operand < g.nodeCount :=
    Nat.lt_trans (hg.operands hn _ hf.requires.operand_mem) (Array.getElem?_eq_some_iff.mp hn).1
  obtain ⟨q', hq', hle⟩ := hV _ ho _ hf.value
  refine ⟨⟨n', f.place, f.requirement.relocate ρ, q'⟩, hn', ⟨hf.requires.relocate hkind, hq', ?_⟩,
    hid, rfl⟩
  refine Bool.eq_false_iff.mpr fun hle' => ?_
  exact Bool.eq_false_iff.mp hf.broken (hh.le_trans hle hle')

theorem finding_eq {n' : Node} (hn' : g'.node? (ρ f.node.id) = some n') :
    finding g' ρ f = ⟨n', f.place, f.requirement.relocate ρ, f.found⟩ := by
  rw [finding, hn']
  rfl

theorem finding_id (h : g.Embeds ρ g') (hg' : g'.Valid) (hn : g.node? f.node.id = some f.node) :
    (finding g' ρ f).node.id = ρ f.node.id := by
  obtain ⟨n', hn', hid, -⟩ := h.node hg' hn
  rw [finding_eq (hid ▸ hn'), hid]

/-- What is found with the same qualifiers is the same. -/
theorem finds (h : g.Embeds ρ g') (hg : g.Valid) (hordered : g.Ordered) (hg' : g'.Valid)
    (hV : ∀ k < g.nodeCount, V'.getD (ρ k) none = V.getD k none)
    (hfinds : c.Finds g V bound findings) :
    c.Finds g' V' bound (findings.map (finding g' ρ)) := by
  have hoperand {f : Finding} (hn : g.node? f.node.id = some f.node)
      (hr : c.Requires bound f.node f.place f.requirement) :
      f.requirement.operand < g.nodeCount :=
    Nat.lt_trans (hordered.operands hn _ hr.operand_mem) (Array.getElem?_eq_some_iff.mp hn).1
  constructor
  · refine List.pairwise_map.mpr (hfinds.ordered.imp_of_mem fun {f f'} hf hf' hprecedes => ?_)
    have hid {f : Finding} (hf : f ∈ findings) : (finding g' ρ f).node.id = ρ f.node.id :=
      h.finding_id hg' ((hfinds.mem f).mp hf).1
    rw [Finding.Precedes, hid hf, hid hf']
    rcases hprecedes with hlt | ⟨heq, hlt⟩
    · have hn := ((hfinds.mem f').mp hf').1
      exact .inl (h.ascending _ (Array.getElem?_eq_some_iff.mp hn).1 _ hlt)
    · exact .inr ⟨congrArg ρ heq, hlt⟩
  · intro f'
    rw [List.mem_map]
    constructor
    · rintro ⟨f, hf, rfl⟩
      obtain ⟨hn, hf⟩ := (hfinds.mem f).mp hf
      obtain ⟨n', hn', hid, hkind⟩ := h.node hg' hn
      rw [finding_eq (hid ▸ hn')]
      exact ⟨hn', hf.requires.relocate hkind,
        (hV _ (hoperand hn hf.requires)).trans hf.value, hf.broken⟩
    · rintro ⟨hn', hf'⟩
      obtain ⟨k, hk, hid⟩ | hkind := h.others f'.node.id f'.node.kind (by rw [kindOf, hn']; rfl)
      · obtain ⟨n, hn⟩ : ∃ n, g.node? k = some n := ⟨_, Array.getElem?_eq_getElem hk⟩
        obtain rfl := hg.node hn
        obtain ⟨n', hnode, hid', hkind⟩ := h.node hg' hn
        rw [hid', hid, hn'] at hnode
        cases hnode
        obtain ⟨r, hr, heq⟩ := hf'.requires.of_relocate hkind
        have hvalue := hf'.value
        have hbroken := hf'.broken
        rw [heq] at hvalue hbroken
        refine ⟨⟨n, f'.place, r, f'.found⟩, (hfinds.mem _).mpr ⟨hn, hr, ?_, hbroken⟩, ?_⟩
        · exact (hV _ (hoperand (f := ⟨n, f'.place, r, f'.found⟩) hn hr)).symm.trans hvalue
        · rw [finding_eq (hid.symm ▸ hn'), ← heq]
      · exact absurd hkind hf'.requires.not_joins

end FlowGraph.Embeds

/-- The qualifiers that an analysis gives some nodes. -/
def AnalyzedUnit.qualifiersOf (a : AnalyzedUnit) (ids : List NodeId) : List (Option Qualifier) :=
  ids.map fun id => a.values.getD id none

theorem AnalyzedUnit.qualifiersOf_leafNodes (a : AnalyzedUnit) (e : Expr) :
    a.qualifiersOf (e.leafNodes 0) =
      (List.range e.extent.test).map fun k => a.values.getD (e.leafAt k) none := by
  rw [qualifiersOf, ← e.map_leafAt, List.map_map]
  rfl

/-- A diagnostic for the node that a node stands for, given the list of all these nodes. -/
structure Diagnostic.Mirrors (ids : List NodeId) (d d' : Diagnostic) : Prop where
  node : ids[d.node]? = some d'.node
  kind : d'.kind = d.kind
  required : d'.required = d.required
  subject : d'.subject = d.subject

/-- The requirement of a leaf is the one of the node that it stands for. -/
theorem Finding.mirrors {h : Hierarchy} {e : Expr} {f f' : Finding} (hk : f.node.id < e.extent.test)
    (hid : f'.node.id = e.leafAt f.node.id)
    (hrequirement : f'.requirement = f.requirement.relocate e.leafAt) :
    (f.diagnostic h).Mirrors (e.leafNodes 0) (f'.diagnostic h) where
  node := (e.getElem?_leafNodes hk).trans (congrArg some hid.symm)
  kind := by simp [Finding.diagnostic, hrequirement, Requirement.relocate]
  required := by simp [Finding.diagnostic, hrequirement, Requirement.relocate]
  subject := by simp [Finding.diagnostic, hrequirement, Requirement.relocate]

namespace Checker

variable {d : CheckerDeclaration} {c : Checker} {s : AnalysisSettings} {u : ProgramUnit} {e : Expr}
  {a a' : AnalyzedUnit} {initial : Store} {solved solved' : Solving TransferResult NodeValues}
  {p : Inlet} {n : Nat}

theorem analyze_checked (ha : c.analyze s u = .ok a) : ∃ bound, c.returnBound u = .ok bound ∧
    c.checkGraph a.graph a.values bound s.checkUnreachable = .ok a.diagnostics := by
  obtain ⟨g, -, ha⟩ := bind_ok.mp ha
  obtain ⟨rfl, initial, bound, limit, state, -, hbound, -, hconclude⟩ :=
    analyzeGraph_ok (Hierarchy.mapError_ok ha)
  obtain ⟨values, -, hdiagnostics⟩ := bind_ok.mp hconclude
  obtain ⟨diagnostics, hchecked, heq⟩ := bind_ok.mp hdiagnostics
  cases heq
  exact ⟨bound, hbound, hchecked⟩

/-- An analysis of such a unit reports the requirements that its nodes break. -/
theorem Analyzes.finds (hu : u.Realizes p n) (hc : c.Sound) (h : c.Analyzes s u a initial solved)
    {bound : Option Qualifier}
    (hchecked : c.checkGraph a.graph a.values bound s.checkUnreachable = .ok a.diagnostics) :
    ∃ findings, c.Finds a.graph a.values bound findings ∧
      a.diagnostics = findings.map (Finding.diagnostic c.hierarchy) := by
  refine exists_finds (.lowered h.lower) (fun node hnode => ?_) hchecked
  obtain ⟨⟨q, hq⟩, hnames⟩ := hu.evaluates hc h hnode
  obtain ⟨node', hnode', hreached⟩ := h.fit.reached_of_value h.steps hq
  cases hnode.symm.trans hnode'
  exact ⟨⟨hnode, .inr hreached⟩, hnames⟩

/-- Every node of such a unit has the qualifier that solving leaves. -/
theorem Analyzes.values (hu : u.Realizes p n) (hc : c.Sound) (h : c.Analyzes s u a initial solved)
    {k : NodeId} (hk : k < a.graph.nodeCount) :
    ∃ q, solved.state.getD k none = some q ∧ a.values.getD k none = some q := by
  obtain ⟨⟨q, hq⟩, -⟩ := hu.evaluates hc h (Array.getElem?_eq_getElem hk)
  exact ⟨q, hq, h.recorded hq⟩

theorem Analyzes.has (h : c.Analyzes s u a initial solved) {k : NodeId} {q : Qualifier}
    (hq : solved.state.getD k none = some q) : c.hierarchy.Has q :=
  (h.fit.sane h.steps).state.le.has h.fit.sound.lawful hq

theorem under_of_has (hc : c.Sound) {V : NodeValues} (hsize : V.size = n)
    (hhas : ∀ k q, V.getD k none = some q → c.hierarchy.Has q) : V.Under c.hierarchy n V :=
  have hle : V.Le c.hierarchy V := fun k q hq => ⟨q, hq, hc.lawful.le_refl (hhas k q hq)⟩
  ⟨hsize, hsize, hle, hle⟩

/-- A table of qualifiers, node by node. -/
def tableOf (n : Nat) (value : NodeId → Option Qualifier) : NodeValues :=
  Array.ofFn fun k : Fin n => value k

theorem getD_tableOf {value : NodeId → Option Qualifier} {k : NodeId} :
    (tableOf n value).getD k none = if k < n then value k else none := by
  rw [Array.getD_eq_getD_getElem?, tableOf, Array.getElem?_ofFn]
  split <;> rfl

/-- What is computed for a test is below what is computed for the leaves of the value. -/
theorem Analyzes.test_le_value (hc : c.Sound)
    (h : c.Analyzes s (u.testing e) a initial solved)
    (h' : c.Analyzes s (u.stating e) a' initial solved') {k : NodeId} {q : Qualifier}
    (hq : solved.state.getD k none = some q) :
    ∃ q', solved'.state.getD (e.leafAt k) none = some q' ∧
      c.hierarchy.isSubtype q q' = true := by
  have hcount := ((ProgramUnit.testing_realizes u e).kinds h.lower).1
  let V := tableOf e.extent.test fun k => solved'.state.getD (e.leafAt k) none
  have hV {k : NodeId} (hk : k < e.extent.test) :
      V.getD k none = solved'.state.getD (e.leafAt k) none :=
    getD_tableOf.trans (if_pos hk)
  have hunder : V.Under c.hierarchy a.graph.nodeCount V := by
    refine under_of_has hc (by simp [V, tableOf, hcount]) fun k q hq => ?_
    rw [getD_tableOf] at hq
    split at hq
    · exact h'.has hq
    · cases hq
  have hembeds := ProgramUnit.leaves_embed h.lower h'.lower
  have hmoves : (hc.transit a'.graph initial solved'.state).Moves
      (hc.transit a.graph initial V) e.leafAt e.extent.test :=
    Checker.Sound.transit_moves fun o ho =>
      hembeds.moved h.fit.ordered h'.fit.ordered (hcount ▸ ho) (hV ho).symm
  obtain ⟨f, hle, f', hvalue⟩ := (ProgramUnit.stating_realizes u e).passes hc h'
  have htest := e.test_of_value hmoves Checker.Sound.transit_outcomes e.lands_leafAt hvalue
    ⟨f', le_refl _, le_refl _, le_refl _⟩
  have hbelow := (ProgramUnit.testing_realizes u e).least hc h hunder hle ⟨_, _, htest⟩
  obtain ⟨q', hq', hsubtype⟩ := hbelow k q hq
  rw [getD_tableOf] at hq'
  split at hq'
  · exact ⟨q', hq', hsubtype⟩
  · cases hq'

/-- Where no operation tests a value that is merged, the leaves of the value get no more than what
is computed for the test. -/
theorem Analyzes.value_le_test (hc : c.Sound) (hkeeps : e.keepsTests = true)
    (h : c.Analyzes s (u.testing e) a initial solved)
    (h' : c.Analyzes s (u.stating e) a' initial solved') {k : NodeId} {q' : Qualifier}
    (hk : k < e.extent.test) (hq' : solved'.state.getD (e.leafAt k) none = some q') :
    ∃ q, solved.state.getD k none = some q ∧ c.hierarchy.isSubtype q' q = true := by
  have hcount := ((ProgramUnit.testing_realizes u e).kinds h.lower).1
  have hcount' := ((ProgramUnit.stating_realizes u e).kinds h'.lower).1
  -- The leaves have the qualifiers of the test, and of the other nodes nothing is known.
  let V := tableOf e.extent.value fun id =>
    if id ∈ e.leafNodes 0 then solved.state.getD ((e.leafNodes 0).idxOf id) none
    else some c.hierarchy.top
  have hV {k : NodeId} (hk : k < e.extent.test) :
      V.getD (e.leafAt k) none = solved.state.getD k none := by
    have hmem := e.mem_leafNodes_iff.mpr ⟨k, hk, rfl⟩
    have hlt := (e.mem_leafNodes hmem).2
    rw [Nat.zero_add] at hlt
    obtain ⟨hk', heq⟩ := List.getElem?_eq_some_iff.mp (e.getElem?_leafNodes hk)
    have hnodup : (e.leafNodes 0).Nodup := (e.leafNodes_ascending 0).imp Nat.ne_of_lt
    have hidx : (e.leafNodes 0).idxOf (e.leafAt k) = k := by
      rw [← heq]
      exact hnodup.idxOf_getElem k hk'
    rw [getD_tableOf, if_pos hlt, if_pos hmem, hidx]
  have htop {id : NodeId} (hid : id < e.extent.value) (hleaf : id ∉ e.leafNodes 0) :
      V.getD id none = some c.hierarchy.top := by
    rw [getD_tableOf, if_pos hid, if_neg hleaf]
  have hholds {id : NodeId} (hid : id < e.extent.value) : V.Holds id := by
    by_cases hleaf : id ∈ e.leafNodes 0
    · obtain ⟨k, hk, rfl⟩ := e.mem_leafNodes_iff.mp hleaf
      obtain ⟨q, hq, -⟩ := h.values (ProgramUnit.testing_realizes u e) hc (hcount ▸ hk)
      exact ⟨q, (hV hk).trans hq⟩
    · exact ⟨_, htop hid hleaf⟩
  have hunder : V.Under c.hierarchy a'.graph.nodeCount V := by
    refine under_of_has hc (by simp [V, tableOf, hcount']) fun id q hq => ?_
    rw [getD_tableOf] at hq
    split at hq
    · split at hq
      · exact h.has hq
      · cases hq
        exact hc.lawful.has_top
    · cases hq
  have hembeds := ProgramUnit.leaves_embed h.lower h'.lower
  have hmoves : (hc.transit a'.graph initial V).Moves
      (hc.transit a.graph initial solved.state) e.leafAt e.extent.test :=
    Checker.Sound.transit_moves fun o ho =>
      hembeds.moved h.fit.ordered h'.fit.ordered (hcount ▸ ho) (hV ho)
  obtain ⟨f, hle, t, el, htest⟩ := (ProgramUnit.testing_realizes u e).passes hc h
  obtain ⟨f', hvalue, -⟩ := e.value_of_test hmoves Checker.Sound.le_lost hkeeps e.lands_leafAt
    (fun id hid => by
      have hlt := e.lt_of_mem_joinNodes hid
      rw [Nat.zero_add] at hlt
      exact Checker.Sound.transit_free hunder.le (fun o ho => hholds (Nat.lt_trans ho hlt))
        (htop hlt fun hleaf => e.not_mem_joinNodes hleaf hid)) htest
  have hbelow := (ProgramUnit.stating_realizes u e).least hc h' hunder hle ⟨f', hvalue⟩
  obtain ⟨q, hq, hsubtype⟩ := hbelow _ q' hq'
  exact ⟨q, (hV hk).symm.trans hq, hsubtype⟩

/-- The leaves of the value are recorded above the nodes of the test. -/
theorem Analyzes.values_le (hc : c.Sound) (h : c.Analyzes s (u.testing e) a initial solved)
    (h' : c.Analyzes s (u.stating e) a' initial solved') {k : NodeId} (hk : k < e.extent.test) :
    ∃ q ∈ a.values.getD k none, ∃ q' ∈ a'.values.getD (e.leafAt k) none,
      c.hierarchy.isSubtype q q' = true := by
  have hrealizes := ProgramUnit.testing_realizes u e
  obtain ⟨q, hsolved, hq⟩ := h.values hrealizes hc ((hrealizes.kinds h.lower).1 ▸ hk)
  obtain ⟨q', hsolved', hle⟩ := h.test_le_value hc h' hsolved
  exact ⟨q, hq, q', h'.recorded hsolved', hle⟩

/-- Where no operation tests a value that is merged, they are recorded with the same. -/
theorem Analyzes.values_eq (hc : c.Sound) (hkeeps : e.keepsTests = true)
    (h : c.Analyzes s (u.testing e) a initial solved)
    (h' : c.Analyzes s (u.stating e) a' initial solved') {k : NodeId} (hk : k < e.extent.test) :
    a'.values.getD (e.leafAt k) none = a.values.getD k none := by
  have hrealizes := ProgramUnit.testing_realizes u e
  obtain ⟨q, hsolved, hq⟩ := h.values hrealizes hc ((hrealizes.kinds h.lower).1 ▸ hk)
  obtain ⟨q', hsolved', hle⟩ := h.test_le_value hc h' hsolved
  obtain ⟨q₁, hsolved₁, hge⟩ := h.value_le_test hc hkeeps h' hk hsolved'
  cases hsolved.symm.trans hsolved₁
  rw [hq, h'.recorded hsolved', hc.lawful.le_antisymm hle hge]

/-- A boolean expression as a value and as a test. No leaf has a lower qualifier in the value, and
what is reported of the test is reported of the value. Where no short-circuit operation tests a
value that is merged, the leaves have the same qualifiers and the same is reported. -/
theorem analyze_positions (hc : ofDeclaration d = .ok c)
    (htest : c.analyze s (u.testing e) = .ok a) (hvalue : c.analyze s (u.stating e) = .ok a') :
    List.Forall₂ (fun v v' => ∃ q ∈ v, ∃ q' ∈ v', c.hierarchy.isSubtype q q' = true)
      (a.qualifiersOf (.range a.graph.nodeCount)) (a'.qualifiersOf (e.leafNodes 0)) ∧
    (∀ d ∈ a.diagnostics, ∃ d' ∈ a'.diagnostics, d.Mirrors (e.leafNodes 0) d') ∧
    (e.keepsTests = true →
      a.qualifiersOf (.range a.graph.nodeCount) = a'.qualifiersOf (e.leafNodes 0) ∧
      List.Forall₂ (fun d d' => d.Mirrors (e.leafNodes 0) d' ∧ d'.found = d.found)
        a.diagnostics a'.diagnostics) := by
  have hsound := ofDeclaration_sound hc
  have hrealizes := ProgramUnit.testing_realizes u e
  have hrealizes' := ProgramUnit.stating_realizes u e
  obtain ⟨initial, solved, h⟩ := analyze_steps hc htest
  obtain ⟨initial', solved', h'⟩ := analyze_steps hc hvalue
  obtain rfl : initial = initial' := Except.ok.inj (h.store.symm.trans h'.store)
  obtain ⟨bound, hbound, hchecked⟩ := analyze_checked htest
  obtain ⟨bound', hbound', hchecked'⟩ := analyze_checked hvalue
  obtain rfl : bound = bound' := Except.ok.inj (hbound.symm.trans hbound')
  obtain ⟨findings, hfinds, hfound⟩ := h.finds hrealizes hsound hchecked
  obtain ⟨findings', hfinds', hfound'⟩ := h'.finds hrealizes' hsound hchecked'
  have hembeds := ProgramUnit.leaves_embed h.lower h'.lower
  have hcount := (hrealizes.kinds h.lower).1
  have hlt {f : Finding} (hn : a.graph.node? f.node.id = some f.node) :
      f.node.id < e.extent.test :=
    hcount ▸ (Array.getElem?_eq_some_iff.mp hn).1
  have hle {k : NodeId} (hk : k < a.graph.nodeCount) := h.values_le hsound h' (hcount ▸ hk)
  refine ⟨?_, ?_, fun hkeeps => ?_⟩
  · rw [AnalyzedUnit.qualifiersOf_leafNodes, AnalyzedUnit.qualifiersOf, hcount,
      List.forall₂_map_left_iff, List.forall₂_map_right_iff, List.forall₂_same]
    exact fun k hk => h.values_le hsound h' (List.mem_range.mp hk)
  · rw [hfound, hfound']
    intro d hd
    obtain ⟨f, hf, rfl⟩ := List.mem_map.mp hd
    obtain ⟨hn, hbreaks⟩ := (hfinds.mem f).mp hf
    obtain ⟨f', hn', hbreaks', hid, hrequirement⟩ := hembeds.breaks h.fit.ordered h'.fit.valid
      hsound.lawful (fun k hk q hq => by
        obtain ⟨_, hq₁, q', hq', hsubtype⟩ := hle hk
        cases hq.symm.trans hq₁
        exact ⟨q', hq', hsubtype⟩) hn hbreaks
    exact ⟨_, List.mem_map_of_mem ((hfinds'.mem f').mpr ⟨hn', hbreaks'⟩),
      Finding.mirrors (hlt hn) hid hrequirement⟩
  · have hsame {k : NodeId} (hk : k < a.graph.nodeCount) :
        a'.values.getD (e.leafAt k) none = a.values.getD k none :=
      h.values_eq hsound hkeeps h' (hcount ▸ hk)
    refine ⟨?_, ?_⟩
    · rw [AnalyzedUnit.qualifiersOf_leafNodes, AnalyzedUnit.qualifiersOf, ← hcount]
      exact List.map_congr_left fun k hk => (hsame (List.mem_range.mp hk)).symm
    · obtain rfl := hfinds'.unique
        (hembeds.finds h.fit.valid h.fit.ordered h'.fit.valid (fun _ => hsame) hfinds)
      rw [hfound, hfound', List.map_map, List.forall₂_map_left_iff, List.forall₂_map_right_iff,
        List.forall₂_same]
      intro f hf
      have hn := ((hfinds.mem f).mp hf).1
      exact ⟨Finding.mirrors (hlt hn) (hembeds.finding_id h'.fit.valid hn) rfl, rfl⟩

end Checker

/-- A unit with a node and a flag. -/
def optionalUnit : ProgramUnit where
  name := "guarded"
  params := [⟨"x", none⟩, ⟨"c", none⟩]
  returnQualifier := none
  body := []

/-- A call that is only made for a node that is present. -/
def guardedCall : Expr :=
  .binary .and
    (.binary .and (.call none "isPresent" [.var "x"] []) (.var "c"))
    (.call none "next" [.var "x"] [])

/-- The merge of the left operand forgets that the node is present. -/
theorem guardedCall_forgets : ∃ c a a', Checker.ofDeclaration presence = .ok c ∧
    c.analyze .standard (optionalUnit.testing guardedCall) = .ok a ∧
    c.analyze .standard (optionalUnit.stating guardedCall) = .ok a' ∧
    a.qualifiersOf (.range a.graph.nodeCount) ≠ a'.qualifiersOf (guardedCall.leafNodes 0) ∧
    a.diagnostics = [] ∧ a'.diagnostics ≠ [] := by
  have hok : ((Checker.ofDeclaration presence).toOption.bind fun c =>
      (c.analyze .standard (optionalUnit.testing guardedCall)).toOption.bind fun a =>
        (c.analyze .standard (optionalUnit.stating guardedCall)).toOption.map fun a' =>
          decide (a.qualifiersOf (.range a.graph.nodeCount) ≠
              a'.qualifiersOf (guardedCall.leafNodes 0)) &&
            a.diagnostics.isEmpty && !a'.diagnostics.isEmpty) = some true := by decide +kernel
  obtain ⟨c, hc, hok⟩ := Option.bind_eq_some_iff.mp hok
  obtain ⟨a, ha, hok⟩ := Option.bind_eq_some_iff.mp hok
  obtain ⟨a', ha', hok⟩ := Option.map_eq_some_iff.mp hok
  simp only [Bool.and_eq_true, decide_eq_true_eq, List.isEmpty_iff, Bool.not_eq_true',
    List.isEmpty_eq_false_iff] at hok
  exact ⟨c, a, a', ok_of_toOption hc, ok_of_toOption ha, ok_of_toOption ha', hok.1.1, hok.1.2,
    hok.2⟩

/-- The same calls, one of them where the node is absent. -/
def guardedCalls : Expr :=
  .ternary (.call none "isPresent" [.var "x"] [])
    (.binary .and (.unary .not (.var "c")) (.call none "next" [.var "x"] []))
    (.unary .not (.call none "next" [.var "x"] []))

/-- Nothing is forgotten where the merged values are not tested. -/
theorem guardedCalls_agree : ∃ c a a', Checker.ofDeclaration presence = .ok c ∧
    c.analyze .standard (optionalUnit.testing guardedCalls) = .ok a ∧
    c.analyze .standard (optionalUnit.stating guardedCalls) = .ok a' ∧
    a.diagnostics.length = 1 ∧
    a.qualifiersOf (.range a.graph.nodeCount) = a'.qualifiersOf (guardedCalls.leafNodes 0) ∧
    List.Forall₂ (fun d d' => d.Mirrors (guardedCalls.leafNodes 0) d' ∧ d'.found = d.found)
      a.diagnostics a'.diagnostics := by
  have hok : ((Checker.ofDeclaration presence).toOption.bind fun c =>
      (c.analyze .standard (optionalUnit.testing guardedCalls)).toOption.bind fun a =>
        (c.analyze .standard (optionalUnit.stating guardedCalls)).toOption.map fun _ =>
          a.diagnostics.length) = some 1 := by decide +kernel
  obtain ⟨c, hc, hok⟩ := Option.bind_eq_some_iff.mp hok
  obtain ⟨a, ha, hok⟩ := Option.bind_eq_some_iff.mp hok
  obtain ⟨a', ha', hlength⟩ := Option.map_eq_some_iff.mp hok
  have hc := ok_of_toOption hc
  have ha := ok_of_toOption ha
  have ha' := ok_of_toOption ha'
  obtain ⟨hsame, hmirrors⟩ := (Checker.analyze_positions hc ha ha').2.2 (by decide)
  exact ⟨c, a, a', hc, ha, ha', hlength, hsame, hmirrors⟩

end FlowTyping
