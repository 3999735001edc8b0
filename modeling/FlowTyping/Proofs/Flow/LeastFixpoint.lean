import FlowTyping.Proofs.Flow.Blocks
import FlowTyping.Proofs.Control.Paths

/-!
The analysis of a unit computes the least solution of its equations, whatever the order in
which waiting blocks are visited.
-/

namespace FlowTyping

open Relation

namespace Checker

variable {c : Checker} {u : ProgramUnit}

/-- A parameter enters the store with its bound. -/
theorem addParameter_ok {s s' : Store} {p : Parameter} (h : c.addParameter s p = .ok s') :
    ∃ q, s' = s.insert (.local p.name) q ∧
      ∀ node, c.localBound node ⟨p.name, p.qualifier, .parameter⟩ = .ok q := by
  unfold addParameter at h
  cases hqualifier : p.qualifier with
  | none =>
      rw [hqualifier] at h
      cases h
      exact ⟨_, rfl, fun node => rfl⟩
  | some name =>
      simp only [hqualifier, resolveDeclared] at h
      cases hlookup : c.hierarchy.lookup? name with
      | none =>
          rw [hlookup] at h
          cases h
      | some q =>
          rw [hlookup] at h
          cases h
          refine ⟨q, rfl, fun node => ?_⟩
          simp only [localBound, resolveAt, hlookup]

theorem Sound.initialStore_under (hc : c.Sound) {s : Store} (h : c.initialStore u = .ok s) :
    s.Under c.hierarchy s := by
  suffices hs : s.Wf c.hierarchy ∧ s.reachable = true from
    ⟨hs.1, hs.1, hs.2, Store.le_refl hc.lawful hs.1⟩
  refine foldlM_induction (P := fun s => s.Wf c.hierarchy ∧ s.reachable = true)
    (fun s p s' hs hp => ?_) ⟨Store.wf_new c.hierarchy, rfl⟩ h
  obtain ⟨q, rfl, hbound⟩ := addParameter_ok hp
  have hq : c.hierarchy.Has q := hc.has_localBound (hbound ⟨0, 0, .this⟩)
  exact ⟨hs.1.insert hq, Store.reachable_insert.trans hs.2⟩

/-- The qualifiers of all nodes, given those that solving has left. -/
def finalValues (s : AnalysisSettings) (analysis : UnitAnalysis) (solved : NodeValues) :
    Except AnalysisError NodeValues :=
  if s.checkUnreachable then analysis.evaluateDetached analysis.graph.unreachable solved
  else .ok solved

/-- What is concluded from the qualifiers that solving has left. -/
def conclude (c : Checker) (s : AnalysisSettings) (analysis : UnitAnalysis)
    (bound : Option Qualifier) (solved : NodeValues) :
    Except AnalysisError (NodeValues × List Diagnostic) := do
  let values ← finalValues s analysis solved
  let diagnostics ← c.checkGraph analysis.graph values bound s.checkUnreachable
  return (values, diagnostics)

/-- An analysis solves and concludes. -/
theorem analyzeGraph_eq (c : Checker) (s : AnalysisSettings) (u : ProgramUnit) (g : FlowGraph) :
    c.analyzeGraph s u g = (do
      let initial ← c.initialStore u
      let bound ← c.returnBound u
      let analysis := UnitAnalysis.new c g initial
      let limit := s.visitLimit g.size g.nodeCount c.hierarchy.height
      let (fixpoint, solved) ← solve analysis.dataflow g limit s.recordHistory analysis.noValues
      let (values, diagnostics) ← c.conclude s analysis bound solved
      return { name := u.name, graph := g, fixpoint, values, diagnostics }) := by
  unfold analyzeGraph conclude finalValues
  split <;> simp only [bind_assoc, pure_bind] <;> rfl

theorem analyzeGraph_ok {s : AnalysisSettings} {g : FlowGraph} {a : AnalyzedUnit}
    (h : c.analyzeGraph s u g = .ok a) : a.graph = g ∧
      ∃ initial bound limit solved, c.initialStore u = .ok initial ∧
        c.returnBound u = .ok bound ∧
        solve (UnitAnalysis.new c g initial).dataflow g limit s.recordHistory
          (UnitAnalysis.new c g initial).noValues = .ok (a.fixpoint, solved) ∧
        c.conclude s (.new c g initial) bound solved = .ok (a.values, a.diagnostics) := by
  rw [analyzeGraph_eq] at h
  obtain ⟨initial, hinitial, h⟩ := bind_ok.mp h
  obtain ⟨bound, hbound, h⟩ := bind_ok.mp h
  obtain ⟨⟨fixpoint, solved⟩, hsolve, h⟩ := bind_ok.mp h
  obtain ⟨⟨values, diagnostics⟩, hconclude, h⟩ := bind_ok.mp h
  cases h
  exact ⟨rfl, initial, bound, _, solved, hinitial, hbound, hsolve, hconclude⟩

end Checker

namespace UnitAnalysis

variable {u : UnitAnalysis} {V V' : NodeValues}

/-- Passes over detached blocks change nodes of these blocks only. -/
theorem detachedPass_frame {pending : List BlockId} {waiting : List (BlockId × AnalysisError)}
    (h : u.detachedPass pending V = .ok (V', waiting)) :
    waiting.map Prod.fst ⊆ pending ∧
      ∀ j, (∀ b ∈ pending, ∀ block, u.graph.block? b = some block → j ∉ block.nodes) →
        V'.getD j none = V.getD j none := by
  induction pending generalizing V waiting with
  | nil =>
      cases h
      exact ⟨List.Subset.refl _, fun _ _ => rfl⟩
  | cons id rest ih =>
      have hwiden {waiting : List (BlockId × AnalysisError)} (hw : waiting.map Prod.fst ⊆ rest) :
          waiting.map Prod.fst ⊆ id :: rest := List.Subset.trans hw (List.subset_cons_self id rest)
      have hrun {block : Block} (hblock : u.graph.block? id = some block) {run : BlockRun}
          {e : Option AnalysisError}
          (hrun : u.runBlock block V (.regular u.initial) = (run, e))
          (hframe : ∀ j, (∀ b ∈ rest, ∀ block, u.graph.block? b = some block → j ∉ block.nodes) →
            V'.getD j none = run.values.getD j none) (j : NodeId)
          (hj : ∀ b ∈ id :: rest, ∀ block, u.graph.block? b = some block → j ∉ block.nodes) :
          V'.getD j none = V.getD j none :=
        (hframe j fun b hb => hj b (List.mem_cons_of_mem _ hb)).trans
          ((runNodes_extends hrun).frame j (hj id List.mem_cons_self block hblock))
      rw [detachedPass] at h
      split at h
      · obtain ⟨hw, hframe⟩ := ih h
        exact ⟨hwiden hw, fun j hj => hframe j fun b hb => hj b (List.mem_cons_of_mem _ hb)⟩
      · rename_i block hblock
        split at h
        · rename_i hblockRun
          obtain ⟨hw, hframe⟩ := ih h
          exact ⟨hwiden hw, hrun hblock hblockRun hframe⟩
        · rename_i hblockRun
          obtain ⟨⟨values, later⟩, hlater, heq⟩ := bind_ok.mp h
          cases heq
          obtain ⟨hw, hframe⟩ := ih hlater
          refine ⟨?_, hrun hblock hblockRun hframe⟩
          exact List.cons_subset.mpr ⟨List.mem_cons_self, hwiden hw⟩
        · cases h

theorem evaluateDetached_frame {pending : List BlockId}
    (h : u.evaluateDetached pending V = .ok V') {j : NodeId}
    (hj : ∀ b ∈ pending, ∀ block, u.graph.block? b = some block → j ∉ block.nodes) :
    V'.getD j none = V.getD j none := by
  induction hlength : pending.length using Nat.strongRecOn generalizing pending V with
  | ind n ih =>
      rw [evaluateDetached] at h
      split at h
      · cases h
      · rename_i hpass
        cases h
        exact (detachedPass_frame hpass).2 j hj
      · rename_i values first others hpass
        obtain ⟨hw, hframe⟩ := detachedPass_frame hpass
        split at h
        · rename_i hless
          refine (ih _ ?_ h (fun b hb => hj b (hw (by simpa using hb))) rfl).trans (hframe j hj)
          simpa [← hlength] using hless
        · cases h

/-- The qualifiers of nodes that the entry reaches. -/
def Reached (u : UnitAnalysis) (node : Node) : Prop :=
  ReflTransGen (Digraph.Edge u.graph.successors) u.graph.entry node.block

theorem evaluateDetached_reached (hg : u.graph.Valid)
    (h : u.evaluateDetached u.graph.unreachable V = .ok V') {j : NodeId} {node : Node}
    (hnode : u.graph.node? j = some node) (hreached : u.Reached node) :
    V'.getD j none = V.getD j none := by
  refine evaluateDetached_frame h fun b hb block hblock hmem => ?_
  obtain ⟨node', hnode', hhome⟩ := hg.listed hblock j hmem
  rw [hnode] at hnode'
  cases hnode'
  exact (hg.unreachable.mp hb).2 (hhome ▸ hreached)

theorem getD_noValues (id : NodeId) : u.noValues.getD id none = none :=
  Solving.getD_replicate_none Qualifier u.graph.nodeCount id

theorem noValues_under (hsize : V.size = u.graph.nodeCount) (hV : V.Le u.checker.hierarchy V) :
    u.noValues.Under u.checker.hierarchy u.graph.nodeCount V :=
  ⟨Array.size_replicate, hsize, fun id _ hq => absurd ((getD_noValues id).symm.trans hq) nofun, hV⟩

/-- A solution of the equations of an analysis up to what facts say, over its hierarchy. -/
structure Solution (u : UnitAnalysis) (t : FlowTable TransferResult NodeValues) : Prop where
  facts : t.All (TransferResult.Wf u.checker.hierarchy)
  size : t.state.size = u.graph.nodeCount
  has : ∀ id q, t.state.getD id none = some q → u.checker.hierarchy.Has q
  solves : t.Solves u.dataflow u.graph fun f f' => f.same f' = true

/-- What is asked of an analysis. It holds of those that are built. -/
structure Fit (u : UnitAnalysis) : Prop where
  sound : u.checker.Sound
  valid : u.graph.Valid
  ordered : u.graph.Ordered
  consumers : ∀ id < u.graph.nodeCount, u.consumers.getD id [] = u.graph.consumersOf id
  initial : u.initial.Under u.checker.hierarchy u.initial

namespace Fit

variable {ranks ranks' : Array Nat} {s s' : Solving TransferResult NodeValues}

theorem lawful (h : u.Fit) : u.dataflow.Lawful u.graph (TransferResult.Wf u.checker.hierarchy)
    (TransferResult.Under u.checker.hierarchy)
    (NodeValues.Under u.checker.hierarchy u.graph.nodeCount) :=
  dataflow_lawful h.sound h.valid h.ordered h.consumers h.initial

theorem start_under : u.noValues.Under u.checker.hierarchy u.graph.nodeCount u.noValues :=
  noValues_under Array.size_replicate fun id _ hq => absurd ((getD_noValues id).symm.trans hq) nofun

theorem sane (h : u.Fit)
    (hsteps : ReflTransGen (Solving.Step u.dataflow u.graph ranks) (.start u.graph u.noValues) s) :
    s.Sane u.dataflow u.graph (TransferResult.Under u.checker.hierarchy)
      (NodeValues.Under u.checker.hierarchy u.graph.nodeCount) :=
  Solving.steps_sane h.lawful h.valid (Solving.start_sane start_under) hsteps

/-- Where visits end is a solution. -/
theorem solution (h : u.Fit)
    (hsteps : ReflTransGen (Solving.Step u.dataflow u.graph ranks) (.start u.graph u.noValues) s)
    (hempty : s.worklist = []) : u.Solution s.table := by
  have hs := h.sane hsteps
  have hsolves := hs.solves h.lawful hempty
  have hsame {f f' : TransferResult} (hf : f.Under u.checker.hierarchy f) (heq : f = f') :
      f.same f' = true :=
    heq ▸ TransferResult.same_of_le h.sound.lawful hf.left hf.left hf.live hf.le hf.le
  refine ⟨⟨fun b f hf => (hs.facts.before b f hf).left, fun b f hf => (hs.facts.after b f hf).left,
    fun p b f hf => (hs.facts.edge p b f hf).left⟩, hs.state.left,
    fun id q hq => hs.state.le.has h.sound.lawful hq, hsolves.entry, fun b f hf => ?_,
    fun b f hf => ?_⟩
  · have heq := hsolves.input b f hf
    exact hsame (heq ▸ hs.facts.before b f hf) heq
  · obtain ⟨r, o, hr, ho, heq, hedges⟩ := hsolves.transfer b f hf
    exact ⟨r, o, hr, ho, hsame (heq ▸ hs.facts.after b o ho) heq, hedges⟩

theorem below (h : u.Fit) {t : FlowTable TransferResult NodeValues} (ht : u.Solution t)
    (hsteps : ReflTransGen (Solving.Step u.dataflow u.graph ranks) (.start u.graph u.noValues) s) :
    s.table.Below (TransferResult.Under u.checker.hierarchy)
      (NodeValues.Under u.checker.hierarchy u.graph.nodeCount) t := by
  have hle : t.state.Le u.checker.hierarchy t.state :=
    fun id q hq => ⟨q, hq, h.sound.lawful.le_refl (ht.has id q hq)⟩
  exact Solving.steps_below h.lawful h.valid (noValues_under ht.size hle) ht.solves
    ht.facts hsteps

/-- Two orders of visits end with facts that say the same and with the same qualifiers. -/
theorem agrees (h : u.Fit)
    (hsteps : ReflTransGen (Solving.Step u.dataflow u.graph ranks) (.start u.graph u.noValues) s)
    (hempty : s.worklist = [])
    (hsteps' : ReflTransGen (Solving.Step u.dataflow u.graph ranks') (.start u.graph u.noValues) s')
    (hempty' : s'.worklist = []) :
    s.table.Agrees u.dataflow s'.table ∧ s.state = s'.state := by
  have hle := h.below (h.solution hsteps' hempty') hsteps
  have hge := h.below (h.solution hsteps hempty) hsteps'
  exact ⟨h.lawful.agrees_of_below hle hge, hle.state.antisymm h.sound.lawful hge.state.le⟩

/-- Only nodes that the entry reaches have qualifiers after solving. -/
theorem reached_of_value (h : u.Fit)
    (hsteps : ReflTransGen (Solving.Step u.dataflow u.graph ranks) (.start u.graph u.noValues) s)
    {j : NodeId} {q : Qualifier} (hq : s.state.getD j none = some q) :
    ∃ node, u.graph.node? j = some node ∧ u.Reached node := by
  refine Solving.steps_state (P := fun V : NodeValues => ∀ j q, V.getD j none = some q →
    ∃ node, u.graph.node? j = some node ∧ u.Reached node) h.lawful h.valid start_under
    (fun j _ hq => absurd ((getD_noValues j).symm.trans hq) nofun) ?_ hsteps j q hq
  intro V V' block f r hP hreach htransfer j q hq
  by_cases hsame : V'.getD j none = V.getD j none
  · exact hP j q (hsame ▸ hq)
  · obtain ⟨⟨node, hnode, hhome⟩, -⟩ := transferBlock_frame h.valid htransfer hsame
    exact ⟨node, hnode, show ReflTransGen _ _ node.block from hhome ▸ hreach⟩

/-- The equations hold with the final qualifiers as well: what they add stands in blocks
that are not visited. -/
theorem solves_final (h : u.Fit)
    (hsteps : ReflTransGen (Solving.Step u.dataflow u.graph ranks) (.start u.graph u.noValues) s)
    (hempty : s.worklist = []) {values : NodeValues}
    (hvalues : ∀ j node, u.graph.node? j = some node → u.Reached node →
      values.getD j none = s.state.getD j none) :
    ({ s.table with state := values } : FlowTable TransferResult NodeValues).Solves u.dataflow
      u.graph Eq := by
  have hs := h.sane hsteps
  have hsolves := hs.solves h.lawful hempty
  refine ⟨hsolves.entry, hsolves.input, fun b f hf => ?_⟩
  obtain ⟨r, o, hr, ho, heq, hedges⟩ := hsolves.transfer b f hf
  have hreach := hs.known b (.inr (hs.marked b f hf))
  have hagain := transferBlock_again h.sound h.ordered hs.state (hs.facts.before b f hf) hr
    (W := values) (fun block hblock j hj => ?_) fun block hblock j hj node hnode o ho q hq => ?_
  · obtain ⟨again, hagain⟩ := hagain
    exact ⟨_, o, hagain, ho, heq, hedges⟩
  · obtain ⟨node, hnode, hhome⟩ := h.valid.listed hblock j hj
    exact hvalues j node hnode (show ReflTransGen _ _ node.block from hhome ▸ hreach)
  · obtain ⟨source, hsource, hreached⟩ := h.reached_of_value hsteps hq
    exact (hvalues o source hsource hreached).trans hq

end Fit

theorem finalValues_reached (hg : u.graph.Valid) {s : AnalysisSettings}
    (h : Checker.finalValues s u V = .ok V') {j : NodeId} {node : Node}
    (hnode : u.graph.node? j = some node) (hreached : u.Reached node) :
    V'.getD j none = V.getD j none := by
  unfold Checker.finalValues at h
  split at h
  · exact evaluateDetached_reached hg h hnode hreached
  · cases h
    rfl

end UnitAnalysis

namespace AnalyzedUnit

/-- The facts that an analysis has found, with the final qualifiers of the nodes. -/
def table (a : AnalyzedUnit) : FlowTable TransferResult NodeValues := a.fixpoint.table a.values

/-- The node stands in a block that was visited. -/
def Visits (a : AnalyzedUnit) (id : NodeId) : Prop :=
  ∃ node f, a.graph.node? id = some node ∧ a.fixpoint.inFact node.block = some f

/-- What was found is the least solution of the equations of the analysis `u`: it solves
them exactly, it is below every solution, and every order of visits ends with it. -/
structure LeastFixpoint (a : AnalyzedUnit) (s : AnalysisSettings) (u : UnitAnalysis)
    (bound : Option Qualifier) : Prop where
  solves : a.table.Solves u.dataflow a.graph Eq
  least : ∀ t, u.Solution t →
    a.table.Below (fun f f' => f.isBelow u.checker.hierarchy f' = true)
      (fun V W => ∀ id, a.Visits id → ∀ q, V.getD id none = some q →
        ∃ q', W.getD id none = some q' ∧ u.checker.hierarchy.isSubtype q q' = true) t
  schedules : ∀ (ranks : Array Nat) (s' : Solving TransferResult NodeValues),
    ReflTransGen (Solving.Step u.dataflow a.graph ranks) (.start a.graph u.noValues) s' →
    s'.worklist = [] → a.table.Agrees u.dataflow s'.table ∧
      u.checker.conclude s u bound s'.state = .ok (a.values, a.diagnostics)

end AnalyzedUnit

/-- An analysis starts with the readers of every node. -/
theorem UnitAnalysis.getD_consumers_new {c : Checker} {g : FlowGraph} {initial : Store}
    {id : NodeId} (hid : id < g.nodeCount) :
    (UnitAnalysis.new c g initial).consumers.getD id [] = g.consumersOf id := by
  change ((Array.range g.nodeCount).map g.consumersOf).getD id [] = g.consumersOf id
  simp [hid]

theorem UnitAnalysis.fit_new {c : Checker} {g : FlowGraph} {initial : Store} (hc : c.Sound)
    (hg : g.Valid) (ho : g.Ordered) (hinitial : initial.Under c.hierarchy initial) :
    (UnitAnalysis.new c g initial).Fit where
  sound := hc
  valid := hg
  ordered := ho
  consumers _ hid := getD_consumers_new hid
  initial := hinitial

/-- The analysis of a unit finds the least fixpoint of its equations. -/
theorem Checker.analyze_leastFixpoint {d : CheckerDeclaration} {c : Checker}
    (hc : Checker.ofDeclaration d = .ok c) {s : AnalysisSettings} {u : ProgramUnit}
    {a : AnalyzedUnit} (ha : c.analyze s u = .ok a) :
    ∃ initial bound, u.lower = .ok a.graph ∧ c.initialStore u = .ok initial ∧
      c.returnBound u = .ok bound ∧ a.LeastFixpoint s (.new c a.graph initial) bound := by
  obtain ⟨g, hlower, ha⟩ := bind_ok.mp ha
  obtain ⟨rfl, initial, bound, limit, solved, hinitial, hbound, hsolve, hconclude⟩ :=
    analyzeGraph_ok (Hierarchy.mapError_ok ha)
  have hlower := Hierarchy.mapError_ok hlower
  have hsound := ofDeclaration_sound hc
  have hfit := UnitAnalysis.fit_new hsound (ProgramUnit.lower_valid hlower)
    (ProgramUnit.lower_ordered hlower) (hsound.initialStore_under hinitial)
  refine ⟨initial, bound, hlower, hinitial, hbound, ?_⟩
  obtain ⟨s', hsteps, hempty, htable⟩ := solve_steps hsolve
  have hstate : s'.state = solved := congrArg FlowTable.state htable
  have hfacts : a.table = { s'.table with state := a.values } := by
    rw [htable]
    rfl
  obtain ⟨values, hvalues, hdiagnostics⟩ := bind_ok.mp hconclude
  obtain ⟨diagnostics, -, heq⟩ := bind_ok.mp hdiagnostics
  cases heq
  have hkept {j : NodeId} {node : Node} (hnode : a.graph.node? j = some node)
      (hreached : (UnitAnalysis.new c a.graph initial).Reached node) :
      a.values.getD j none = s'.state.getD j none :=
    hstate ▸ UnitAnalysis.finalValues_reached hfit.valid hvalues hnode hreached
  refine ⟨?_, fun t ht => ?_, fun ranks s'' hsteps' hempty' => ?_⟩
  · rw [hfacts]
    exact hfit.solves_final hsteps hempty fun _ _ hnode hreached => hkept hnode hreached
  · have hbelow := hfit.below ht hsteps
    have hle {f f' : TransferResult} (hff' : f.Under c.hierarchy f') :
        f.isBelow c.hierarchy f' = true :=
      (TransferResult.isBelow_iff hsound.lawful hff'.left hff'.right).mpr hff'.le
    rw [hfacts]
    refine ⟨fun b f hf => ?_, fun b f hf => ?_, fun p b f hf => ?_, fun id hid q hq => ?_⟩
    · obtain ⟨f', hf', hff'⟩ := hbelow.before b f hf
      exact ⟨f', hf', hle hff'⟩
    · obtain ⟨f', hf', hff'⟩ := hbelow.after b f hf
      exact ⟨f', hf', hle hff'⟩
    · obtain ⟨f', hf', hff'⟩ := hbelow.edge p b f hf
      exact ⟨f', hf', hle hff'⟩
    · obtain ⟨node, f, hnode, hf⟩ := hid
      have hs := hfit.sane hsteps
      have hf : s'.table.before node.block = some f := htable ▸ hf
      have hreached := hs.known _ (.inr (hs.marked _ f hf))
      exact hbelow.state.le id q ((hkept hnode hreached).symm.trans hq)
  · obtain ⟨hagrees, hsame⟩ := hfit.agrees hsteps hempty hsteps' hempty'
    rw [hfacts, ← hsame, hstate]
    exact ⟨⟨hagrees.before, hagrees.after, hagrees.edge⟩, hconclude⟩

/-- Values that may be null and values that are not, with a test that tells. -/
def presence : CheckerDeclaration where
  name := none
  qualifiers := [⟨"MaybeNull", []⟩, ⟨"Present", ["MaybeNull"]⟩]
  implicit := [⟨.element .newObject, "Present"⟩]
  signatures := [⟨"next", [some "Present"], none, some "MaybeNull", false, [], []⟩,
    ⟨"isPresent", [none], none, none, false, [], [⟨true, .argument 0, "Present"⟩]⟩]
  fields := []
  refinesEquality := true

/-- A unit that follows links as long as there are some. -/
def followingUnit : ProgramUnit where
  name := "following"
  params := []
  returnQualifier := none
  body := [.localDecl "node" none (some (.new "Node" [])),
    .whileLoop none (.call none "isPresent" [.var "node"] [])
      [.assign (.local "node") (.call none "next" [.var "node"] [])],
    .returnValue (some (.var "node"))]

theorem followingUnit_leastFixpoint : ∃ c a, Checker.ofDeclaration presence = .ok c ∧
    c.analyze .standard followingUnit = .ok a ∧
    ∃ initial bound, followingUnit.lower = .ok a.graph ∧
      c.initialStore followingUnit = .ok initial ∧ c.returnBound followingUnit = .ok bound ∧
      a.LeastFixpoint .standard (.new c a.graph initial) bound := by
  have hok : ((Checker.ofDeclaration presence).toOption.bind fun c =>
      (c.analyze .standard followingUnit).toOption).isSome = true := by decide +kernel
  obtain ⟨a, h⟩ := Option.isSome_iff_exists.mp hok
  obtain ⟨c, hc, ha⟩ := Option.bind_eq_some_iff.mp h
  have hc := ok_of_toOption hc
  have ha := ok_of_toOption ha
  exact ⟨c, a, hc, ha, Checker.analyze_leastFixpoint hc ha⟩

end FlowTyping
