import FlowTyping.Proofs.Control.Paths
import FlowTyping.Proofs.Flow.Forgetting
import FlowTyping.Proofs.Flow.Levels

/-!
How many block visits an analysis takes. Facts climb on every edge of the graph, and raising
blocks have many: the limit that is derived from the counts of blocks and nodes alone does
not account for them.
-/

namespace FlowTyping

open Relation

/-- The visits that the worklist needs at most: the facts of every edge climb, for each key in
both outcomes, and each reader of a node is visited again when the node climbs. -/
def FlowGraph.visitBound (g : FlowGraph) (height : Nat) : Nat :=
  1 + g.blockGraph.edges.length * (2 * g.nodeCount * height + 2) +
    (∑ id ∈ Finset.range g.nodeCount, (g.consumersOf id).length) * (height + 1)

/-- The graphs that are analysed: those that are given in parts and those of units. -/
inductive FlowGraph.Accepted (g : FlowGraph) : Prop
  | parts {p : GraphParts} (accepted : p.toGraph = .ok g)
  | lowered {u : ProgramUnit} (accepted : u.lower = .ok g)

/-- The graph of a unit is checked like every other one. -/
theorem FlowGraph.Accepted.toGraph {g : FlowGraph} (h : g.Accepted) :
    ∃ p : GraphParts, p.toGraph = .ok g := by
  cases h with
  | parts h => exact ⟨_, h⟩
  | lowered h =>
      obtain ⟨_, -, hfinish⟩ := ProgramUnit.run_of_lower h
      exact ⟨_, hfinish⟩

theorem FlowGraph.Accepted.valid {g : FlowGraph} (h : g.Accepted) : g.Valid := by
  obtain ⟨p, hp⟩ := h.toGraph
  exact GraphParts.toGraph_valid hp

namespace UnitAnalysis

variable {u : UnitAnalysis} {depth : Qualifier → Nat} {V V' : NodeValues} {b : BlockId}
  {e : AnalysisError}

theorem Stops.ne_visitLimit (h : u.Stops b V e) (n : Nat) : e ≠ .visitLimit n := by
  cases h <;> exact nofun

/-- Passes over detached blocks fail where a run over one stops. -/
theorem evaluateDetached_stops (hg : u.graph.Valid) {pending : List BlockId}
    (hsize : V.size = u.graph.nodeCount) (h : u.evaluateDetached pending V = .error e) :
    ∃ b V, u.Stops b V e := by
  induction pending, V using evaluateDetached.induct u with
  | case1 pending V e' hpass =>
      rw [evaluateDetached, hpass] at h
      cases h
      obtain ⟨b, V, hstops, -⟩ := detachedPass_error hg hsize hpass
      exact ⟨b, V, hstops⟩
  | case2 pending V V' hpass =>
      rw [evaluateDetached, hpass] at h
      cases h
  | case3 pending V V' first others hpass hlt ih =>
      rw [evaluateDetached, hpass] at h
      dsimp only at h
      rw [if_pos hlt] at h
      exact ih ((detachedPass_passes hg hsize hpass).size.trans hsize) h
  | case4 pending V V' first others hpass hlt =>
      rw [evaluateDetached, hpass] at h
      dsimp only at h
      rw [if_neg hlt] at h
      cases h
      obtain ⟨o, k, -, hstops⟩ :=
        (detachedPass_passes hg hsize hpass).lacks first List.mem_cons_self
      exact ⟨first.1, V, hstops⟩

theorem Fails.ne_visitLimit {node : Node} (h : u.Fails V node e) (n : Nat) :
    e ≠ .visitLimit n := by
  cases h <;> exact nofun

theorem runNodes_fails {ids : List NodeId} {run run' : BlockRun}
    (h : u.runNodes ids run = (run', some e)) : ∃ V node, u.Fails V node e := by
  induction ids generalizing run with
  | nil => cases h
  | cons id rest ih =>
      rw [runNodes] at h
      split at h
      · exact ih h
      · split at h
        · rename_i htransfer
          cases h
          exact ⟨_, _, transferNode_fails htransfer⟩
        · exact ih h

/-- A transfer never fails over visits. -/
theorem transferBlock_ne_visitLimit {f : TransferResult} (n : Nat) :
    u.transferBlock V b f ≠ .error (.visitLimit n) := by
  intro h
  obtain ⟨block, run, -, hrun⟩ := transferBlock_error h
  obtain ⟨V', node, hfails⟩ := runNodes_fails hrun
  exact hfails.ne_visitLimit n rfl

/-- Solving takes no more visits than the bound of the graph, and it comes to its limit only if
the limit is less. -/
theorem Level.solve_visits (h : u.Level depth) (limit : Nat) (record : Bool) :
    (∀ r V, solve u.dataflow u.graph limit record u.noValues = .ok (r, V) →
      r.visits ≤ u.graph.visitBound u.checker.hierarchy.height) ∧
    ∀ n, u.graph.visitBound u.checker.hierarchy.height ≤ limit →
      solve u.dataflow u.graph limit record u.noValues ≠ .error (.visitLimit n) := by
  have hstart : u.AdmitsValues u.noValues := Fit.start_under
  obtain ⟨hvisits, hlimit⟩ := FlowTyping.solve_visits h.climbs h.charges h.valid
    (fun f _ => h.level_le f) (fun V _ => valuesLevel_le h.graded V) hstart limit record
  exact ⟨hvisits, fun n => hlimit n (transferBlock_ne_visitLimit n)⟩

end UnitAnalysis

namespace Checker

variable {c : Checker} {g : FlowGraph} {u : ProgramUnit} {s : AnalysisSettings}

/-- Only the parameters are known at first. -/
theorem initialStore_localOnly {initial : Store} (h : c.initialStore u = .ok initial) :
    initial.LocalOnly c.hierarchy := by
  refine foldlM_induction (P := Store.LocalOnly c.hierarchy) (fun store p store' hstore hp => ?_)
    (fun _ _ => rfl) h
  obtain ⟨q, rfl, -⟩ := addParameter_ok hp
  intro k hk
  rw [Store.valueOrTop_insert, if_neg fun heq => hk p.name heq.1]
  exact hstore k hk

theorem checkGraph_ne_visitLimit {values : NodeValues} {bound : Option Qualifier} {all : Bool}
    (n : Nat) : c.checkGraph g values bound all ≠ .error (.visitLimit n) := by
  intro h
  rcases bind_error.mp h with h | ⟨_, -, h⟩
  · obtain ⟨node, -, h⟩ := mapM_error h
    obtain ⟨name, -, h⟩ := checkNode_error h
    cases (resolveAt_error h).2
  · cases h

/-- What comes before and after solving never fails over visits. -/
theorem solve_of_visitLimit (hg : g.Valid) {n : Nat}
    (h : c.analyzeGraph s u g = .error (.visitLimit n)) :
    ∃ initial, c.initialStore u = .ok initial ∧
      solve (UnitAnalysis.new c g initial).dataflow g
        (s.visitLimit g.size g.nodeCount c.hierarchy.height) s.recordHistory
        (UnitAnalysis.new c g initial).noValues = .error (.visitLimit n) := by
  -- An error that is documented under every setting is not about visits.
  have hundocumented (hall : ∀ s, c.Documented s u g (.visitLimit n)) : False := by
    have hone := hall ⟨some (n + 1), false, false⟩
    generalize hcause : AnalysisError.visitLimit n = cause at hone
    cases hone with
    | visits =>
        exact absurd (AnalysisError.visitLimit.inj hcause) (Nat.ne_of_lt (Nat.lt_succ_self n))
    | _ => cases hcause
  rcases bind_error.mp h with h | ⟨initial, hinitial, h⟩
  · exact (hundocumented fun s => initialStore_error h).elim
  rcases bind_error.mp h with h | ⟨bound, -, h⟩
  · exact (hundocumented fun s => returnBound_error h).elim
  rcases bind_error.mp h with h | ⟨⟨fixpoint, solved⟩, hsolve, h⟩
  · exact ⟨initial, hinitial, h⟩
  have hcheck {values : NodeValues} (h : (do
      let diagnostics ← c.checkGraph g values bound s.checkUnreachable
      pure (⟨u.name, g, fixpoint, values, diagnostics⟩ : AnalyzedUnit)) =
        .error (.visitLimit n)) : False := by
    rcases bind_error.mp h with h | ⟨_, -, h⟩
    · exact checkGraph_ne_visitLimit n h
    · cases h
  obtain ⟨hsize, -⟩ := UnitAnalysis.solve_evaluated (u := .new c g initial) hg hsolve
  dsimp only at h
  split at h
  · rcases bind_error.mp h with h | ⟨values, -, h⟩
    · obtain ⟨b, V, hstops⟩ := UnitAnalysis.evaluateDetached_stops hg hsize h
      exact (hstops.ne_visitLimit n rfl).elim
    · exact (hcheck h).elim
  · rcases bind_error.mp h with h | ⟨values, -, h⟩
    · cases h
    · exact (hcheck h).elim

end Checker

theorem UnitAnalysis.level_new {c : Checker} {g : FlowGraph} {u : ProgramUnit} {initial : Store}
    {depth : Qualifier → Nat} (hc : c.Sound) (hdepth : c.hierarchy.Graded depth) (hg : g.Valid)
    (hinitial : c.initialStore u = .ok initial) : (UnitAnalysis.new c g initial).Level depth where
  valid := hg
  keys := rfl
  initial := Checker.initialStore_localOnly hinitial
  sound := hc
  graded := hdepth
  consumers _ hid := getD_consumers_new hid
  start := hc.initialStore_under hinitial

/-- An analysis of an accepted graph takes no more visits than its bound, and where the limit is
not below the bound the analysis is never given up. -/
theorem Checker.analyzeGraph_visits {d : CheckerDeclaration} {c : Checker}
    (hc : Checker.ofDeclaration d = .ok c) {g : FlowGraph} (hg : g.Accepted)
    (s : AnalysisSettings) (u : ProgramUnit) :
    (∀ a, c.analyzeGraph s u g = .ok a →
      a.fixpoint.visits ≤ g.visitBound c.hierarchy.height) ∧
    (g.visitBound c.hierarchy.height ≤ s.visitLimit g.size g.nodeCount c.hierarchy.height →
      ∀ n, c.analyzeGraph s u g ≠ .error (.visitLimit n)) := by
  have hsound := Checker.ofDeclaration_sound hc
  obtain ⟨depth, hdepth⟩ := Checker.ofDeclaration_graded hc
  have hlevel {initial : Store} (h : c.initialStore u = .ok initial) :=
    UnitAnalysis.level_new hsound hdepth hg.valid h
  refine ⟨fun a ha => ?_, fun hlimit n herror => ?_⟩
  · obtain ⟨rfl, initial, bound, limit, solved, hinitial, -, hsolve, -⟩ := analyzeGraph_ok ha
    exact ((hlevel hinitial).solve_visits limit s.recordHistory).1 _ _ hsolve
  · obtain ⟨initial, hinitial, hsolve⟩ := solve_of_visitLimit hg.valid herror
    exact ((hlevel hinitial).solve_visits _ s.recordHistory).2 n hlimit hsolve

/-- A unit whose parameters are known to be present. -/
def rescanUnit : ProgramUnit where
  name := "rescan"
  params := ["a", "b", "c", "d", "e"].map fun name => ⟨name, some "Present"⟩
  returnQualifier := none
  body := []

/-- A row of fourteen blocks, and after it five declarations that forget a parameter each. From
every declaration an exception leads to each block of the row. -/
def rescanParts : GraphParts where
  name := "rescan"
  blocks :=
    #[⟨0, [], .special .entry (some 3)⟩, ⟨1, [], .special .exit none⟩,
      ⟨2, [], .special .exceptionalExit none⟩] ++
    (Array.range 14).map (fun i => ⟨i + 3, [], .regular (i + 4)⟩) ++
    (Array.range 5).map (fun i => ⟨i + 17, [i], .exceptional (some 3)
      (("n", if i = 4 then 1 else i + 18) ::
        (List.range 13).map fun j => (s!"c{j}", j + 4))⟩)
  nodes := (Array.range 5).map fun i =>
    ⟨i, i + 17, .localDecl ⟨["a", "b", "c", "d", "e"].getD i "", none, .local⟩⟩
  entry := 0
  exit := 1
  exceptionalExit := 2

theorem rescanParts_visits : ∃ c g, Checker.ofDeclaration presence = .ok c ∧
    rescanParts.toGraph = .ok g ∧
    (∀ a, c.analyzeGraph .standard rescanUnit g = .ok a →
      a.fixpoint.visits ≤ g.visitBound c.hierarchy.height) ∧
    (g.visitBound c.hierarchy.height ≤
        AnalysisSettings.standard.visitLimit g.size g.nodeCount c.hierarchy.height →
      ∀ n, c.analyzeGraph .standard rescanUnit g ≠ .error (.visitLimit n)) := by
  have hok : ((Checker.ofDeclaration presence).toOption.bind fun _ =>
      rescanParts.toGraph.toOption).isSome = true := by decide +kernel
  obtain ⟨g, h⟩ := Option.isSome_iff_exists.mp hok
  obtain ⟨c, hc, hg⟩ := Option.bind_eq_some_iff.mp h
  have hc := ok_of_toOption hc
  have hg := ok_of_toOption hg
  exact ⟨c, g, hc, hg, Checker.analyzeGraph_visits hc (.parts hg) .standard rescanUnit⟩

/-- The variables of the unit. -/
def rescanNames : List String := ["a", "b", "c", "d", "e"]

theorem rescanParts_onlyDeclares {g : FlowGraph} (hg : rescanParts.toGraph = .ok g) :
    g.OnlyDeclares := by
  intro id node hnode
  have hnode : rescanParts.nodes[id]? = some node := GraphParts.toGraph_parts hg ▸ hnode
  simp only [rescanParts, Array.getElem?_map] at hnode
  obtain ⟨i, -, rfl⟩ := Option.map_eq_some_iff.mp hnode
  exact ⟨_, rfl⟩

/-- Every block of the row is visited again for every declaration and every parameter that the
declarations before it have forgotten, which is more often than the derived limit allows. -/
theorem rescanParts_given_up : ∃ c g, Checker.ofDeclaration presence = .ok c ∧
    rescanParts.toGraph = .ok g ∧
    c.analyzeGraph .standard rescanUnit g =
      .error (.visitLimit (g.size * (c.hierarchy.height + 1) * (g.nodeCount + 2))) := by
  have hchecker : ((Checker.ofDeclaration presence).toOption.map fun c =>
      (c.hierarchy.lookup? "Present", c.hierarchy.top, c.hierarchy.height)) =
        some (some ⟨1⟩, ⟨0⟩, 1) := by decide +kernel
  have hgraph : (rescanParts.toGraph.toOption.map fun g =>
      (g.size, g.nodeCount, (Sheet.start g).waits (Forgotten.analysis g rescanNames) g g.ranks
        (Forgotten.sends g rescanNames) 308)) = some (22, 5, true) := by decide +kernel
  obtain ⟨c, hc, hchecker⟩ := Option.map_eq_some_iff.mp hchecker
  obtain ⟨g, hg, hgraph⟩ := Option.map_eq_some_iff.mp hgraph
  have hc := ok_of_toOption hc
  have hg := ok_of_toOption hg
  obtain ⟨hpresent, htop, hheight⟩ : c.hierarchy.lookup? "Present" = some ⟨1⟩ ∧
      c.hierarchy.top = ⟨0⟩ ∧ c.hierarchy.height = 1 := by simpa using hchecker
  obtain ⟨hsize, hcount, hwaits⟩ : g.size = 22 ∧ g.nodeCount = 5 ∧
      (Sheet.start g).waits (Forgotten.analysis g rescanNames) g g.ranks
        (Forgotten.sends g rescanNames) 308 = true := by simpa using hgraph
  refine ⟨c, g, hc, hg, ?_⟩
  have hsound := Checker.ofDeclaration_sound hc
  have hresolve (context : String) : c.resolveDeclared "Present" context = .ok ⟨1⟩ := by
    rw [Checker.resolveDeclared, hpresent]
  have hinitial : c.initialStore rescanUnit = .ok (rescanNames.foldl
      (fun s name => s.insert (.local name) ⟨1⟩) (.new c.hierarchy)) := by
    simp [Checker.initialStore, rescanUnit, rescanNames, Checker.addParameter, hresolve, bind,
      Except.bind, pure, Except.pure]
  have hhas := Hierarchy.has_of_lookup? hpresent
  have htells := Forgotten.Tells.entered hhas rescanNames
  generalize rescanNames.foldl (fun s name => Store.insert s (.local name) ⟨1⟩)
      (.new c.hierarchy) =
        initial at hinitial htells
  have hu : (UnitAnalysis.new c g initial).OnlyDeclares rescanNames ⟨1⟩ := {
    graph := rescanParts_onlyDeclares hg
    consumers := rfl
    lawful := hsound.lawful
    has := hhas
    notTop := by
      change _ ≠ c.hierarchy.top
      rw [htop]
      decide
    distinct := by decide
    initial := htells }
  have hlimit :
      AnalysisSettings.standard.visitLimit g.size g.nodeCount c.hierarchy.height = 308 := by
    rw [hsize, hcount, hheight]
    rfl
  have hsolve : solve (UnitAnalysis.new c g initial).dataflow g 308
      AnalysisSettings.standard.recordHistory (UnitAnalysis.new c g initial).noValues =
        .error (.visitLimit 308) := hu.solve_givenUp (GraphParts.toGraph_valid hg) hwaits _
  unfold Checker.analyzeGraph
  rw [hinitial, show c.returnBound rescanUnit = .ok none from rfl, hlimit]
  dsimp only [bind, Except.bind]
  rw [hsolve, hsize, hcount, hheight]

end FlowTyping
