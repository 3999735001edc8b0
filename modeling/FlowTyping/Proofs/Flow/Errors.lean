import Mathlib.Data.Finset.Dedup
import Mathlib.Data.Finset.Max
import FlowTyping.Proofs.Flow.Failures
import FlowTyping.Proofs.Flow.LeastFixpoint
import FlowTyping.Proofs.Flow.Sweep
import FlowTyping.Proofs.Control.Paths
import FlowTyping.Proofs.Waiting.Order

/-!
Errors of an analysis. Operands have qualifiers whenever a node is evaluated, in blocks that
can be reached and in those that cannot, so that an analysis fails over a qualifier that
the hierarchy lacks or at its limit only.
-/

namespace FlowTyping

/-- The errors that the analysis of a unit documents. -/
inductive Checker.Documented (c : Checker) (s : AnalysisSettings) (u : ProgramUnit)
    (g : FlowGraph) : AnalysisError → Prop where
  | visits : Documented c s u g (.visitLimit (s.visitLimit g.size g.nodeCount c.hierarchy.height))
  | parameter {p : Parameter} {name : String} : p ∈ u.params → p.qualifier = some name →
      c.hierarchy.lookup? name = none →
      Documented c s u g (.unknownUnitQualifier name s!"parameter `{p.name}`")
  | returned {name : String} : u.returnQualifier = some name →
      c.hierarchy.lookup? name = none →
      Documented c s u g (.unknownUnitQualifier name "return value")
  | written {k : NodeId} {node : Node} {name : String} : g.node? k = some node →
      name ∈ node.kind.names → c.hierarchy.lookup? name = none →
      s.checkUnreachable = true ∨ g.Reaches node.block →
      Documented c s u g (.unknownQualifier name node.block k)

namespace UnitAnalysis

open Relation

variable {u : UnitAnalysis} {T : Timetable} {V V' : NodeValues} {e : AnalysisError}
  {b : BlockId} {s s' : Solving TransferResult NodeValues}

theorem Stops.anti (h : u.Stops b V' e) (hkept : ∀ j, V.Holds j → V'.Holds j) :
    u.Stops b V e := by
  cases h with
  | missing hblock hnodes hnode ho hpre hnone =>
      exact .missing hblock hnodes hnode ho hpre fun hold => hnone (hkept _ hold)
  | unknown hnode hhome hname hlookup => exact .unknown hnode hhome hname hlookup

theorem Stops.documented {settings : AnalysisSettings} {p : ProgramUnit} (h : u.Stops b V e)
    (hoperand : ∀ o k, e ≠ .missingOperand o k b)
    (hb : settings.checkUnreachable = true ∨ u.graph.Reaches b) :
    u.checker.Documented settings p u.graph e := by
  cases h with
  | missing => exact absurd rfl (hoperand _ _)
  | unknown hnode hhome hname hlookup =>
      subst hhome
      exact .written hnode hname hlookup hb

/-- The nodes of visited blocks have qualifiers. -/
structure Evaluated (u : UnitAnalysis) (s : Solving TransferResult NodeValues) : Prop where
  size : s.state.size = u.graph.nodeCount
  holds : ∀ b, s.Seen b → ∀ j, u.graph.Home j b → s.state.Holds j

theorem advances_evaluated (hg : u.graph.Valid)
    (h : ReflTransGen (Solving.Advance u.dataflow u.graph u.graph.ranks)
      (.start u.graph u.noValues) s) : s.Sweeps u.graph ∧ u.Evaluated s := by
  induction h with
  | refl =>
      refine ⟨Solving.start_sweeps, Array.size_replicate, fun b ⟨f, hf⟩ => ?_⟩
      exact absurd ((Solving.getD_replicate_none _ u.graph.size b).symm.trans hf) nofun
  | tail _ hstep ih =>
      obtain ⟨hsweeps, hvalues⟩ := ih
      obtain ⟨block, rest, hwork, hvisit⟩ := hstep
      obtain ⟨hsweeps', hseen, input, r, htransfer⟩ :=
        Solving.advance_sweeps hg transferBlock_covers hsweeps hwork hvisit
      obtain ⟨hsize, hkept, hown⟩ := transferBlock_fills hg hvalues.size htransfer
      refine ⟨hsweeps', hsize.trans hvalues.size, fun b hb j hj => ?_⟩
      rcases (hseen b).mp hb with rfl | hb
      · exact hown j hj
      · exact hkept j (hvalues.holds b hb j hj)

variable (hT : T.Fits u.graph.nodes u.graph.piece?) (hentry : T.waits u.graph.entry = [])
  (hg : u.graph.Valid)

include hT hentry hg

/-- Whenever a waiting block is visited, the operands of its nodes have qualifiers. -/
theorem solve_error {limit : Nat} {record : Bool}
    (h : solve u.dataflow u.graph limit record u.noValues = .error e) :
    e = .visitLimit limit ∨
      ∃ b V, u.graph.Reaches b ∧ u.Stops b V e ∧ ∀ o k, e ≠ .missingOperand o k b := by
  rcases bind_error.mp h with h | ⟨_, -, h⟩
  · refine (Solving.run_error h).imp_right fun ⟨s, b, rest, hsteps, hwork, hvisit⟩ => ?_
    obtain ⟨hsweeps, hvalues⟩ := advances_evaluated hg hsteps
    have hreach : u.graph.Reaches b := hsweeps.reaches (by simp [hwork])
    rcases bind_error.mp hvisit with htransfer | ⟨_, -, hdone⟩
    · have hstops : u.Stops b s.state e := transferBlock_stops hg hvalues.size htransfer
      refine ⟨b, s.state, hreach, hstops, ?_⟩
      rintro o k rfl
      cases hstops with
      | missing hblock hnodes hnode ho hpre hnone =>
          rcases hT.operand_source hg hentry hblock hnodes hnode ho with hin | ⟨m, hm, -, hbefore⟩
          · exact hpre hin
          · obtain ⟨hreach', hlt⟩ := hbefore hreach
            have hseen := hsweeps.seen_of_rank_lt hg hwork hreach' hlt
            exact hnone (hvalues.holds m hseen o hm)
    · cases hdone
  · cases h

omit hT hentry in
theorem solve_evaluated {limit : Nat} {record : Bool} {fixpoint : Fixpoint TransferResult}
    (h : solve u.dataflow u.graph limit record u.noValues = .ok (fixpoint, V)) :
    V.size = u.graph.nodeCount ∧
      ∀ b, u.graph.Reaches b → ∀ j, u.graph.Home j b → V.Holds j := by
  obtain ⟨s, hrun, heq⟩ := bind_ok.mp h
  cases heq
  obtain ⟨hsteps, hempty⟩ := Solving.run_advances hrun
  obtain ⟨hsweeps, hvalues⟩ := advances_evaluated hg hsteps
  exact ⟨hvalues.size, fun b hb => hvalues.holds b (hsweeps.seen hempty hb)⟩

/-- What a pass leaves: the blocks that still wait lacked an operand at its start. -/
structure Passes (u : UnitAnalysis) (pending : List BlockId) (V V' : NodeValues)
    (waiting : List (BlockId × AnalysisError)) : Prop where
  size : V'.size = V.size
  kept : ∀ j, V.Holds j → V'.Holds j
  sublist : (waiting.map Prod.fst).Sublist pending
  done : ∀ b ∈ pending, b ∉ waiting.map Prod.fst → ∀ j, u.graph.Home j b → V'.Holds j
  lacks : ∀ w ∈ waiting, ∃ o k, w.2 = .missingOperand o k w.1 ∧ u.Stops w.1 V w.2

omit hT hentry in
theorem detachedPass_passes {pending : List BlockId} {waiting : List (BlockId × AnalysisError)}
    (hsize : V.size = u.graph.nodeCount) (h : u.detachedPass pending V = .ok (V', waiting)) :
    u.Passes pending V V' waiting := by
  induction pending generalizing V waiting with
  | nil =>
      cases h
      exact ⟨rfl, fun _ hj => hj, .refl [], nofun, nofun⟩
  | cons b rest ih =>
      unfold detachedPass at h
      cases hblock : u.graph.block? b with
      | none =>
          rw [hblock] at h
          have hrest := ih hsize h
          refine { hrest with sublist := hrest.sublist.cons b, done := fun a ha hout j hj => ?_ }
          rcases List.mem_cons.mp ha with rfl | ha
          · obtain ⟨block, hblock', -⟩ := hj
            rw [hblock] at hblock'
            cases hblock'
          · exact hrest.done a ha hout j hj
      | some block =>
          rw [hblock] at h
          dsimp only at h
          split at h
          · rename_i run hrun
            obtain ⟨hsame, hkept, ⟨-, hdone⟩ | ⟨e, he, -⟩⟩ := runBlock_fills hg hblock hsize hrun
            · have hrest := ih (hsame.trans hsize) h
              refine ⟨hrest.size.trans hsame, fun j hj => hrest.kept j (hkept j hj),
                hrest.sublist.cons b, fun a ha hout j hj => ?_, fun w hw => ?_⟩
              · rcases List.mem_cons.mp ha with rfl | ha
                · obtain ⟨block', hblock', hj⟩ := hj
                  rw [hblock] at hblock'
                  cases hblock'
                  exact hrest.kept j (hdone j hj)
                · exact hrest.done a ha hout j hj
              · obtain ⟨o, k, hmissing, hstops⟩ := hrest.lacks w hw
                exact ⟨o, k, hmissing, hstops.anti hkept⟩
            · cases he
          · rename_i run o k at_ hrun
            obtain ⟨hsame, hkept, ⟨hnone, -⟩ | ⟨e, he, hstops⟩⟩ :=
              runBlock_fills hg hblock hsize hrun
            · cases hnone
            · cases he
              obtain ⟨⟨V'', waiting'⟩, hpass, heq⟩ := bind_ok.mp h
              cases heq
              have hrest := ih (hsame.trans hsize) hpass
              refine ⟨hrest.size.trans hsame, fun j hj => hrest.kept j (hkept j hj),
                hrest.sublist.cons_cons b, fun a ha hout j hj => ?_,
                List.forall_mem_cons.mpr ⟨?_, fun w hw => ?_⟩⟩
              · rw [List.map_cons, List.mem_cons, not_or] at hout
                exact hrest.done a ((List.mem_cons.mp ha).resolve_left hout.1) hout.2 j hj
              · cases hstops with
                | missing hblock hnodes hnode ho hpre hnone =>
                    exact ⟨o, k, rfl, .missing hblock hnodes hnode ho hpre hnone⟩
              · obtain ⟨o, k, hmissing, hstops⟩ := hrest.lacks w hw
                exact ⟨o, k, hmissing, hstops.anti hkept⟩
          · cases h

omit hT hentry in
/-- A pass fails over an unknown qualifier only. -/
theorem detachedPass_error {pending : List BlockId} (hsize : V.size = u.graph.nodeCount)
    (h : u.detachedPass pending V = .error e) :
    ∃ b V, u.Stops b V e ∧ ∀ o k, e ≠ .missingOperand o k b := by
  induction pending generalizing V with
  | nil => cases h
  | cons b rest ih =>
      unfold detachedPass at h
      cases hblock : u.graph.block? b with
      | none =>
          rw [hblock] at h
          exact ih hsize h
      | some block =>
          rw [hblock] at h
          dsimp only at h
          split at h
          · rename_i run hrun
            exact ih ((runBlock_fills hg hblock hsize hrun).1.trans hsize) h
          · rename_i run o k at_ hrun
            rcases bind_error.mp h with h | ⟨_, -, h⟩
            · exact ih ((runBlock_fills hg hblock hsize hrun).1.trans hsize) h
            · cases h
          · rename_i run e' hother hrun
            cases h
            obtain ⟨-, -, ⟨hnone, -⟩ | ⟨e', he, hstops⟩⟩ := runBlock_fills hg hblock hsize hrun
            · cases hnone
            · cases he
              exact ⟨b, V, hstops, fun o k => hother o k b⟩

/-- Of the blocks that are left, the one entered first has all its operands. -/
theorem exists_ready {pending : List BlockId} (hne : pending ≠ [])
    (hdone : ∀ m ∉ pending, ∀ j, u.graph.Home j m → V.Holds j) :
    ∃ b ∈ pending, ∀ o k, ¬ u.Stops b V (.missingOperand o k b) := by
  obtain ⟨x, hx⟩ := List.exists_mem_of_ne_nil pending hne
  obtain ⟨b, hb, hfirst⟩ := pending.toFinset.exists_min_image (fun b => (T.entered b).time)
    ⟨x, List.mem_toFinset.mpr hx⟩
  refine ⟨b, List.mem_toFinset.mp hb, fun o k hstops => ?_⟩
  cases hstops with
  | missing hblock hnodes hnode ho hpre hnone =>
      rcases hT.operand_source hg hentry hblock hnodes hnode ho with hin | ⟨m, hm, hlt, -⟩
      · exact hpre hin
      · refine hnone (hdone m (fun hmem => ?_) o hm)
        exact absurd hlt (Nat.not_lt.mpr (hfirst m (List.mem_toFinset.mpr hmem)))

/-- Every pass gets through a block, so that the passes end with all of them evaluated. -/
theorem evaluateDetached_error {pending : List BlockId} (hsize : V.size = u.graph.nodeCount)
    (hdone : ∀ m ∉ pending, ∀ j, u.graph.Home j m → V.Holds j)
    (h : u.evaluateDetached pending V = .error e) :
    ∃ b V, u.Stops b V e ∧ ∀ o k, e ≠ .missingOperand o k b := by
  induction pending, V using evaluateDetached.induct u with
  | case1 pending V e' hpass =>
      rw [evaluateDetached, hpass] at h
      cases h
      exact detachedPass_error hg hsize hpass
  | case2 pending V V' hpass =>
      rw [evaluateDetached, hpass] at h
      cases h
  | case3 pending V V' first others hpass hlt ih =>
      rw [evaluateDetached, hpass] at h
      dsimp only at h
      rw [if_pos hlt] at h
      have hpasses := detachedPass_passes hg hsize hpass
      refine ih (hpasses.size.trans hsize) (fun m hm j hj => ?_) h
      by_cases hmem : m ∈ pending
      · exact hpasses.done m hmem hm j hj
      · exact hpasses.kept j (hdone m hmem j hj)
  | case4 pending V V' first others hpass hlt =>
      have hpasses := detachedPass_passes hg hsize hpass
      have hne : pending ≠ [] := by
        rintro rfl
        cases hpasses.sublist
      -- A pass in which every block waits would stop in one that lacks nothing.
      have hall : (first :: others).map Prod.fst = pending := by
        refine hpasses.sublist.eq_of_length_le ?_
        simpa using hlt
      obtain ⟨b, hb, hready⟩ := exists_ready hT hentry hg hne hdone
      rw [← hall] at hb
      obtain ⟨w, hw, rfl⟩ := List.mem_map.mp hb
      obtain ⟨o, k, hmissing, hstops⟩ := hpasses.lacks w hw
      exact absurd (hmissing ▸ hstops) (hready o k)

end UnitAnalysis

theorem foldlM_error {α β ε : Type} {f : β → α → Except ε β} {l : List α} {b : β} {e : ε}
    (h : l.foldlM f b = .error e) : ∃ a ∈ l, ∃ b, f b a = .error e := by
  induction l generalizing b with
  | nil => cases h
  | cons a rest ih =>
      rw [List.foldlM_cons] at h
      rcases bind_error.mp h with h | ⟨b', -, h⟩
      · exact ⟨a, List.mem_cons_self, b, h⟩
      · obtain ⟨x, hx, hfails⟩ := ih h
        exact ⟨x, List.mem_cons_of_mem a hx, hfails⟩

theorem mapM_error {α β ε : Type} {f : α → Except ε β} {l : List α} {e : ε}
    (h : l.mapM f = .error e) : ∃ a ∈ l, f a = .error e := by
  induction l with
  | nil => cases h
  | cons a rest ih =>
      rw [List.mapM_cons] at h
      rcases bind_error.mp h with h | ⟨_, -, h⟩
      · exact ⟨a, List.mem_cons_self, h⟩
      rcases bind_error.mp h with h | ⟨_, -, h⟩
      · obtain ⟨x, hx, hfails⟩ := ih h
        exact ⟨x, List.mem_cons_of_mem a hx, hfails⟩
      · cases h

theorem mapError_error {α ε ε' : Type} {f : ε → ε'} {x : Except ε α} {e : ε'}
    (h : x.mapError f = .error e) : ∃ cause, x = .error cause ∧ e = f cause := by
  cases x with
  | error cause =>
      cases h
      exact ⟨cause, rfl, rfl⟩
  | ok a => cases h

namespace Checker

variable {c : Checker} {s : AnalysisSettings} {u : ProgramUnit} {g : FlowGraph}
  {e : AnalysisError}

theorem resolveDeclared_error {name context : String}
    (h : c.resolveDeclared name context = .error e) :
    c.hierarchy.lookup? name = none ∧ e = .unknownUnitQualifier name context := by
  unfold resolveDeclared at h
  split at h
  · cases h
  · cases h
    exact ⟨‹_›, rfl⟩

theorem addParameter_error {p : Parameter} {store : Store}
    (h : c.addParameter store p = .error e) (hp : p ∈ u.params) : c.Documented s u g e := by
  unfold addParameter at h
  split at h
  · rename_i name hname
    rcases bind_error.mp h with h | ⟨_, -, h⟩
    · obtain ⟨hlookup, rfl⟩ := resolveDeclared_error h
      exact .parameter hp hname hlookup
    · cases h
  · rcases bind_error.mp h with h | ⟨_, -, h⟩
    · cases h
    · cases h

theorem initialStore_error (h : c.initialStore u = .error e) : c.Documented s u g e := by
  obtain ⟨p, hp, store, hadd⟩ := foldlM_error h
  exact addParameter_error hadd hp

theorem returnBound_error (h : c.returnBound u = .error e) : c.Documented s u g e := by
  unfold returnBound at h
  split at h
  · cases h
  · obtain ⟨hlookup, rfl⟩ := resolveDeclared_error (map_error.mp h)
    exact .returned ‹_› hlookup

theorem checkNode_error {values : NodeValues} {bound : Option Qualifier} {node : Node}
    (h : c.checkNode values bound node = .error e) :
    ∃ name ∈ node.kind.names, c.resolveAt node name = .error e := by
  unfold checkNode at h
  split at h <;> rename_i hkind
  · split at h
    · cases h
    · rcases bind_error.mp h with h | ⟨_, -, h⟩
      · obtain ⟨name, hname, h⟩ := localBound_error h
        exact ⟨name, by simpa [hkind, NodeKind.names] using hname, h⟩
      · cases h
  · cases h
  · split at h
    · cases h
    · dsimp only at h
      split at h
      · cases h
      · cases h
  · split at h
    · cases h
    · cases h
  · rcases bind_error.mp h with h | ⟨_, -, h⟩
    · exact ⟨_, by simp [hkind, NodeKind.names], h⟩
    · cases h
  · cases h

theorem checkGraph_error {values : NodeValues} {bound : Option Qualifier} (hu : u.lower = .ok g)
    (h : c.checkGraph g values bound s.checkUnreachable = .error e) : c.Documented s u g e := by
  rcases bind_error.mp h with h | ⟨_, -, h⟩
  · obtain ⟨node, hmem, h⟩ := mapM_error h
    obtain ⟨hmem, hincluded⟩ := List.mem_filter.mp hmem
    obtain ⟨name, hname, h⟩ := checkNode_error h
    obtain ⟨hlookup, rfl⟩ := resolveAt_error h
    have hg := ProgramUnit.lower_valid hu
    obtain ⟨k, hnode⟩ := Array.getElem?_of_mem (Array.mem_toList_iff.mp hmem)
    have hnode : g.node? k = some node := hnode
    obtain ⟨block, hblock, -⟩ := ProgramUnit.lower_homed hu hnode
    rw [hg.node hnode]
    refine .written hnode hname hlookup ?_
    rcases Bool.or_eq_true_iff.mp hincluded with hflag | hreach
    · exact .inl hflag
    · refine .inr (by_contra fun hnot => ?_)
      have hlt : node.block < g.size := (Array.getElem?_eq_some_iff.mp hblock).1
      exact absurd (hg.unreachable.mpr ⟨hlt, hnot⟩) (by simpa [FlowGraph.isReachable] using hreach)
  · cases h

/-- The analysis of a graph that a unit was lowered to fails in documented ways only. -/
theorem analyzeGraph_error (hu : u.lower = .ok g) (h : c.analyzeGraph s u g = .error e) :
    c.Documented s u g e := by
  have hg := ProgramUnit.lower_valid hu
  obtain ⟨T, hT, hentry⟩ := ProgramUnit.lower_timetable hu
  unfold analyzeGraph at h
  rcases bind_error.mp h with h | ⟨initial, -, h⟩
  · exact initialStore_error h
  rcases bind_error.mp h with h | ⟨bound, -, h⟩
  · exact returnBound_error h
  rcases bind_error.mp h with h | ⟨⟨fixpoint, solved⟩, hsolve, h⟩
  · rcases UnitAnalysis.solve_error hT hentry hg h with rfl | ⟨b, V, hb, hstops, hoperand⟩
    · exact .visits
    · exact hstops.documented hoperand (.inr hb)
  obtain ⟨hsize, hsolved⟩ := UnitAnalysis.solve_evaluated hg hsolve
  have hcheck {values : NodeValues} (h : (do
      let diagnostics ← c.checkGraph g values bound s.checkUnreachable
      pure (⟨u.name, g, fixpoint, values, diagnostics⟩ : AnalyzedUnit)) = .error e) :
      c.Documented s u g e := by
    rcases bind_error.mp h with h | ⟨_, -, h⟩
    · exact checkGraph_error hu h
    · cases h
  dsimp only at h
  split at h
  · rename_i hflag
    rcases bind_error.mp h with h | ⟨values, -, h⟩
    · have hdone : ∀ m ∉ g.unreachable, ∀ j, g.Home j m → solved.Holds j := by
        intro m hm j hj
        obtain ⟨block, hblock, -⟩ := id hj
        have hlt : m < g.size := (Array.getElem?_eq_some_iff.mp hblock).1
        exact hsolved m (by_contra fun hnot => hm (hg.unreachable.mpr ⟨hlt, hnot⟩)) j hj
      obtain ⟨b, V, hstops, hoperand⟩ :=
        UnitAnalysis.evaluateDetached_error hT hentry hg hsize hdone h
      exact hstops.documented hoperand (.inl hflag)
    · exact hcheck h
  · rcases bind_error.mp h with h | ⟨values, -, h⟩
    · cases h
    · exact hcheck h

/-- The analysis of a unit that has a graph never lacks an operand. What it fails over is its
limit, a parameter or a result of an unknown qualifier, or an unknown qualifier at a node:
one that can be reached, unless the others are asked for. -/
theorem analyze_error (hu : u.lower = .ok g) {failure : UnitError}
    (h : c.analyze s u = .error failure) :
    ∃ cause, failure = .analysis u.name cause ∧
      (∀ operand node block, cause ≠ .missingOperand operand node block) ∧
      c.Documented s u g cause := by
  unfold analyze at h
  rw [hu] at h
  obtain ⟨cause, hcause, rfl⟩ := mapError_error h
  have hdocumented := analyzeGraph_error hu hcause
  refine ⟨cause, rfl, ?_, hdocumented⟩
  rintro operand node block rfl
  cases hdocumented

end Checker

/-- A unit that names an unknown qualifier where nothing leads. -/
def abandonedUnit : ProgramUnit where
  name := "abandoned"
  params := []
  returnQualifier := none
  body := [.returnValue none, .localDecl "rest" (some "Absent") none]

theorem abandonedUnit_error : ∃ c g failure, Checker.ofDeclaration presence = .ok c ∧
    abandonedUnit.lower = .ok g ∧ c.analyze ⟨none, false, true⟩ abandonedUnit = .error failure ∧
    ∃ cause, failure = .analysis abandonedUnit.name cause ∧
      (∀ operand node block, cause ≠ .missingOperand operand node block) ∧
      c.Documented ⟨none, false, true⟩ abandonedUnit g cause := by
  have hok : ((Checker.ofDeclaration presence).toOption.bind fun c =>
      abandonedUnit.lower.toOption.map fun _ =>
        (c.analyze ⟨none, false, true⟩ abandonedUnit).isOk) = some false := by decide +kernel
  obtain ⟨c, hc, h⟩ := Option.bind_eq_some_iff.mp hok
  obtain ⟨g, hg, h⟩ := Option.map_eq_some_iff.mp h
  have hg := ok_of_toOption hg
  cases hfailure : c.analyze ⟨none, false, true⟩ abandonedUnit with
  | error failure =>
      exact ⟨c, g, failure, ok_of_toOption hc, hg, hfailure, Checker.analyze_error hg hfailure⟩
  | ok a =>
      rw [hfailure] at h
      cases h

end FlowTyping
