import FlowTyping.Proofs.Flow.Termination

/-!
The history of a solver. The facts before and after a block move upwards from each of its visits to
the next: its edges have climbed meanwhile, and so has the state that its transfer reads.
-/

namespace FlowTyping

open Relation

variable {Fact σ : Type} {a : DataflowAnalysis Fact σ} {g : FlowGraph} {Fine : Fact → Prop}
  {le : Fact → Fact → Prop} {leState : σ → σ → Prop}

theorem FlowTable.Below.trans (L : a.Lawful g Fine le leState)
    (hstate : ∀ {x y z}, leState x y → leState y z → leState x z) {t t' t'' : FlowTable Fact σ}
    (h : t.Below le leState t') (h' : t'.Below le leState t'') : t.Below le leState t'' := by
  have hjoin {x y z : Option Fact} (hxy : ∀ f, x = some f → ∃ f', y = some f' ∧ le f f')
      (hyz : ∀ f, y = some f → ∃ f', z = some f' ∧ le f f') :
      ∀ f, x = some f → ∃ f', z = some f' ∧ le f f' := by
    intro f hf
    obtain ⟨f', hf', hle⟩ := hxy f hf
    obtain ⟨f'', hf'', hle'⟩ := hyz f' hf'
    exact ⟨f'', hf'', L.trans hle hle'⟩
  exact ⟨fun b => hjoin (h.before b) (h'.before b), fun b => hjoin (h.after b) (h'.after b),
    fun p b => hjoin (h.edge p b) (h'.edge p b), hstate h.state h'.state⟩

/-- What is asked of an analysis beyond its laws so that nothing moves down: its transfers move
the state upwards. -/
structure DataflowAnalysis.Upwards (a : DataflowAnalysis Fact σ) (le : Fact → Fact → Prop)
    (leState : σ → σ → Prop) : Prop where
  trans : ∀ {x y z}, leState x y → leState y z → leState x z
  transfer : ∀ {st st' : σ} {block : BlockId} {f : Fact} {r : BlockTransfer Fact},
    leState st st → le f f → a.transfer st block f = .ok (r, st') → leState st st'

namespace Solving

variable {ranks : Array Nat} {s s' mid : Solving Fact σ}

/-- The invariant of the visits: a block was last visited with no more than what arrives at it, and
its output comes from a state that the present one has outgrown. -/
structure Outgrown (a : DataflowAnalysis Fact σ) (g : FlowGraph) (le : Fact → Fact → Prop)
    (leState : σ → σ → Prop) (s : Solving Fact σ) : Prop where
  input : ∀ b f, s.table.before b = some f → le f (s.table.input a g b)
  output : ∀ b o, s.table.after b = some o → ∃ f r st st', s.table.before b = some f ∧
    leState st s.state ∧ a.transfer st b f = .ok (r, st') ∧ r.output = o

theorem start_outgrown {st : σ} : (start g st : Solving Fact σ).Outgrown a g le leState := by
  have hnone := getD_replicate_none Fact g.size
  exact ⟨fun b f hf => Option.some_ne_none f (hf.symm.trans (hnone b)) |>.elim,
    fun b o ho => Option.some_ne_none o (ho.symm.trans (hnone b)) |>.elim⟩

/-- A visit moves nothing down. -/
theorem step_rises (L : a.Lawful g Fine le leState) (hup : a.Upwards le leState) (hg : g.Valid)
    (hs : s.Sane a g le leState) (ho : s.Outgrown a g le leState) (h : Step a g ranks s s') :
    s.table.Below le leState s'.table ∧ s'.Outgrown a g le leState := by
  have hs' := step_sane L hg hs h
  obtain ⟨block, hblock, hvisit⟩ := h
  obtain ⟨r, st, htransfer, hv⟩ := visit_ok hvisit
  have hlive := hs.live_input L hg (.inl hblock)
  have hlt := hs.lt_size hg (.inl hblock)
  have hbefore := hv.before (hs.inFacts ▸ hlt)
  have hafter := hv.after (hs.outFacts ▸ hlt)
  have hstate : leState s.state s'.state := hv.state ▸ hup.transfer hs.state hlive htransfer
  have hsent : ∀ e ∈ r.edges, le e.2 e.2 := fun e he => by
    obtain ⟨_, -, -, hle⟩ := (L.transfer hs.state hlive htransfer htransfer).2.2 e he
    exact (L.refl hle).1
  have hedge : ∀ p b f, s.table.edge p b = some f →
      ∃ f', s'.table.edge p b = some f' ∧ le f f' :=
    fun p b f hf => hv.grows L hs.facts hsent hf
  have hinput {b : BlockId} (hb : s.Known b) :
      le (s.table.input a g b) (s'.table.input a g b) :=
    hs.input_mono L hg (fun p b f hf => (L.fine (hs'.facts.edge p b f hf)).1) hedge hb
  refine ⟨⟨fun b f hf => ?_, fun b o hb => ?_, hedge, hstate⟩, fun b f hf => ?_, fun b o hb => ?_⟩
  · rw [hbefore]
    by_cases heq : b = block
    · subst heq
      rw [if_pos rfl]
      exact ⟨_, rfl, ho.input b f hf⟩
    · rw [if_neg heq]
      exact ⟨f, hf, hs.facts.before b f hf⟩
  · rw [hafter]
    by_cases heq : b = block
    · subst heq
      rw [if_pos rfl]
      obtain ⟨f, r', st', st'', hf, hle, hold, rfl⟩ := ho.output b o hb
      exact ⟨_, rfl, (L.transfer hle (ho.input b f hf) hold htransfer).2.1⟩
    · rw [if_neg heq]
      exact ⟨o, hb, hs.facts.after b o hb⟩
  · rw [hbefore] at hf
    by_cases heq : b = block
    · subst heq
      rw [if_pos rfl] at hf
      cases hf
      exact hinput (.inl hblock)
    · rw [if_neg heq] at hf
      exact L.trans (ho.input b f hf) (hinput (.inr (hs.marked b f hf)))
  · rw [hafter] at hb
    by_cases heq : b = block
    · subst heq
      rw [if_pos rfl] at hb
      cases hb
      exact ⟨_, r, _, st, (hbefore b).trans (if_pos rfl), hstate, htransfer, rfl⟩
    · rw [if_neg heq] at hb
      obtain ⟨f, r', st', st'', hf, hle, hold, hout⟩ := ho.output b o hb
      exact ⟨f, r', st', st'', ((hbefore b).trans (if_neg heq)).trans hf,
        hup.trans hle hstate, hold, hout⟩

/-- A visit as it went. -/
structure Passage (Fact : Type) where
  block : BlockId
  input : Fact
  output : Fact

/-- The visits that lead from one state to another, first one first, each of the block that waits
first. -/
inductive Trace (a : DataflowAnalysis Fact σ) (g : FlowGraph) (ranks : Array Nat) :
    Solving Fact σ → List (Passage Fact) → Solving Fact σ → Prop
  | done (s : Solving Fact σ) : Trace a g ranks s [] s
  | visit {s mid s' : Solving Fact σ} {block : BlockId} {rest : List BlockId}
      {r : BlockTransfer Fact} {passages : List (Passage Fact)}
      (waits : s.worklist = block :: rest)
      (transfer : a.transfer s.state block (s.input a g block) = .ok (r, mid.state))
      (visited : { s with worklist := rest }.visit a g ranks block = .ok mid)
      (later : Trace a g ranks mid passages s') :
      Trace a g ranks s (⟨block, s.input a g block, r.output⟩ :: passages) s'

theorem visit_log {block : BlockId} (h : s.visit a g ranks block = .ok s') :
    ∃ r status, a.transfer s.state block (s.input a g block) = .ok (r, s'.state) ∧
      s'.log = ⟨block, r.output, status⟩ :: s.log := by
  obtain ⟨r, begun, ins, outs, htransfer, hbegun, hcounts, -⟩ := visit_counted h
  obtain ⟨status, hlog⟩ := hbegun.log
  exact ⟨r, status, by rwa [input_eq], hcounts.log.trans hlog⟩

/-- A run that ends leaves a trace, and it logs the outputs of its visits. -/
theorem run_trace {limit remaining : Nat} (h : run a g ranks limit remaining s = .ok s') :
    ∃ passages, Trace a g ranks s passages s' ∧ s'.worklist = [] ∧
      s'.log.reverse.map (fun v => (v.block, v.output)) =
        s.log.reverse.map (fun v => (v.block, v.output)) ++
          passages.map fun p => (p.block, p.output) := by
  induction remaining generalizing s with
  | zero =>
      unfold run at h
      split at h
      · cases h
        exact ⟨[], .done _, ‹_›, (List.append_nil _).symm⟩
      · cases h
  | succ remaining ih =>
      unfold run at h
      split at h
      · cases h
        exact ⟨[], .done _, ‹_›, (List.append_nil _).symm⟩
      · rename_i block rest hwork
        dsimp only at h
        split at h
        · cases h
        · rename_i mid hvisit
          obtain ⟨passages, htrace, hempty, hlog⟩ := ih h
          obtain ⟨r, status, htransfer, hmid⟩ := visit_log hvisit
          refine ⟨_, .visit hwork htransfer hvisit htrace, hempty, ?_⟩
          rw [hlog, hmid]
          simp

/-- What a visit leaves at its block. -/
theorem Advance.leaves (hg : g.Valid) (hs : s.Sane a g le leState) {block : BlockId}
    {rest : List BlockId} {r : BlockTransfer Fact} (hwork : s.worklist = block :: rest)
    (htransfer : a.transfer s.state block (s.input a g block) = .ok (r, mid.state))
    (hvisit : { s with worklist := rest }.visit a g ranks block = .ok mid) :
    mid.table.before block = some (s.input a g block) ∧
      mid.table.after block = some r.output := by
  obtain ⟨r', st, htransfer', hv⟩ := visit_ok hvisit
  rw [input_eq] at htransfer ⊢
  cases htransfer.symm.trans htransfer'
  have hlt := hs.lt_size hg (.inl (hwork ▸ List.mem_cons_self : block ∈ s.worklist))
  exact ⟨(hv.before (hs.inFacts ▸ hlt) block).trans (if_pos rfl),
    (hv.after (hs.outFacts ▸ hlt) block).trans (if_pos rfl)⟩

/-- The facts of each visit of a trace stand in some state above its first one. -/
theorem Trace.above (L : a.Lawful g Fine le leState) (hup : a.Upwards le leState) (hg : g.Valid)
    (hs : s.Sane a g le leState) (ho : s.Outgrown a g le leState) {passages : List (Passage Fact)}
    (h : Trace a g ranks s passages s') {p : Passage Fact} (hp : p ∈ passages) :
    ∃ mid : Solving Fact σ, s.table.Below le leState mid.table ∧
      mid.table.before p.block = some p.input ∧ mid.table.after p.block = some p.output := by
  induction h with
  | done s => cases hp
  | visit hwork htransfer hvisit _ ih =>
      have hstep := Advance.step ⟨_, _, hwork, hvisit⟩
      obtain ⟨hbelow, ho'⟩ := step_rises L hup hg hs ho hstep
      rcases List.mem_cons.mp hp with rfl | hp
      · exact ⟨_, hbelow, Advance.leaves hg hs hwork htransfer hvisit⟩
      · obtain ⟨mid, hmid, hfacts⟩ := ih (step_sane L hg hs hstep) ho' hp
        exact ⟨mid, hbelow.trans L hup.trans hmid, hfacts⟩

/-- From each visit of a block to the later ones, what is before it and after it moves upwards. -/
theorem Trace.pairwise (L : a.Lawful g Fine le leState) (hup : a.Upwards le leState)
    (hg : g.Valid) (hs : s.Sane a g le leState) (ho : s.Outgrown a g le leState)
    {passages : List (Passage Fact)} (h : Trace a g ranks s passages s') :
    passages.Pairwise fun p p' => p.block = p'.block →
      le p.input p'.input ∧ le p.output p'.output := by
  induction h with
  | done s => exact .nil
  | visit hwork htransfer hvisit hlater ih =>
      have hstep := Advance.step ⟨_, _, hwork, hvisit⟩
      have hs' := step_sane L hg hs hstep
      have ho' := (step_rises L hup hg hs ho hstep).2
      obtain ⟨hbefore, hafter⟩ := Advance.leaves hg hs hwork htransfer hvisit
      refine List.pairwise_cons.mpr ⟨fun p hp hblock => ?_, ih hs' ho'⟩
      obtain ⟨mid, hbelow, hinput, houtput⟩ := hlater.above L hup hg hs' ho' hp
      rw [← hblock] at hinput houtput
      obtain ⟨f, hf, hle⟩ := hbelow.before _ _ hbefore
      obtain ⟨o, ho, hle'⟩ := hbelow.after _ _ hafter
      cases hinput.symm.trans hf
      cases houtput.symm.trans ho
      exact ⟨hle, hle'⟩

end Solving

/-- One result is above another one, and no key is lower in either outcome. -/
structure TransferResult.Rises (h : Hierarchy) (r r' : TransferResult) : Prop where
  subsumed : r.isSubsumedBy h r' = true
  thenKeys : ∀ key, h.isSubtype (r.thenStore.valueOrTop key) (r'.thenStore.valueOrTop key) = true
  elseKeys : ∀ key, h.isSubtype (r.elseStore.valueOrTop key) (r'.elseStore.valueOrTop key) = true

theorem TransferResult.Under.rises {h : Hierarchy} (hh : h.Lawful) {r r' : TransferResult}
    (hle : r.Under h r') : r.Rises h r' where
  subsumed := (Bool.and_eq_true_iff.mp
    ((TransferResult.isBelow_iff hh hle.left hle.right).mpr hle.le)).1
  thenKeys := (hle.le.thenStore hle.live.thenStore).2
  elseKeys := (hle.le.elseStore hle.live.elseStore).2

namespace UnitAnalysis

variable {u : UnitAnalysis}

theorem Fit.upwards (h : u.Fit) : u.dataflow.Upwards (TransferResult.Under u.checker.hierarchy)
    (NodeValues.Under u.checker.hierarchy u.graph.nodeCount) where
  trans := fun hxy hyz => ⟨hxy.left, hyz.right, hxy.le.trans h.sound.lawful hyz.le, hyz.refl⟩
  transfer := fun hV hf htransfer =>
    have hkept := (transferBlock_mono h.sound hV hf htransfer htransfer).1
    ⟨hV.left, hkept.right,
      (transferBlock_raises h.sound h.valid h.consumers hV hf htransfer).1, hkept.refl⟩

/-- From each visit of a block to the later ones, what is before it and after it rises. -/
theorem Fit.trace_rises (h : u.Fit) {ranks : Array Nat}
    {passages : List (Solving.Passage TransferResult)} {s : Solving TransferResult NodeValues}
    (htrace : Solving.Trace u.dataflow u.graph ranks (.start u.graph u.noValues) passages s) :
    passages.Pairwise fun p p' => p.block = p'.block →
      p.input.Rises u.checker.hierarchy p'.input ∧
      p.output.Rises u.checker.hierarchy p'.output := by
  refine (htrace.pairwise h.lawful h.upwards h.valid (Solving.start_sane Fit.start_under)
    Solving.start_outgrown).imp ?_
  intro p p' hle hblock
  obtain ⟨hinput, houtput⟩ := hle hblock
  exact ⟨hinput.rises h.sound.lawful, houtput.rises h.sound.lawful⟩

end UnitAnalysis

/-- The recorded history of an analysis consists of the visits that lead from the start to its
result. Between two visits of one block, what is before it and what is after it moves upwards. -/
theorem Checker.analyze_history_rises {d : CheckerDeclaration} {c : Checker}
    (hc : Checker.ofDeclaration d = .ok c) {s : AnalysisSettings} {u : ProgramUnit}
    {a : AnalyzedUnit} (ha : c.analyze s u = .ok a) (hrecord : s.recordHistory = true) :
    ∃ initial history passages s', u.lower = .ok a.graph ∧ c.initialStore u = .ok initial ∧
      a.fixpoint.history = some history ∧
      let analysis := UnitAnalysis.new c a.graph initial
      Solving.Trace analysis.dataflow a.graph a.graph.ranks (.start a.graph analysis.noValues)
        passages s' ∧
      s'.worklist = [] ∧ a.fixpoint = s'.result true ∧
      history.map (fun v => (v.block, v.output)) = passages.map (fun p => (p.block, p.output)) ∧
      (history.Pairwise fun v v' => v.block = v'.block →
        v.output.Rises c.hierarchy v'.output) ∧
      passages.Pairwise fun p p' => p.block = p'.block →
        p.input.Rises c.hierarchy p'.input ∧ p.output.Rises c.hierarchy p'.output := by
  obtain ⟨g, hlower, ha⟩ := bind_ok.mp ha
  obtain ⟨rfl, initial, bound, limit, solved, hinitial, -, hsolve, -⟩ :=
    analyzeGraph_ok (Hierarchy.mapError_ok ha)
  have hlower := Hierarchy.mapError_ok hlower
  have hsound := ofDeclaration_sound hc
  have hfit := UnitAnalysis.fit_new hsound (ProgramUnit.lower_valid hlower)
    (ProgramUnit.lower_ordered hlower) (hsound.initialStore_under hinitial)
  obtain ⟨s', hrun, heq⟩ := bind_ok.mp hsolve
  rw [hrecord] at heq
  have hfixpoint : a.fixpoint = s'.result true := (congrArg Prod.fst (Except.ok.inj heq)).symm
  obtain ⟨passages, htrace, hempty, hlog⟩ := Solving.run_trace hrun
  have hrises := hfit.trace_rises htrace
  have hpairs : (passages.map fun p => (p.block, p.output)).Pairwise fun v v' =>
      v.1 = v'.1 → v.2.Rises c.hierarchy v'.2 :=
    List.pairwise_map.mpr (hrises.imp fun h hblock => (h hblock).2)
  have hhistory : s'.log.reverse.map (fun v => (v.block, v.output)) =
      passages.map fun p => (p.block, p.output) := hlog
  refine ⟨initial, s'.log.reverse, passages, s', hlower, hinitial, ?_, htrace, hempty, hfixpoint,
    hhistory, ?_, hrises⟩
  · rw [hfixpoint]
    rfl
  · rw [← hhistory] at hpairs
    exact List.pairwise_map.mp hpairs

/-- Standard settings, with a history. -/
def AnalysisSettings.recording : AnalysisSettings := { standard with recordHistory := true }

theorem followingUnit_history_rises : ∃ c a, Checker.ofDeclaration presence = .ok c ∧
    c.analyze .recording followingUnit = .ok a ∧ AnalysisSettings.recording.recordHistory = true ∧
    ∃ initial history passages s', followingUnit.lower = .ok a.graph ∧
      c.initialStore followingUnit = .ok initial ∧ a.fixpoint.history = some history ∧
      let analysis := UnitAnalysis.new c a.graph initial
      Solving.Trace analysis.dataflow a.graph a.graph.ranks (.start a.graph analysis.noValues)
        passages s' ∧
      s'.worklist = [] ∧ a.fixpoint = s'.result true ∧
      history.map (fun v => (v.block, v.output)) = passages.map (fun p => (p.block, p.output)) ∧
      (history.Pairwise fun v v' => v.block = v'.block →
        v.output.Rises c.hierarchy v'.output) ∧
      passages.Pairwise fun p p' => p.block = p'.block →
        p.input.Rises c.hierarchy p'.input ∧ p.output.Rises c.hierarchy p'.output := by
  have hok : ((Checker.ofDeclaration presence).toOption.bind fun c =>
      (c.analyze .recording followingUnit).toOption).isSome = true := by decide +kernel
  obtain ⟨a, h⟩ := Option.isSome_iff_exists.mp hok
  obtain ⟨c, hc, ha⟩ := Option.bind_eq_some_iff.mp h
  have hc := ok_of_toOption hc
  have ha := ok_of_toOption ha
  exact ⟨c, a, hc, ha, rfl, Checker.analyze_history_rises hc ha rfl⟩

end FlowTyping
