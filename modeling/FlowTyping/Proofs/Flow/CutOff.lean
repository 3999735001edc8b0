import FlowTyping.Proofs.Flow.BlockTrails
import FlowTyping.Proofs.Flow.Climbing

/-!
The limit of a solver as a cut-off. A visit does not look at the limit, so the visits of a run are
the same under every limit, and the limit decides only whether the run comes to its end.
-/

namespace FlowTyping

open Relation

variable {Fact σ : Type} {a : DataflowAnalysis Fact σ} {g : FlowGraph}

namespace Solving

variable {ranks : Array Nat} {s s' : Solving Fact σ} {k n : Nat} {e : AnalysisError}
  {outcome : Except AnalysisError (Solving Fact σ)}

/-- How the visits from a state come to an end, and after how many of them: no block waits any
more, or the last visit fails. -/
inductive Ends (a : DataflowAnalysis Fact σ) (g : FlowGraph) (ranks : Array Nat) :
    Solving Fact σ → Nat → Except AnalysisError (Solving Fact σ) → Prop
  | done {s : Solving Fact σ} (rests : s.worklist = []) : Ends a g ranks s 0 (.ok s)
  | fails {s : Solving Fact σ} {block : BlockId} {rest : List BlockId} {e : AnalysisError}
      (waits : s.worklist = block :: rest)
      (failed : { s with worklist := rest }.visit a g ranks block = .error e) :
      Ends a g ranks s 1 (.error e)
  | visit {s mid : Solving Fact σ} {block : BlockId} {rest : List BlockId} {k : Nat}
      {outcome : Except AnalysisError (Solving Fact σ)} (waits : s.worklist = block :: rest)
      (visited : { s with worklist := rest }.visit a g ranks block = .ok mid)
      (later : Ends a g ranks mid k outcome) : Ends a g ranks s (k + 1) outcome

namespace Ends

theorem visits (h : Ends a g ranks s k (.ok s')) : s'.visits = s.visits + k := by
  generalize hend : Except.ok s' = outcome at h
  induction h with
  | done =>
      cases hend
      rfl
  | fails => cases hend
  | visit hwork hvisit _ ih =>
      have hadvance : Advance a g ranks _ _ := ⟨_, _, hwork, hvisit⟩
      rw [ih hend, hadvance.visits]
      omega

/-- The visit with which the visits fail. -/
theorem failure (h : Ends a g ranks s k (.error e)) :
    ∃ s' block, ReflTransGen (Advance a g ranks) s s' ∧ s'.visits + 1 = s.visits + k ∧
      s'.worklist.head? = some block ∧
      a.transfer s'.state block (s'.input a g block) = .error e := by
  generalize hend : Except.error e = outcome at h
  induction h with
  | done => cases hend
  | @fails s block rest _ hwork hvisit =>
      cases hend
      refine ⟨s, block, .refl, rfl, by rw [hwork, List.head?_cons], ?_⟩
      rcases bind_error.mp hvisit with htransfer | ⟨_, -, hok⟩
      · exact htransfer
      · cases hok
  | visit hwork hvisit _ ih =>
      have hadvance : Advance a g ranks _ _ := ⟨_, _, hwork, hvisit⟩
      obtain ⟨s', block, hsteps, hvisits, hfailure⟩ := ih hend
      refine ⟨s', block, .head hadvance hsteps, ?_, hfailure⟩
      rw [hvisits, hadvance.visits]
      omega

/-- What comes to its end within the limit does so, and the rest is cut off. -/
theorem run_eq (h : Ends a g ranks s k outcome) (limit n : Nat) :
    run a g ranks limit n s = if k ≤ n then outcome else .error (.visitLimit limit) := by
  induction h generalizing n with
  | done hwork =>
      unfold run
      rw [hwork, if_pos (Nat.zero_le n)]
  | fails hwork hvisit =>
      unfold run
      rw [hwork]
      cases n with
      | zero => rfl
      | succ n =>
          dsimp only
          rw [hvisit, if_pos (Nat.le_add_left 1 n)]
  | visit hwork hvisit _ ih =>
      unfold run
      rw [hwork]
      cases n with
      | zero => rfl
      | succ n =>
          dsimp only
          rw [hvisit]
          simp only [ih, Nat.add_le_add_iff_right]

end Ends

/-- Visits that come to no end within a number of them get to that number, and a block waits
still. -/
theorem run_of_not_ends (limit : Nat) (h : ∀ k outcome, Ends a g ranks s k outcome → n < k) :
    run a g ranks limit n s = .error (.visitLimit limit) ∧
      ∃ s', ReflTransGen (Advance a g ranks) s s' ∧ s'.visits = s.visits + n ∧
        s'.worklist ≠ [] := by
  have hwaits : s.worklist ≠ [] := fun hempty =>
    absurd (h 0 _ (.done hempty)) (Nat.not_lt_zero n)
  obtain ⟨block, rest, hwork⟩ := List.exists_cons_of_ne_nil hwaits
  induction n generalizing s block rest with
  | zero =>
      refine ⟨?_, s, .refl, rfl, hwaits⟩
      unfold run
      rw [hwork]
  | succ n ih =>
      unfold run
      rw [hwork]
      dsimp only
      cases hvisit : { s with worklist := rest }.visit a g ranks block with
      | error e => exact absurd (h 1 _ (.fails hwork hvisit)) (by omega)
      | ok mid =>
          have hadvance : Advance a g ranks s mid := ⟨block, rest, hwork, hvisit⟩
          have hlater : ∀ k outcome, Ends a g ranks mid k outcome → n < k := fun k outcome hends =>
            Nat.lt_of_succ_lt_succ (h (k + 1) outcome (.visit hwork hvisit hends))
          have hwaits : mid.worklist ≠ [] := fun hempty =>
            absurd (hlater 0 _ (.done hempty)) (Nat.not_lt_zero n)
          obtain ⟨block', rest', hwork'⟩ := List.exists_cons_of_ne_nil hwaits
          obtain ⟨hrun, s', hsteps, hvisits, hwaits'⟩ := ih hlater hwaits block' rest' hwork'
          refine ⟨hrun, s', .head hadvance hsteps, ?_, hwaits'⟩
          rw [hvisits, hadvance.visits]
          omega

end Solving

/-- Solving fails in a certain visit: after the visits before it the transfer of the block that
waits first fails. -/
def FailsInVisit (a : DataflowAnalysis Fact σ) (g : FlowGraph) (st : σ) (k : Nat)
    (e : AnalysisError) : Prop :=
  ∃ s block, ReflTransGen (Solving.Advance a g g.ranks) (.start g st) s ∧ s.visits + 1 = k ∧
    s.worklist.head? = some block ∧ a.transfer s.state block (s.input a g block) = .error e

/-- Solving is given up: after as many visits as the limit allows a block waits still. -/
def IsCutOff (a : DataflowAnalysis Fact σ) (g : FlowGraph) (st : σ) (limit : Nat) : Prop :=
  ∃ s, ReflTransGen (Solving.Advance a g g.ranks) (.start g st) s ∧ s.visits = limit ∧
    s.worklist ≠ []

/-- Solving under a limit, and under every other one: it comes to its end in a number of visits
that the limit does not change, or it is given up. -/
theorem solve_cases (a : DataflowAnalysis Fact σ) (g : FlowGraph) (limit : Nat) (record : Bool)
    (st : σ) :
    (∃ k ≤ limit, ((∃ r, solve a g limit record st = .ok r ∧ r.1.visits = k) ∨
        ∃ e, solve a g limit record st = .error e ∧ FailsInVisit a g st k e) ∧
      ∀ other, solve a g other record st =
        if k ≤ other then solve a g limit record st else .error (.visitLimit other)) ∨
    IsCutOff a g st limit ∧
      ∀ other ≤ limit, solve a g other record st = .error (.visitLimit other) := by
  have hsolve (n : Nat) : solve a g n record st =
      Solving.run a g g.ranks n n (.start g st) >>= fun s => .ok (s.result record, s.state) := rfl
  by_cases hends : ∃ k ≤ limit, ∃ outcome, Solving.Ends a g g.ranks (.start g st) k outcome
  · obtain ⟨k, hk, outcome, hends⟩ := hends
    have hrun := hends.run_eq limit limit
    rw [if_pos hk] at hrun
    refine .inl ⟨k, hk, ?_, fun other => ?_⟩
    · rw [hsolve, hrun]
      cases outcome with
      | ok s =>
          have hvisits : s.visits = 0 + k := hends.visits
          exact .inl ⟨_, rfl, hvisits.trans (Nat.zero_add k)⟩
      | error e =>
          obtain ⟨s, block, hsteps, hvisits, hfailure⟩ := hends.failure
          have hvisits : s.visits + 1 = 0 + k := hvisits
          exact .inr ⟨e, rfl, s, block, hsteps, hvisits.trans (Nat.zero_add k), hfailure⟩
    · rw [hsolve, hsolve, hrun, hends.run_eq]
      split <;> rfl
  · have hlater : ∀ k outcome, Solving.Ends a g g.ranks (.start g st) k outcome → limit < k :=
      fun k outcome h => Nat.lt_of_not_le fun hk => hends ⟨k, hk, outcome, h⟩
    refine .inr ⟨?_, fun other hle => ?_⟩
    · obtain ⟨-, s, hsteps, hvisits, hwaits⟩ := Solving.run_of_not_ends limit hlater
      have hvisits : s.visits = 0 + limit := hvisits
      exact ⟨s, hsteps, hvisits.trans (Nat.zero_add limit), hwaits⟩
    · have hrun := Solving.run_of_not_ends other
        fun k outcome h => Nat.lt_of_le_of_lt hle (hlater k outcome h)
      rw [hsolve, hrun.1]
      rfl

/-- The limit is only a cut-off. What solving finds under a limit it finds under every larger one.
What it finds under the larger one, it finds under the smaller one if the visits are within that,
and otherwise it is given up. Any error but that of the larger limit comes from the transfer in
some visit: under the smaller limit solving fails alike if it gets to this visit, and otherwise it
is given up; and it is given up under the smaller limit if it is under the larger one. -/
theorem solve_cutOff {limit limit' : Nat} (hle : limit ≤ limit') (a : DataflowAnalysis Fact σ)
    (g : FlowGraph) (record : Bool) (st : σ) :
    (∀ r, solve a g limit record st = .ok r → solve a g limit' record st = .ok r) ∧
    (∀ r, solve a g limit' record st = .ok r → solve a g limit record st =
      if r.1.visits ≤ limit then .ok r else .error (.visitLimit limit)) ∧
    ∀ e, solve a g limit' record st = .error e →
      (∃ k ≤ limit', FailsInVisit a g st k e ∧ solve a g limit record st =
        if k ≤ limit then .error e else .error (.visitLimit limit)) ∨
      e = .visitLimit limit' ∧ IsCutOff a g st limit' ∧
        solve a g limit record st = .error (.visitLimit limit) := by
  refine ⟨fun r h => ?_, fun r h => ?_, fun e h => ?_⟩
  · rcases solve_cases a g limit record st with ⟨k, hk, -, hother⟩ | ⟨-, hother⟩
    · rw [hother limit', if_pos (Nat.le_trans hk hle), h]
    · cases h.symm.trans (hother limit (Nat.le_refl limit))
  · rcases solve_cases a g limit' record st with ⟨k, -, hend, hother⟩ | ⟨-, hother⟩
    · obtain ⟨r', hr', hk⟩ := hend.resolve_right fun ⟨e, he, _⟩ => nomatch h.symm.trans he
      cases h.symm.trans hr'
      rw [hother limit, h, hk]
    · cases h.symm.trans (hother limit' (Nat.le_refl limit'))
  · rcases solve_cases a g limit' record st with ⟨k, hk, hend, hother⟩ | ⟨hcut, hother⟩
    · obtain ⟨e', he', hfails⟩ := hend.resolve_left fun ⟨r, hr, _⟩ => nomatch h.symm.trans hr
      cases h.symm.trans he'
      exact .inl ⟨k, hk, hfails, h ▸ hother limit⟩
    · cases h.symm.trans (hother limit' (Nat.le_refl limit'))
      exact .inr ⟨rfl, hcut, hother limit hle⟩

/-- Two blocks that go round are visited twice each, under any limit that allows it. -/
theorem spinningParts_cutOff : ∃ g r, spinningParts.toGraph = .ok g ∧
    solve (BlockTrail.sets g) g 7 true () = .ok r ∧ r.1.visits = 5 ∧
    solve (BlockTrail.sets g) g 5 true () = .ok r ∧
    solve (BlockTrail.sets g) g 4 true () = .error (.visitLimit 4) := by
  have hok : (spinningParts.toGraph.toOption.bind fun g =>
      (solve (BlockTrail.sets g) g 7 true ()).toOption.bind fun r =>
        if r.1.visits = 5 then some r else none).isSome = true := by decide +kernel
  obtain ⟨r, h⟩ := Option.isSome_iff_exists.mp hok
  obtain ⟨g, hg, h⟩ := Option.bind_eq_some_iff.mp h
  obtain ⟨r', hr, h⟩ := Option.bind_eq_some_iff.mp h
  obtain ⟨hvisits, heq⟩ := Option.ite_none_right_eq_some.mp h
  cases heq
  have hr := ok_of_toOption hr
  have hfive := (solve_cutOff (by decide : 5 ≤ 7) (BlockTrail.sets g) g true ()).2.1 r hr
  have hfour := (solve_cutOff (by decide : 4 ≤ 7) (BlockTrail.sets g) g true ()).2.1 r hr
  rw [hvisits, if_pos (Nat.le_refl 5)] at hfive
  rw [hvisits, if_neg (by decide)] at hfour
  exact ⟨g, r, ok_of_toOption hg, hr, hvisits, hfive, hfour⟩

end FlowTyping
