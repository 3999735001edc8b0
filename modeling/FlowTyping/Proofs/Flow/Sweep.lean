import FlowTyping.Proofs.Flow.Solver
import FlowTyping.Proofs.Graph.Postorder

/-!
The order of visits. Waiting blocks are taken in reverse postorder, so when a block is
visited for the first time every block before it has been visited.
-/

namespace FlowTyping

namespace Solving

open Relation

variable {Fact σ : Type} {a : DataflowAnalysis Fact σ} {g : FlowGraph} {ranks : Array Nat}
  {s s' : Solving Fact σ} {block c source : BlockId} {rest : List BlockId}

/-- A run fails at its limit or in a visit. -/
theorem run_error {limit remaining : Nat} {e : AnalysisError}
    (h : run a g ranks limit remaining s = .error e) :
    e = .visitLimit limit ∨ ∃ s' block rest, ReflTransGen (Advance a g ranks) s s' ∧
      s'.worklist = block :: rest ∧
      { s' with worklist := rest }.visit a g ranks block = .error e := by
  induction remaining generalizing s with
  | zero =>
      unfold run at h
      split at h
      · cases h
      · cases h
        exact .inl rfl
  | succ remaining ih =>
      unfold run at h
      split at h
      · cases h
      · rename_i block rest hworklist
        dsimp only at h
        split at h
        · rename_i hvisit
          cases h
          exact .inr ⟨s, block, rest, .refl, hworklist, hvisit⟩
        · rename_i next hvisit
          rcases ih h with hlimit | ⟨s', block', rest', hsteps, hwork, herror⟩
          · exact .inl hlimit
          · exact .inr ⟨s', block', rest', .head ⟨block, rest, hworklist, hvisit⟩ hsteps, hwork,
              herror⟩

/-- Waiting blocks are listed by rank. -/
def Sorted (ranks : Array Nat) (l : List BlockId) : Prop :=
  l.Pairwise fun a b => ranks.getD a 0 ≤ ranks.getD b 0

theorem schedule_sorted {l : List BlockId} (h : Sorted ranks l) :
    Sorted ranks (schedule ranks block l) := by
  induction l with
  | nil => exact List.pairwise_singleton _ _
  | cons other rest ih =>
      obtain ⟨hother, hrest⟩ := List.pairwise_cons.mp h
      unfold schedule
      dsimp only
      split
      · exact h
      split
      · rename_i hplace
        have hle : ranks.getD block 0 ≤ ranks.getD other 0 := by
          simp only [Bool.or_eq_true, Bool.and_eq_true, decide_eq_true_eq] at hplace
          omega
        exact List.pairwise_cons.mpr ⟨List.forall_mem_cons.mpr
          ⟨hle, fun x hx => Nat.le_trans hle (hother x hx)⟩, h⟩
      · rename_i hsame hplace
        refine List.pairwise_cons.mpr ⟨fun x hx => ?_, ih hrest⟩
        rcases mem_schedule.mp hx with rfl | hx
        · simp only [Bool.or_eq_true, Bool.and_eq_true, decide_eq_true_eq, not_or,
            not_and] at hplace
          exact Nat.not_lt.mp hplace.1
        · exact hother x hx

theorem propagate_sorted (h : Sorted ranks s.worklist) (e : BlockId × Fact) :
    Sorted ranks (propagate a ranks source s e).worklist := by
  unfold propagate
  split
  · exact schedule_sorted h
  · dsimp only
    split
    · exact h
    · exact schedule_sorted h

theorem revisit_sorted (h : Sorted ranks s.worklist) (x : BlockId) :
    Sorted ranks (revisit ranks s x).worklist := by
  unfold revisit
  split
  · exact h
  · exact schedule_sorted h

theorem foldl_sorted {α : Type} {f : Solving Fact σ → α → Solving Fact σ}
    (hf : ∀ s x, Sorted ranks s.worklist → Sorted ranks (f s x).worklist) (l : List α)
    (h : Sorted ranks s.worklist) : Sorted ranks (l.foldl f s).worklist := by
  induction l generalizing s with
  | nil => exact h
  | cons x rest ih => exact ih (hf s x h)

theorem visit_sorted (hs : Sorted ranks s.worklist) (h : s.visit a g ranks block = .ok s') :
    Sorted ranks s'.worklist := by
  obtain ⟨⟨r, state⟩, -, heq⟩ := bind_ok.mp h
  cases heq
  exact foldl_sorted (fun s x h => revisit_sorted h x) r.revisit
    (foldl_sorted (fun s e h => propagate_sorted h e) r.edges hs)

/-- The block has been visited. -/
def Seen (s : Solving Fact σ) (b : BlockId) : Prop := ∃ f, s.table.before b = some f

/-- The invariant of visits in order: what a visited block leads to waits or has been
visited as well. -/
structure Sweeps (g : FlowGraph) (s : Solving Fact σ) : Prop where
  inFacts : s.inFacts.size = g.size
  statuses : s.statuses.size = g.size
  sorted : Sorted g.ranks s.worklist
  known : ∀ b, s.Known b → g.Reaches b
  marked : ∀ b, s.Seen b → s.Marked b
  entry : g.entry ∈ s.worklist ∨ s.Seen g.entry
  edge : ∀ p t f, s.table.edge p t = some f → t ∈ s.worklist ∨ s.Seen t
  sent : ∀ p, s.Seen p → ∀ t ∈ g.successors p, ∃ f, s.table.edge p t = some f

end Solving

theorem DataflowAnalysis.merge_isSome {Fact σ : Type} {a : DataflowAnalysis Fact σ}
    {old : Option Fact} {sent : List Fact} (h : sent ≠ [] ∨ ∃ f, old = some f) :
    ∃ f, a.merge old sent = some f := by
  induction sent generalizing old with
  | nil => exact h.resolve_left (fun h => h rfl)
  | cons f rest ih => exact ih (.inr ⟨_, rfl⟩)

namespace Solving

open Relation

variable {Fact σ : Type} {a : DataflowAnalysis Fact σ} {g : FlowGraph}
  {s s' : Solving Fact σ} {block c : BlockId} {rest : List BlockId} {st : σ}

theorem start_sweeps : (start g st : Solving Fact σ).Sweeps g where
  inFacts := Array.size_replicate
  statuses := Array.size_setIfInBounds.trans Array.size_replicate
  sorted := List.pairwise_singleton _ _
  known b hb := known_start hb ▸ .refl
  marked b hb := by
    obtain ⟨f, hf⟩ := hb
    exact absurd ((getD_replicate_none Fact g.size b).symm.trans hf) nofun
  entry := .inl (List.mem_singleton.mpr rfl)
  edge _ _ _ := nofun
  sent p hp := by
    obtain ⟨f, hf⟩ := hp
    exact absurd ((getD_replicate_none Fact g.size p).symm.trans hf) nofun

namespace Sweeps

/-- When a block is taken, every block before it has been visited. -/
theorem seen_of_rank_lt (hg : g.Valid) (hs : s.Sweeps g) (hwork : s.worklist = block :: rest)
    (hc : g.Reaches c) (hlt : g.rank c < g.rank block) : s.Seen c := by
  have hfirst : ∀ x ∈ s.worklist, g.rank block ≤ g.rank x := by
    have hsorted := hs.sorted
    rw [hwork] at hsorted ⊢
    exact List.forall_mem_cons.mpr ⟨Nat.le_refl _, (List.pairwise_cons.mp hsorted).1⟩
  have hpath := hg.ascends hc
  clear hc
  induction hpath with
  | refl =>
      refine hs.entry.resolve_left fun hmem => ?_
      exact absurd hlt (Nat.not_lt.mpr (hfirst _ hmem))
  | tail _ hedge ih =>
      obtain ⟨hedge, hrank⟩ := hedge
      obtain ⟨f, hf⟩ := hs.sent _ (ih (Nat.lt_trans hrank hlt)) _ hedge
      refine (hs.edge _ _ f hf).resolve_left fun hmem => ?_
      exact absurd hlt (Nat.not_lt.mpr (hfirst _ hmem))

theorem reaches (hs : s.Sweeps g) (hb : block ∈ s.worklist) : g.Reaches block :=
  hs.known block (.inl hb)

theorem reaches_of_seen (hs : s.Sweeps g) (hb : s.Seen block) : g.Reaches block :=
  hs.known block (.inr (hs.marked block hb))

/-- When no block waits any more, all that can be reached have been visited. -/
theorem seen (hs : s.Sweeps g) (hempty : s.worklist = []) (hb : g.Reaches block) :
    s.Seen block := by
  have hnone {b : BlockId} : b ∉ s.worklist := by simp [hempty]
  induction hb with
  | refl => exact hs.entry.resolve_left hnone
  | tail _ hedge ih =>
      obtain ⟨f, hf⟩ := hs.sent _ ih _ hedge
      exact (hs.edge _ _ f hf).resolve_left hnone

end Sweeps

/-- A visit keeps the invariant, if a transfer sends along every edge. -/
theorem advance_sweeps (hg : g.Valid)
    (hcovers : ∀ {st st' : σ} {b : BlockId} {f : Fact} {r : BlockTransfer Fact},
      a.transfer st b f = .ok (r, st') → ∀ t, t ∈ g.successors b ↔ ∃ e ∈ r.edges, e.1 = t)
    (hs : s.Sweeps g) (hwork : s.worklist = block :: rest)
    (h : { s with worklist := rest }.visit a g g.ranks block = .ok s') :
    s'.Sweeps g ∧ (∀ b, s'.Seen b ↔ b = block ∨ s.Seen b) ∧
      ∃ input r, a.transfer s.state block input = .ok (r, s'.state) := by
  obtain ⟨r, state, htransfer, hv⟩ := visit_ok h
  have hreach : g.Reaches block := hs.reaches (by simp [hwork])
  have hsize : block < s.inFacts.size := hs.inFacts.symm ▸ hg.lt_of_reach hreach
  have hrest : ∀ x ∈ s.worklist, x = block ∨ x ∈ s'.worklist := by
    intro x hx
    rw [hwork] at hx
    exact (List.mem_cons.mp hx).imp_right fun hx => hv.kept hx
  have hseen : ∀ b, s'.Seen b ↔ b = block ∨ s.Seen b := by
    intro b
    unfold Seen
    rw [hv.before hsize]
    by_cases hb : b = block
    · simp [hb]
    · simp only [hb, if_false, false_or]
      rfl
  have hwaits : ∀ t, t ∈ s.worklist ∨ s.Seen t → t ∈ s'.worklist ∨ s'.Seen t := by
    rintro t (ht | ht)
    · rcases hrest t ht with rfl | ht
      · exact .inr ((hseen t).mpr (.inl rfl))
      · exact .inl ht
    · exact .inr ((hseen t).mpr (.inr ht))
  refine ⟨{
    inFacts := ?_
    statuses := hv.statuses.trans hs.statuses
    sorted := ?_
    known := fun b hb => ?_
    marked := fun b hb => ?_
    entry := hwaits _ hs.entry
    edge := fun p t f hf => ?_
    sent := fun p hp t ht => ?_ }, hseen, _, r, hv.state ▸ htransfer⟩
  · rw [hv.inFacts, Array.size_setIfInBounds]
    exact hs.inFacts
  · have hsorted := hs.sorted
    rw [hwork] at hsorted
    have hrest : Sorted g.ranks ({ s with worklist := rest } : Solving Fact σ).worklist :=
      (List.pairwise_cons.mp hsorted).2
    exact visit_sorted hrest h
  · rcases hv.known b hb with hb | rfl | ⟨e, he, rfl⟩
    · refine hs.known b (hb.imp_left fun hb => ?_)
      rw [hwork]
      exact List.mem_cons_of_mem block hb
    · exact hreach
    · exact hreach.tail ((hcovers htransfer _).mpr ⟨e, he, rfl⟩)
  · rcases (hseen b).mp hb with rfl | hb
    · exact hv.marked_self (hs.statuses.symm ▸ hg.lt_of_reach hreach)
    · exact hv.marked b (hs.marked b hb)
  · by_cases hsame : s'.table.edge p t = s.table.edge p t
    · exact hwaits t (hs.edge p t f (hsame ▸ hf))
    · exact .inl (hv.changed p t hsame)
  · by_cases hpb : p = block
    · subst hpb
      rw [hv.edge_self]
      obtain ⟨e, he, rfl⟩ := (hcovers htransfer t).mp ht
      have hsent := List.ne_nil_of_mem (BlockTransfer.mem_sentTo.mpr he)
      exact DataflowAnalysis.merge_isSome (.inl hsent)
    · rw [hv.edge_other hpb]
      exact hs.sent p (((hseen p).mp hp).resolve_left hpb) t ht

end Solving

end FlowTyping
