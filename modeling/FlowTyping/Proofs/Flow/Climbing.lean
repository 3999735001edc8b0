import FlowTyping.Proofs.Flow.Sweep
import Mathlib.Algebra.BigOperators.Ring.Finset
import Mathlib.Algebra.Order.BigOperators.Group.List
import Mathlib.Algebra.Order.Group.Nat

/-!
How often a solver visits blocks. An edge wakes its target only when its fact climbs, so the
visits are bounded by how far the facts of all edges can climb.
-/

namespace FlowTyping

variable {Fact σ : Type}

/-- An analysis over levels: the fact of an edge changes only to one of a higher level. -/
structure DataflowAnalysis.Climbs (a : DataflowAnalysis Fact σ) (g : FlowGraph)
    (Fine : Fact → Prop) (FineState : σ → Prop) (level : Fact → Nat) : Prop where
  initial : Fine a.initial
  join : ∀ {x y : Fact}, Fine x → Fine y → Fine (a.join x y)
  climb : ∀ {x y : Fact}, Fine x → Fine y → a.same (a.join x y) x = false →
    level x < level (a.join x y)
  transfer : ∀ {st st' : σ} {b : BlockId} {f : Fact} {r : BlockTransfer Fact}, FineState st →
    Fine f → a.transfer st b f = .ok (r, st') → FineState st' ∧ ∀ e ∈ r.edges, Fine e.2
  follows : ∀ {st st' : σ} {b : BlockId} {f : Fact} {r : BlockTransfer Fact},
    a.transfer st b f = .ok (r, st') → ∀ e ∈ r.edges, e.1 ∈ g.successors b

namespace DataflowAnalysis.Climbs

variable {a : DataflowAnalysis Fact σ} {g : FlowGraph} {Fine : Fact → Prop}
  {FineState : σ → Prop} {level : Fact → Nat}

theorem joinAll (hA : a.Climbs g Fine FineState level) {l : List Fact} (hl : l ≠ [])
    (hfine : ∀ f ∈ l, Fine f) : Fine (a.joinAll l) := by
  cases l with
  | nil => exact absurd rfl hl
  | cons first rest =>
      obtain ⟨hfirst, hrest⟩ := List.forall_mem_cons.mp hfine
      change Fine (rest.foldl a.join first)
      clear hl hfine
      induction rest generalizing first with
      | nil => exact hfirst
      | cons f rest ih =>
          obtain ⟨hf, hrest⟩ := List.forall_mem_cons.mp hrest
          exact ih (a.join first f) (hA.join hfirst hf) hrest

theorem absorb (hA : a.Climbs g Fine FineState level) {old : Option Fact} {f : Fact}
    (hold : ∀ o, old = some o → Fine o) (hf : Fine f) : Fine (a.absorb old f) := by
  cases old with
  | none => exact hf
  | some o =>
      unfold DataflowAnalysis.absorb
      dsimp only
      split
      · exact hold o rfl
      · exact hA.join (hold o rfl) hf

theorem merge (hA : a.Climbs g Fine FineState level) {old : Option Fact} {sent : List Fact}
    (hold : ∀ o, old = some o → Fine o) (hsent : ∀ f ∈ sent, Fine f) :
    ∀ f, a.merge old sent = some f → Fine f := by
  induction sent generalizing old with
  | nil => exact hold
  | cons first rest ih =>
      obtain ⟨hfirst, hrest⟩ := List.forall_mem_cons.mp hsent
      refine ih (fun o ho => ?_) hrest
      cases ho
      exact hA.absorb hold hfirst

end DataflowAnalysis.Climbs

namespace Solving

open Relation

variable {a : DataflowAnalysis Fact σ} {g : FlowGraph} {ranks : Array Nat} {Fine : Fact → Prop}
  {FineState : σ → Prop} {level : Fact → Nat} {s s' : Solving Fact σ} {block source : BlockId}
  {E : List (BlockId × BlockId)}

/-- The invariant of the visits: a block waits because a fact has arrived at it. -/
structure Fed (g : FlowGraph) (Fine : Fact → Prop) (FineState : σ → Prop)
    (s : Solving Fact σ) : Prop where
  state : FineState s.state
  edge : ∀ p t f, s.edgeFact? p t = some f → Fine f ∧ t ∈ g.successors p
  arrives : ∀ b, s.Known b → b = g.entry ∨ ∃ p f, s.edgeFact? p b = some f

theorem start_fed {st : σ} (hst : FineState st) :
    (start g st : Solving Fact σ).Fed g Fine FineState where
  state := hst
  edge := nofun
  arrives _ hb := .inl (known_start hb)

/-- What is joined before a known block is fine. -/
theorem Fed.input (hA : a.Climbs g Fine FineState level) (hg : g.Valid)
    (hs : s.Fed g Fine FineState) (hb : s.Known block) : Fine (s.table.input a g block) := by
  have hedges : ∀ f ∈ (g.predecessorsOf block).filterMap fun p => s.edgeFact? p block, Fine f := by
    intro f hf
    obtain ⟨p, -, hp⟩ := List.mem_filterMap.mp hf
    exact (hs.edge p block f hp).1
  have harriving : a.arriving g s.edgeFact? block ≠ [] ∧
      ∀ f ∈ a.arriving g s.edgeFact? block, Fine f := by
    unfold DataflowAnalysis.arriving
    dsimp only
    split
    · exact ⟨List.cons_ne_nil _ _, List.forall_mem_cons.mpr ⟨hA.initial, hedges⟩⟩
    · rename_i hentry
      obtain ⟨p, f, hf⟩ := (hs.arrives block hb).resolve_left hentry
      have hedge := (hs.edge p block f hf).2
      have hp := hg.predecessors.mpr ⟨hg.lt_of_mem_successors hedge, hedge⟩
      exact ⟨List.ne_nil_of_mem (List.mem_filterMap.mpr ⟨p, hp, hf⟩), hedges⟩
  exact hA.joinAll harriving.1 harriving.2

theorem advance_fed (hA : a.Climbs g Fine FineState level) (hg : g.Valid)
    (hs : s.Fed g Fine FineState) (h : Advance a g ranks s s') : s'.Fed g Fine FineState := by
  obtain ⟨block, rest, hwork, hvisit⟩ := h
  obtain ⟨r, st, htransfer, hv⟩ := visit_ok hvisit
  have hknown {b : BlockId} (hb : ({ s with worklist := rest } : Solving Fact σ).Known b) :
      s.Known b := hb.imp_left fun hb => hwork ▸ List.mem_cons_of_mem block hb
  have hblock : s.Known block := .inl (hwork ▸ List.mem_cons_self)
  obtain ⟨hst, hsent⟩ := hA.transfer hs.state (hs.input hA hg hblock) htransfer
  have hkept : ∀ p t f, s.edgeFact? p t = some f → ∃ f', s'.edgeFact? p t = some f' := by
    intro p t f hf
    change ∃ f', s'.table.edge p t = some f'
    by_cases hp : p = block
    · subst hp
      rw [hv.edge_self]
      exact DataflowAnalysis.merge_isSome (.inr ⟨f, hf⟩)
    · rw [hv.edge_other hp]
      exact ⟨f, hf⟩
  refine ⟨hv.state ▸ hst, fun p t f hf => ?_, fun b hb => ?_⟩
  · change s'.table.edge p t = some f at hf
    by_cases hsame : s'.table.edge p t = s.table.edge p t
    · rw [hsame] at hf
      exact hs.edge p t f hf
    · obtain ⟨rfl, f', hf'⟩ := hv.sent_of_changed hsame
      refine ⟨?_, hA.follows htransfer _ hf'⟩
      rw [hv.edge_self] at hf
      exact hA.merge (fun o ho => (hs.edge p t o ho).1)
        (fun f hf => hsent _ (BlockTransfer.mem_sentTo.mp hf)) f hf
  · rcases hv.known b hb with hb | rfl | ⟨e, he, rfl⟩
    · refine (hs.arrives b (hknown hb)).imp_right ?_
      rintro ⟨p, f, hf⟩
      exact ⟨p, hkept p b f hf⟩
    · refine (hs.arrives b hblock).imp_right ?_
      rintro ⟨p, f, hf⟩
      exact ⟨p, hkept p b f hf⟩
    · refine .inr ⟨block, ?_⟩
      change ∃ f, s'.table.edge block e.1 = some f
      rw [hv.edge_self]
      exact DataflowAnalysis.merge_isSome
        (.inl (List.ne_nil_of_mem (BlockTransfer.mem_sentTo.mpr he)))

theorem advances_fed (hA : a.Climbs g Fine FineState level) (hg : g.Valid)
    (hs : s.Fed g Fine FineState) (h : ReflTransGen (Advance a g ranks) s s') :
    s'.Fed g Fine FineState := by
  induction h with
  | refl => exact hs
  | tail _ hstep ih => exact advance_fed hA hg ih hstep

/-- How far an edge has climbed. An edge without a fact is at the ground. -/
def edgeLevel (level : Fact → Nat) (s : Solving Fact σ) (e : BlockId × BlockId) : Nat :=
  match s.edgeFact? e.1 e.2 with
  | none => 0
  | some f => level f + 1

/-- How far some edges have climbed in all. -/
def climbed (level : Fact → Nat) (E : List (BlockId × BlockId)) (s : Solving Fact σ) : Nat :=
  (E.map (s.edgeLevel level)).sum

theorem climbed_congr (h : ∀ p t, s'.edgeFact? p t = s.edgeFact? p t) :
    s'.climbed level E = s.climbed level E := by
  unfold climbed
  congr 1
  refine List.map_congr_left fun e _ => ?_
  rw [edgeLevel, edgeLevel, h]

theorem Fed.climbed_le (hs : s.Fed g Fine FineState) {top : Nat}
    (htop : ∀ f, Fine f → level f ≤ top) : s.climbed level E ≤ E.length * (top + 1) := by
  refine (List.sum_le_card_nsmul _ (top + 1) fun n hn => ?_).trans (by simp)
  obtain ⟨e, -, rfl⟩ := List.mem_map.mp hn
  unfold edgeLevel
  split
  · exact Nat.zero_le _
  · rename_i f hf
    exact Nat.succ_le_succ (htop f (hs.edge _ _ f hf).1)

/-- An edge that is set to a higher fact climbs, and no other edge moves. -/
theorem climbed_setEdgeFact {target : BlockId} {fact : Fact}
    (hlevel : s.edgeLevel level (source, target) < level fact + 1) :
    s.climbed level E + (if (source, target) ∈ E then 1 else 0) ≤
      (s.setEdgeFact source target fact).climbed level E := by
  have hself : (s.setEdgeFact source target fact).edgeLevel level (source, target) =
      level fact + 1 := by
    rw [edgeLevel, edgeFact?_setEdgeFact, if_pos ⟨rfl, rfl⟩]
  have hle : ∀ e ∈ E,
      s.edgeLevel level e ≤ (s.setEdgeFact source target fact).edgeLevel level e := by
    intro e _
    by_cases he : e = (source, target)
    · rw [he, hself]
      exact Nat.le_of_lt hlevel
    · rw [edgeLevel, edgeLevel, edgeFact?_setEdgeFact, if_neg fun h => he (Prod.ext h.1 h.2)]
  split
  · rename_i hmem
    exact List.sum_lt_sum _ _ hle ⟨_, hmem, hself ▸ hlevel⟩
  · exact List.sum_le_sum hle

/-- A message leaves the state as it is, or its target waits and its edge climbs. -/
theorem propagate_cases (hA : a.Climbs g Fine FineState level) {e : BlockId × Fact}
    (hfine : ∀ f, s.edgeFact? source e.1 = some f → Fine f) (he : Fine e.2) :
    propagate a ranks source s e = s ∨
      (propagate a ranks source s e).worklist = schedule ranks e.1 s.worklist ∧
        ∀ E, s.climbed level E + (if (source, e.1) ∈ E then 1 else 0) ≤
          (propagate a ranks source s e).climbed level E := by
  unfold propagate
  split
  · rename_i hnone
    refine .inr ⟨rfl, fun E => climbed_setEdgeFact ?_⟩
    rw [edgeLevel, hnone]
    exact Nat.succ_pos _
  · rename_i old hold
    dsimp only
    split
    · exact .inl rfl
    · rename_i hchanged
      refine .inr ⟨rfl, fun E => climbed_setEdgeFact ?_⟩
      rw [edgeLevel, hold]
      exact Nat.succ_lt_succ (hA.climb (hfine old hold) he (eq_false_of_ne_true hchanged))

theorem length_schedule_le (ranks : Array Nat) (block : BlockId) (l : List BlockId) :
    (schedule ranks block l).length ≤ l.length + 1 := by
  induction l with
  | nil => exact Nat.le_refl 1
  | cons other rest ih =>
      unfold schedule
      dsimp only
      split
      · exact Nat.le_succ _
      · split
        · exact Nat.le_refl _
        · exact Nat.succ_le_succ ih

/-- What the messages of a visit leave alone: the counts of visits and rounds, and the log. -/
structure Counts (s s' : Solving Fact σ) : Prop where
  visits : s'.visits = s.visits
  rounds : s'.rounds = s.rounds
  lastRank : s'.lastRank = s.lastRank
  log : s'.log = s.log

theorem Counts.trans {s'' : Solving Fact σ} (h : Counts s s') (h' : Counts s' s'') :
    Counts s s'' :=
  ⟨h'.visits.trans h.visits, h'.rounds.trans h.rounds, h'.lastRank.trans h.lastRank,
    h'.log.trans h.log⟩

theorem Counts.foldl {α : Type} {f : Solving Fact σ → α → Solving Fact σ}
    (hf : ∀ s x, Counts s (f s x)) (l : List α) (s : Solving Fact σ) : Counts s (l.foldl f s) := by
  induction l generalizing s with
  | nil => exact ⟨rfl, rfl, rfl, rfl⟩
  | cons x rest ih => exact (hf s x).trans (ih _)

theorem propagate_counts (s : Solving Fact σ) (e : BlockId × Fact) :
    Counts s (propagate a ranks source s e) := by
  unfold propagate
  split
  · exact ⟨rfl, rfl, rfl, rfl⟩
  · dsimp only
    split <;> exact ⟨rfl, rfl, rfl, rfl⟩

theorem revisit_counts (s : Solving Fact σ) (x : BlockId) : Counts s (revisit ranks s x) := by
  unfold revisit
  split <;> exact ⟨rfl, rfl, rfl, rfl⟩

theorem messages_counts (a : DataflowAnalysis Fact σ) (ranks : Array Nat) (source : BlockId)
    (r : BlockTransfer Fact) (s : Solving Fact σ) :
    Counts s (r.revisit.foldl (revisit ranks) (r.edges.foldl (propagate a ranks source) s)) :=
  (Counts.foldl propagate_counts r.edges s).trans (Counts.foldl revisit_counts r.revisit _)

/-- A property of states that every message of a visit keeps. -/
theorem propagate_induction (hA : a.Climbs g Fine FineState level)
    {P : Solving Fact σ → Prop} {edges : List (BlockId × Fact)}
    (hstep : ∀ s, ∀ e ∈ edges, P s → (∀ f, s.edgeFact? source e.1 = some f → Fine f) →
      P (propagate a ranks source s e))
    (hfine : ∀ t f, s.edgeFact? source t = some f → Fine f) (hedges : ∀ e ∈ edges, Fine e.2)
    (hs : P s) : P (edges.foldl (propagate a ranks source) s) := by
  induction edges generalizing s with
  | nil => exact hs
  | cons e rest ih =>
      obtain ⟨he, hrest⟩ := List.forall_mem_cons.mp hedges
      refine ih (fun s e he => hstep s e (List.mem_cons_of_mem _ he)) (fun t f hf => ?_) hrest
        (hstep s e List.mem_cons_self hs (hfine e.1))
      rw [edgeFact?_propagate] at hf
      split at hf
      · cases hf
        exact hA.absorb (hfine e.1) he
      · exact hfine t f hf

/-- The messages along edges add to the waiting blocks at most as many as edges climb. -/
theorem length_foldl_propagate (ranks : Array Nat) (hA : a.Climbs g Fine FineState level)
    {edges : List (BlockId × Fact)} (hfine : ∀ t f, s.edgeFact? source t = some f → Fine f)
    (hedges : ∀ e ∈ edges, Fine e.2) (hE : ∀ e ∈ edges, (source, e.1) ∈ E) :
    (edges.foldl (propagate a ranks source) s).worklist.length + s.climbed level E ≤
      s.worklist.length + (edges.foldl (propagate a ranks source) s).climbed level E := by
  refine propagate_induction hA
    (P := fun s' => s'.worklist.length + s.climbed level E ≤
      s.worklist.length + s'.climbed level E)
    (fun s' e he hs' hfine => ?_) hfine hedges (Nat.le_refl _)
  rcases propagate_cases hA hfine (hedges e he) with heq | ⟨hwork, hclimbs⟩
  · rw [heq]
    exact hs'
  · have hlength := length_schedule_le ranks e.1 s'.worklist
    have hclimb := hclimbs E
    rw [if_pos (hE e he)] at hclimb
    rw [hwork]
    omega

theorem length_foldl_revisit (ranks : Array Nat) (blocks : List BlockId) (s : Solving Fact σ) :
    (blocks.foldl (revisit ranks) s).worklist.length ≤ s.worklist.length + blocks.length := by
  induction blocks generalizing s with
  | nil => exact Nat.le_refl _
  | cons x rest ih =>
      have hstep : (revisit ranks s x).worklist.length ≤ s.worklist.length + 1 := by
        unfold revisit
        split
        · exact Nat.le_succ _
        · exact length_schedule_le ranks x s.worklist
      have hrest := ih (revisit ranks s x)
      rw [List.foldl_cons, List.length_cons]
      omega

/-- The state in which a block has been counted and its messages have not been sent. -/
structure Counted (ranks : Array Nat) (block : BlockId) (output : Fact) (s s' : Solving Fact σ) :
    Prop where
  worklist : s'.worklist = s.worklist
  edge : ∀ p t, s'.edgeFact? p t = s.edgeFact? p t
  visits : s'.visits = s.visits + 1
  rounds : s'.rounds = if s.beginsRound (ranks.getD block 0) then s.rounds + 1 else s.rounds
  lastRank : s'.lastRank = some (ranks.getD block 0)
  log : ∃ status, s'.log = ⟨block, output, status⟩ :: s.log

/-- A visit in parts: the block is counted, then the messages are sent. -/
theorem visit_counted (h : s.visit a g ranks block = .ok s') :
    ∃ r begun ins outs, a.transfer s.state block (s.table.input a g block) = .ok (r, s'.state) ∧
      Counted ranks block r.output s begun ∧ Counts begun s' ∧
      s' = { r.revisit.foldl (revisit ranks) (r.edges.foldl (propagate a ranks block) begun) with
        inFacts := ins, outFacts := outs } := by
  obtain ⟨r', st, htransfer', hv⟩ := visit_ok h
  obtain ⟨⟨r, st'⟩, htransfer, heq⟩ := bind_ok.mp h
  rw [input_eq, htransfer'] at htransfer
  cases htransfer
  have heq := (Except.ok.inj heq).symm
  refine ⟨r', _, _, _, hv.state ▸ htransfer', ?_, ?_, heq⟩
  · exact ⟨rfl, fun _ _ => rfl, rfl, rfl, rfl, _, rfl⟩
  rw [heq]
  have hcounts := messages_counts a ranks block r'
  exact ⟨(hcounts _).visits, (hcounts _).rounds, (hcounts _).lastRank, (hcounts _).log⟩

theorem Advance.visits (h : Advance a g ranks s s') : s'.visits = s.visits + 1 := by
  obtain ⟨block, rest, -, hvisit⟩ := h
  obtain ⟨r, begun, ins, outs, -, hbegun, hcounts, -⟩ := visit_counted hvisit
  exact hcounts.visits.trans hbegun.visits

/-- The blocks that a transfer sends for are charged to the state. -/
def Charges (a : DataflowAnalysis Fact σ) (Fine : Fact → Prop) (FineState : σ → Prop)
    (levelState : σ → Nat) : Prop :=
  ∀ {st st' : σ} {b : BlockId} {f : Fact} {r : BlockTransfer Fact}, FineState st → Fine f →
    a.transfer st b f = .ok (r, st') → r.revisit.length + levelState st ≤ levelState st'

variable {levelState : σ → Nat}

/-- The visits so far and the blocks that wait are as many at most as edges and the state
have climbed. -/
theorem advance_visits (hA : a.Climbs g Fine FineState level)
    (hcharges : Charges a Fine FineState levelState) (hg : g.Valid)
    (hs : s.Fed g Fine FineState) (h : Advance a g ranks s s')
    (hcount : s.visits + s.worklist.length ≤
      1 + s.climbed level g.blockGraph.edges + levelState s.state) :
    s'.visits + s'.worklist.length ≤
      1 + s'.climbed level g.blockGraph.edges + levelState s'.state := by
  have hvisits := h.visits
  obtain ⟨block, rest, hwork, hvisit⟩ := h
  obtain ⟨r, begun, ins, outs, htransfer, hbegun, -, heq⟩ := visit_counted hvisit
  have hinput := hs.input hA hg (.inl (hwork ▸ List.mem_cons_self : block ∈ s.worklist))
  obtain ⟨-, hedges⟩ := hA.transfer hs.state hinput htransfer
  have hcharge := hcharges hs.state hinput htransfer
  have hfine : ∀ t f, begun.edgeFact? block t = some f → Fine f :=
    fun t f hf => (hs.edge block t f ((hbegun.edge block t).symm.trans hf)).1
  have hsent := length_foldl_propagate ranks hA hfine hedges
    fun e he => (FlowGraph.mem_blockGraph hg).mpr (hA.follows htransfer e he)
  have hwoken := length_foldl_revisit ranks r.revisit
    (r.edges.foldl (propagate a ranks block) begun)
  have hclimbed : s'.climbed level g.blockGraph.edges =
      (r.edges.foldl (propagate a ranks block) begun).climbed level g.blockGraph.edges :=
    climbed_congr fun p t => by
      rw [heq]
      exact edgeFact?_foldl_revisit r.revisit p t
  have hbegun' : begun.climbed level g.blockGraph.edges = s.climbed level g.blockGraph.edges :=
    climbed_congr hbegun.edge
  have hlength : s.worklist.length = begun.worklist.length + 1 := by
    rw [hbegun.worklist, hwork]
    rfl
  have hwork' : s'.worklist.length = (r.revisit.foldl (revisit ranks)
      (r.edges.foldl (propagate a ranks block) begun)).worklist.length := by rw [heq]
  omega

theorem advances_visits (hA : a.Climbs g Fine FineState level)
    (hcharges : Charges a Fine FineState levelState) (hg : g.Valid) {st : σ} (hst : FineState st)
    (h : ReflTransGen (Advance a g ranks) (start g st) s) :
    s.visits + s.worklist.length ≤
      1 + s.climbed level g.blockGraph.edges + levelState s.state := by
  induction h with
  | refl =>
      change 0 + 1 ≤ _
      omega
  | tail hsteps hstep ih =>
      exact advance_visits hA hcharges hg (advances_fed hA hg (start_fed hst) hsteps) hstep ih

/-- A run that comes to its limit has made as many visits, and a block waits still. -/
theorem run_limit {limit remaining n : Nat}
    (hnever : ∀ {st : σ} {b : BlockId} {f : Fact}, a.transfer st b f ≠ .error (.visitLimit n))
    (h : run a g ranks limit remaining s = .error (.visitLimit n)) :
    ∃ s', ReflTransGen (Advance a g ranks) s s' ∧ s'.worklist ≠ [] ∧
      s'.visits = s.visits + remaining := by
  induction remaining generalizing s with
  | zero =>
      unfold run at h
      split at h
      · cases h
      · rename_i hwork
        exact ⟨s, .refl, hwork ▸ List.cons_ne_nil _ _, rfl⟩
  | succ remaining ih =>
      unfold run at h
      split at h
      · cases h
      · rename_i block rest hwork
        dsimp only at h
        split at h
        · rename_i hvisit
          cases h
          rcases bind_error.mp hvisit with htransfer | ⟨_, -, hok⟩
          · exact absurd htransfer hnever
          · cases hok
        · rename_i next hvisit
          have hadvance : Advance a g ranks s next := ⟨block, rest, hwork, hvisit⟩
          obtain ⟨s', hsteps, hwaits, hvisits⟩ := ih h
          refine ⟨s', .head hadvance hsteps, hwaits, ?_⟩
          rw [hvisits, hadvance.visits]
          omega

end Solving

/-- Solving takes no more visits than edges and the state can climb, and it comes to its limit
only if the limit is less. -/
theorem solve_visits {a : DataflowAnalysis Fact σ} {g : FlowGraph} {Fine : Fact → Prop}
    {FineState : σ → Prop} {level : Fact → Nat} {levelState : σ → Nat}
    (hA : a.Climbs g Fine FineState level)
    (hcharges : Solving.Charges a Fine FineState levelState) (hg : g.Valid) {top topState : Nat}
    (htop : ∀ f, Fine f → level f ≤ top) (htopState : ∀ st, FineState st → levelState st ≤ topState)
    {st : σ} (hst : FineState st) (limit : Nat) (record : Bool) :
    (∀ r st', solve a g limit record st = .ok (r, st') →
      r.visits ≤ 1 + g.blockGraph.edges.length * (top + 1) + topState) ∧
    ∀ n, (∀ {st : σ} {b : BlockId} {f : Fact}, a.transfer st b f ≠ .error (.visitLimit n)) →
      1 + g.blockGraph.edges.length * (top + 1) + topState ≤ limit →
        solve a g limit record st ≠ .error (.visitLimit n) := by
  have hbound {s : Solving Fact σ}
      (h : Relation.ReflTransGen (Solving.Advance a g g.ranks) (.start g st) s) :
      s.visits + s.worklist.length ≤ 1 + g.blockGraph.edges.length * (top + 1) + topState := by
    have hfed := Solving.advances_fed hA hg (Solving.start_fed hst) h
    have hvisits := Solving.advances_visits hA hcharges hg hst h
    have hclimbed := hfed.climbed_le (E := g.blockGraph.edges) htop
    have hstate := htopState s.state hfed.state
    omega
  refine ⟨fun r st' h => ?_, fun n hnever hlimit h => ?_⟩
  · obtain ⟨s, hrun, heq⟩ := bind_ok.mp h
    cases heq
    exact (Nat.le_add_right _ _).trans (hbound (Solving.run_advances hrun).1)
  · rcases bind_error.mp h with hrun | ⟨s, -, heq⟩
    · obtain ⟨s, hsteps, hwaits, hvisits⟩ := Solving.run_limit hnever hrun
      have hwaiting := List.length_pos_iff.mpr hwaits
      have hall := hbound hsteps
      change s.visits = 0 + limit at hvisits
      omega
    · cases heq

end FlowTyping
