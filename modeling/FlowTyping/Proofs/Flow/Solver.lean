import FlowTyping.Proofs.Flow.Visits

/-!
The equations of a forward analysis, and what is asked of an analysis so that a solver
comes to their least solution.
-/

namespace FlowTyping

variable {Fact σ : Type}

/-- What the theory asks of an analysis of a graph. Fine facts have joins; facts that
occur are related by `le`, which compares what they say. A transfer is monotone, it repeats
itself on the state that it leaves, and it changes nothing for other blocks but those that
it sends for. -/
structure DataflowAnalysis.Lawful (a : DataflowAnalysis Fact σ) (g : FlowGraph)
    (Fine : Fact → Prop) (le : Fact → Fact → Prop) (leState : σ → σ → Prop) : Prop where
  fine : ∀ {x y}, le x y → Fine x ∧ Fine y
  refl : ∀ {x y}, le x y → le x x ∧ le y y
  trans : ∀ {x y z}, le x y → le y z → le x z
  fine_join : ∀ {x y}, Fine x → Fine y → Fine (a.join x y)
  le_join_left : ∀ {x y}, le x x → Fine y → le x (a.join x y)
  le_join_right : ∀ {x y}, Fine x → le y y → le y (a.join x y)
  join_le : ∀ {x y z}, le x z → le y z → le (a.join x y) z
  same_of_le : ∀ {x y}, le x y → le y x → a.same x y = true
  le_of_same : ∀ {x y}, le x x → Fine y → a.same x y = true → le x y ∧ le y x
  initial : le a.initial a.initial
  state_refl : ∀ {st st'}, leState st st' → leState st st
  transfer : ∀ {st st' st₁ st₁' : σ} {block : BlockId} {f f' : Fact} {r r' : BlockTransfer Fact},
    leState st st' → le f f' → a.transfer st block f = .ok (r, st₁) →
    a.transfer st' block f' = .ok (r', st₁') → leState st₁ st₁' ∧ le r.output r'.output ∧
      ∀ e ∈ r.edges, ∃ e' ∈ r'.edges, e'.1 = e.1 ∧ le e.2 e'.2
  follows : ∀ {st st' : σ} {block : BlockId} {f : Fact} {r : BlockTransfer Fact},
    a.transfer st block f = .ok (r, st') → ∀ e ∈ r.edges, e.1 ∈ g.successors block
  again : ∀ {st st' : σ} {block : BlockId} {f : Fact} {r : BlockTransfer Fact},
    leState st st → le f f → a.transfer st block f = .ok (r, st') →
    ∃ again, a.transfer st' block f = .ok (⟨r.output, r.edges, again⟩, st')
  apart : ∀ {st st' : σ} {block other : BlockId} {f f' : Fact} {r r' : BlockTransfer Fact},
    leState st st → le f' f' → a.transfer st block f = .ok (r, st') →
    other ≠ block → other ∉ r.revisit → a.transfer st other f' = .ok (r', st) →
    ∃ again, a.transfer st' other f' = .ok (⟨r'.output, r'.edges, again⟩, st')

namespace FlowTable

theorem input_congr {a : DataflowAnalysis Fact σ} {g : FlowGraph} {t t' : FlowTable Fact σ}
    {block : BlockId} (h : ∀ p, t'.edge p block = t.edge p block) :
    t'.input a g block = t.input a g block := by
  unfold input DataflowAnalysis.arriving
  simp only [h]

/-- The equations of an analysis up to some equality of facts. The entry is reached; the
fact before a reached block is the join of what arrives; from it, its transfer gives the
fact after it, adds nothing to any edge, reaches the target of the edge, and leaves the
state as it is. -/
structure Solves (t : FlowTable Fact σ) (a : DataflowAnalysis Fact σ) (g : FlowGraph)
    (eq : Fact → Fact → Prop) : Prop where
  entry : ∃ f, t.before g.entry = some f
  input : ∀ b f, t.before b = some f → eq (t.input a g b) f
  transfer : ∀ b f, t.before b = some f → ∃ r o, a.transfer t.state b f = .ok (r, t.state) ∧
    t.after b = some o ∧ eq r.output o ∧
    ∀ e ∈ r.edges, (∃ f', t.before e.1 = some f') ∧
      ∃ old, t.edge b e.1 = some old ∧ a.same (a.join old e.2) old = true

/-- All facts of a table are of some kind. -/
structure All (P : Fact → Prop) (t : FlowTable Fact σ) : Prop where
  before : ∀ b f, t.before b = some f → P f
  after : ∀ b f, t.after b = some f → P f
  edge : ∀ p b f, t.edge p b = some f → P f

/-- Every fact of a table has one at or above it in another table, and so has the state. -/
structure Below (le : Fact → Fact → Prop) (leState : σ → σ → Prop) (t t' : FlowTable Fact σ) :
    Prop where
  before : ∀ b f, t.before b = some f → ∃ f', t'.before b = some f' ∧ le f f'
  after : ∀ b f, t.after b = some f → ∃ f', t'.after b = some f' ∧ le f f'
  edge : ∀ p b f, t.edge p b = some f → ∃ f', t'.edge p b = some f' ∧ le f f'
  state : leState t.state t'.state

/-- Two tables have facts in the same places, and they say the same. -/
structure Agrees (a : DataflowAnalysis Fact σ) (t t' : FlowTable Fact σ) : Prop where
  before : ∀ b, Option.Rel (fun f f' => a.same f f' = true) (t.before b) (t'.before b)
  after : ∀ b, Option.Rel (fun f f' => a.same f f' = true) (t.after b) (t'.after b)
  edge : ∀ p b, Option.Rel (fun f f' => a.same f f' = true) (t.edge p b) (t'.edge p b)

end FlowTable

namespace DataflowAnalysis.Lawful

variable {a : DataflowAnalysis Fact σ} {g : FlowGraph} {Fine : Fact → Prop}
  {le : Fact → Fact → Prop} {leState : σ → σ → Prop}

theorem joinAll_le (L : a.Lawful g Fine le leState) {facts : List Fact} {z : Fact}
    (hne : facts ≠ []) (hle : ∀ f ∈ facts, le f z) : le (a.joinAll facts) z := by
  cases facts with
  | nil => exact absurd rfl hne
  | cons first rest =>
      obtain ⟨hfirst, hrest⟩ := List.forall_mem_cons.mp hle
      clear hle hne
      change le (rest.foldl a.join first) z
      induction rest generalizing first with
      | nil => exact hfirst
      | cons f rest ih =>
          obtain ⟨hf, hrest⟩ := List.forall_mem_cons.mp hrest
          exact ih _ (L.join_le hfirst hf) hrest

/-- A fact that occurs is below a join that it is part of. -/
theorem le_joinAll (L : a.Lawful g Fine le leState) {facts : List Fact} {f : Fact}
    (hf : f ∈ facts) (hlive : le f f) (hfine : ∀ f ∈ facts, Fine f) : le f (a.joinAll facts) := by
  have hkept {x : Fact} {rest : List Fact} (hx : le f x) (hrest : ∀ f ∈ rest, Fine f) :
      le f (rest.foldl a.join x) := by
    induction rest generalizing x with
    | nil => exact hx
    | cons y rest ih =>
        obtain ⟨hy, hrest⟩ := List.forall_mem_cons.mp hrest
        exact ih (L.trans hx (L.le_join_left (L.refl hx).2 hy)) hrest
  have hmeets {x : Fact} {rest : List Fact} (hx : Fine x) (hrest : ∀ f ∈ rest, Fine f)
      (hmem : f ∈ rest) : le f (rest.foldl a.join x) := by
    induction rest generalizing x with
    | nil => cases hmem
    | cons y rest ih =>
        obtain ⟨hy, hys⟩ := List.forall_mem_cons.mp hrest
        rcases List.mem_cons.mp hmem with rfl | hmem
        · exact hkept (x := a.join x f) (L.le_join_right hx hlive) hys
        · exact ih (L.fine_join hx hy) hys hmem
  cases facts with
  | nil => cases hf
  | cons first rest =>
      obtain ⟨hfirst, hrest⟩ := List.forall_mem_cons.mp hfine
      rcases List.mem_cons.mp hf with rfl | hf
      · exact hkept hlive hrest
      · exact hmeets hfirst hrest hf

theorem absorb_le (L : a.Lawful g Fine le leState) {old : Option Fact} {f z : Fact}
    (hold : ∀ o, old = some o → le o z) (hf : le f z) : le (a.absorb old f) z := by
  unfold absorb
  split
  · exact hf
  · split
    · exact hold _ rfl
    · exact L.join_le (hold _ rfl) hf

theorem merge_le (L : a.Lawful g Fine le leState) {old : Option Fact} {sent : List Fact}
    {m z : Fact} (hold : ∀ o, old = some o → le o z) (hsent : ∀ f ∈ sent, le f z)
    (hm : a.merge old sent = some m) : le m z := by
  induction sent generalizing old with
  | nil => exact hold m hm
  | cons f rest ih =>
      obtain ⟨hf, hrest⟩ := List.forall_mem_cons.mp hsent
      refine ih (fun o ho => ?_) hrest hm
      cases ho
      exact L.absorb_le hold hf

theorem le_absorb (L : a.Lawful g Fine le leState) {old : Option Fact} {f : Fact}
    (hold : ∀ o, old = some o → le o o) (hf : le f f) :
    le f (a.absorb old f) ∧ ∀ o, old = some o → le o (a.absorb old f) := by
  unfold absorb
  cases old with
  | none => exact ⟨hf, nofun⟩
  | some o =>
      have ho := hold o rfl
      have hleft := L.le_join_left ho (L.fine hf).1
      have hright := L.le_join_right (L.fine ho).1 hf
      dsimp only
      split
      · rename_i hsame
        refine ⟨L.trans hright (L.le_of_same (L.refl hleft).2 (L.fine ho).1 hsame).1, ?_⟩
        rintro _ ⟨⟩
        exact ho
      · refine ⟨hright, ?_⟩
        rintro _ ⟨⟩
        exact hleft

/-- What was sent along an edge, and what was there, is below the fact of the edge. -/
theorem le_merge (L : a.Lawful g Fine le leState) {old : Option Fact} {sent : List Fact}
    (hold : ∀ o, old = some o → le o o) (hsent : ∀ f ∈ sent, le f f) :
    (∀ f ∈ sent, ∃ m, a.merge old sent = some m ∧ le f m) ∧
      ∀ o, old = some o → ∃ m, a.merge old sent = some m ∧ le o m := by
  induction sent generalizing old with
  | nil => exact ⟨nofun, fun o ho => ⟨o, ho, hold o ho⟩⟩
  | cons f rest ih =>
      obtain ⟨hf, hrest⟩ := List.forall_mem_cons.mp hsent
      obtain ⟨hle, hge⟩ := L.le_absorb hold hf
      have hnew : ∀ o, some (a.absorb old f) = some o → le o o := by
        rintro _ ⟨⟩
        exact (L.refl hle).2
      obtain ⟨hsent', hold'⟩ := ih hnew hrest
      obtain ⟨m, hm, hlem⟩ := hold' _ rfl
      refine ⟨fun f' hf' => ?_, fun o ho => ⟨m, hm, L.trans (hge o ho) hlem⟩⟩
      rcases List.mem_cons.mp hf' with rfl | hf'
      · exact ⟨m, hm, L.trans hle hlem⟩
      · exact hsent' f' hf'

theorem live_merge (L : a.Lawful g Fine le leState) {old : Option Fact} {sent : List Fact}
    (hold : ∀ o, old = some o → le o o) (hsent : ∀ f ∈ sent, le f f) {m : Fact}
    (hm : a.merge old sent = some m) : le m m := by
  cases sent with
  | nil => exact hold m hm
  | cons f rest =>
      obtain ⟨m', hm', hle⟩ := (L.le_merge hold hsent).1 f List.mem_cons_self
      rw [hm] at hm'
      cases hm'
      exact (L.refl hle).2

/-- An edge at or above a fact absorbs it. -/
theorem absorbs_of_le (L : a.Lawful g Fine le leState) {f m : Fact} (hle : le f m) :
    a.same (a.join m f) m = true :=
  have hm := (L.refl hle).2
  L.same_of_le (L.join_le hm hle) (L.le_join_left hm (L.fine hle).1)

/-- Tables that are below each other agree. -/
theorem agrees_of_below (L : a.Lawful g Fine le leState) {t t' : FlowTable Fact σ}
    (hle : t.Below le leState t') (hge : t'.Below le leState t) : t.Agrees a t' := by
  have hrel {x y : Option Fact} (hxy : ∀ f, x = some f → ∃ f', y = some f' ∧ le f f')
      (hyx : ∀ f, y = some f → ∃ f', x = some f' ∧ le f f') :
      Option.Rel (fun f f' => a.same f f' = true) x y := by
    cases x with
    | none =>
        cases y with
        | none => exact .none
        | some f =>
            obtain ⟨f', hf', -⟩ := hyx f rfl
            cases hf'
    | some f =>
        obtain ⟨f', rfl, hunder⟩ := hxy f rfl
        obtain ⟨f'', hf'', hover⟩ := hyx f' rfl
        cases hf''
        exact .some (L.same_of_le hunder hover)
  exact ⟨fun b => hrel (hle.before b) (hge.before b), fun b => hrel (hle.after b) (hge.after b),
    fun p b => hrel (hle.edge p b) (hge.edge p b)⟩

theorem le_of_absorbs (L : a.Lawful g Fine le leState) {f m : Fact} (hf : le f f) (hm : Fine m)
    (hsame : a.same (a.join m f) m = true) : le f m :=
  have hle := L.le_join_right hm hf
  L.trans hle (L.le_of_same (L.refl hle).2 hm hsame).1

end DataflowAnalysis.Lawful

end FlowTyping

/-!
The theory of the solver: visits of waiting blocks in any order come to a solution of the
equations of the analysis, and this solution is below every other one.
-/

namespace FlowTyping

open Relation

variable {Fact σ : Type} {a : DataflowAnalysis Fact σ} {g : FlowGraph} {Fine : Fact → Prop}
  {le : Fact → Fact → Prop} {leState : σ → σ → Prop}

/-- The equations hold at a block with a fact before it. -/
structure FlowTable.Settled (a : DataflowAnalysis Fact σ) (g : FlowGraph)
    (le : Fact → Fact → Prop) (t : FlowTable Fact σ) (block : BlockId) (f : Fact) : Prop where
  input : t.input a g block = f
  transfer : ∃ r, a.transfer t.state block f = .ok (r, t.state) ∧
    t.after block = some r.output ∧
    ∀ e ∈ r.edges, ∃ old, t.edge block e.1 = some old ∧ le e.2 old

/-- The invariant of the visits: blocks that are visited or wait can be reached, and where
the equations fail, the block waits. -/
structure Solving.Sane (a : DataflowAnalysis Fact σ) (g : FlowGraph)
    (le : Fact → Fact → Prop) (leState : σ → σ → Prop) (s : Solving Fact σ) : Prop where
  inFacts : s.inFacts.size = g.size
  outFacts : s.outFacts.size = g.size
  statuses : s.statuses.size = g.size
  state : leState s.state s.state
  entry : g.entry ∈ s.worklist ∨ ∃ f, s.table.before g.entry = some f
  known : ∀ b, s.Known b → ReflTransGen (Digraph.Edge g.successors) g.entry b
  arrives : ∀ b, s.Known b → b = g.entry ∨ ∃ p f, s.table.edge p b = some f
  facts : s.table.All fun f => le f f
  edge : ∀ p b f, s.table.edge p b = some f →
    b ∈ g.successors p ∧ (b ∈ s.worklist ∨ ∃ f', s.table.before b = some f')
  marked : ∀ b f, s.table.before b = some f → s.Marked b
  settled : ∀ b f, s.table.before b = some f → b ∈ s.worklist ∨ s.table.Settled a g le b f

namespace Solving

variable {ranks : Array Nat} {s s' : Solving Fact σ}

theorem getD_replicate_none (α : Type) (n i : Nat) :
    (Array.replicate n (none : Option α)).getD i none = none := by
  simp [Array.getElem?_replicate]
  split <;> rfl

theorem known_start {st : σ} {b : BlockId} (hb : (start g st : Solving Fact σ).Known b) :
    b = g.entry := by
  rcases hb with hb | hb
  · exact List.mem_singleton.mp hb
  · by_contra hne
    refine hb ?_
    change ((Array.replicate g.size BlockStatus.unvisited).setIfInBounds g.entry .pending).getD b
      .unvisited = .unvisited
    rw [getD_set_status, if_neg (fun h => hne h.1)]
    simp [Array.getElem?_replicate]
    split <;> rfl

theorem start_sane {st : σ} (hst : leState st st) :
    (start g st : Solving Fact σ).Sane a g le leState := by
  have hnone := getD_replicate_none Fact g.size
  exact {
    inFacts := Array.size_replicate
    outFacts := Array.size_replicate
    statuses := Array.size_setIfInBounds.trans Array.size_replicate
    state := hst
    entry := .inl (List.mem_singleton.mpr rfl)
    known := fun b hb => known_start hb ▸ .refl
    arrives := fun b hb => .inl (known_start hb)
    facts := ⟨fun b f hf => absurd ((hnone b).symm.trans hf) nofun,
      fun b f hf => absurd ((hnone b).symm.trans hf) nofun, nofun⟩
    edge := nofun
    marked := fun b f hf => absurd ((hnone b).symm.trans hf) nofun
    settled := fun b f hf => absurd ((hnone b).symm.trans hf) nofun }

namespace Sane

theorem lt_size (hs : s.Sane a g le leState) (hg : g.Valid) {b : BlockId} (hb : s.Known b) :
    b < g.size :=
  hg.lt_of_reach (hs.known b hb)

/-- What arrives at a block that waits or has waited. -/
theorem arriving (L : a.Lawful g Fine le leState) (hg : g.Valid) (hs : s.Sane a g le leState)
    {b : BlockId} (hb : s.Known b) :
    a.arriving g s.table.edge b ≠ [] ∧ ∀ f ∈ a.arriving g s.table.edge b, le f f := by
  have hlive : ∀ f ∈ (g.predecessorsOf b).filterMap fun p => s.table.edge p b, le f f := by
    intro f hf
    obtain ⟨p, -, hp⟩ := List.mem_filterMap.mp hf
    exact hs.facts.edge p b f hp
  unfold DataflowAnalysis.arriving
  dsimp only
  split
  · exact ⟨List.cons_ne_nil _ _, List.forall_mem_cons.mpr ⟨L.initial, hlive⟩⟩
  · rename_i hentry
    obtain ⟨p, f, hf⟩ := (hs.arrives b hb).resolve_left hentry
    have hp := hg.predecessors.mpr ⟨hs.lt_size hg hb, (hs.edge p b f hf).1⟩
    exact ⟨List.ne_nil_of_mem (List.mem_filterMap.mpr ⟨p, hp, hf⟩), hlive⟩

theorem live_input (L : a.Lawful g Fine le leState) (hg : g.Valid) (hs : s.Sane a g le leState)
    {b : BlockId} (hb : s.Known b) : le (s.table.input a g b) (s.table.input a g b) := by
  obtain ⟨hne, hlive⟩ := hs.arriving L hg hb
  obtain ⟨f, hf⟩ := List.exists_mem_of_ne_nil _ hne
  exact (L.refl (L.le_joinAll hf (hlive f hf) fun f hf => (L.fine (hlive f hf)).1)).2

/-- What arrives at a block is below what arrives at it in a table with edges above. -/
theorem input_mono (L : a.Lawful g Fine le leState) (hg : g.Valid) (hs : s.Sane a g le leState)
    {t : FlowTable Fact σ} (hfine : ∀ p b f, t.edge p b = some f → Fine f)
    (hedge : ∀ p b f, s.table.edge p b = some f → ∃ f', t.edge p b = some f' ∧ le f f')
    {b : BlockId} (hb : s.Known b) : le (s.table.input a g b) (t.input a g b) := by
  obtain ⟨hne, -⟩ := hs.arriving L hg hb
  have hfines : ∀ f ∈ a.arriving g t.edge b, Fine f := by
    have hedges : ∀ f ∈ (g.predecessorsOf b).filterMap fun p => t.edge p b, Fine f := by
      intro f hf
      obtain ⟨p, -, hp⟩ := List.mem_filterMap.mp hf
      exact hfine p b f hp
    unfold DataflowAnalysis.arriving
    dsimp only
    split
    · exact List.forall_mem_cons.mpr ⟨(L.fine L.initial).1, hedges⟩
    · exact hedges
  have hedges {f : Fact} (hf : f ∈ (g.predecessorsOf b).filterMap fun p => s.table.edge p b) :
      ∃ f' ∈ (g.predecessorsOf b).filterMap fun p => t.edge p b, le f f' := by
    obtain ⟨p, hp, hpf⟩ := List.mem_filterMap.mp hf
    obtain ⟨f', hf', hle⟩ := hedge p b f hpf
    exact ⟨f', List.mem_filterMap.mpr ⟨p, hp, hf'⟩, hle⟩
  have harriving : ∀ f ∈ a.arriving g s.table.edge b, ∃ f' ∈ a.arriving g t.edge b, le f f' := by
    intro f hf
    unfold DataflowAnalysis.arriving at hf ⊢
    dsimp only at hf ⊢
    split at hf
    · rename_i hentry
      rw [if_pos hentry]
      rcases List.mem_cons.mp hf with rfl | hf
      · exact ⟨_, List.mem_cons_self, L.initial⟩
      · obtain ⟨f', hf', hle⟩ := hedges hf
        exact ⟨f', List.mem_cons_of_mem _ hf', hle⟩
    · rename_i hentry
      rw [if_neg hentry]
      exact hedges hf
  refine L.joinAll_le hne fun f hf => ?_
  obtain ⟨f', hf', hle⟩ := harriving f hf
  exact L.trans hle (L.le_joinAll hf' (L.refl hle).2 hfines)

end Sane

namespace Visited

variable {block : BlockId} {input : Fact} {r : BlockTransfer Fact} {st : σ}

/-- What was sent along an edge is below its fact. -/
theorem sends (L : a.Lawful g Fine le leState) (hv : Visited a block input r st s s')
    (hold : s.table.All fun f => le f f) (hsent : ∀ e ∈ r.edges, le e.2 e.2)
    {e : BlockId × Fact} (he : e ∈ r.edges) :
    ∃ m, s'.table.edge block e.1 = some m ∧ le e.2 m := by
  rw [hv.edge_self]
  exact (L.le_merge (hold.edge block e.1)
    fun f hf => hsent _ (BlockTransfer.mem_sentTo.mp hf)).1 e.2 (BlockTransfer.mem_sentTo.mpr he)

/-- No edge moves down. -/
theorem grows (L : a.Lawful g Fine le leState) (hv : Visited a block input r st s s')
    (hold : s.table.All fun f => le f f) (hsent : ∀ e ∈ r.edges, le e.2 e.2) {p b : BlockId}
    {f : Fact} (hf : s.table.edge p b = some f) :
    ∃ f', s'.table.edge p b = some f' ∧ le f f' := by
  by_cases hp : p = block
  · subst hp
    rw [hv.edge_self]
    exact (L.le_merge (hold.edge p b)
      fun f hf => hsent _ (BlockTransfer.mem_sentTo.mp hf)).2 f hf
  · exact ⟨f, (hv.edge_other hp b).trans hf, hold.edge p b f hf⟩

theorem live (L : a.Lawful g Fine le leState) (hv : Visited a block input r st s s')
    (hsize : block < s.inFacts.size) (hsize' : block < s.outFacts.size)
    (hold : s.table.All fun f => le f f) (hinput : le input input)
    (houtput : le r.output r.output) (hsent : ∀ e ∈ r.edges, le e.2 e.2) :
    s'.table.All fun f => le f f := by
  refine ⟨fun b f hf => ?_, fun b f hf => ?_, fun p b f hf => ?_⟩
  · rw [hv.before hsize] at hf
    split at hf
    · cases hf
      exact hinput
    · exact hold.before b f hf
  · rw [hv.after hsize'] at hf
    split at hf
    · cases hf
      exact houtput
    · exact hold.after b f hf
  · by_cases hp : p = block
    · subst hp
      rw [hv.edge_self] at hf
      exact L.live_merge (hold.edge p b)
        (fun f hf => hsent _ (BlockTransfer.mem_sentTo.mp hf)) hf
    · exact hold.edge p b f ((hv.edge_other hp b).symm.trans hf)

/-- The visited block is settled unless it waits again: its transfer repeats itself on
the state that it has left. -/
theorem settled_self (L : a.Lawful g Fine le leState) (hv : Visited a block input r st s s')
    (hsize : block < s.outFacts.size) (hold : s.table.All fun f => le f f)
    (hstate : leState s.state s.state) (hlive : le input input)
    (hinput : s.table.input a g block = input) (hsent : ∀ e ∈ r.edges, le e.2 e.2)
    (htransfer : a.transfer s.state block input = .ok (r, st)) (hwait : block ∉ s'.worklist) :
    s'.table.Settled a g le block input := by
  obtain ⟨again, hagain⟩ := L.again hstate hlive htransfer
  refine ⟨(FlowTable.input_congr (hv.edge_stays hwait)).trans hinput,
    ⟨r.output, r.edges, again⟩, ?_, ?_, fun e he => hv.sends L hold hsent he⟩
  · exact (show s'.table.state = st from hv.state) ▸ hagain
  · rw [hv.after hsize, if_pos rfl]

/-- Another block stays settled unless it waits: it sees none of the changes. -/
theorem settled_other (L : a.Lawful g Fine le leState) (hv : Visited a block input r st s s')
    (hsize : block < s.outFacts.size) (hstate : leState s.state s.state)
    (htransfer : a.transfer s.state block input = .ok (r, st)) {b : BlockId} {f : Fact}
    (hb : b ≠ block) (hwait : b ∉ s'.worklist) (hf : le f f) (hmarked : s.Marked b)
    (hsettled : s.table.Settled a g le b f) : s'.table.Settled a g le b f := by
  obtain ⟨r', hr', hafter, hedges⟩ := hsettled.transfer
  have hapart : b ∉ r.revisit := fun hmem => hwait (hv.revisited b hmem hmarked)
  obtain ⟨again, hagain⟩ := L.apart hstate hf htransfer hb hapart hr'
  refine ⟨(FlowTable.input_congr (hv.edge_stays hwait)).trans hsettled.input,
    ⟨r'.output, r'.edges, again⟩, ?_, ?_, fun e he => ?_⟩
  · exact (show s'.table.state = st from hv.state) ▸ hagain
  · rw [hv.after hsize, if_neg hb]
    exact hafter
  · rw [hv.edge_other hb]
    exact hedges e he

end Visited

theorem step_sane (L : a.Lawful g Fine le leState) (hg : g.Valid)
    (hs : s.Sane a g le leState) (h : Step a g ranks s s') : s'.Sane a g le leState := by
  obtain ⟨block, hblock, hvisit⟩ := h
  obtain ⟨r, st, htransfer, hv⟩ := visit_ok hvisit
  have hlive := hs.live_input L hg (.inl hblock)
  have hlt := hs.lt_size hg (.inl hblock)
  obtain ⟨hst, houtput, hsent⟩ := L.transfer hs.state hlive htransfer htransfer
  have hsent : ∀ e ∈ r.edges, le e.2 e.2 := fun e he => by
    obtain ⟨_, -, -, hle⟩ := hsent e he
    exact (L.refl hle).1
  have hwaits {b : BlockId} (hb : b ∈ s.worklist) : b ∈ s'.worklist ∨ b = block := by
    by_cases hne : b = block
    · exact .inr hne
    · exact .inl (hv.kept ((List.mem_erase_of_ne hne).mpr hb))
  have hbefore := hv.before (hs.inFacts ▸ hlt)
  have hvisited {b : BlockId} (hb : b ∈ s.worklist ∨ ∃ f, s.table.before b = some f) :
      b ∈ s'.worklist ∨ ∃ f, s'.table.before b = some f := by
    rw [hbefore]
    by_cases hne : b = block
    · rw [if_pos hne]
      exact .inr ⟨_, rfl⟩
    · rw [if_neg hne]
      exact hb.imp_left fun hb => (hwaits hb).resolve_right hne
  have hknown {b : BlockId} (hb : s'.Known b) : s.Known b ∨ ∃ e ∈ r.edges, e.1 = b := by
    rcases hv.known b hb with hb | rfl | hb
    · exact .inl (hb.imp_left List.mem_of_mem_erase)
    · exact .inl (.inl hblock)
    · exact .inr hb
  refine {
    inFacts := hv.inFacts ▸ Array.size_setIfInBounds.trans hs.inFacts
    outFacts := hv.outFacts ▸ Array.size_setIfInBounds.trans hs.outFacts
    statuses := hv.statuses.trans hs.statuses
    state := hv.state ▸ hst
    entry := hvisited hs.entry
    known := fun b hb => ?_
    arrives := fun b hb => ?_
    facts := hv.live L (hs.inFacts ▸ hlt) (hs.outFacts ▸ hlt) hs.facts hlive houtput hsent
    edge := fun p b f hf => ?_
    marked := fun b f hf => ?_
    settled := fun b f hf => ?_ }
  · rcases hknown hb with hb | ⟨e, he, rfl⟩
    · exact hs.known b hb
    · exact (hs.known block (.inl hblock)).tail (L.follows htransfer e he)
  · rcases hknown hb with hb | ⟨e, he, rfl⟩
    · refine (hs.arrives b hb).imp_right ?_
      rintro ⟨p, f, hf⟩
      obtain ⟨f', hf', -⟩ := hv.grows L hs.facts hsent hf
      exact ⟨p, f', hf'⟩
    · obtain ⟨m, hm, -⟩ := hv.sends L hs.facts hsent he
      exact .inr ⟨block, m, hm⟩
  · by_cases hsame : s'.table.edge p b = s.table.edge p b
    · obtain ⟨hb, hwait⟩ := hs.edge p b f (hsame ▸ hf)
      exact ⟨hb, hvisited hwait⟩
    · obtain ⟨rfl, f', hf'⟩ := hv.sent_of_changed hsame
      exact ⟨L.follows htransfer (b, f') hf', .inl (hv.changed p b hsame)⟩
  · rw [hbefore] at hf
    by_cases hb : b = block
    · subst hb
      exact hv.marked_self (hs.statuses ▸ hlt)
    · rw [if_neg hb] at hf
      exact hv.marked b (hs.marked b f hf)
  · by_cases hwait : b ∈ s'.worklist
    · exact .inl hwait
    rw [hbefore] at hf
    by_cases hb : b = block
    · subst hb
      rw [if_pos rfl] at hf
      cases hf
      exact .inr (hv.settled_self L (hs.outFacts ▸ hlt) hs.facts hs.state hlive rfl hsent
        htransfer hwait)
    · rw [if_neg hb] at hf
      have hsettled := (hs.settled b f hf).resolve_left fun hmem =>
        hwait ((hwaits hmem).resolve_right hb)
      exact .inr (hv.settled_other L (hs.outFacts ▸ hlt) hs.state htransfer hb hwait
        (hs.facts.before b f hf) (hs.marked b f hf) hsettled)

theorem steps_sane (L : a.Lawful g Fine le leState) (hg : g.Valid)
    (hs : s.Sane a g le leState) (h : ReflTransGen (Step a g ranks) s s') :
    s'.Sane a g le leState := by
  induction h with
  | refl => exact hs
  | tail _ hstep ih => exact step_sane L hg ih hstep

/-- When no block waits any more, the equations hold. -/
theorem Sane.solves (L : a.Lawful g Fine le leState) (hs : s.Sane a g le leState)
    (hempty : s.worklist = []) : s.table.Solves a g Eq := by
  have hnone {b : BlockId} : b ∉ s.worklist := by simp [hempty]
  refine ⟨hs.entry.resolve_left hnone, fun b f hf => ?_, fun b f hf => ?_⟩
  · exact ((hs.settled b f hf).resolve_left hnone).input
  · obtain ⟨r, hr, hafter, hedges⟩ := ((hs.settled b f hf).resolve_left hnone).transfer
    refine ⟨r, r.output, hr, hafter, rfl, fun e he => ?_⟩
    obtain ⟨old, hold, hle⟩ := hedges e he
    exact ⟨(hs.edge b e.1 old hold).2.resolve_left hnone, old, hold, L.absorbs_of_le hle⟩

/-- What arrives at a waiting block is below the fact before it in every solution. -/
theorem Sane.input_le (L : a.Lawful g Fine le leState) (hg : g.Valid)
    (hs : s.Sane a g le leState) {t : FlowTable Fact σ}
    (ht : t.Solves a g fun x y => a.same x y = true) (hfine : t.All Fine)
    (hbelow : s.table.Below le leState t) {b : BlockId} {f : Fact} (hb : b ∈ s.worklist)
    (hf : t.before b = some f) : le (s.table.input a g b) f := by
  have hinput := hs.input_mono L hg hfine.edge hbelow.edge (.inl hb)
  exact L.trans hinput
    (L.le_of_same (L.refl hinput).2 (hfine.before b f hf) (ht.input b f hf)).1

/-- Every visit stays below every solution. -/
theorem step_below (L : a.Lawful g Fine le leState) (hg : g.Valid)
    (hs : s.Sane a g le leState) {t : FlowTable Fact σ}
    (ht : t.Solves a g fun x y => a.same x y = true) (hfine : t.All Fine)
    (hbelow : s.table.Below le leState t) (hknown : ∀ b, s.Known b → ∃ f, t.before b = some f)
    (h : Step a g ranks s s') :
    s'.table.Below le leState t ∧ ∀ b, s'.Known b → ∃ f, t.before b = some f := by
  obtain ⟨block, hblock, hvisit⟩ := h
  obtain ⟨r, st, htransfer, hv⟩ := visit_ok hvisit
  have hlt := hs.lt_size hg (.inl hblock)
  obtain ⟨f, hf⟩ := hknown block (.inl hblock)
  have hinput := hs.input_le L hg ht hfine hbelow hblock hf
  obtain ⟨r', o, htransfer', ho, hsame, hedges⟩ := ht.transfer block f hf
  obtain ⟨hstate, houtput, hsent⟩ := L.transfer hbelow.state hinput htransfer htransfer'
  have hsent {target : BlockId} {e : Fact} (he : (target, e) ∈ r.edges) :
      (∃ f', t.before target = some f') ∧ ∃ old, t.edge block target = some old ∧ le e old := by
    obtain ⟨e', he', htarget, hle⟩ := hsent _ he
    obtain ⟨hbefore, old, hold, habsorbs⟩ := hedges e' he'
    rw [htarget] at hbefore hold
    exact ⟨hbefore, old, hold,
      L.trans hle (L.le_of_absorbs (L.refl hle).2 (hfine.edge _ _ _ hold) habsorbs)⟩
  refine ⟨⟨fun b f' hf' => ?_, fun b f' hf' => ?_, fun p b f' hf' => ?_, ?_⟩, fun b hb => ?_⟩
  · rw [hv.before (hs.inFacts ▸ hlt)] at hf'
    split at hf'
    · rename_i hb
      cases hf'
      exact ⟨f, hb ▸ hf, hinput⟩
    · exact hbelow.before b f' hf'
  · rw [hv.after (hs.outFacts ▸ hlt)] at hf'
    split at hf'
    · rename_i hb
      cases hf'
      exact ⟨o, hb ▸ ho, L.trans houtput
        (L.le_of_same (L.refl houtput).2 (hfine.after block o ho) hsame).1⟩
    · exact hbelow.after b f' hf'
  · by_cases hp : p = block
    · subst hp
      rw [hv.edge_self] at hf'
      have hup {z : Fact} (hz : t.edge p b = some z) : le f' z := by
        refine L.merge_le (fun o ho => ?_) (fun e he => ?_) hf'
        · obtain ⟨z', hz', hle⟩ := hbelow.edge p b o ho
          rw [hz] at hz'
          cases hz'
          exact hle
        · obtain ⟨-, z', hz', hle⟩ := hsent (BlockTransfer.mem_sentTo.mp he)
          rw [hz] at hz'
          cases hz'
          exact hle
      cases hsentTo : r.sentTo b with
      | nil =>
          rw [hsentTo] at hf'
          exact hbelow.edge p b f' hf'
      | cons e rest =>
          have he : (b, e) ∈ r.edges :=
            BlockTransfer.mem_sentTo.mp (hsentTo ▸ List.mem_cons_self)
          obtain ⟨-, z, hz, -⟩ := hsent he
          exact ⟨z, hz, hup hz⟩
    · exact hbelow.edge p b f' ((hv.edge_other hp b).symm.trans hf')
  · exact (show s'.table.state = st from hv.state) ▸ hstate
  · rcases hv.known b hb with hb | rfl | ⟨e, he, rfl⟩
    · exact hknown b (hb.imp_left List.mem_of_mem_erase)
    · exact ⟨f, hf⟩
    · exact (hsent (show (e.1, e.2) ∈ r.edges from he)).1

/-- The states that visits come to are below every solution. -/
theorem steps_below (L : a.Lawful g Fine le leState) (hg : g.Valid) {st : σ}
    {t : FlowTable Fact σ} (hst : leState st t.state)
    (ht : t.Solves a g fun x y => a.same x y = true) (hfine : t.All Fine)
    (h : ReflTransGen (Step a g ranks) (start g st) s) : s.table.Below le leState t := by
  suffices hall : s.table.Below le leState t ∧ ∀ b, s.Known b → ∃ f, t.before b = some f from hall.1
  have hstart : (start g st : Solving Fact σ).Sane a g le leState :=
    start_sane (L.state_refl hst)
  induction h with
  | refl =>
      have hnone := getD_replicate_none Fact g.size
      refine ⟨⟨fun b f hf => ?_, fun b f hf => ?_, nofun, hst⟩, fun b hb => ?_⟩
      · exact absurd ((hnone b).symm.trans hf) nofun
      · exact absurd ((hnone b).symm.trans hf) nofun
      · exact known_start hb ▸ ht.entry
  | tail hsteps hstep ih =>
      exact step_below L hg (steps_sane L hg hstart hsteps) ht hfine ih.1 ih.2 hstep

/-- What the transfers of reachable blocks preserve holds of the state in the end. -/
theorem steps_state (L : a.Lawful g Fine le leState) (hg : g.Valid) {st : σ} {P : σ → Prop}
    (hst : leState st st) (hP : P st)
    (htransfer : ∀ {st st' : σ} {block : BlockId} {f : Fact} {r : BlockTransfer Fact}, P st →
      ReflTransGen (Digraph.Edge g.successors) g.entry block →
      a.transfer st block f = .ok (r, st') → P st')
    (h : ReflTransGen (Step a g ranks) (start g st) s) : P s.state := by
  induction h with
  | refl => exact hP
  | tail hsteps hstep ih =>
      obtain ⟨block, hblock, hvisit⟩ := hstep
      obtain ⟨r, state, hr, hv⟩ := visit_ok hvisit
      have hs := steps_sane L hg (start_sane hst) hsteps
      exact hv.state ▸ htransfer ih (hs.known block (.inl hblock)) hr

end Solving

def Fixpoint.table (r : Fixpoint Fact) (state : σ) : FlowTable Fact σ where
  before := r.inFact
  after := r.outFact
  edge p b := (r.edgeFacts.find? fun e => e.1 = (p, b)).map Prod.snd
  state := state

/-- Solving is a run of visits until no block waits. -/
theorem solve_steps {limit : Nat} {record : Bool} {st st' : σ} {r : Fixpoint Fact}
    (h : solve a g limit record st = .ok (r, st')) :
    ∃ s : Solving Fact σ, ReflTransGen (Solving.Step a g g.ranks) (.start g st) s ∧
      s.worklist = [] ∧ s.table = r.table st' := by
  obtain ⟨s, hrun, heq⟩ := bind_ok.mp h
  cases heq
  obtain ⟨hsteps, hempty⟩ := Solving.run_steps hrun
  exact ⟨s, hsteps, hempty, rfl⟩

end FlowTyping
