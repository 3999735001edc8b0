import FlowTyping.Flow.Solver
import FlowTyping.Proofs.Graph.Valid

/-!
Visits: what the visit of a block changes in the state of a solver. Every edge that it
changes leads to a block that waits, and so does every block that has to be seen again.
-/

namespace FlowTyping

variable {Fact σ : Type}

namespace DataflowAnalysis

variable (a : DataflowAnalysis Fact σ)

def joinAll : List Fact → Fact
  | [] => a.bottom
  | first :: rest => rest.foldl a.join first

/-- The facts that arrive at a block, at the entry the initial one first. -/
def arriving (g : FlowGraph) (edge : BlockId → BlockId → Option Fact) (block : BlockId) :
    List Fact :=
  let facts := (g.predecessorsOf block).filterMap fun p => edge p block
  if block = g.entry then a.initial :: facts else facts

/-- The fact of an edge after another one was sent along it. -/
def absorb (old : Option Fact) (fact : Fact) : Fact :=
  match old with
  | none => fact
  | some old => if a.same (a.join old fact) old then old else a.join old fact

/-- The fact of an edge after some facts were sent along it. -/
def merge (old : Option Fact) (sent : List Fact) : Option Fact :=
  sent.foldl (fun old fact => some (a.absorb old fact)) old

end DataflowAnalysis

/-- The facts that a visit sends along the edge to a block. -/
def BlockTransfer.sentTo (r : BlockTransfer Fact) (target : BlockId) : List Fact :=
  (r.edges.filter fun e => e.1 = target).map Prod.snd

theorem BlockTransfer.mem_sentTo {r : BlockTransfer Fact} {target : BlockId} {f : Fact} :
    f ∈ r.sentTo target ↔ (target, f) ∈ r.edges := by
  simp [sentTo]

/-- Facts before and after blocks and on edges, and a state of the transfer. A block with
no fact before it is not reached. -/
structure FlowTable (Fact σ : Type) where
  before : BlockId → Option Fact
  after : BlockId → Option Fact
  edge : BlockId → BlockId → Option Fact
  state : σ

/-- The join of the facts that arrive at a block. -/
def FlowTable.input (t : FlowTable Fact σ) (a : DataflowAnalysis Fact σ) (g : FlowGraph)
    (block : BlockId) : Fact :=
  a.joinAll (a.arriving g t.edge block)

/-- A fact that is set on an edge is found there, and those on the other edges stay. -/
theorem find?_setFact (l : List ((BlockId × BlockId) × Fact)) (edge other : BlockId × BlockId)
    (fact : Fact) : ((edge, fact) :: l.filter fun e => e.1 ≠ edge).find? (fun e => e.1 = other) =
      if other = edge then some (edge, fact) else l.find? fun e => e.1 = other := by
  by_cases hother : other = edge
  · simp [hother]
  · have hne : edge ≠ other := Ne.symm hother
    rw [if_neg hother, List.find?_cons_of_neg (by simpa using hne)]
    induction l with
    | nil => rfl
    | cons e rest ih =>
        by_cases he : e.1 = edge
        · rw [List.filter_cons_of_neg (by simpa using he), ih,
            List.find?_cons_of_neg (by simpa [he] using hne)]
        · rw [List.filter_cons_of_pos (by simpa using he), List.find?_cons, List.find?_cons, ih]

namespace Solving

variable {a : DataflowAnalysis Fact σ} {g : FlowGraph} {ranks : Array Nat}
  {s s' s'' : Solving Fact σ} {block source : BlockId}

def table (s : Solving Fact σ) : FlowTable Fact σ where
  before block := s.inFacts.getD block none
  after block := s.outFacts.getD block none
  edge := s.edgeFact?
  state := s.state

theorem input_eq (s : Solving Fact σ) (block : BlockId) :
    s.input a g block = s.table.input a g block := by
  change (match a.arriving g s.edgeFact? block with
    | [] => a.bottom
    | first :: rest => rest.foldl a.join first) = a.joinAll (a.arriving g s.edgeFact? block)
  split <;> simp_all [DataflowAnalysis.joinAll]

/-- A visit of a waiting block, of any one. -/
def Step (a : DataflowAnalysis Fact σ) (g : FlowGraph) (ranks : Array Nat)
    (s s' : Solving Fact σ) : Prop :=
  ∃ block ∈ s.worklist,
    { s with worklist := s.worklist.erase block }.visit a g ranks block = .ok s'

/-- The visit of the block that waits first. -/
def Advance (a : DataflowAnalysis Fact σ) (g : FlowGraph) (ranks : Array Nat)
    (s s' : Solving Fact σ) : Prop :=
  ∃ block rest, s.worklist = block :: rest ∧
    { s with worklist := rest }.visit a g ranks block = .ok s'

theorem Advance.step (h : Advance a g ranks s s') : Step a g ranks s s' := by
  obtain ⟨block, rest, hwork, hvisit⟩ := h
  refine ⟨block, hwork ▸ List.mem_cons_self, ?_⟩
  rw [hwork, List.erase_cons_head]
  exact hvisit

/-- A run that ends has visited the block that waits first over and over. -/
theorem run_advances {limit remaining : Nat} (h : run a g ranks limit remaining s = .ok s') :
    Relation.ReflTransGen (Advance a g ranks) s s' ∧ s'.worklist = [] := by
  induction remaining generalizing s with
  | zero =>
      unfold run at h
      split at h
      · cases h
        exact ⟨.refl, ‹_›⟩
      · cases h
  | succ remaining ih =>
      unfold run at h
      split at h
      · cases h
        exact ⟨.refl, ‹_›⟩
      · rename_i block rest hworklist
        dsimp only at h
        split at h
        · cases h
        · rename_i next hvisit
          obtain ⟨hsteps, hempty⟩ := ih h
          exact ⟨.head ⟨block, rest, hworklist, hvisit⟩ hsteps, hempty⟩

theorem run_steps {limit remaining : Nat} (h : run a g ranks limit remaining s = .ok s') :
    Relation.ReflTransGen (Step a g ranks) s s' ∧ s'.worklist = [] := by
  obtain ⟨hadvances, hempty⟩ := run_advances h
  exact ⟨Relation.ReflTransGen.mono (fun _ _ h => h.step) _ _ hadvances, hempty⟩

theorem mem_schedule {ranks : Array Nat} {block x : BlockId} {l : List BlockId} :
    x ∈ schedule ranks block l ↔ x = block ∨ x ∈ l := by
  induction l with
  | nil => simp [schedule]
  | cons other rest ih =>
      unfold schedule
      dsimp only
      split
      · rename_i heq
        cases (Prod.mk.injEq .. ▸ heq).2
        simp
      · split
        · simp
        · rw [List.mem_cons, ih, List.mem_cons]
          exact or_left_comm

theorem edgeFact?_setEdgeFact {target : BlockId} {fact : Fact} (p t : BlockId) :
    (s.setEdgeFact source target fact).edgeFact? p t =
      if p = source ∧ t = target then some fact else s.edgeFact? p t := by
  unfold setEdgeFact edgeFact?
  rw [find?_setFact]
  simp only [Prod.mk.injEq]
  split
  · rfl
  · rfl

/-- The status of a block says that it has waited or was visited. -/
def Marked (s : Solving Fact σ) (block : BlockId) : Prop :=
  s.statuses.getD block .unvisited ≠ .unvisited

/-- The block waits, or it has before. -/
def Known (s : Solving Fact σ) (block : BlockId) : Prop :=
  block ∈ s.worklist ∨ s.Marked block

/-- What the messages of a visit change. New blocks come to wait among some targets only,
and the target of every changed edge waits. -/
structure Wakes (T : BlockId → Prop) (s s' : Solving Fact σ) : Prop where
  kept : s.worklist ⊆ s'.worklist
  changed : ∀ p t, s'.edgeFact? p t ≠ s.edgeFact? p t → t ∈ s'.worklist
  marked : ∀ x, s.Marked x → s'.Marked x
  known : ∀ x, s'.Known x → s.Known x ∨ T x
  inFacts : s'.inFacts = s.inFacts
  outFacts : s'.outFacts = s.outFacts
  state : s'.state = s.state
  statuses : s'.statuses.size = s.statuses.size

namespace Wakes

variable {T T' : BlockId → Prop}

theorem refl (T : BlockId → Prop) (s : Solving Fact σ) : Wakes T s s where
  kept := List.Subset.refl _
  changed _ _ h := absurd rfl h
  marked _ h := h
  known _ h := .inl h
  inFacts := rfl
  outFacts := rfl
  state := rfl
  statuses := rfl

theorem trans (h : Wakes T s s') (h' : Wakes T s' s'') : Wakes T s s'' where
  kept := List.Subset.trans h.kept h'.kept
  changed p t hne := by
    by_cases heq : s'.edgeFact? p t = s.edgeFact? p t
    · exact h'.changed p t (heq ▸ hne)
    · exact h'.kept (h.changed p t heq)
  marked x hx := h'.marked x (h.marked x hx)
  known x hx := by
    rcases h'.known x hx with hx | hx
    · exact h.known x hx
    · exact .inr hx
  inFacts := h'.inFacts.trans h.inFacts
  outFacts := h'.outFacts.trans h.outFacts
  state := h'.state.trans h.state
  statuses := h'.statuses.trans h.statuses

theorem mono (h : Wakes T s s') (hT : ∀ x, T x → T' x) : Wakes T' s s' :=
  { h with known := fun x hx => (h.known x hx).imp_right (hT x) }

theorem foldl {α : Type} {f : Solving Fact σ → α → Solving Fact σ} {l : List α}
    (hf : ∀ s, ∀ x ∈ l, Wakes T s (f s x)) (s : Solving Fact σ) : Wakes T s (l.foldl f s) := by
  induction l generalizing s with
  | nil => exact .refl T s
  | cons x rest ih =>
      exact (hf s x List.mem_cons_self).trans
        (ih (fun s y hy => hf s y (List.mem_cons_of_mem _ hy)) _)

end Wakes

theorem getD_set_status {statuses : Array BlockStatus} {status : BlockStatus} (x : Nat) :
    (statuses.setIfInBounds block status).getD x .unvisited =
      if x = block ∧ block < statuses.size then status else statuses.getD x .unvisited := by
  by_cases hx : x = block
  · subst hx
    by_cases hsize : x < statuses.size
    · simp [hsize]
    · simp [hsize]
  · simp [hx, Ne.symm hx]

theorem marked_await {x : BlockId} (h : s.Marked x) : (s.await ranks block).Marked x := by
  unfold Marked await at *
  rw [getD_set_status]
  split
  · simp
  · exact h

theorem known_await {x : BlockId} (h : (s.await ranks block).Known x) : s.Known x ∨ x = block := by
  by_cases hx : x = block
  · exact .inr hx
  · refine .inl (h.imp (fun h => ?_) fun h => ?_)
    · exact (mem_schedule.mp h).resolve_left hx
    · unfold Marked await at h
      rwa [getD_set_status, if_neg (fun h => hx h.1)] at h

/-- An edge that is set and whose target then waits. -/
theorem wakes_set_await {target : BlockId} {fact : Fact} :
    Wakes (· = target) s ((s.setEdgeFact source target fact).await ranks target) where
  kept _ hx := mem_schedule.mpr (.inr hx)
  changed p t hne := by
    change (s.setEdgeFact source target fact).edgeFact? p t ≠ _ at hne
    rw [edgeFact?_setEdgeFact] at hne
    split at hne
    · rename_i hpt
      exact mem_schedule.mpr (.inl hpt.2)
    · exact absurd rfl hne
  marked _ hx := marked_await hx
  known _ hx := known_await hx
  inFacts := rfl
  outFacts := rfl
  state := rfl
  statuses := Array.size_setIfInBounds

theorem propagate_wakes (e : BlockId × Fact) :
    Wakes (· = e.1) s (propagate a ranks source s e) := by
  unfold propagate
  split
  · exact wakes_set_await
  · dsimp only
    split
    · exact .refl _ _
    · exact wakes_set_await

theorem revisit_wakes : Wakes (fun _ => False) s (revisit ranks s block) := by
  unfold revisit
  split
  · exact .refl _ _
  · rename_i hmarked
    refine ⟨fun _ hx => mem_schedule.mpr (.inr hx), fun _ _ h => absurd rfl h,
      fun _ hx => marked_await hx, fun x hx => ?_, rfl, rfl, rfl, Array.size_setIfInBounds⟩
    rcases known_await hx with hx | rfl
    · exact .inl hx
    · exact .inl (.inr hmarked)

theorem edgeFact?_propagate (e : BlockId × Fact) (p t : BlockId) :
    (propagate a ranks source s e).edgeFact? p t =
      if p = source ∧ t = e.1 then some (a.absorb (s.edgeFact? source e.1) e.2)
      else s.edgeFact? p t := by
  unfold propagate
  split
  · rename_i hnone
    rw [hnone]
    exact edgeFact?_setEdgeFact p t
  · rename_i old hold
    rw [hold]
    dsimp only [DataflowAnalysis.absorb]
    split
    · split
      · rename_i hpt
        rw [hpt.1, hpt.2, hold]
      · rfl
    · exact edgeFact?_setEdgeFact p t

/-- Each edge from a block absorbs what is sent along it, and no other edge changes. -/
theorem edgeFact?_foldl_propagate (edges : List (BlockId × Fact)) (p t : BlockId) :
    (edges.foldl (propagate a ranks source) s).edgeFact? p t =
      if p = source then
        a.merge (s.edgeFact? source t) ((edges.filter fun e => e.1 = t).map Prod.snd)
      else s.edgeFact? p t := by
  induction edges generalizing s with
  | nil => by_cases hp : p = source <;> simp [DataflowAnalysis.merge, hp]
  | cons e rest ih =>
      rw [List.foldl_cons, ih]
      by_cases hp : p = source
      · rw [if_pos hp, if_pos hp, edgeFact?_propagate]
        by_cases ht : e.1 = t
        · rw [if_pos ⟨rfl, ht.symm⟩, List.filter_cons_of_pos (by simpa using ht)]
          simp only [DataflowAnalysis.merge, List.map_cons, List.foldl_cons, ht]
        · rw [if_neg (fun h => ht h.2.symm), List.filter_cons_of_neg (by simpa using ht)]
      · rw [if_neg hp, if_neg hp, edgeFact?_propagate, if_neg (fun h => hp h.1)]

theorem edgeFact?_revisit (p t : BlockId) :
    (revisit ranks s block).edgeFact? p t = s.edgeFact? p t := by
  unfold revisit
  split <;> rfl

theorem edgeFact?_foldl_revisit (blocks : List BlockId) (p t : BlockId) :
    (blocks.foldl (revisit ranks) s).edgeFact? p t = s.edgeFact? p t := by
  induction blocks generalizing s with
  | nil => rfl
  | cons x rest ih => rw [List.foldl_cons, ih, edgeFact?_revisit]

theorem mem_foldl_revisit {blocks : List BlockId} {x : BlockId} (hx : x ∈ blocks)
    (hmarked : s.Marked x) : x ∈ (blocks.foldl (revisit ranks) s).worklist := by
  induction blocks generalizing s with
  | nil => cases hx
  | cons y rest ih =>
      rw [List.foldl_cons]
      by_cases hy : x = y
      · have hmem : x ∈ (revisit ranks s y).worklist := by
          rw [revisit, if_neg (hy ▸ hmarked)]
          exact mem_schedule.mpr (.inl hy)
        exact (Wakes.foldl (fun s y _ => revisit_wakes) _).kept hmem
      · exact ih ((List.mem_cons.mp hx).resolve_left hy) (revisit_wakes.marked x hmarked)

/-- The state after the visit of a block, in terms of what its transfer gave. -/
structure Visited (a : DataflowAnalysis Fact σ) (block : BlockId) (input : Fact)
    (r : BlockTransfer Fact) (state : σ) (s s' : Solving Fact σ) : Prop where
  state : s'.state = state
  inFacts : s'.inFacts = s.inFacts.setIfInBounds block (some input)
  outFacts : s'.outFacts = s.outFacts.setIfInBounds block (some r.output)
  statuses : s'.statuses.size = s.statuses.size
  edge : ∀ p t, s'.table.edge p t =
    if p = block then a.merge (s.table.edge block t) (r.sentTo t) else s.table.edge p t
  kept : s.worklist ⊆ s'.worklist
  changed : ∀ p t, s'.table.edge p t ≠ s.table.edge p t → t ∈ s'.worklist
  revisited : ∀ x ∈ r.revisit, s.Marked x → x ∈ s'.worklist
  marked : ∀ x, s.Marked x → s'.Marked x
  marked_self : block < s.statuses.size → s'.Marked block
  known : ∀ x, s'.Known x → s.Known x ∨ x = block ∨ ∃ e ∈ r.edges, e.1 = x

theorem getD_set_fact {facts : Array (Option Fact)} {f : Fact} (hsize : block < facts.size)
    (b : BlockId) : (facts.setIfInBounds block (some f)).getD b none =
      if b = block then some f else facts.getD b none := by
  by_cases hb : b = block
  · simp [hb, hsize]
  · simp [hb, Ne.symm hb]

namespace Visited

variable {input : Fact} {r : BlockTransfer Fact} {state : σ}

theorem before (hv : Visited a block input r state s s') (hsize : block < s.inFacts.size)
    (b : BlockId) :
    s'.table.before b = if b = block then some input else s.table.before b := by
  change s'.inFacts.getD b none = _
  rw [hv.inFacts, getD_set_fact hsize]
  rfl

theorem after (hv : Visited a block input r state s s') (hsize : block < s.outFacts.size)
    (b : BlockId) :
    s'.table.after b = if b = block then some r.output else s.table.after b := by
  change s'.outFacts.getD b none = _
  rw [hv.outFacts, getD_set_fact hsize]
  rfl

theorem edge_self (hv : Visited a block input r state s s') (b : BlockId) :
    s'.table.edge block b = a.merge (s.table.edge block b) (r.sentTo b) :=
  (hv.edge block b).trans (if_pos rfl)

theorem edge_other (hv : Visited a block input r state s s') {p : BlockId} (hp : p ≠ block)
    (b : BlockId) : s'.table.edge p b = s.table.edge p b :=
  (hv.edge p b).trans (if_neg hp)

/-- The edges into a block that does not wait are as they were. -/
theorem edge_stays (hv : Visited a block input r state s s') {b : BlockId}
    (hb : b ∉ s'.worklist) (p : BlockId) : s'.table.edge p b = s.table.edge p b := by
  by_contra hne
  exact hb (hv.changed p b hne)

/-- Changed edges lead where something was sent. -/
theorem sent_of_changed (hv : Visited a block input r state s s') {p b : BlockId}
    (hne : s'.table.edge p b ≠ s.table.edge p b) : p = block ∧ ∃ f, (b, f) ∈ r.edges := by
  obtain rfl : p = block := by
    by_contra hp
    exact hne (hv.edge_other hp b)
  rw [hv.edge_self] at hne
  cases hsent : r.sentTo b with
  | nil =>
      rw [hsent] at hne
      exact absurd rfl hne
  | cons f rest => exact ⟨rfl, f, BlockTransfer.mem_sentTo.mp (hsent ▸ List.mem_cons_self)⟩

end Visited

theorem visit_ok (h : s.visit a g ranks block = .ok s') :
    ∃ r state, a.transfer s.state block (s.table.input a g block) = .ok (r, state) ∧
      Visited a block (s.table.input a g block) r state s s' := by
  rw [← input_eq]
  obtain ⟨⟨r, state⟩, htransfer, heq⟩ := bind_ok.mp h
  refine ⟨r, state, htransfer, ?_⟩
  cases heq
  generalize hstatus :
    (if s.reproduces a block r.output then BlockStatus.stable else .changed) = status
  have hstatus' : status ≠ .unvisited := by
    rw [← hstatus]
    split <;> simp
  generalize hrounds :
    (if s.beginsRound (ranks.getD block 0) then s.rounds + 1 else s.rounds) = rounds
  let visited : Solving Fact σ :=
    { s with
      statuses := s.statuses.setIfInBounds block status
      lastRank := some (ranks.getD block 0)
      visits := s.visits + 1
      rounds
      log := ⟨block, r.output, status⟩ :: s.log
      state }
  have hmark : ∀ x, s.Marked x → visited.Marked x := by
    intro x hx
    change (s.statuses.setIfInBounds block status).getD x .unvisited ≠ .unvisited
    rw [getD_set_status]
    split
    · exact hstatus'
    · exact hx
  have hsent : Wakes (fun x => ∃ e ∈ r.edges, e.1 = x) visited
      (r.edges.foldl (propagate a ranks block) visited) :=
    .foldl (fun s e he => (propagate_wakes e).mono fun x hx => ⟨e, he, hx.symm⟩) _
  have hawaited : Wakes (fun x => ∃ e ∈ r.edges, e.1 = x)
      (r.edges.foldl (propagate a ranks block) visited)
      (r.revisit.foldl (revisit ranks) (r.edges.foldl (propagate a ranks block) visited)) :=
    .foldl (fun s x _ => revisit_wakes.mono fun _ h => h.elim) _
  have hall := hsent.trans hawaited
  exact {
    state := hall.state
    inFacts :=
      congrArg (fun facts => facts.setIfInBounds block (some (s.input a g block))) hall.inFacts
    outFacts := congrArg (fun facts => facts.setIfInBounds block (some r.output)) hall.outFacts
    statuses := hall.statuses.trans Array.size_setIfInBounds
    edge := fun p t =>
      (edgeFact?_foldl_revisit r.revisit p t).trans (edgeFact?_foldl_propagate r.edges p t)
    kept := hall.kept
    changed := hall.changed
    revisited := fun x hx hmarked => mem_foldl_revisit hx (hsent.marked x (hmark x hmarked))
    marked := fun x hx => hall.marked x (hmark x hx)
    marked_self := fun hsize => hall.marked block (by
      change (s.statuses.setIfInBounds block status).getD block .unvisited ≠ .unvisited
      rw [getD_set_status, if_pos ⟨rfl, hsize⟩]
      exact hstatus')
    known := fun x hx => by
      rcases hall.known x hx with hx | hx
      · rcases hx with hx | hx
        · exact .inl (.inl hx)
        · by_cases hxb : x = block
          · exact .inr (.inl hxb)
          · refine .inl (.inr ?_)
            change (s.statuses.setIfInBounds block status).getD x .unvisited ≠ .unvisited at hx
            rwa [getD_set_status, if_neg (fun h => hxb h.1)] at hx
      · exact .inr (.inr hx) }

end Solving

end FlowTyping
