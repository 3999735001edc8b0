import FlowTyping.Flow.Analysis
import FlowTyping.Proofs.Flow.Solver

/-!
Two analyses whose facts and states correspond, over graphs with the same edges. They visit the
same blocks in the same order, they fail alike, and what they find corresponds.
-/

namespace FlowTyping

/-- Two computations fail with the same error, or their results are related. -/
inductive Alike {ε α β : Type} (R : α → β → Prop) : Except ε α → Except ε β → Prop where
  | error (e : ε) : Alike R (.error e) (.error e)
  | ok {a : α} {b : β} : R a b → Alike R (.ok a) (.ok b)

namespace Alike

variable {ε α β γ δ : Type} {R : α → β → Prop} {S : γ → δ → Prop}

theorem bind {m : Except ε α} {m' : Except ε β} {k : α → Except ε γ} {k' : β → Except ε δ}
    (hm : Alike R m m') (hk : ∀ a b, R a b → Alike S (k a) (k' b)) :
    Alike S (m >>= k) (m' >>= k') := by
  cases hm with
  | error e => exact .error e
  | ok hab => exact hk _ _ hab

theorem map {m : Except ε α} {m' : Except ε β} {f : α → γ} {f' : β → δ} (hm : Alike R m m')
    (hf : ∀ a b, R a b → S (f a) (f' b)) : Alike S (m.map f) (m'.map f') := by
  cases hm with
  | error e => exact .error e
  | ok hab => exact .ok (hf _ _ hab)

theorem same (m : Except ε α) : Alike Eq m m := by
  cases m with
  | error e => exact .error e
  | ok a => exact .ok rfl

end Alike

/-- Two options are both empty or hold related values. -/
theorem optionRel_getD_setIfInBounds {α β : Type} {R : α → β → Prop} {l : Array (Option α)}
    {l' : Array (Option β)} (hsize : l.size = l'.size)
    (h : ∀ i, Option.Rel R (l.getD i none) (l'.getD i none)) {x : α} {x' : β} (hx : R x x')
    (i j : Nat) : Option.Rel R ((l.setIfInBounds i (some x)).getD j none)
      ((l'.setIfInBounds i (some x')).getD j none) := by
  have hj := h j
  simp only [Array.getD_eq_getD_getElem?, Array.getElem?_setIfInBounds] at hj ⊢
  split
  · rw [hsize]
    split
    · exact .some hx
    · exact .none
  · exact hj

variable {Fact Fact' σ σ' : Type}

/-- The messages of two visits correspond. -/
structure BlockTransfer.Related (R : Fact → Fact' → Prop) (r : BlockTransfer Fact)
    (r' : BlockTransfer Fact') : Prop where
  output : R r.output r'.output
  edges : List.Forall₂ (fun e e' => e.1 = e'.1 ∧ R e.2 e'.2) r.edges r'.edges
  revisit : r.revisit = r'.revisit

/-- The operations of two analyses respect a relation of their facts and one of their states. -/
structure DataflowAnalysis.Related (R : Fact → Fact' → Prop) (S : σ → σ' → Prop)
    (a : DataflowAnalysis Fact σ) (a' : DataflowAnalysis Fact' σ') : Prop where
  initial : R a.initial a'.initial
  bottom : R a.bottom a'.bottom
  join {x y : Fact} {x' y' : Fact'} : R x x' → R y y' → R (a.join x y) (a'.join x' y')
  same {x y : Fact} {x' y' : Fact'} : R x x' → R y y' → a.same x y = a'.same x' y'
  transfer {state : σ} {state' : σ'} (block : BlockId) {x : Fact} {x' : Fact'} :
    S state state' → R x x' →
    Alike (fun r r' => r.1.Related R r'.1 ∧ S r.2 r'.2) (a.transfer state block x)
      (a'.transfer state' block x')

theorem DataflowAnalysis.Related.joinAll {R : Fact → Fact' → Prop} {S : σ → σ' → Prop}
    {a : DataflowAnalysis Fact σ} {a' : DataflowAnalysis Fact' σ'} (ha : a.Related R S a')
    {facts : List Fact} {facts' : List Fact'} (h : List.Forall₂ R facts facts') :
    R (a.joinAll facts) (a'.joinAll facts') := by
  have hfold {first : Fact} {first' : Fact'} {rest : List Fact} {rest' : List Fact'}
      (hrest : List.Forall₂ R rest rest') (hfirst : R first first') :
      R (rest.foldl a.join first) (rest'.foldl a'.join first') := by
    induction hrest generalizing first first' with
    | nil => exact hfirst
    | cons hx _ ih => exact ih (ha.join hfirst hx)
  cases h with
  | nil => exact ha.bottom
  | cons hfirst hrest => exact hfold hrest hfirst

/-- Two graphs with the same edges between blocks. -/
structure FlowGraph.SameEdges (g g' : FlowGraph) : Prop where
  size : g.size = g'.size
  entry : g.entry = g'.entry
  predecessors (block : BlockId) : g.predecessorsOf block = g'.predecessorsOf block

theorem FlowGraph.SameEdges.refl (g : FlowGraph) : g.SameEdges g := ⟨rfl, rfl, fun _ => rfl⟩

/-- Edges with corresponding facts. -/
abbrev EdgesRelated (R : Fact → Fact' → Prop) : List ((BlockId × BlockId) × Fact) →
    List ((BlockId × BlockId) × Fact') → Prop :=
  List.Forall₂ fun e e' => e.1 = e'.1 ∧ R e.2 e'.2

theorem EdgesRelated.find? {R : Fact → Fact' → Prop} {l : List ((BlockId × BlockId) × Fact)}
    {l' : List ((BlockId × BlockId) × Fact')} (h : EdgesRelated R l l') (edge : BlockId × BlockId) :
    Option.Rel R ((l.find? fun e => e.1 = edge).map Prod.snd)
      ((l'.find? fun e => e.1 = edge).map Prod.snd) := by
  induction h with
  | nil => exact .none
  | @cons e e' _ _ he _ ih =>
      obtain ⟨hkey, hfact⟩ := he
      rw [List.find?_cons, List.find?_cons, ← hkey]
      cases decide (e.1 = edge) with
      | true => exact .some hfact
      | false => exact ih

theorem EdgesRelated.filter {R : Fact → Fact' → Prop} {l : List ((BlockId × BlockId) × Fact)}
    {l' : List ((BlockId × BlockId) × Fact')} (h : EdgesRelated R l l') (edge : BlockId × BlockId) :
    EdgesRelated R (l.filter fun e => e.1 ≠ edge) (l'.filter fun e => e.1 ≠ edge) := by
  induction h with
  | nil => exact .nil
  | @cons e e' _ _ he _ ih =>
      rw [List.filter_cons, List.filter_cons, ← he.1]
      split
      · exact .cons he ih
      · exact ih

/-- How the lists of edges of two solvers correspond: the facts on an edge are related, also when
related facts have been set on one. -/
structure EdgeRelation (R : Fact → Fact' → Prop) where
  Rel : List ((BlockId × BlockId) × Fact) → List ((BlockId × BlockId) × Fact') → Prop
  nil : Rel [] []
  find? {l : List ((BlockId × BlockId) × Fact)} {l' : List ((BlockId × BlockId) × Fact')} :
    Rel l l' → ∀ edge : BlockId × BlockId, Option.Rel R
      ((l.find? fun e => e.1 = edge).map Prod.snd) ((l'.find? fun e => e.1 = edge).map Prod.snd)
  set {l : List ((BlockId × BlockId) × Fact)} {l' : List ((BlockId × BlockId) × Fact')}
    {fact : Fact} {fact' : Fact'} : Rel l l' → R fact fact' → ∀ edge : BlockId × BlockId,
      Rel ((edge, fact) :: l.filter fun e => e.1 ≠ edge)
        ((edge, fact') :: l'.filter fun e => e.1 ≠ edge)

namespace EdgeRelation

/-- The edges stand in the same order. -/
def inOrder (R : Fact → Fact' → Prop) : EdgeRelation R where
  Rel := EdgesRelated R
  nil := .nil
  find? h edge := h.find? edge
  set h hfact edge := .cons ⟨rfl, hfact⟩ (h.filter edge)

/-- The edges stand in any order. -/
def byEdge (R : Fact → Fact' → Prop) : EdgeRelation R where
  Rel l l' := ∀ edge : BlockId × BlockId, Option.Rel R
    ((l.find? fun e => e.1 = edge).map Prod.snd) ((l'.find? fun e => e.1 = edge).map Prod.snd)
  nil _ := .none
  find? h := h
  set h hfact edge other := by
    rw [find?_setFact, find?_setFact]
    split
    · exact .some hfact
    · exact h other

end EdgeRelation

/-- Visits of the same blocks with corresponding outputs. -/
abbrev VisitsRelated (R : Fact → Fact' → Prop) : List (Visit Fact) → List (Visit Fact') → Prop :=
  List.Forall₂ fun v v' => v.block = v'.block ∧ R v.output v'.output ∧ v.status = v'.status

/-- Two solvers are in states that correspond: the same blocks wait in the same order. -/
structure Solving.Related {R : Fact → Fact' → Prop} (E : EdgeRelation R) (S : σ → σ' → Prop)
    (s : Solving Fact σ) (s' : Solving Fact' σ') : Prop where
  edges : E.Rel s.edgeFacts s'.edgeFacts
  before (block : BlockId) : Option.Rel R (s.inFacts.getD block none) (s'.inFacts.getD block none)
  after (block : BlockId) : Option.Rel R (s.outFacts.getD block none) (s'.outFacts.getD block none)
  inSize : s.inFacts.size = s'.inFacts.size
  outSize : s.outFacts.size = s'.outFacts.size
  statuses : s.statuses = s'.statuses
  worklist : s.worklist = s'.worklist
  lastRank : s.lastRank = s'.lastRank
  visits : s.visits = s'.visits
  rounds : s.rounds = s'.rounds
  log : VisitsRelated R s.log s'.log
  state : S s.state s'.state

namespace Solving

variable {R : Fact → Fact' → Prop} {E : EdgeRelation R} {S : σ → σ' → Prop}
  {a : DataflowAnalysis Fact σ}
  {a' : DataflowAnalysis Fact' σ'} {g g' : FlowGraph} {ranks : Array Nat} {s : Solving Fact σ}
  {s' : Solving Fact' σ'}

namespace Related

theorem start (E : EdgeRelation R) (hg : g.SameEdges g') {state : σ} {state' : σ'}
    (hstate : S state state') :
    Related E S (start g state : Solving Fact σ) (start g' state' : Solving Fact' σ') := by
  have hnone (block : BlockId) : Option.Rel R
      ((Array.replicate g.size (none : Option Fact)).getD block none)
      ((Array.replicate g'.size (none : Option Fact')).getD block none) := by
    rw [getD_replicate_none, getD_replicate_none]
    exact .none
  constructor
  · exact E.nil
  · exact hnone
  · exact hnone
  · simp only [Solving.start, Array.size_replicate, hg.size]
  · simp only [Solving.start, Array.size_replicate, hg.size]
  · simp only [Solving.start, hg.size, hg.entry]
  · exact congrArg (fun b => [b]) hg.entry
  · rfl
  · rfl
  · rfl
  · exact .nil
  · exact hstate

theorem edge (h : Related E S s s') (source target : BlockId) :
    Option.Rel R (s.edgeFact? source target) (s'.edgeFact? source target) :=
  E.find? h.edges (source, target)

theorem await (h : Related E S s s') (block : BlockId) :
    Related E S (s.await ranks block) (s'.await ranks block) :=
  { h with
    statuses := congrArg (fun l => l.setIfInBounds block .pending) h.statuses
    worklist := congrArg (schedule ranks block) h.worklist }

theorem setEdgeFact (h : Related E S s s') (source target : BlockId) {fact : Fact} {fact' : Fact'}
    (hfact : R fact fact') :
    Related E S (s.setEdgeFact source target fact) (s'.setEdgeFact source target fact') :=
  { h with edges := E.set h.edges hfact (source, target) }

theorem propagate (ha : a.Related R S a') (h : Related E S s s') (source : BlockId)
    {e : BlockId × Fact} {e' : BlockId × Fact'} (he : e.1 = e'.1 ∧ R e.2 e'.2) :
    Related E S (s.propagate a ranks source e) (s'.propagate a' ranks source e') := by
  obtain ⟨target, fact⟩ := e
  obtain ⟨target', fact'⟩ := e'
  obtain ⟨rfl, hfact⟩ := he
  have hedge := h.edge source target
  unfold Solving.propagate
  dsimp only
  generalize s.edgeFact? source target = old at hedge
  generalize s'.edgeFact? source target = old' at hedge
  cases hedge with
  | none => exact (h.setEdgeFact source target hfact).await target
  | some hold =>
      have hmerged := ha.join hold hfact
      dsimp only
      rw [ha.same hmerged hold]
      split
      · exact h
      · exact (h.setEdgeFact source target hmerged).await target

theorem revisit (h : Related E S s s') (block : BlockId) :
    Related E S (s.revisit ranks block) (s'.revisit ranks block) := by
  unfold Solving.revisit
  rw [h.statuses]
  split
  · exact h
  · exact h.await block

/-- A visit counts, and it marks its block. -/
theorem count (h : Related E S s s') (block : BlockId) (status : BlockStatus) (rank : Nat)
    {output : Fact} {output' : Fact'} (houtput : R output output') {state : σ} {state' : σ'}
    (hstate : S state state') :
    Related E S
      { s with
        statuses := s.statuses.setIfInBounds block status
        lastRank := some rank
        visits := s.visits + 1
        rounds := if s.beginsRound rank then s.rounds + 1 else s.rounds
        log := ⟨block, output, status⟩ :: s.log
        state }
      { s' with
        statuses := s'.statuses.setIfInBounds block status
        lastRank := some rank
        visits := s'.visits + 1
        rounds := if s'.beginsRound rank then s'.rounds + 1 else s'.rounds
        log := ⟨block, output', status⟩ :: s'.log
        state := state' } := by
  have hbegins : s.beginsRound rank = s'.beginsRound rank := by
    rw [beginsRound, h.lastRank]
    rfl
  exact { h with
    statuses := congrArg (fun l => l.setIfInBounds block status) h.statuses
    lastRank := rfl
    visits := congrArg (· + 1) h.visits
    rounds := by simp only [hbegins, h.rounds]
    log := .cons ⟨rfl, houtput, rfl⟩ h.log
    state := hstate }

/-- The facts before and after a block are stored. -/
theorem keep (h : Related E S s s') (block : BlockId) {input output : Fact}
    {input' output' : Fact'} (hinput : R input input') (houtput : R output output') :
    Related E S
      { s with
        inFacts := s.inFacts.setIfInBounds block (some input)
        outFacts := s.outFacts.setIfInBounds block (some output) }
      { s' with
        inFacts := s'.inFacts.setIfInBounds block (some input')
        outFacts := s'.outFacts.setIfInBounds block (some output') } :=
  { h with
    before := optionRel_getD_setIfInBounds h.inSize h.before hinput block
    after := optionRel_getD_setIfInBounds h.outSize h.after houtput block
    inSize := by simp only [Array.size_setIfInBounds, h.inSize]
    outSize := by simp only [Array.size_setIfInBounds, h.outSize] }

theorem reproduces (ha : a.Related R S a') (h : Related E S s s') (block : BlockId) {output : Fact}
    {output' : Fact'} (houtput : R output output') :
    s.reproduces a block output = s'.reproduces a' block output' := by
  have hafter := h.after block
  unfold Solving.reproduces
  generalize s.outFacts.getD block none = old at hafter
  generalize s'.outFacts.getD block none = old' at hafter
  cases hafter with
  | none => rfl
  | some hold => exact ha.same hold houtput

theorem send (ha : a.Related R S a') (h : Related E S s s') (source : BlockId)
    {edges : List (BlockId × Fact)} {edges' : List (BlockId × Fact')}
    (hedges : List.Forall₂ (fun e e' => e.1 = e'.1 ∧ R e.2 e'.2) edges edges') :
    Related E S (edges.foldl (Solving.propagate a ranks source) s)
      (edges'.foldl (Solving.propagate a' ranks source) s') := by
  induction hedges generalizing s s' with
  | nil => exact h
  | cons he _ ih => exact ih (h.propagate ha source he)

theorem wake (h : Related E S s s') (blocks : List BlockId) :
    Related E S (blocks.foldl (Solving.revisit ranks) s)
      (blocks.foldl (Solving.revisit ranks) s') := by
  induction blocks generalizing s s' with
  | nil => exact h
  | cons block rest ih => exact ih (h.revisit block)

theorem input (ha : a.Related R S a') (hg : g.SameEdges g') (h : Related E S s s')
    (block : BlockId) : R (s.input a g block) (s'.input a' g' block) := by
  have harriving : ∀ sources : List BlockId, List.Forall₂ R
      (sources.filterMap fun p => s.edgeFact? p block)
      (sources.filterMap fun p => s'.edgeFact? p block) := by
    intro sources
    induction sources with
    | nil => exact .nil
    | cons p rest ih =>
        have hedge := h.edge p block
        rw [List.filterMap_cons, List.filterMap_cons]
        generalize s.edgeFact? p block = x at hedge
        generalize s'.edgeFact? p block = x' at hedge
        cases hedge with
        | none => exact ih
        | some hx => exact .cons hx ih
  rw [input_eq, input_eq]
  apply ha.joinAll
  unfold DataflowAnalysis.arriving
  rw [hg.entry, hg.predecessors block]
  dsimp only
  split
  · exact .cons ha.initial (harriving _)
  · exact harriving _

end Related

theorem visit_related (ranks : Array Nat) (ha : a.Related R S a') (hg : g.SameEdges g')
    (h : Related E S s s') (block : BlockId) :
    Alike (Related E S) (s.visit a g ranks block) (s'.visit a' g' ranks block) := by
  have hinput := h.input ha hg block
  unfold visit
  dsimp only
  apply (ha.transfer block h.state hinput).bind
  rintro ⟨r, state⟩ ⟨r', state'⟩ ⟨hr, hstate⟩
  dsimp only
  rw [h.reproduces ha block hr.output, ← hr.revisit]
  have hcount := h.count block
    (if s'.reproduces a' block r'.output then .stable else .changed) (ranks.getD block 0)
    hr.output hstate
  exact .ok ((hcount.send ha block hr.edges).wake r.revisit |>.keep block hinput hr.output)

theorem run_related (ranks : Array Nat) (ha : a.Related R S a') (hg : g.SameEdges g')
    (h : Related E S s s') (limit remaining : Nat) :
    Alike (Related E S) (run a g ranks limit remaining s) (run a' g' ranks limit remaining s') := by
  induction remaining generalizing s s' with
  | zero =>
      unfold run
      rw [h.worklist]
      split
      · exact .ok h
      · exact .error _
  | succ remaining ih =>
      unfold run
      rw [h.worklist]
      split
      · exact .ok h
      · rename_i block rest _
        have hrest : Related E S { s with worklist := rest } { s' with worklist := rest } :=
          { h with worklist := rfl }
        have hvisit := visit_related ranks ha hg hrest block
        dsimp only
        generalize { s with worklist := rest }.visit a g ranks block = next at hvisit
        generalize { s' with worklist := rest }.visit a' g' ranks block = next' at hvisit
        cases hvisit with
        | error e => exact .error e
        | ok hnext => exact ih hnext

end Solving

/-- Fixpoints with corresponding facts in the same places, found in the same visits. -/
structure Fixpoint.Related (R : Fact → Fact' → Prop) (r : Fixpoint Fact) (r' : Fixpoint Fact') :
    Prop where
  before (block : BlockId) : Option.Rel R (r.inFact block) (r'.inFact block)
  after (block : BlockId) : Option.Rel R (r.outFact block) (r'.outFact block)
  edges : EdgesRelated R r.edgeFacts r'.edgeFacts
  visits : r.visits = r'.visits
  rounds : r.rounds = r'.rounds
  statuses : r.statuses = r'.statuses
  history : Option.Rel (VisitsRelated R) r.history r'.history

/-- Two analyses whose facts correspond fail alike, or what they find corresponds. -/
theorem solve_related {R : Fact → Fact' → Prop} {S : σ → σ' → Prop} {a : DataflowAnalysis Fact σ}
    {a' : DataflowAnalysis Fact' σ'} {g g' : FlowGraph} (ha : a.Related R S a')
    (hg : g.SameEdges g') (hranks : g.ranks = g'.ranks) (maxVisits : Nat) (recordHistory : Bool)
    {state : σ} {state' : σ'} (hstate : S state state') :
    Alike (fun r r' => r.1.Related R r'.1 ∧ S r.2 r'.2)
      (solve a g maxVisits recordHistory state) (solve a' g' maxVisits recordHistory state') := by
  unfold solve
  rw [← hranks]
  apply (Solving.run_related g.ranks ha hg (.start (.inOrder R) hg hstate) maxVisits maxVisits).bind
  intro s s' h
  refine .ok ⟨?_, h.state⟩
  constructor
  · exact h.before
  · exact h.after
  · exact h.edges
  · exact h.visits
  · exact h.rounds
  · exact congrArg (Array.map Solving.settle) h.statuses
  · cases recordHistory with
    | true => exact .some (List.rel_reverse h.log)
    | false => exact .none

/-- Blocks that nothing reaches are evaluated alike if each pass over them is. -/
theorem UnitAnalysis.evaluateDetached_map {u u' : UnitAnalysis} {f : NodeValues → NodeValues}
    (hpass : ∀ pending values, u'.detachedPass pending (f values) =
      (u.detachedPass pending values).map (Prod.map f id))
    (pending : List BlockId) (values : NodeValues) :
    u'.evaluateDetached pending (f values) = (u.evaluateDetached pending values).map f := by
  induction h : pending.length using Nat.strongRecOn generalizing pending values with
  | _ n ih =>
      rw [evaluateDetached, evaluateDetached, hpass]
      cases u.detachedPass pending values with
      | error e => rfl
      | ok r =>
          obtain ⟨left, waiting⟩ := r
          cases waiting with
          | nil => rfl
          | cons first others =>
              dsimp only [Except.map, Prod.map_apply, id]
              split
              · rename_i hless
                apply ih _ _ _ _ rfl
                rw [← h, List.length_cons, List.length_map]
                exact hless
              · rfl

end FlowTyping
