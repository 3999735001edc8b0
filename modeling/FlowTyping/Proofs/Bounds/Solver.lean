import FlowTyping.Proofs.Bounds.Graphs
import FlowTyping.Proofs.Flow.Solver

/-!
The solver with checked accesses: to the ranks, statuses, facts and predecessors of blocks. They
are in range for every analysis that sends facts to blocks of its graph.
-/

namespace FlowTyping

/-- The parts of a forward analysis that access tables, with these accesses checked. -/
structure CheckedAnalysis (Fact σ : Type) where
  join : Fact → Fact → Option Fact
  transfer : σ → BlockId → Fact → Checked AnalysisError (BlockTransfer Fact × σ)

namespace Checked

variable {Fact σ : Type}

def schedule (ranks : Array Nat) (block : BlockId) : List BlockId → Option (List BlockId)
  | [] => some [block]
  | other :: rest => do
      let own ← ranks[block]?
      let taken ← ranks[other]?
      if (own, block) = (taken, other) then return other :: rest
      else if own < taken || (own = taken && block < other) then return block :: other :: rest
      else
        let rest ← schedule ranks block rest
        return other :: rest

def await (ranks : Array Nat) (s : Solving Fact σ) (block : BlockId) :
    Option (Solving Fact σ) := do
  let _ ← ranks[block]?
  let worklist ← schedule ranks block s.worklist
  let statuses ← write s.statuses block .pending
  return { s with worklist, statuses }

section Analysis

variable (a : DataflowAnalysis Fact σ) (a' : CheckedAnalysis Fact σ) (g : FlowGraph)
  (ranks : Array Nat)

def input (s : Solving Fact σ) (block : BlockId) : Option Fact := do
  let predecessors ← g.predecessors[block]?
  let arriving := predecessors.filterMap fun p => s.edgeFact? p block
  match if block = g.entry then a.initial :: arriving else arriving with
  | [] => return a.bottom
  | first :: rest => rest.foldlM a'.join first

def propagate (source : BlockId) (s : Solving Fact σ) (edge : BlockId × Fact) :
    Option (Solving Fact σ) :=
  match s.edgeFact? source edge.1 with
  | none => await ranks (s.setEdgeFact source edge.1 edge.2) edge.1
  | some old => do
      let merged ← a'.join old edge.2
      if a.same merged old then return s
      else await ranks (s.setEdgeFact source edge.1 merged) edge.1

def revisit (s : Solving Fact σ) (block : BlockId) : Option (Solving Fact σ) := do
  let status ← s.statuses[block]?
  if status = .unvisited then return s else await ranks s block

def reproduces (s : Solving Fact σ) (block : BlockId) (output : Fact) : Option Bool := do
  match ← s.outFacts[block]? with
  | some old => return a.same old output
  | none => return false

/-- What the visit of a block does with what its transfer gave. -/
def record (s : Solving Fact σ) (block : BlockId) (rank : Nat) (input : Fact)
    (result : BlockTransfer Fact) (state : σ) : Option (Solving Fact σ) := do
  let same ← reproduces a s block result.output
  let status := if same then .stable else .changed
  let statuses ← write s.statuses block status
  let visited : Solving Fact σ :=
    { s with
      statuses := statuses
      lastRank := some rank
      visits := s.visits + 1
      rounds := if s.beginsRound rank then s.rounds + 1 else s.rounds
      log := ⟨block, result.output, status⟩ :: s.log
      state := state }
  let sent ← result.edges.foldlM (propagate a a' ranks block) visited
  let awaited ← result.revisit.foldlM (revisit ranks) sent
  let inFacts ← write awaited.inFacts block (some input)
  let outFacts ← write awaited.outFacts block (some result.output)
  return { awaited with inFacts, outFacts }

def visit (s : Solving Fact σ) (block : BlockId) : Checked AnalysisError (Solving Fact σ) := do
  let rank ← access ranks[block]?
  let input ← access (input a a' g s block)
  let (result, state) ← a'.transfer s.state block input
  access (record a a' ranks s block rank input result state)

def runWorklist (limit : Nat) : Nat → Solving Fact σ → Checked AnalysisError (Solving Fact σ)
  | remaining, s =>
      match s.worklist with
      | [] => return s
      | block :: rest =>
          match remaining with
          | 0 => throw (.visitLimit limit)
          | left + 1 => do
              let next ← visit a a' g ranks { s with worklist := rest } block
              runWorklist limit left next

end Analysis

def start (g : FlowGraph) (ranks : Array Nat) (state : σ) : Option (Solving Fact σ) := do
  let _ ← ranks[g.entry]?
  let statuses ← write (Array.replicate g.size .unvisited) g.entry .pending
  return { Solving.start g state with statuses }

def solve (a : DataflowAnalysis Fact σ) (a' : CheckedAnalysis Fact σ) (g : FlowGraph)
    (maxVisits : Nat) (recordHistory : Bool) (state : σ) :
    Checked AnalysisError (Fixpoint Fact × σ) := do
  let ranks ← access (ranks g)
  let s ← access (start g ranks state)
  let s ← runWorklist a a' g ranks maxVisits maxVisits s
  return (s.result recordHistory, s.state)

end Checked

/-- An analysis accesses no table out of range, and sends facts to the blocks of a graph alone.
Facts and states with some properties keep them. -/
structure CheckedAnalysis.Covers {Fact σ : Type} (a' : CheckedAnalysis Fact σ)
    (a : DataflowAnalysis Fact σ) (g : FlowGraph) (P : Fact → Prop) (Q : σ → Prop) : Prop where
  initial : P a.initial
  bottom : P a.bottom
  join : ∀ {x y}, P x → P y → Checked.Gives (a'.join x y) (a.join x y) P
  transfer : ∀ {st b x}, Q st → b < g.size → P x →
    Checked.Delivers (a'.transfer st b x) (a.transfer st b x) fun r =>
      P r.1.output ∧ (∀ e ∈ r.1.edges, e.1 < g.size ∧ P e.2) ∧
        (∀ b ∈ r.1.revisit, b < g.size) ∧ Q r.2

/-- The tables of a solver have a cell for each block, only blocks wait, and facts and state have
some properties. -/
structure Solving.Within {Fact σ : Type} (g : FlowGraph) (P : Fact → Prop) (Q : σ → Prop)
    (s : Solving Fact σ) : Prop where
  inSize : s.inFacts.size = g.size
  outSize : s.outFacts.size = g.size
  statuses : s.statuses.size = g.size
  worklist : ∀ b ∈ s.worklist, b < g.size
  ins : ∀ {b f}, s.inFacts.getD b none = some f → P f
  outs : ∀ {b f}, s.outFacts.getD b none = some f → P f
  edges : ∀ e ∈ s.edgeFacts, P e.2
  log : ∀ v ∈ s.log, P v.output
  state : Q s.state

/-- Every fact of a fixpoint has a property. -/
structure Fixpoint.All {Fact : Type} (P : Fact → Prop) (r : Fixpoint Fact) : Prop where
  ins : ∀ {b f}, r.inFact b = some f → P f
  outs : ∀ {b f}, r.outFact b = some f → P f
  edges : ∀ e ∈ r.edgeFacts, P e.2
  history : ∀ log, r.history = some log → ∀ v ∈ log, P v.output

namespace Solving

open Checked

variable {Fact σ : Type} {a : DataflowAnalysis Fact σ} {a' : CheckedAnalysis Fact σ}
  {g : FlowGraph} {P : Fact → Prop} {Q : σ → Prop} {s : Solving Fact σ} {ranks : Array Nat}
  {block : BlockId}

theorem gives_schedule (hranks : ranks.size = g.size) (hblock : block < g.size)
    {worklist : List BlockId} (hworklist : ∀ b ∈ worklist, b < g.size) :
    Gives (Checked.schedule ranks block worklist) (schedule ranks block worklist)
      fun l => ∀ b ∈ l, b < g.size := by
  induction worklist with
  | nil => exact .pure (by simpa using hblock)
  | cons other rest ih =>
      rw [List.forall_mem_cons] at hworklist
      unfold Checked.schedule schedule
      apply (gives_getD (hranks ▸ hblock) 0).bind
      intro _
      apply (gives_getD (hranks ▸ hworklist.1) 0).bind
      intro _
      dsimp only
      split
      · exact .pure (List.forall_mem_cons.mpr hworklist)
      · split
        · exact .pure (List.forall_mem_cons.mpr ⟨hblock, List.forall_mem_cons.mpr hworklist⟩)
        · apply (ih hworklist.2).bind
          intro hrest
          exact .pure (List.forall_mem_cons.mpr ⟨hworklist.1, hrest⟩)

/-- A fact written into a table of facts with a property. -/
theorem holds_write {facts : Array (Option Fact)}
    (hall : ∀ {b f}, facts.getD b none = some f → P f) {f : Fact} (hf : P f) {b : BlockId}
    {f' : Fact} (hb : (facts.setIfInBounds block (some f)).getD b none = some f') : P f' := by
  by_cases heq : b = block
  · subst heq
    by_cases hlt : b < facts.size
    · rw [Array.getD_eq_getD_getElem?, Array.getElem?_setIfInBounds_self_of_lt hlt] at hb
      cases hb
      exact hf
    · simp [hlt] at hb
  · rw [Array.getD_eq_getD_getElem?, Array.getElem?_setIfInBounds_ne (Ne.symm heq),
      ← Array.getD_eq_getD_getElem?] at hb
    exact hall hb

namespace Within

variable (hs : s.Within g P Q)

include hs

theorem gives_await (hranks : ranks.size = g.size) (hblock : block < g.size) :
    Gives (Checked.await ranks s block) (s.await ranks block) (Within g P Q) := by
  apply (gives_getD (hranks ▸ hblock) 0).bind
  intro _
  apply (gives_schedule hranks hblock hs.worklist).bind
  intro hworklist
  have hlt : block < s.statuses.size := hs.statuses ▸ hblock
  apply (gives_write hlt .pending).bind
  intro hsize
  exact .pure { hs with worklist := hworklist, statuses := hsize.trans hs.statuses }

theorem setEdgeFact {target : BlockId} {f : Fact} (hf : P f) :
    (s.setEdgeFact block target f).Within g P Q where
  inSize := hs.inSize
  outSize := hs.outSize
  statuses := hs.statuses
  worklist := hs.worklist
  ins := hs.ins
  outs := hs.outs
  edges := List.forall_mem_cons.mpr ⟨hf, fun e he => hs.edges e (List.mem_of_mem_filter he)⟩
  log := hs.log
  state := hs.state

theorem of_edgeFact? {source target : BlockId} {f : Fact}
    (hf : s.edgeFact? source target = some f) : P f := by
  obtain ⟨e, he, rfl⟩ := Option.map_eq_some_iff.mp hf
  exact hs.edges e (List.mem_of_find?_eq_some he)

theorem gives_input (ha : a'.Covers a g P Q) (hg : g.Closed) (hblock : block < g.size) :
    Gives (Checked.input a a' g s block) (s.input a g block) P := by
  have hall : ∀ f ∈ (if block = g.entry then
      a.initial :: (g.predecessorsOf block).filterMap (s.edgeFact? · block)
        else (g.predecessorsOf block).filterMap (s.edgeFact? · block)), P f := by
    have harriving : ∀ f ∈ (g.predecessorsOf block).filterMap (s.edgeFact? · block), P f := by
      intro f hf
      obtain ⟨p, -, hp⟩ := List.mem_filterMap.mp hf
      exact hs.of_edgeFact? hp
    split
    · exact List.forall_mem_cons.mpr ⟨ha.initial, harriving⟩
    · exact harriving
  unfold Checked.input Solving.input
  apply (gives_getD (hg.table ▸ hblock) []).bind
  intro _
  dsimp only
  change ∀ f ∈ (if block = g.entry then _ else _), P f at hall
  unfold FlowGraph.predecessorsOf at hall ⊢
  generalize (if block = g.entry then _ else _ : List Fact) = facts at hall ⊢
  cases facts with
  | nil => exact .pure ha.bottom
  | cons first rest =>
      rw [List.forall_mem_cons] at hall
      exact Gives.foldlM (fun f hf x hx => ha.join hf (hall.2 x hx)) hall.1

theorem gives_propagate (ha : a'.Covers a g P Q) (hranks : ranks.size = g.size)
    (source : BlockId) {edge : BlockId × Fact} (hedge : edge.1 < g.size ∧ P edge.2) :
    Gives (Checked.propagate a a' ranks source s edge) (s.propagate a ranks source edge)
      (Within g P Q) := by
  unfold Checked.propagate Solving.propagate
  cases hold : s.edgeFact? source edge.1 with
  | none => exact (hs.setEdgeFact hedge.2).gives_await hranks hedge.1
  | some old =>
      apply (ha.join (hs.of_edgeFact? hold) hedge.2).bind
      intro hmerged
      dsimp only
      split
      · exact .pure hs
      · exact (hs.setEdgeFact hmerged).gives_await hranks hedge.1

theorem gives_revisit (hranks : ranks.size = g.size) (hblock : block < g.size) :
    Gives (Checked.revisit ranks s block) (s.revisit ranks block) (Within g P Q) := by
  unfold Checked.revisit Solving.revisit
  apply (gives_getD (hs.statuses ▸ hblock) .unvisited).bind
  intro _
  split
  · exact .pure hs
  · exact hs.gives_await hranks hblock

theorem gives_reproduces (hblock : block < g.size) (output : Fact) :
    Gives (Checked.reproduces a s block output) (s.reproduces a block output) fun _ => True := by
  unfold Checked.reproduces Solving.reproduces
  apply (gives_getD (hs.outSize ▸ hblock) none).bind
  intro _
  cases s.outFacts.getD block none with
  | none => exact .pure trivial
  | some old => exact .pure trivial

theorem delivers_visit (ha : a'.Covers a g P Q) (hg : g.Closed) (hranks : ranks.size = g.size)
    (hblock : block < g.size) :
    Delivers (Checked.visit a a' g ranks s block) (s.visit a g ranks block) (Within g P Q) := by
  unfold Checked.visit Solving.visit
  apply (gives_getD (hranks ▸ hblock) 0).access
  intro _
  apply (hs.gives_input ha hg hblock).access
  intro hinput
  apply (ha.transfer hs.state hblock hinput).bind
  rintro ⟨result, state⟩ ⟨houtput, hedges, hrevisit, hstate⟩
  apply Gives.succeeds
  unfold Checked.record
  apply (hs.gives_reproduces hblock result.output).bind
  intro _
  have hlt : block < s.statuses.size := hs.statuses ▸ hblock
  apply (gives_write hlt _).bind
  intro _
  have hvisited (status : BlockStatus) (last : Option Nat) (visits rounds : Nat) :
      Within g P Q { s with
        statuses := s.statuses.setIfInBounds block status
        lastRank := last
        visits := visits
        rounds := rounds
        log := ⟨block, result.output, status⟩ :: s.log
        state := state } := {
    hs with
    statuses := Array.size_setIfInBounds.trans hs.statuses
    log := List.forall_mem_cons.mpr ⟨houtput, hs.log⟩
    state := hstate }
  apply (Gives.foldlM (fun t ht edge hedge =>
    ht.gives_propagate ha hranks block (hedges edge hedge)) (hvisited _ _ _ _)).bind
  intro hsent
  apply (Gives.foldlM (fun t ht b hb => ht.gives_revisit hranks (hrevisit b hb)) hsent).bind
  intro hawaited
  have hltIn := hawaited.inSize ▸ hblock
  apply (gives_write hltIn _).bind
  intro hin
  have hltOut := hawaited.outSize ▸ hblock
  apply (gives_write hltOut _).bind
  intro hout
  exact .pure {
    hawaited with
    inSize := hin.trans hawaited.inSize
    outSize := hout.trans hawaited.outSize
    ins := holds_write hawaited.ins hinput
    outs := holds_write hawaited.outs houtput }

theorem delivers_run (ha : a'.Covers a g P Q) (hg : g.Closed) (hranks : ranks.size = g.size)
    (limit remaining : Nat) :
    Delivers (Checked.runWorklist a a' g ranks limit remaining s)
      (Solving.run a g ranks limit remaining s) (Within g P Q) := by
  induction remaining generalizing s with
  | zero =>
      unfold Checked.runWorklist Solving.run
      cases s.worklist with
      | nil => exact .ok hs
      | cons block rest => exact .error _
  | succ left ih =>
      unfold Checked.runWorklist Solving.run
      cases hworklist : s.worklist with
      | nil => exact .ok hs
      | cons block rest =>
          have hwaiting := hs.worklist
          rw [hworklist, List.forall_mem_cons] at hwaiting
          have hpopped : Within g P Q { s with worklist := rest } :=
            { hs with worklist := hwaiting.2 }
          have hall := (hpopped.delivers_visit ha hg hranks hwaiting.1).bind
            fun next hnext => ih hnext
          dsimp only
          cases hvisit : { s with worklist := rest }.visit a g ranks block with
          | error e => rwa [hvisit] at hall
          | ok next => rwa [hvisit] at hall

theorem result (record : Bool) : (s.result record).All P where
  ins := hs.ins
  outs := hs.outs
  edges := hs.edges
  history log hlog v hv := by
    cases record with
    | false => cases hlog
    | true =>
        cases hlog
        exact hs.log v (List.mem_reverse.mp hv)

end Within

theorem gives_start (hg : g.Closed) (hranks : ranks.size = g.size) {st : σ} (hst : Q st) :
    Gives (Checked.start g ranks st) (start g st : Solving Fact σ) (Within g P Q) := by
  unfold Checked.start
  apply (gives_getD (hranks ▸ hg.entry) 0).bind
  intro _
  rw [write_eq (by simpa using hg.entry)]
  refine .pure {
    inSize := Array.size_replicate
    outSize := Array.size_replicate
    statuses := Array.size_setIfInBounds.trans Array.size_replicate
    worklist := by simpa [start] using hg.entry
    ins := fun {b f} hf => ?_
    outs := fun {b f} hf => ?_
    edges := by simp [start]
    log := by simp [start]
    state := hst }
  · rw [start, getD_replicate_none] at hf
    cases hf
  · rw [start, getD_replicate_none] at hf
    cases hf

end Solving

open Checked in
/-- The solver accesses no table out of range, and every fact of a fixpoint is one that the
analysis may send. -/
theorem CheckedAnalysis.Covers.delivers_solve {Fact σ : Type} {a : DataflowAnalysis Fact σ}
    {a' : CheckedAnalysis Fact σ} {g : FlowGraph} {P : Fact → Prop} {Q : σ → Prop}
    (ha : a'.Covers a g P Q) (hg : g.Closed) (limit : Nat) (record : Bool) {st : σ}
    (hst : Q st) :
    Delivers (Checked.solve a a' g limit record st) (solve a g limit record st)
      fun r => r.1.All P ∧ Q r.2 := by
  apply hg.gives_ranks.access
  intro hranks
  apply (Solving.gives_start hg hranks hst).access
  intro hstart
  apply (hstart.delivers_run ha hg hranks limit limit).bind
  intro s hs
  exact .ok ⟨hs.result record, hs.state⟩

end FlowTyping
