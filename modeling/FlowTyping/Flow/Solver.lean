import FlowTyping.Flow.Error
import FlowTyping.Graph.Basic

/-!
Fixpoints of forward analyses. Blocks wait in reverse postorder; the fact of an edge
is joined into what it was, so facts only grow, and a block waits again only when
something that it reads has changed.
-/

namespace FlowTyping

/-- What a visit of a block gives: the fact after it, the facts sent along its edges,
and other blocks that read something that the visit changed. -/
structure BlockTransfer (Fact : Type) where
  output : Fact
  edges : List (BlockId × Fact)
  revisit : List BlockId

/-- A forward analysis with facts of one type and a state that its transfer carries
from visit to visit. -/
structure DataflowAnalysis (Fact σ : Type) where
  initial : Fact
  bottom : Fact
  join : Fact → Fact → Fact
  same : Fact → Fact → Bool
  transfer : σ → BlockId → Fact → Except AnalysisError (BlockTransfer Fact × σ)

/-- `changed` and `stable` tell whether the last visit gave a new output. -/
inductive BlockStatus where
  | unvisited | pending | changed | stable
  deriving DecidableEq, Repr, Inhabited

def BlockStatus.name : BlockStatus → String
  | unvisited => "Unvisited"
  | pending => "Pending"
  | changed => "Changed"
  | stable => "Stable"

/-- A visit as it is kept in a history. -/
structure Visit (Fact : Type) where
  block : BlockId
  output : Fact
  status : BlockStatus

/-- The state of a solver. Visits are listed last one first. -/
structure Solving (Fact σ : Type) where
  inFacts : Array (Option Fact)
  outFacts : Array (Option Fact)
  edgeFacts : List ((BlockId × BlockId) × Fact)
  statuses : Array BlockStatus
  worklist : List BlockId
  lastRank : Option Nat
  visits : Nat
  rounds : Nat
  log : List (Visit Fact)
  state : σ

structure Fixpoint (Fact : Type) where
  inFacts : Array (Option Fact)
  outFacts : Array (Option Fact)
  edgeFacts : List ((BlockId × BlockId) × Fact)
  visits : Nat
  rounds : Nat
  statuses : Array BlockStatus
  history : Option (List (Visit Fact))

namespace Fixpoint

variable {Fact : Type}

/-- The fact before a block, none if it was never visited. -/
def inFact (r : Fixpoint Fact) (block : BlockId) : Option Fact := r.inFacts.getD block none

def outFact (r : Fixpoint Fact) (block : BlockId) : Option Fact := r.outFacts.getD block none

def status (r : Fixpoint Fact) (block : BlockId) : BlockStatus :=
  r.statuses.getD block .unvisited

end Fixpoint

/-- The places of blocks in reverse postorder. Blocks that no path reaches share the
last place. -/
def FlowGraph.ranks (g : FlowGraph) : Array Nat :=
  let order := g.reversePostorder
  (Array.range g.size).map order.idxOf

namespace Solving

variable {Fact σ : Type}

/-- The entry waits for its first visit. -/
def start (g : FlowGraph) (state : σ) : Solving Fact σ where
  inFacts := Array.replicate g.size none
  outFacts := Array.replicate g.size none
  edgeFacts := []
  statuses := (Array.replicate g.size .unvisited).setIfInBounds g.entry .pending
  worklist := [g.entry]
  lastRank := none
  visits := 0
  rounds := 0
  log := []
  state := state

/-- Places a block in the worklist by rank and then by id, once. -/
def schedule (ranks : Array Nat) (block : BlockId) : List BlockId → List BlockId
  | [] => [block]
  | other :: rest =>
      let place := (ranks.getD block 0, block)
      let taken := (ranks.getD other 0, other)
      if place = taken then other :: rest
      else if place.1 < taken.1 || (place.1 = taken.1 && place.2 < taken.2) then
        block :: other :: rest
      else other :: schedule ranks block rest

/-- Marks a block as waiting. -/
def await (ranks : Array Nat) (s : Solving Fact σ) (block : BlockId) : Solving Fact σ :=
  { s with
    worklist := schedule ranks block s.worklist
    statuses := s.statuses.setIfInBounds block .pending }

def edgeFact? (s : Solving Fact σ) (source target : BlockId) : Option Fact :=
  (s.edgeFacts.find? fun e => e.1 = (source, target)).map Prod.snd

def setEdgeFact (s : Solving Fact σ) (source target : BlockId) (fact : Fact) :
    Solving Fact σ :=
  { s with
    edgeFacts :=
      ((source, target), fact) :: s.edgeFacts.filter fun e => e.1 ≠ (source, target) }

/-- The join of the facts on the edges into a block, and of the initial fact at the
entry. -/
def input (a : DataflowAnalysis Fact σ) (g : FlowGraph) (s : Solving Fact σ)
    (block : BlockId) : Fact :=
  let arriving := (g.predecessorsOf block).filterMap fun p => s.edgeFact? p block
  let facts := if block = g.entry then a.initial :: arriving else arriving
  match facts with
  | [] => a.bottom
  | first :: rest => rest.foldl a.join first

/-- Joins a fact into its edge. The target waits if that changes the edge. -/
def propagate (a : DataflowAnalysis Fact σ) (ranks : Array Nat) (source : BlockId)
    (s : Solving Fact σ) (edge : BlockId × Fact) : Solving Fact σ :=
  match s.edgeFact? source edge.1 with
  | none => (s.setEdgeFact source edge.1 edge.2).await ranks edge.1
  | some old =>
      let merged := a.join old edge.2
      if a.same merged old then s else (s.setEdgeFact source edge.1 merged).await ranks edge.1

/-- A block that was visited before waits again. -/
def revisit (ranks : Array Nat) (s : Solving Fact σ) (block : BlockId) : Solving Fact σ :=
  if s.statuses.getD block .unvisited = .unvisited then s else s.await ranks block

/-- Whether the next visit begins a new pass over the order. -/
def beginsRound (s : Solving Fact σ) (rank : Nat) : Bool :=
  match s.lastRank with
  | none => true
  | some last => rank ≤ last

/-- Whether a visit reproduced the output of the one before. -/
def reproduces (a : DataflowAnalysis Fact σ) (s : Solving Fact σ) (block : BlockId)
    (output : Fact) : Bool :=
  match s.outFacts.getD block none with
  | some old => a.same old output
  | none => false

/-- The visit of a block that has been taken from the worklist. -/
def visit (a : DataflowAnalysis Fact σ) (g : FlowGraph) (ranks : Array Nat)
    (s : Solving Fact σ) (block : BlockId) : Except AnalysisError (Solving Fact σ) := do
  let rank := ranks.getD block 0
  let input := s.input a g block
  let (result, state) ← a.transfer s.state block input
  let status := if s.reproduces a block result.output then .stable else .changed
  let visited : Solving Fact σ :=
    { s with
      statuses := s.statuses.setIfInBounds block status
      lastRank := some rank
      visits := s.visits + 1
      rounds := if s.beginsRound rank then s.rounds + 1 else s.rounds
      log := ⟨block, result.output, status⟩ :: s.log
      state }
  let sent := result.edges.foldl (propagate a ranks block) visited
  let awaited := result.revisit.foldl (revisit ranks) sent
  return { awaited with
    inFacts := awaited.inFacts.setIfInBounds block (some input)
    outFacts := awaited.outFacts.setIfInBounds block (some result.output) }

/-- Visits waiting blocks until none is left, at most as often as the limit allows. -/
def run (a : DataflowAnalysis Fact σ) (g : FlowGraph) (ranks : Array Nat) (limit : Nat) :
    Nat → Solving Fact σ → Except AnalysisError (Solving Fact σ)
  | remaining, s =>
      match s.worklist with
      | [] => .ok s
      | block :: rest =>
          match remaining with
          | 0 => .error (.visitLimit limit)
          | left + 1 =>
              match { s with worklist := rest }.visit a g ranks block with
              | .error e => .error e
              | .ok next => run a g ranks limit left next

/-- A block that changed last is stable once nothing waits any more. -/
def settle : BlockStatus → BlockStatus
  | .changed => .stable
  | status => status

def result (s : Solving Fact σ) (recordHistory : Bool) : Fixpoint Fact where
  inFacts := s.inFacts
  outFacts := s.outFacts
  edgeFacts := s.edgeFacts
  visits := s.visits
  rounds := s.rounds
  statuses := s.statuses.map settle
  history := if recordHistory then some s.log.reverse else none

end Solving

/-- The fixpoint of an analysis within a number of block visits, and the state that
its last visit left. -/
def solve {Fact σ : Type} (a : DataflowAnalysis Fact σ) (g : FlowGraph) (maxVisits : Nat)
    (recordHistory : Bool) (state : σ) : Except AnalysisError (Fixpoint Fact × σ) := do
  let s ← Solving.run a g g.ranks maxVisits maxVisits (.start g state)
  return (s.result recordHistory, s.state)

end FlowTyping
