import FlowTyping.Flow.Analysis
import FlowTyping.Number.Double

/-!
Durations: whole nanoseconds, shown in the largest unit that they fill.
-/

namespace FlowTyping

structure Duration where
  nanoseconds : Nat
  deriving DecidableEq, Repr

namespace Duration

def seconds (d : Duration) : Nat := d.nanoseconds / 1000000000

/-- What is left over whole seconds. -/
def remainder (d : Duration) : Nat := d.nanoseconds % 1000000000

/-- The largest unit that the duration fills, in nanoseconds, and its sign. -/
def unit (d : Duration) : Nat × String :=
  if 1000000000 ≤ d.nanoseconds then (1000000000, "s")
  else if 1000000 ≤ d.nanoseconds then (1000000, "ms")
  else if 1000 ≤ d.nanoseconds then (1000, "µs")
  else (1, "ns")

/-- The duration with two decimals. The unit is chosen before rounding. -/
def text (d : Duration) : String :=
  Double.Ratio.fixed 2 ⟨d.nanoseconds, d.unit.1⟩ ++ d.unit.2

end Duration

/-!
Numbers about a batch of analyses.
-/

open Json (required)

/-- Units counted by how often their blocks were visited on average: at most once,
at most twice, at most four times, more. -/
structure VisitDistribution where
  singlePass : Nat
  few : Nat
  many : Nat
  excessive : Nat
  deriving DecidableEq, Repr

namespace VisitDistribution

def empty : VisitDistribution := ⟨0, 0, 0, 0⟩

/-- Counts a unit. A unit without blocks counts as one block. -/
def add (d : VisitDistribution) (visits blocks : Nat) : VisitDistribution :=
  let blocks := max blocks 1
  if visits ≤ blocks then { d with singlePass := d.singlePass + 1 }
  else if visits ≤ 2 * blocks then { d with few := d.few + 1 }
  else if visits ≤ 4 * blocks then { d with many := d.many + 1 }
  else { d with excessive := d.excessive + 1 }

def total (d : VisitDistribution) : Nat := d.singlePass + d.few + d.many + d.excessive

def read? (v : Json) : Option VisitDistribution := do
  let r ← v.record? ["single_pass", "few", "many", "excessive"]
  return {
    singlePass := ← required Json.unsigned? (r "single_pass")
    few := ← required Json.unsigned? (r "few")
    many := ← required Json.unsigned? (r "many")
    excessive := ← required Json.unsigned? (r "excessive") }

def write (d : VisitDistribution) : Json :=
  .obj [("single_pass", .nat d.singlePass), ("few", .nat d.few), ("many", .nat d.many),
    ("excessive", .nat d.excessive)]

end VisitDistribution

namespace Duration

/-- A duration of which the seconds are a count of 64 bits. -/
def read? (v : Json) : Option Duration := do
  let r ← v.record? ["secs", "nanos"]
  let seconds ← required Json.unsigned? (r "secs")
  let rest ← required Json.unsigned? (r "nanos")
  if rest < Nat.pow 2 32 && seconds + rest / 1000000000 < Nat.pow 2 64 then
    some ⟨seconds * 1000000000 + rest⟩
  else none

def write (d : Duration) : Json := .obj [("secs", .nat d.seconds), ("nanos", .nat d.remainder)]

end Duration

structure BatchMetrics where
  units : Nat
  succeeded : Nat
  failed : Nat
  blocks : Nat
  nodes : Nat
  unreachableBlocks : Nat
  blockVisits : Nat
  diagnostics : Nat
  elapsed : Duration
  visits : VisitDistribution
  deriving DecidableEq, Repr

namespace BatchMetrics

def start (elapsed : Duration) : BatchMetrics :=
  { units := 0, succeeded := 0, failed := 0, blocks := 0, nodes := 0, unreachableBlocks := 0,
    blockVisits := 0, diagnostics := 0, elapsed, visits := .empty }

/-- Counts the outcome of one unit. -/
def record (m : BatchMetrics) : Except UnitError AnalyzedUnit → BatchMetrics
  | .error _ => { m with units := m.units + 1, failed := m.failed + 1 }
  | .ok a =>
      { m with
        units := m.units + 1
        succeeded := m.succeeded + 1
        blocks := m.blocks + a.graph.size
        nodes := m.nodes + a.graph.nodeCount
        unreachableBlocks := m.unreachableBlocks + a.graph.unreachable.length
        blockVisits := m.blockVisits + a.fixpoint.visits
        diagnostics := m.diagnostics + a.diagnostics.length
        visits := m.visits.add a.fixpoint.visits a.graph.size }

def collect (outcomes : List (Except UnitError AnalyzedUnit)) (elapsed : Duration) :
    BatchMetrics :=
  outcomes.foldl record (start elapsed)

/-- The quotient of two counts that are first made doubles; zero over nothing. -/
def visitRatio (visits blocks : Nat) : Double :=
  if blocks = 0 then .ofNat 0
  else .ofRatio false ((Double.ofNat visits).magnitude.div (Double.ofNat blocks).magnitude)

def visitsPerBlock (m : BatchMetrics) : Double := visitRatio m.blockVisits m.blocks

def read? (v : Json) : Option BatchMetrics := do
  let r ← v.record? ["units", "succeeded", "failed", "blocks", "nodes", "unreachable_blocks",
    "block_visits", "diagnostics", "elapsed", "visit_distribution"]
  let count := fun name => required Json.unsigned? (r name)
  return {
    units := ← count "units"
    succeeded := ← count "succeeded"
    failed := ← count "failed"
    blocks := ← count "blocks"
    nodes := ← count "nodes"
    unreachableBlocks := ← count "unreachable_blocks"
    blockVisits := ← count "block_visits"
    diagnostics := ← count "diagnostics"
    elapsed := ← required Duration.read? (r "elapsed")
    visits := ← required VisitDistribution.read? (r "visit_distribution") }

def write (m : BatchMetrics) : Json :=
  .obj [("units", .nat m.units), ("succeeded", .nat m.succeeded), ("failed", .nat m.failed),
    ("blocks", .nat m.blocks), ("nodes", .nat m.nodes),
    ("unreachable_blocks", .nat m.unreachableBlocks), ("block_visits", .nat m.blockVisits),
    ("diagnostics", .nat m.diagnostics), ("elapsed", m.elapsed.write),
    ("visit_distribution", m.visits.write)]

end BatchMetrics

end FlowTyping
