import FlowTyping.Json.Shape

/-!
Settings of an analysis, and of a batch of analyses.
-/

namespace FlowTyping

open Json (defaulted nullable)

structure AnalysisSettings where
  maxBlockVisits : Option Nat
  recordHistory : Bool
  checkUnreachable : Bool
  deriving DecidableEq, Repr

namespace AnalysisSettings

def standard : AnalysisSettings := ⟨none, false, false⟩

def read? (v : Json) : Option AnalysisSettings := do
  let r ← v.record? ["max_block_visits", "record_history", "check_unreachable"]
  return {
    maxBlockVisits := ← nullable Json.unsigned? (r "max_block_visits")
    recordHistory := ← defaulted Json.bool? false (r "record_history")
    checkUnreachable := ← defaulted Json.bool? false (r "check_unreachable") }

def write (s : AnalysisSettings) : Json :=
  .obj [("max_block_visits", .ofOption .nat s.maxBlockVisits),
    ("record_history", .bool s.recordHistory), ("check_unreachable", .bool s.checkUnreachable)]

/-- The greatest count. -/
def countLimit : Nat := Nat.pow 2 64 - 1

/-- The number of block visits after which a unit is given up: the given one, or one
that grows with the unit and with the height of the hierarchy. -/
def visitLimit (s : AnalysisSettings) (blocks nodes height : Nat) : Nat :=
  s.maxBlockVisits.getD (min countLimit (blocks * (height + 1) * (nodes + 2)))

end AnalysisSettings

/-- Settings of a batch. Units are independent, so analysing them side by side or one
after another gives the same report. -/
structure BatchSettings where
  parallel : Bool
  analysis : AnalysisSettings
  deriving DecidableEq, Repr

namespace BatchSettings

def standard : BatchSettings := ⟨true, .standard⟩

def read? (v : Json) : Option BatchSettings := do
  let r ← v.record? ["parallel", "analysis"]
  return {
    parallel := ← defaulted Json.bool? true (r "parallel")
    analysis := ← defaulted AnalysisSettings.read? .standard (r "analysis") }

def write (s : BatchSettings) : Json :=
  .obj [("parallel", .bool s.parallel), ("analysis", s.analysis.write)]

end BatchSettings

end FlowTyping
