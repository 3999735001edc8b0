import FlowTyping.Batch.Metrics
import FlowTyping.Laws.Check

/-!
Text in the styles of a terminal. A style holds up to the next reset, so a reset
inside a styled text is followed by the style again.
-/

namespace FlowTyping

inductive Style where
  | bold | green | yellow | boldRed
  deriving DecidableEq, Repr

namespace Style

private def reset : String := "\x1b[0m"

/-- What turns a style on. -/
def opening : Style → String
  | bold => "\x1b[1m"
  | green => "\x1b[32m"
  | yellow => "\x1b[33m"
  | boldRed => "\x1b[1;31m"

/-- A text in a style, or as it is when colours are off. -/
def apply (colored : Bool) (style : Style) (text : String) : String :=
  if colored then
    style.opening ++ text.replace reset (reset ++ style.opening) ++ reset
  else text

end Style

/-!
Reports on batches: the outcome of every unit in order, and their summary as a
document.
-/

open Json (required nullable list?)

structure BatchReport where
  outcomes : List (Except UnitError AnalyzedUnit)
  metrics : BatchMetrics

structure UnitSummary where
  name : String
  error : Option String
  blocks : Nat
  visits : Nat
  diagnostics : List Diagnostic
  deriving DecidableEq, Repr

structure ReportSummary where
  units : List UnitSummary
  metrics : BatchMetrics
  deriving DecidableEq, Repr

/-- The outcome of every unit. A unit that fails concerns no other one. -/
def Checker.analyzeAll (c : Checker) (s : AnalysisSettings) (units : List ProgramUnit) :
    List (Except UnitError AnalyzedUnit) :=
  units.map (c.analyze s)

namespace BatchReport

def ofOutcomes (outcomes : List (Except UnitError AnalyzedUnit)) (elapsed : Duration) :
    BatchReport :=
  ⟨outcomes, .collect outcomes elapsed⟩

def analyzed (r : BatchReport) : List AnalyzedUnit :=
  r.outcomes.filterMap fun
    | .ok a => some a
    | .error _ => none

def failures (r : BatchReport) : List UnitError :=
  r.outcomes.filterMap fun
    | .ok _ => none
    | .error e => some e

/-- Every diagnostic with the name of its unit. -/
def diagnostics (r : BatchReport) : List (String × Diagnostic) :=
  r.analyzed.flatMap fun a => a.diagnostics.map fun d => (a.name, d)

/-- Whether a unit failed or has a diagnostic. -/
def hasFindings (r : BatchReport) : Bool := 0 < r.metrics.failed || 0 < r.metrics.diagnostics

end BatchReport

namespace UnitSummary

def ofOutcome : Except UnitError AnalyzedUnit → UnitSummary
  | .ok a => ⟨a.name, none, a.graph.size, a.fixpoint.visits, a.diagnostics⟩
  | .error e => ⟨e.unit, some e.message, 0, 0, []⟩

def read? (v : Json) : Option UnitSummary := do
  let r ← v.record? ["name", "error", "blocks", "visits", "diagnostics"]
  return {
    name := ← required Json.string? (r "name")
    error := ← nullable Json.string? (r "error")
    blocks := ← required Json.unsigned? (r "blocks")
    visits := ← required Json.unsigned? (r "visits")
    diagnostics := ← required (list? Diagnostic.read?) (r "diagnostics") }

/-- A summary has a field for the error only if there is one. -/
def write (s : UnitSummary) : Json :=
  .obj ([("name", .str s.name)] ++ s.error.toList.map (fun e => ("error", .str e)) ++
    [("blocks", .nat s.blocks), ("visits", .nat s.visits),
      ("diagnostics", .ofList Diagnostic.write s.diagnostics)])

end UnitSummary

namespace ReportSummary

def ofReport (r : BatchReport) : ReportSummary :=
  ⟨r.outcomes.map UnitSummary.ofOutcome, r.metrics⟩

def read? (v : Json) : Option ReportSummary := do
  let r ← v.record? ["units", "metrics"]
  return {
    units := ← required (list? UnitSummary.read?) (r "units")
    metrics := ← required BatchMetrics.read? (r "metrics") }

def write (s : ReportSummary) : Json :=
  .obj [("units", .ofList UnitSummary.write s.units), ("metrics", s.metrics.write)]

end ReportSummary

/-!
Reports as text for a terminal.
-/

/-- A count with its noun. -/
def counted (count : Nat) (noun : String) : String :=
  if count = 1 then s!"{count} {noun}" else s!"{count} {noun}s"

namespace BatchReport

def unitLines (colored : Bool) : Except UnitError AnalyzedUnit → String
  | .ok a =>
      let status :=
        if a.diagnostics.isEmpty then Style.green.apply colored "ok"
        else Style.yellow.apply colored (counted a.diagnostics.length "diagnostic")
      let shape := "(" ++ counted a.graph.size "block" ++ ", " ++
        counted a.fixpoint.visits "visit" ++ ")"
      let head := Style.bold.apply colored "unit" ++ " " ++ Style.bold.apply colored a.name
      let errors := a.diagnostics.map fun d =>
        "  " ++ Style.boldRed.apply colored "error" ++ ": " ++ d.text ++ "\n"
      head ++ ": " ++ status ++ " " ++ shape ++ "\n" ++ String.join errors
  | .error e =>
      Style.bold.apply colored "unit" ++ " " ++ Style.bold.apply colored e.unit ++ ": " ++
        Style.boldRed.apply colored "failed:" ++ " " ++ e.message ++ "\n"

/-- A line for each unit, one for each of its diagnostics, and the totals. -/
def text (colored : Bool) (r : BatchReport) : String :=
  let m := r.metrics
  let totals := counted m.units "unit" ++ s!", {m.failed} failed, " ++
    counted m.diagnostics "diagnostic"
  String.join (r.outcomes.map (unitLines colored)) ++
    Style.bold.apply colored "summary" ++ ": " ++ totals ++ " in " ++ m.elapsed.text ++ "\n"

end BatchReport

/-- The results of a check of the lattice laws of a checker. -/
def lawsText (colored : Bool) (checker : String) (results : List CheckResult) : String :=
  let line := fun (r : CheckResult) =>
    let mark := if r.isViolated then Style.boldRed.apply colored "FAIL"
      else Style.green.apply colored "ok"
    "  [" ++ mark ++ "] " ++ r.text ++ "\n"
  Style.bold.apply colored "lattice laws of" ++ " " ++ Style.bold.apply colored checker ++
    "\n" ++ String.join (results.map line)

end FlowTyping
