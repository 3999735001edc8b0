import FlowTyping.Batch.Report
import FlowTyping.Command.Line
import FlowTyping.Program.Document

/-!
Running commands. Files and time come from an environment, so a run is the same
function wherever they come from.
-/

namespace FlowTyping

/-- Where files and time come from, and whether text may be coloured. -/
structure Environment (m : Type → Type) where
  fileText : String → m (Option String)
  timed : {α : Type} → (Unit → α) → m (α × Duration)
  colored : Bool

/-- What a run leaves: an exit status and what it printed. -/
structure Outcome where
  status : Nat
  output : String
  errors : String
  deriving DecidableEq, Repr

/-- Why a command stopped: what it was doing, and what came in its way. -/
structure Failure where
  context : String
  cause : Option String
  deriving DecidableEq, Repr

namespace Failure

/-- Every line of the cause stands four blanks to the right. -/
def text (f : Failure) : String :=
  "Error: " ++ f.context ++
    (match f.cause with
      | some cause => "\n\nCaused by:\n    " ++ cause.replace "\n" "\n    "
      | none => "") ++ "\n"

end Failure

namespace Outcome

def success (output : String) : Outcome := ⟨0, output, ""⟩

/-- A run that printed its findings, if there were any. -/
def ofFindings (output : String) (findings : Bool) : Outcome :=
  ⟨if findings then 1 else 0, output, ""⟩

def ofFailure (f : Failure) : Outcome := ⟨1, "", f.text⟩

def ofResult : Except Failure Outcome → Outcome
  | .ok outcome => outcome
  | .error f => ofFailure f

end Outcome

namespace Command

variable {m : Type → Type} [Monad m]

/-- What a file declares. A file that cannot be read declares nothing. -/
def load {α : Type} (env : Environment m) (noun path : String)
    (read : String → Except DeclarationError α) : ExceptT Failure m α := do
  let content ← (env.fileText path : m (Option String))
  match content.elim (.error .malformed) read with
  | .ok a => return a
  | .error e => throw ⟨"loading " ++ noun ++ " " ++ path, some e.message⟩

def loadChecker (env : Environment m) (path : String) : ExceptT Failure m Checker :=
  load env "checker" path Checker.ofText

def loadProgram (env : Environment m) (path : String) : ExceptT Failure m Program :=
  load env "program" path (declared Program.read?)

def loadSettings (env : Environment m) : Option String → ExceptT Failure m BatchSettings
  | none => return .standard
  | some path => load env "config" path (declared BatchSettings.read?)

def runCheck (env : Environment m) (checker program : String) (config : Option String)
    (format : OutputFormat) : ExceptT Failure m Outcome := do
  let checker ← loadChecker env checker
  let program ← loadProgram env program
  let settings ← loadSettings env config
  let (outcomes, elapsed) ←
    (env.timed fun _ => checker.analyzeAll settings.analysis program.units :
      m (List (Except UnitError AnalyzedUnit) × Duration))
  let report := BatchReport.ofOutcomes outcomes elapsed
  let output := match format with
    | .text => report.text env.colored
    | .json => (ReportSummary.ofReport report).write.pretty ++ "\n"
  return .ofFindings output report.hasFindings

def runCfg (env : Environment m) (program unit : String) : ExceptT Failure m Outcome := do
  let program ← loadProgram env program
  match program.unit? unit with
  | none => throw ⟨s!"program has no unit named `{unit}`", none⟩
  | some u =>
      match u.lower with
      | .ok g => return .success g.text
      | .error e => throw ⟨s!"building the graph of `{u.name}`", some e.message⟩

def runVerify (env : Environment m) (checker : String) (format : OutputFormat) :
    ExceptT Failure m Outcome := do
  let checker ← loadChecker env checker
  let results := LawCheck.standard.run checker.hierarchy
  let output := match format with
    | .text => lawsText env.colored checker.name results
    | .json => (Json.ofList CheckResult.write results).pretty ++ "\n"
  return .ofFindings output (results.any CheckResult.isViolated)

/-- Runs a command. Units analysed one after another give the same report, so a
sequential run is no different. -/
def run (env : Environment m) : Command → ExceptT Failure m Outcome
  | check checker program config format _ => runCheck env checker program config format
  | cfg program unit => runCfg env program unit
  | verify checker format => runVerify env checker format

/-- Runs what the arguments ask for. -/
def runArguments (env : Environment m) (arguments : List String) : m Outcome :=
  match Request.ofArguments? arguments with
  | none => return ⟨2, "", usageError⟩
  | some .version => return .success versionText
  | some (.help topic) => return .success (helpText topic)
  | some (.run command) => do
      let result ← (command.run env).run
      return .ofResult result

end Command

end FlowTyping
