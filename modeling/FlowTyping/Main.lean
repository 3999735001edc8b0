import FlowTyping.Command.Run

/-!
The program: the command line in front of the file system, the clock and the
terminal.
-/

open FlowTyping

/-- The text of a file, if it can be read as text. -/
def readText (path : String) : IO (Option String) := do
  try
    let content ← IO.FS.readFile path
    return some content
  catch _ => return none

/-- A value and the time that it took. -/
def measured {α : Type} (f : Unit → α) : IO (α × Duration) := do
  let start ← IO.monoNanosNow
  let value ← (pure (f ()) : IO α)
  let stop ← IO.monoNanosNow
  return (value, ⟨stop - start⟩)

/-- Colours are forced on or off by the environment, and else follow the terminal. -/
def wantsColor : IO Bool := do
  let forced ← IO.getEnv "CLICOLOR_FORCE"
  let refused ← IO.getEnv "NO_COLOR"
  let chosen ← IO.getEnv "CLICOLOR"
  let terminal ← (← IO.getStdout).isTty
  if forced.any (· ≠ "0") then return true
  else if refused.isSome then return false
  else return terminal && chosen ≠ some "0"

def main (arguments : List String) : IO UInt32 := do
  let env : Environment IO := ⟨readText, measured, ← wantsColor⟩
  let outcome ← Command.runArguments env arguments
  (← IO.getStdout).putStr outcome.output
  (← IO.getStderr).putStr outcome.errors
  return outcome.status.toUInt32
