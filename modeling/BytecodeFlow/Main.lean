import BytecodeFlow.CommandLine.Run

/-!
# The command

Runs the command line on the files of the system: the report goes to the standard output, and
notices, failures and refusals go to the standard error.
-/

namespace BytecodeFlow.CommandLine

/-- A reason with the number that the system gives it. -/
def numberedReason (code : UInt32) (details : String) : String :=
  details ++ " (os error " ++ toString code ++ ")"

/-- The reason that the system gives for a failure. -/
def systemReason (e : IO.Error) : String :=
  match e with
  | .noFileOrDirectory _ code details => numberedReason code details
  | .permissionDenied _ code details => numberedReason code details
  | .inappropriateType _ code details => numberedReason code details
  | .otherError code details => numberedReason code details
  | other => toString other

/-- The result of an action, or the reason why it has none. -/
def attempt {α : Type} (action : IO α) : IO (Except String α) := do
  try
    return .ok (← action)
  catch e => return .error (systemReason e)

/-- The files of the system as the surroundings of a run.  What can be read is a file. -/
def system : Host IO where
  isFile path := do return (← attempt (IO.FS.readBinFile path)).isOk
  read path := attempt (IO.FS.readBinFile path)
  write path text := attempt (IO.FS.writeFile path text)

end BytecodeFlow.CommandLine

open BytecodeFlow.CommandLine

/-- Runs the command with its arguments. -/
def main (arguments : List String) : IO UInt32 := do
  let outcome ← run system arguments
  for notice in outcome.notices do
    IO.eprintln ("WARN " ++ notice.message)
  if let some failure := outcome.failure then IO.eprint failure.text
  if let some refusal := outcome.refusal then IO.eprintln ("error: " ++ refusal.message)
  IO.print outcome.printed
  return UInt32.ofNat outcome.code
