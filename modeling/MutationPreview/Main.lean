import MutationPreview.Command.Session

/-!
# The command

Reads what the command line may need, asks the library for the outcome, and prints it.
-/

open MutationPreview MutationPreview.Command

/-- The fault that an error of the system stands for. -/
def faultOf : IO.Error → ReadFault
  | .noFileOrDirectory .. => .missing
  | .inappropriateType _ 21 _ => .directory
  | .inappropriateType _ 20 _ => .notDirectory
  | e => .other (toString e).toList

/-- The text of a file. -/
def readPath (path : Text) : IO (Except ReadFault Text) := do
  try
    return .ok (← IO.FS.readFile (String.ofList path)).toList
  catch e => return .error (faultOf e)

/-- All of a stream. -/
partial def readAll (stream : IO.FS.Stream) (before : String) : IO String := do
  let next ← stream.getLine
  if next.isEmpty then return before else readAll stream (before ++ next)

/-- The directory of the user's configuration. -/
def userConfigDir : IO (Option Text) := do
  match ← IO.getEnv "XDG_CONFIG_HOME", ← IO.getEnv "HOME" with
  | some dir, home =>
    if dir.startsWith "/" then return some dir.toList
    else return home.map fun dir => (dir ++ "/.config").toList
  | none, some dir => return some (dir ++ "/.config").toList
  | none, none => return none

/-- What an invocation can see. -/
def surroundingsOf (invocation : Invocation) : IO Surroundings := do
  let configDir ← userConfigDir
  let files ← (invocation.paths configDir).mapM fun path => do return (path, ← readPath path)
  let input ← if invocation.wantsInput then readAll (← IO.getStdin) "" else pure ""
  return {
    read := fun path => (files.lookup path).getD (.error .missing)
    input := input.toList
    identifier := (← IO.getEnv "DML_PREVIEW_ID").map String.toList
    configDir }

/-- Carries out a command line. -/
def main (args : List String) : IO UInt32 := do
  let outcome ← match Invocation.read (args.map String.toList) with
    | .error stop => pure stop.outcome
    | .ok invocation => do pure (invocation.run (← surroundingsOf invocation))
  (← IO.getStdout).putStr (String.ofList outcome.stdout)
  (← IO.getStderr).putStr (String.ofList outcome.stderr)
  return UInt32.ofNat outcome.exit
