import Octet.CommandLine

/-!
# The executable

Reads what the command needs, runs it, and writes what it leaves.
-/

open Octet

namespace Octet.CommandLine

/-- The reason that the system gives for a failure. -/
def reasonOf : IO.Error → String
  | .noFileOrDirectory .. => "no such file or directory"
  | .permissionDenied .. => "permission denied"
  | e => toString e

/-- Reads a stream to its end. -/
partial def readAll (stream : IO.FS.Stream) (text : String) : IO String := do
  let line ← stream.getLine
  if line.isEmpty then return text else readAll stream (text ++ line)

/-- The contents of a file, or why it cannot be read. -/
def contents (name : String) : IO (Except String String) := do
  try return .ok (← IO.FS.readFile name)
  catch e => return .error (reasonOf e)

/-- Writes the file that a command leaves; the outcome tells if that is not possible. -/
def deliver (outcome : Outcome) : IO Outcome := do
  match outcome.written with
  | none => return outcome
  | some (name, text) =>
    try
      IO.FS.writeFile name text
      return outcome
    catch e => return outcome.refused "creating" name (reasonOf e)

end Octet.CommandLine

/-- Runs the command. -/
def main (arguments : List String) : IO UInt32 := do
  let stdin ←
    if CommandLine.readsStdin arguments then CommandLine.readAll (← IO.getStdin) "" else pure ""
  let file ← match CommandLine.inputFile? arguments with
    | some name => CommandLine.contents name
    | none => pure (.error "")
  let files : CommandLine.Files := ⟨fun _ => file, .ok⟩
  let outcome ← CommandLine.deliver (CommandLine.run arguments stdin files)
  IO.print outcome.stdout
  IO.eprint outcome.stderr
  match outcome.fault, outcome.error with
  | some fault, _ => do
    IO.eprintln fault.message
    return 2
  | none, some _ => return 1
  | none, none => return 0
