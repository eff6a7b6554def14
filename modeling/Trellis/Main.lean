import Trellis.Command.Arguments

/-!
# The program

Reads the files that a command line names, carries it out, and prints the result, or the failure
with its cause.
-/
namespace Trellis

/-- The content of a file, if it can be read. -/
def contentOf (path : String) : IO (Option String) := do
  try
    let content ← IO.FS.readFile path
    pure (some content)
  catch _ => pure none

/-- The files of a request with what was read under their paths. -/
def readAll (r : Command.Request) : IO Files := do
  let contents ← r.paths.mapM fun path => do pure (path, ← contentOf path)
  pure fun path => (contents.find? fun p => p.1 == path).bind Prod.snd

/-- Prints a failure and the markup failure behind it. -/
def printFailure (e : CommandError) : IO Unit := do
  IO.eprintln ("Error: " ++ e.message)
  match e.markup? with
  | some cause => IO.eprintln ("\nCaused by:\n    " ++ cause.message)
  | none => pure ()

end Trellis

open Trellis in
/-- Carries a command line out. -/
def main (words : List String) : IO UInt32 := do
  match Command.request? words with
  | none => do
    IO.eprintln Command.usage
    pure 2
  | some r => do
    match r.run (← readAll r) with
    | .ok out => do
      IO.print (if out.endsWith "\n" then out else out ++ "\n")
      pure 0
    | .error e => do
      printFailure e
      pure 1
