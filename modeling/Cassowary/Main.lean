import Cassowary.Columns.Report

/-!
# The command line

Splits a width into columns and prints where they are.
-/

open Cassowary

/-- The text of a file, if it can be read. -/
def contents? (path : String) : IO (Option String) := do
  try
    return some (← IO.FS.readFile path)
  catch _ =>
    return none

/-- Prints the report that the arguments ask for. The exit code is 1 if there is none, and 2 if the
arguments cannot be read. -/
def main (arguments : List String) : IO UInt32 := do
  match Options.read? arguments with
  | none =>
    IO.eprintln "error: the arguments cannot be read"
    return 2
  | some options =>
    let file ← match options.config with
      | some path => contents? path
      | none => pure none
    match options.report file with
    | .ok text =>
      IO.print text
      return 0
    | .error failure =>
      IO.eprintln failure.message
      return 1
