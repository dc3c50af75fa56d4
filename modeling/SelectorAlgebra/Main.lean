import SelectorAlgebra.CommandLine.Run

/-!
# Main — the program
-/

namespace SelectorAlgebra

/-- The text of a file, unless it cannot be read. -/
def readText (path : String) : IO (Option String) := do
  try return some (← IO.FS.readFile path) catch _ => return none

/-- The files that the arguments name, with their texts. -/
def readFiles (arguments : List String) : IO (List (String × Option String)) :=
  match Invocation.parse arguments with
  | .error _ => return []
  | .ok i => (i.command.operands.filterMap operandPath?).mapM fun path => do
    return (path, ← readText path)

end SelectorAlgebra

open SelectorAlgebra in
/-- Runs one command on selectors and prints what it comes to. -/
def main (arguments : List String) : IO UInt32 := do
  let files ← readFiles arguments
  let outcome := run (fun path => (files.lookup path).join) arguments
  IO.print outcome.stdout
  IO.eprint outcome.stderr
  return outcome.code.toUInt32
