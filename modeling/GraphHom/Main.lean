import GraphHom.CommandLine.Run

/-!
# The program

Reads the file that the arguments name, runs the command and writes its output.
-/

open GraphHom

/-- The text of a file, unless it cannot be read. -/
def readText (file : String) : IO (Option String) :=
  try some <$> IO.FS.readFile file catch _ => return none

/-- The program. -/
def main (args : List String) : IO UInt32 := do
  let output ← match CommandLine.Command.ofArguments args with
    | .error stop => pure stop.output
    | .ok command => command.run <$> readText command.file
  IO.print output.stdout
  IO.eprint output.stderr
  return output.code
