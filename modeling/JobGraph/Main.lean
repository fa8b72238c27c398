import JobGraph.CommandLine.Run

/-!
# The program

Reads the files that the arguments name, runs the command and prints what it yields.
-/

namespace JobGraph

/-- What an error of the system says about a file.  Some system calls give the number of the error
with a minus sign, modulo 2 to the 32. -/
def fileErrorOf : IO.Error → FileError
  | .noFileOrDirectory _ _ _ => .notFound
  | .inappropriateType _ code _ => if code = 21 then .isDirectory else .notDirectory
  | .invalidArgument _ code details =>
      if code = 36 || code = 0 - 36 then .nameTooLong else .other details
  | error => .other (toString error)

/-- Reads a file as text. -/
def readTextFile (path : String) : IO (Except FileError String) := do
  try
    return textOfBytes (← IO.FS.readBinFile path)
  catch error => return .error (fileErrorOf error)

/-- Prints a line to the output it is meant for. -/
def printLine : OutputLine → IO Unit
  | .out text => IO.println text
  | .err text => IO.eprintln text

end JobGraph

open JobGraph

/-- The entry point. -/
def main (arguments : List String) : IO UInt32 := do
  let paths :=
    match Command.read arguments with
    | .ok command => command.paths
    | .error _ => []
  let contents ← paths.mapM fun path => return (path, ← readTextFile path)
  let files := fun path => (contents.lookup path).getD (.error .notFound)
  let result := Command.runArguments files arguments
  result.lines.forM printLine
  return UInt32.ofNat result.exitCode
