import TypedLiterals.CommandLine.Snapshot
import TypedLiterals.Shell.Run

/-!
The program: it reads a project from standard input, carries out the command given by its arguments on
it, and prints what came of it.
-/

namespace TypedLiterals

/-- The environment variables that a command looks at. -/
def readEnvironment : IO (String → Option String) := do
  let found ← CommandLine.environmentNames.mapM fun entry => return (entry.2, ← IO.getEnv entry.2)
  return fun name => (found.lookup name).join

end TypedLiterals

def main (arguments : List String) : IO UInt32 := do
  let document ← (← IO.getStdin).readToEnd
  let environment ← TypedLiterals.readEnvironment
  match TypedLiterals.CommandLine.Snapshot.answer? environment TypedLiterals.Shell.host arguments
    document with
  | some (code, text) =>
    IO.println text
    return code.toUInt32
  | none =>
    IO.eprintln "the project on standard input is no JSON object"
    return 2
