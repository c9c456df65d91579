import TypedLiterals.Generation.Missing
import TypedLiterals.Text.Utf8

/-!
An engine that starts a program for each request.

The program gets the literal on its standard input and its arguments with the placeholders replaced. An
exit status other than zero is a failure, explained by what the program wrote to standard error.
-/

namespace TypedLiterals

/-- How a program ended. -/
inductive Exit where
  | status (code : Nat)
  | signal (number : Nat)
deriving DecidableEq, Repr

namespace Exit

def isSuccess (exit : Exit) : Bool :=
  exit = .status 0

def signalNames : List (Nat × String) :=
  [(1, "SIGHUP"), (2, "SIGINT"), (3, "SIGQUIT"), (4, "SIGILL"), (5, "SIGTRAP"), (6, "SIGABRT"),
   (7, "SIGBUS"), (8, "SIGFPE"), (9, "SIGKILL"), (10, "SIGUSR1"), (11, "SIGSEGV"), (12, "SIGUSR2"),
   (13, "SIGPIPE"), (14, "SIGALRM"), (15, "SIGTERM")]

def text : Exit → String
  | status code => s!"exit status: {code}"
  | signal number =>
    match signalNames.lookup number with
    | some name => s!"signal: {number} ({name})"
    | none => s!"signal: {number}"

end Exit

/-- What a program leaves behind. -/
structure Outcome where
  exit : Exit
  stderr : List UInt8
  disk : Disk

/-- A program by what it does with its arguments, its standard input and the disk. -/
abbrev Program := List String → List UInt8 → Disk → Outcome

/-- The programs that can be started by name, or why one cannot be. -/
abbrev Host := Disk → String → Except Disk.Fault Program

/-- The engine that starts the configured program on a host. -/
def Engine.ofCommand (host : Host) (config : Config.Engine) : Engine := fun request disk =>
  match host disk config.program with
  | .error cause => (.error (.notStarted config.program cause), disk)
  | .ok program =>
    let outcome := program (request.arguments config.args) request.literal.toUTF8.data.toList disk
    if outcome.exit.isSuccess then (.ok (), outcome.disk)
    else
      let stderr := String.ofList (Text.trim (Text.decodeLossy outcome.stderr))
      (.error (.failed outcome.exit.text stderr), outcome.disk)

end TypedLiterals
