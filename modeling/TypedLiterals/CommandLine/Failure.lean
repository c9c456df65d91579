import TypedLiterals.Project

/-!
Failures of a command as they are reported: a headline, and the chain of causes below it.
-/

namespace TypedLiterals

/-- The causes of an engine failure. -/
def Engine.Error.causes : Engine.Error → List String
  | notStarted _ cause => [cause.message]
  | fault cause => [cause.message]
  | failed .. => []
  | other _ => []

/-- The causes behind an error of the configuration, nearest first. -/
def Config.Error.causes : Config.Error → List String
  | unreadable _ cause => [cause]
  | _ => []

/-- The causes of an error of a project, nearest first. -/
def Project.Error.causes : Project.Error → List String
  | config cause => cause.message :: cause.causes
  | relativeWorkingDir _ => []
  | io _ cause => [cause.message]
  | scan _ cause => [cause.message]
  | generation _ _ cause => cause.message :: cause.causes
  | rewrite _ cause => [cause.message]

namespace CommandLine

/-- Why a command failed: what it was doing, and the causes, nearest first. -/
structure Failure where
  headline : String
  causes : List String := []
deriving DecidableEq, Repr

namespace Failure

/-- An error of a project below a headline. -/
def ofProject (headline : String) (cause : Project.Error) : Failure :=
  ⟨headline, cause.message :: cause.causes⟩

/-- A text whose later lines are indented. -/
def indented (indent : List Char) (text : String) : List Char :=
  text.toList.flatMap fun character => if character = '\n' then '\n' :: indent else [character]

/-- A number in five columns. -/
def column (number : Nat) : List Char :=
  let digits := (toString number).toList
  List.replicate (5 - digits.length) ' ' ++ digits

/-- The causes from a number on, each on lines of its own. -/
def numbered (number : Nat) : List String → List Char
  | [] => []
  | cause :: rest =>
    '\n' :: column number ++ [':', ' '] ++ indented (List.replicate 7 ' ') cause ++
      numbered (number + 1) rest

/-- The causes below a headline. They are numbered unless there is only one. -/
def causesText : List String → List Char
  | [] => []
  | [cause] =>
    let indent := List.replicate 4 ' '
    "\n\nCaused by:\n".toList ++ indent ++ indented indent cause
  | causes => "\n\nCaused by:".toList ++ numbered 0 causes

/-- The report of a failure. -/
def text (failure : Failure) : String :=
  "Error: " ++ failure.headline ++ String.ofList (causesText failure.causes) ++ "\n"

end Failure

end CommandLine

end TypedLiterals
