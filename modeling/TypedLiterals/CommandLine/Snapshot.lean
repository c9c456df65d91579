import TypedLiterals.CommandLine.Execution
import TypedLiterals.Disk.Change

/-!
Whole projects as JSON documents, so that a command can be run on one without touching any other files.

A project is an object from relative paths to texts. The answer holds the exit code, what the command
prints, and the changes that it makes.
-/

namespace TypedLiterals.CommandLine.Snapshot

/-- The place of the project on the disk that it is put on. -/
def place : Disk.Place := ["project"]

/-- A disk with an empty project. -/
def emptyProject : Disk :=
  (Disk.empty.put ["tmp"] .directory).put place .directory

/-- Puts a file into the project; one that cannot stand there is left out. -/
def putFile (disk : Disk) (path text : String) : Disk :=
  let target := Path.join place.path ⟨path⟩
  let ready := (disk.ensureParent target).2
  match ready.writeText target text with
  | .ok after => after
  | .error _ => ready

/-- Writes one member of a snapshot to the disk. -/
def putMember (disk : Disk) (member : String × JsonValue) : Disk :=
  match member.2 with
  | .string text => putFile disk member.1 text
  | _ => disk

/-- The disk with the project that a document holds. -/
def ofDocument? (document : String) : Option Disk :=
  match JsonValue.read document with
  | some (.object members) => some (members.foldl putMember emptyProject)
  | _ => none

def contentText (content : ByteArray) : String :=
  String.ofList (Text.decodeLossy content.data.toList)

/-- An answer with the changes that the command made to the project. -/
def toJson (before : Disk) (answer : Answer) : JsonValue :=
  let change := Disk.Change.between before answer.disk place
  .object [
    ("code", .number answer.code),
    ("stdout", .string answer.stdout),
    ("stderr", .string answer.stderr),
    ("written", .object (change.written.map fun file => (file.1, .string (contentText file.2)))),
    ("created", .array (change.created.map .string)),
    ("removed", .array (change.removed.map .string))]

/-- The answer to a command on the project that a document holds. -/
def answer? (environment : String → Option String) (host : Host) (arguments : List String)
    (document : String) : Option (Nat × String) :=
  (ofDocument? document).map fun disk =>
    let setting : Setting := ⟨place.path, environment, host⟩
    let answer := CommandLine.answer setting arguments disk
    (answer.code, (toJson disk answer).pretty)

end TypedLiterals.CommandLine.Snapshot
