import TypedLiterals.Path

/-!
A disk: files, directories and symbolic links by the place where they stand.

A place is a list of names from the root, which is always a directory. A path only describes a place:
where it leads depends on the links on its way.
-/

namespace TypedLiterals

namespace Disk

/-- Why an operation on a disk failed. -/
inductive Fault where
  | notFound
  | permissionDenied
  | alreadyExists
  | notDirectory
  | isDirectory
  | invalidArgument
  | notEmpty
  | tooManyLinks
  | notText
deriving DecidableEq, Repr

/-- The text shown for a fault, with its number. -/
def Fault.message : Fault → String
  | notFound => "No such file or directory (os error 2)"
  | permissionDenied => "Permission denied (os error 13)"
  | alreadyExists => "File exists (os error 17)"
  | notDirectory => "Not a directory (os error 20)"
  | isDirectory => "Is a directory (os error 21)"
  | invalidArgument => "Invalid argument (os error 22)"
  | notEmpty => "Directory not empty (os error 39)"
  | tooManyLinks => "Too many levels of symbolic links (os error 40)"
  | notText => "stream did not contain valid UTF-8"

/-- The names on the way from the root. -/
abbrev Place := List String

/-- The absolute path of a place. -/
def Place.path (place : Place) : Path :=
  ⟨"/" ++ "/".intercalate place⟩

-- Deriving below takes this instance whatever else is imported.
instance (priority := 2000) decidableEqContent : DecidableEq ByteArray := fun left right =>
  match decEq left.data right.data with
  | .isTrue same => .isTrue (ByteArray.ext same)
  | .isFalse different => .isFalse fun equal => different (congrArg ByteArray.data equal)

/-- What stands at a place. -/
inductive Node where
  | file (content : ByteArray)
  | directory
  | link (target : String)
deriving DecidableEq

end Disk

/-- What stands at each place. A place that is listed twice holds what is listed first. -/
structure Disk where
  entries : List (Disk.Place × Disk.Node)

namespace Disk

def empty : Disk := ⟨[]⟩

def node? (disk : Disk) (place : Place) : Option Node :=
  if place = [] then some .directory else disk.entries.lookup place

/-- Puts a node at a place, over what stood there. -/
def put (disk : Disk) (place : Place) (node : Node) : Disk :=
  ⟨(place, node) :: disk.entries.filter (·.1 ≠ place)⟩

/-- Takes away what stands at a place and leaves what stands below it. -/
def erase (disk : Disk) (place : Place) : Disk :=
  ⟨disk.entries.filter (·.1 ≠ place)⟩

/-- Takes away what stands at a place or below it. -/
def eraseTree (disk : Disk) (place : Place) : Disk :=
  ⟨disk.entries.filter fun entry => !place.isPrefixOf entry.1⟩

/-- The files at a place or below it, with their contents. -/
def filesBelow (disk : Disk) (place : Place) : List (Place × ByteArray) :=
  disk.entries.filterMap fun entry =>
    match entry.2 with
    | .file content => if place.isPrefixOf entry.1 then some (entry.1, content) else none
    | _ => none

end Disk

end TypedLiterals
