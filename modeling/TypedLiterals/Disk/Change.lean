import TypedLiterals.Disk.Basic

/-!
What changed in a directory between two states of a disk. Links are not looked at.
-/

namespace TypedLiterals.Disk

/-- The changes below a directory, by paths relative to it. Names of directories end in a slash. -/
structure Change where
  /-- Files that are new or have another content. -/
  written : List (String × ByteArray)
  created : List String
  removed : List String

namespace Change

/-- The entries below a place, by path relative to it. -/
def below (disk : Disk) (place : Place) : List (Place × Node) :=
  disk.entries.filterMap fun entry =>
    if place.isPrefixOf entry.1 ∧ entry.1 ≠ place then
      some (entry.1.drop place.length, entry.2)
    else none

def fileName (place : Place) : String :=
  "/".intercalate place

def directoryName (place : Place) : String :=
  "/".intercalate place ++ "/"

/-- The files among some entries by name. -/
def files (entries : List (Place × Node)) : List (String × ByteArray) :=
  entries.filterMap fun entry =>
    match entry.2 with
    | .file content => some (fileName entry.1, content)
    | _ => none

/-- The names of the directories among some entries. -/
def directories (entries : List (Place × Node)) : List String :=
  entries.filterMap fun entry =>
    match entry.2 with
    | .directory => some (directoryName entry.1)
    | _ => none

def sorted (names : List String) : List String :=
  names.mergeSort fun left right => decide (left ≤ right)

/-- The change from one state to another below a place. -/
def between (before after : Disk) (place : Place) : Change :=
  let old := below before place
  let new := below after place
  let oldFiles := files old
  let newFiles := files new
  let oldDirectories := directories old
  let newDirectories := directories new
  { written := newFiles.filter fun file => oldFiles.lookup file.1 != some file.2
    created := sorted (newDirectories.filter fun name => !oldDirectories.contains name)
    removed := sorted
      ((oldFiles.map (·.1)).filter (fun name => (newFiles.lookup name).isNone) ++
        oldDirectories.filter fun name => !newDirectories.contains name) }

end Change

end TypedLiterals.Disk
