import TypedLiterals.Discovery.Rule

/-!
The files below a directory that are not ignored.

A file is found when neither it nor a directory on the way to it is left out. An entry is left out by
the ignore files of the directories above it, by its name when that starts with a dot and no rule keeps
it, and always when it is called `node_modules`. Links are neither followed nor found.
-/

namespace TypedLiterals.Discovery

/-- The ignore file of this program. -/
def ownIgnoreFile : String := ".gqlweaveignore"

/-- A directory and the directories above it, nearest first; the argument is the place backwards. -/
def upwards : List String → List Disk.Place
  | [] => [[]]
  | name :: above => (name :: above).reverse :: upwards above

/-- A path relative to a directory above it. -/
def relativeTo (directory place : Disk.Place) : String :=
  "/".intercalate (place.drop directory.length)

def fileIn (directory : Disk.Place) (names : List String) : Path :=
  Disk.Place.path (directory ++ names)

/-- The first decision that an ignore file of several directories takes. -/
def decision (disk : Disk) (names : List String) (place : Disk.Place) (isDirectory : Bool)
    (directories : List Disk.Place) : Option Verdict :=
  directories.findSome? fun directory =>
    Rule.decide (rulesIn disk (fileIn directory names)) (relativeTo directory place) isDirectory

/-- Whether a directory is the top of a repository. -/
def isRepository (disk : Disk) (directory : Disk.Place) : Bool :=
  disk.pathExists (fileIn directory [".git"])

/-- The directories up to the nearest repository and including it; none outside of repositories. -/
def repositoryDirectories (disk : Disk) (directories : List Disk.Place) : List Disk.Place :=
  if directories.any (isRepository disk) then
    directories.takeWhile (!isRepository disk ·) ++
      (directories.find? (isRepository disk)).toList
  else []

/-- What the ignore files say about an entry. Those of this program come before the general ones, and
both before those of repositories. -/
def verdict? (disk : Disk) (place : Disk.Place) (isDirectory : Bool) : Option Verdict :=
  let directories := upwards place.dropLast.reverse
  let tracked := repositoryDirectories disk directories
  decision disk [ownIgnoreFile] place isDirectory directories
    <|> decision disk [".ignore"] place isDirectory directories
    <|> decision disk [".gitignore"] place isDirectory tracked
    <|> decision disk [".git", "info", "exclude"] place isDirectory tracked

def isHidden (name : String) : Bool :=
  name.toList.head? = some '.'

/-- Whether an entry is left out. -/
def isLeftOut (disk : Disk) (place : Disk.Place) : Bool :=
  let name := place.getLast?.getD ""
  let isDirectory := disk.node? place = some .directory
  name = "node_modules" ||
    match verdict? disk place isDirectory with
    | some .ignore => true
    | some .keep => false
    | none => isHidden name

/-- The places on the way from a directory to a place below it, which is the last of them. -/
def placesBetween (directory : Disk.Place) : List String → List Disk.Place
  | [] => []
  | name :: rest => (directory ++ [name]) :: placesBetween (directory ++ [name]) rest

/-- The files below a directory that nothing on their way leaves out, by their names from there. -/
def filesIn (disk : Disk) (directory : Disk.Place) : List (List String) :=
  ((disk.filesBelow directory).map fun file => file.1.drop directory.length).filter fun names =>
    names ≠ [] && !(placesBetween directory names).any (isLeftOut disk)

end TypedLiterals.Discovery
