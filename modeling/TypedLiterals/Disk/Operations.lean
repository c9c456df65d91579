import TypedLiterals.Disk.Walk

/-!
Reading and changing a disk by path.

Every operation gives the fault that stopped it or the disk after it. A write replaces the whole file
and follows links; removing takes a link away and leaves what it leads to. Faults come from the paths alone:
there is always space and permission, and a write that fails leaves the file as it was.
-/

namespace TypedLiterals.Disk

/-- The bytes of a file. -/
def read (disk : Disk) (path : Path) : Except Fault ByteArray := do
  match ← disk.status path with
  | .file content => .ok content
  | _ => .error .isDirectory

/-- The text of a file whose bytes are valid UTF-8. -/
def readText (disk : Disk) (path : Path) : Except Fault String := do
  match String.fromUTF8? (← disk.read path) with
  | some text => .ok text
  | none => .error .notText

/-- Writes a whole file, which is created when it is missing. -/
def write (disk : Disk) (path : Path) (content : ByteArray) : Except Fault Disk := do
  let spot ← disk.locate true path
  if endsInSlash path.text then .error .isDirectory
  else
    match spot with
    | .absent directory name => .ok (disk.put (directory ++ [name]) (.file content))
    | .present place =>
      match disk.node? place with
      | some (.file _) => .ok (disk.put place (.file content))
      | _ => .error .isDirectory

def writeText (disk : Disk) (path : Path) (text : String) : Except Fault Disk :=
  disk.write path text.toUTF8

/-- Creates one directory in a directory that exists. -/
def createDirectory (disk : Disk) (path : Path) : Except Fault Disk := do
  match ← disk.locate false path with
  | .absent directory name => .ok (disk.put (directory ++ [name]) .directory)
  | .present _ => .error .alreadyExists

/-- Creates a directory unless there is one. -/
def createOrFind (disk : Disk) (path : Path) : Except Fault Unit × Disk :=
  match disk.createDirectory path with
  | .ok after => (.ok (), after)
  | .error fault => if disk.isDirectory path then (.ok (), disk) else (.error fault, disk)

/-- Creates a directory and the missing ones above it; the first argument bounds their number. The
second component is the disk also when a step fails. -/
def createDirectories : Nat → Disk → Path → Except Fault Unit × Disk
  | 0, disk, _ => (.error .notFound, disk)
  | count + 1, disk, path =>
    if path.text.isEmpty then (.ok (), disk)
    else
      match disk.createDirectory path with
      | .error .notFound =>
        match path.parent? with
        | none => (.error .notFound, disk)
        | some parent =>
          match createDirectories count disk parent with
          | (.ok _, after) => after.createOrFind path
          | failed => failed
      | _ => disk.createOrFind path

/-- Makes sure that a path leads to a directory. -/
def ensureDirectory (disk : Disk) (path : Path) : Except Fault Unit × Disk :=
  createDirectories (path.components.length + 1) disk path

/-- Makes sure that the directory a path stands in exists. -/
def ensureParent (disk : Disk) (path : Path) : Except (Path × Fault) Unit × Disk :=
  match path.parent? with
  | none => (.ok (), disk)
  | some parent =>
    let (made, after) := disk.ensureDirectory parent
    (made.mapError fun fault => (parent, fault), after)

/-- Removes a file or a link. -/
def removeFile (disk : Disk) (path : Path) : Except Fault Disk := do
  match ← disk.locate false path with
  | .absent _ _ => .error .notFound
  | .present place =>
    if disk.node? place = some .directory then .error .isDirectory else .ok (disk.erase place)

/-- Removes whatever a path names, with all that stands below it. -/
def removeTree (disk : Disk) (path : Path) : Except Fault Disk := do
  match ← disk.locate false path with
  | .absent _ _ => .error .notFound
  | .present place => .ok (disk.eraseTree place)

/-- The absolute path without links that a path leads to. -/
def canonical (disk : Disk) (path : Path) : Except Fault Path := do
  match ← disk.locate true path with
  | .present place => .ok place.path
  | .absent _ _ => .error .notFound

/-- The last name in the text of a path. -/
def lastName (path : Path) : String :=
  (pathNames path.text).getLast?.getD ""

/-- Removes a directory with all that stands in it. One that is called `.` or `..` is emptied and
stays, which is a fault. The second component is the disk also then. -/
def removeDirectoryTree (disk : Disk) (path : Path) : Except Fault Unit × Disk :=
  match disk.locate false path with
  | .error fault => (.error fault, disk)
  | .ok (.absent _ _) => (.error .notFound, disk)
  | .ok (.present place) =>
    let emptied := (disk.eraseTree place).put place .directory
    if lastName path = "." then (.error .invalidArgument, emptied)
    else if lastName path = ".." then (.error .notEmpty, emptied)
    else (.ok (), disk.eraseTree place)

/-- Removes what a path leads to: a directory with all that stands in it, or a file. -/
def removeAny (disk : Disk) (path : Path) : Except Fault Unit × Disk :=
  if disk.isDirectory path then disk.removeDirectoryTree path
  else
    match disk.removeFile path with
    | .ok after => (.ok (), after)
    | .error fault => (.error fault, disk)

/-- The number of bytes in a file or in all files of a directory. -/
def sizeOf (disk : Disk) (path : Path) : Nat :=
  match disk.locate true path with
  | .ok (.present place) => ((disk.filesBelow place).map fun file => file.2.size).foldl (· + ·) 0
  | _ => 0

/-- Puts a symbolic link where nothing stands. -/
def createLink (disk : Disk) (path : Path) (target : String) : Except Fault Disk := do
  match ← disk.locate false path with
  | .absent directory name => .ok (disk.put (directory ++ [name]) (.link target))
  | .present _ => .error .alreadyExists

/-- Moves a file over another path, replacing a file that stands there. -/
def rename (disk : Disk) (source target : Path) : Except Fault Disk := do
  match ← disk.locate false source with
  | .absent _ _ => .error .notFound
  | .present place =>
    match disk.node? place with
    | none => .error .notFound
    | some node =>
      match ← disk.locate false target with
      | .absent directory name => .ok ((disk.erase place).put (directory ++ [name]) node)
      | .present other =>
        if disk.node? other = some .directory then .error .isDirectory
        else .ok ((disk.erase place).put other node)

end TypedLiterals.Disk
