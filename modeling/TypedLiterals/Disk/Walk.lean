import TypedLiterals.Disk.Basic

/-!
Where paths lead.

A path is followed name by name from the root. Every name but the last must be that of a directory, and
a symbolic link is replaced by its target. The last name may be missing, which is where a new entry
would go.
-/

namespace TypedLiterals.Disk

/-- The end of a path. -/
inductive Spot where
  | present (place : Place)
  /-- Nothing of this name stands in the directory. -/
  | absent (directory : Place) (name : String)
deriving DecidableEq, Repr

/-- How many links one path may lead through. -/
def linkLimit : Nat := 40

/-- The names of a path. Repeated slashes count as one. -/
def pathNames (path : String) : List String :=
  ((Path.splitWhere Path.isSlash (Text.characters path)).filter (· ≠ [])).map String.ofList

def isAbsoluteText (path : String) : Bool :=
  (Text.characters path).head? == some '/'

def endsInSlash (path : String) : Bool :=
  (Text.characters path).getLast? == some '/'

/-- Follows names from a directory. From a link that is followed, `jump` goes on with the directory and
the names that are left. The last name is not followed when it is a link and `follow` is off. -/
def walkNames (disk : Disk) (follow : Bool) (jump : Place → List String → Except Fault Spot) :
    Place → List String → Except Fault Spot
  | place, [] => .ok (.present place)
  | place, name :: rest =>
    if disk.node? place ≠ some .directory then .error .notDirectory
    else if name = "." then walkNames disk follow jump place rest
    else if name = ".." then walkNames disk follow jump place.dropLast rest
    else
      match disk.node? (place ++ [name]) with
      | none => if rest = [] then .ok (.absent place name) else .error .notFound
      | some (.link target) =>
        if rest = [] ∧ follow = false then .ok (.present (place ++ [name]))
        else jump (if isAbsoluteText target then [] else place) (pathNames target ++ rest)
      | some _ => walkNames disk follow jump (place ++ [name]) rest

/-- Follows names from a directory through no more than `links` links. -/
def walk (disk : Disk) (follow : Bool) : (links : Nat) → Place → List String → Except Fault Spot
  | 0 => walkNames disk follow fun _ _ => .error .tooManyLinks
  | links + 1 => walkNames disk follow (walk disk follow links)

/-- Where a path leads. One that ends in a slash leads to a directory or nowhere. -/
def locate (disk : Disk) (follow : Bool) (path : Path) : Except Fault Spot :=
  if path.text.isEmpty then .error .notFound
  else do
    let slash := endsInSlash path.text
    let spot ← disk.walk (follow || slash) linkLimit [] (pathNames path.text)
    match spot with
    | .present place =>
      if slash && disk.node? place != some .directory then .error .notDirectory else .ok spot
    | .absent _ _ => .ok spot

/-- The node that a path leads to. -/
def status (disk : Disk) (path : Path) : Except Fault Node := do
  match ← disk.locate true path with
  | .present place => (disk.node? place).elim (.error .notFound) .ok
  | .absent _ _ => .error .notFound

def pathExists (disk : Disk) (path : Path) : Bool :=
  (disk.status path).isOk

def isDirectory (disk : Disk) (path : Path) : Bool :=
  match disk.status path with
  | .ok .directory => true
  | _ => false

def isFile (disk : Disk) (path : Path) : Bool :=
  match disk.status path with
  | .ok (.file _) => true
  | _ => false

end TypedLiterals.Disk
