import TypedLiterals.Dialect
import TypedLiterals.Text.Span

/-!
Syntax trees of scripts.

A tree gives the shape of a text as far as calls and imports need it: groups between brackets, calls of
plain identifiers with their arguments, templates with their substitutions, and import statements with
their parts. All other text is a flat row of tokens. Every node knows the span it covers.
-/

namespace TypedLiterals.Syntax

/-- The kinds of nodes that the scanner tells apart. -/
inductive Kind where
  | program
  | importStatement
  | importClause
  | namedImports
  | importSpecifier
  | namespaceImport
  /-- An identifier applied to parenthesised arguments. -/
  | call
  | arguments
  | typeArguments
  /-- An argument that is more than one tree. -/
  | expression
  | parentheses
  | brackets
  | braces
  | template
  | substitution
  | element
  | identifier
  | privateName
  | keyword
  | number
  | string
  | regex
  | comment
  | comma
  | punctuation
deriving DecidableEq, Repr

/-- The part that a node plays in its parent, where parts have names. -/
inductive Role where
  | source
  | name
  | localName
deriving DecidableEq, Repr

/-- A syntax tree, whose nodes know the bytes that they cover. -/
inductive Tree where
  | node (kind : Kind) (role : Option Role) (span : Span) (children : List Tree)
deriving Repr

instance : Inhabited Tree := ⟨.node .program none default []⟩

namespace Tree

def kind : Tree → Kind
  | node kind _ _ _ => kind

def role : Tree → Option Role
  | node _ role _ _ => role

def span : Tree → Span
  | node _ _ span _ => span

def children : Tree → List Tree
  | node _ _ _ children => children

mutual

/-- Trees are compared part by part. -/
def decEq : (one other : Tree) → Decidable (one = other)
  | node kind role span children, node otherKind otherRole otherSpan others =>
    match decEqAll children others with
    | isTrue same =>
      decidable_of_iff (kind = otherKind ∧ role = otherRole ∧ span = otherSpan) (by simp [same])
    | isFalse differ => isFalse (by simp [differ])

def decEqAll : (trees others : List Tree) → Decidable (trees = others)
  | [], [] => isTrue rfl
  | [], _ :: _ => isFalse nofun
  | _ :: _, [] => isFalse nofun
  | tree :: rest, other :: later =>
    match decEq tree other, decEqAll rest later with
    | isTrue same, isTrue also => isTrue (by rw [same, also])
    | isFalse differ, _ => isFalse (by simp [differ])
    | _, isFalse differ => isFalse (by simp [differ])

end

instance : DecidableEq Tree := decEq

/-- A tree without parts. -/
def leaf (kind : Kind) (span : Span) : Tree :=
  node kind none span []

def withRole (role : Role) : Tree → Tree
  | node kind _ span children => node kind (some role) span children

/-- Whether a tree counts as a part of its parent, as keywords and punctuation do not. -/
def isNamed (tree : Tree) : Bool :=
  tree.kind ≠ .punctuation && tree.kind ≠ .comma && tree.kind ≠ .keyword

/-- The children that are not punctuation. -/
def namedChildren (tree : Tree) : List Tree :=
  tree.children.filter isNamed

/-- The first child in a role. -/
def child? (role : Role) (tree : Tree) : Option Tree :=
  tree.children.find? fun child => child.role == some role

/-- The characters a tree covers. -/
def textIn (tree : Tree) (text : List Char) : List Char :=
  tree.span.textIn text

mutual

/-- A tree and everything below it, in the order of the text. -/
def all : Tree → List Tree
  | node kind role span children => node kind role span children :: allOf children

def allOf : List Tree → List Tree
  | [] => []
  | tree :: rest => tree.all ++ allOf rest

end

end Tree

/-- The trees that texts are read into, dialect by dialect. -/
abbrev Grammar := Dialect → List Char → Tree

end TypedLiterals.Syntax
