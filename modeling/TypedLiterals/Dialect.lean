import TypedLiterals.Path

/-!
The dialects a source can be written in, told by the extension of its file.
-/

namespace TypedLiterals

/-- The languages that sources are written in. -/
inductive Dialect where
  | javaScript
  | typeScript
  | tsx
deriving DecidableEq, Repr

/-- The dialect of a file extension. No letter outside ASCII has one of these letters as its lower case,
so folding ASCII case is enough. -/
def Dialect.ofExtension? (extension : String) : Option Dialect :=
  let folded := String.ofList (extension.toList.map Char.toLower)
  if ["js", "jsx", "mjs", "cjs"].contains folded then some .javaScript
  else if ["ts", "mts", "cts"].contains folded then some .typeScript
  else if folded = "tsx" then some .tsx
  else none

/-- The dialect that the extension of a path stands for. -/
def Dialect.ofPath? (path : Path) : Option Dialect :=
  path.extension?.bind Dialect.ofExtension?

end TypedLiterals
