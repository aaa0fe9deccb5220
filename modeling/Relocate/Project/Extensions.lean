import Relocate.Path.Basic

/-!
The extensions of source files. A declaration file `x.d.ts` counts as a source wherever `ts` does.
-/

namespace Relocate

/-- The recognised extensions, without leading dots, in the order in which they are tried. -/
structure Extensions where
  names : List String
  deriving DecidableEq, Repr, Inhabited

namespace Extensions

/-- The extensions as given, without their leading dots. -/
def ofList (names : List String) : Extensions :=
  ⟨names.map fun name => String.ofList (name.toList.dropWhile (· == '.'))⟩

/-- The extensions that are recognised when nothing else is said. -/
def standard : Extensions := ofList ["ts", "tsx"]

/-- The text without a recognised extension, if it ends in one. -/
def stem? (known : Extensions) (text : String) : Option String :=
  let other := known.names.findSome? fun name => Text.dropTail? ("." ++ name) text
  match Text.dropTail? ".d.ts" text with
  | some stem => if known.names.contains "ts" then some stem else other
  | none => other

/-- The text without a recognised extension. -/
def strip (known : Extensions) (text : String) : String := (known.stem? text).getD text

/-- The path ends in the name of a source file. -/
def isSource (known : Extensions) (path : Path) : Bool :=
  match path.fileName? with
  | some name => (known.stem? name).isSome
  | none => false

end Extensions

end Relocate
