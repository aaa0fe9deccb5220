import Relocate.Text.Affix

/-!
Paths of a tree of files. A path keeps the text it was written with, and prints as that text; it
is read through its components, which ignore repeated and trailing separators and every `.` but a
leading one. Two paths with the same components are the same path (`==`).

A path is a text. Names that are not written in Unicode, which a file system may hold, have no path
here, and nothing is said about them.
-/

namespace Relocate

/-- One step of a path. -/
inductive Component where
  /-- The leading separator of an absolute path. -/
  | root
  /-- A leading `.`. -/
  | here
  /-- A step to the parent, `..`. -/
  | up
  /-- A step to an entry of the current directory. -/
  | name (text : String)
  deriving DecidableEq, Repr, Inhabited

namespace Component

/-- The text of a component. -/
def text : Component → String
  | root => "/"
  | here => "."
  | up => ".."
  | name text => text

/-- The component that a piece between two separators stands for; an empty piece and `.` stand for
none. -/
def ofPiece? : List Char → Option Component
  | [] => none
  | ['.'] => none
  | ['.', '.'] => some up
  | piece => some (name (String.ofList piece))

end Component

/-- A path, kept as it was written. -/
structure Path where
  text : String
  deriving DecidableEq, Repr, Inhabited

namespace Path

/-- The components of a path text. -/
def componentsOf : List Char → List Component
  | '/' :: rest => .root :: (Text.splitAt '/' rest).filterMap Component.ofPiece?
  | chars =>
    match Text.splitAt '/' chars with
    | ['.'] :: pieces => .here :: pieces.filterMap Component.ofPiece?
    | pieces => pieces.filterMap Component.ofPiece?

/-- The components of a path. -/
def components (p : Path) : List Component := componentsOf p.text.toList

instance : BEq Path := ⟨fun p q => p.components == q.components⟩

/-- The plainest path with the given components. -/
def ofComponents : List Component → Path
  | .root :: rest => ⟨"/" ++ "/".intercalate (rest.map Component.text)⟩
  | parts => ⟨"/".intercalate (parts.map Component.text)⟩

/-- The root directory. -/
def top : Path := ⟨"/"⟩

/-- The path starts at the root directory. -/
def isAbsolute (p : Path) : Bool := p.text.toList.head? == some '/'

/-- The path `tail` read from the directory `base`. An absolute `tail` stands for itself. -/
def join (base tail : Path) : Path :=
  if tail.isAbsolute then tail
  else
    match base.text.toList.getLast? with
    | none => tail
    | some '/' => ⟨base.text ++ tail.text⟩
    | some _ => ⟨base.text ++ "/" ++ tail.text⟩

/-- The piece between two separators stands for no component. -/
def isIdle (piece : List Char) : Bool := (Component.ofPiece? piece).isNone

/-- The pieces up to the last one that stands for a component. -/
def withoutIdleEnd (pieces : List (List Char)) : List (List Char) :=
  (pieces.reverse.dropWhile isIdle).reverse

/-- What a text starts with, a separator or a single dot, and the pieces behind it. -/
def leadAndPieces : List Char → List Char × List (List Char)
  | '/' :: rest => (['/'], Text.splitAt '/' rest)
  | chars =>
    match Text.splitAt '/' chars with
    | ['.'] :: pieces => (['.'], pieces)
    | pieces => ([], pieces)

/-- The path with the given start and pieces. -/
def ofPieces (lead : List Char) (pieces : List (List Char)) : Path :=
  let body := String.ofList (['/'].intercalate pieces)
  match lead, pieces with
  | ['.'], _ :: _ => ⟨"./" ++ body⟩
  | _, _ => ⟨String.ofList lead ++ body⟩

/-- The directory that holds the path's last component, as far as it is written in the path. -/
def parent? (p : Path) : Option Path :=
  let (lead, pieces) := leadAndPieces p.text.toList
  match withoutIdleEnd pieces, lead with
  | [], ['.'] => some ⟨""⟩
  | [], _ => none
  | pieces, _ => some (ofPieces lead (withoutIdleEnd pieces.dropLast))

/-- The name of the entry a path ends in. -/
def fileName? (p : Path) : Option String :=
  match p.components.getLast? with
  | some (.name text) => some text
  | _ => none

/-- What follows the last dot of a name, unless that dot is its first character. -/
def extensionOf (name : String) : Option String :=
  let backwards := name.toList.reverse
  match backwards.dropWhile (· != '.') with
  | [] => none
  | [_] => none
  | _ :: _ => some (String.ofList (backwards.takeWhile (· != '.')).reverse)

/-- The extension of the entry a path ends in. -/
def extension? (p : Path) : Option String := p.fileName?.bind extensionOf

/-- The directories above a path, the nearest first. -/
def ancestors (p : Path) : List Path :=
  let parts := p.components
  let shortest := if p.isAbsolute then 1 else 0
  (List.range parts.length).reverse.filterMap fun kept =>
    if kept < shortest then none else some (ofComponents (parts.take kept))

/-- The path `p` is `dir` or continues it. -/
def startsWith (p dir : Path) : Bool := dir.components.isPrefixOf p.components

/-- The pieces behind the first `count` components. -/
def dropPieces : (count : Nat) → List (List Char) → List (List Char)
  | _, [] => []
  | count, piece :: pieces =>
    if isIdle piece then dropPieces count pieces
    else
      match count with
      | 0 => piece :: pieces
      | count + 1 => dropPieces count pieces

/-- The part of `p` that follows `dir`, as it is written in `p`. -/
def below? (p dir : Path) : Option Path :=
  if !p.startsWith dir then none
  else
    let (lead, pieces) := leadAndPieces p.text.toList
    match dir.components.length with
    | 0 => some (ofPieces lead (withoutIdleEnd pieces))
    | count + 1 =>
      let count := if lead.isEmpty then count + 1 else count
      some (ofPieces [] (withoutIdleEnd (dropPieces count pieces)))

/-- The text of a path with every backslash turned into a slash. -/
def slashed (p : Path) : String :=
  String.ofList (p.text.toList.map fun c => if c == '\\' then '/' else c)

end Path

end Relocate
