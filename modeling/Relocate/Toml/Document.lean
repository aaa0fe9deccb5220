import Relocate.Toml.Scalar
import Relocate.Toml.Table

/-!
Reading a TOML document.
-/

namespace Relocate.Toml

/-- The text without blanks at its start. -/
def skipBlanks (text : List Char) : List Char := text.dropWhile fun c => c == ' ' || c == '\t'

/-- The text without the blanks, line breaks and comments at its start. -/
def skipSpace : (inComment : Bool) → List Char → Option (List Char)
  | _, [] => some []
  | _, '\n' :: rest => skipSpace false rest
  | _, '\r' :: '\n' :: rest => skipSpace false rest
  | true, c :: rest => if isPlain c then skipSpace true rest else none
  | false, '#' :: rest => skipSpace true rest
  | false, ' ' :: rest | false, '\t' :: rest => skipSpace false rest
  | false, text => some text

/-- The text behind the blanks at the end of a line, if nothing but a comment is left of it. -/
def lineEnd (text : List Char) : Option (List Char) :=
  match skipBlanks text with
  | [] => some []
  | '\n' :: rest => some rest
  | '\r' :: '\n' :: rest => some rest
  | '#' :: rest => some ('#' :: rest)
  | _ => none

/-- The character may stand in a key without quotes. -/
def isKeyPart (c : Char) : Bool := c.isAlphanum || c == '_' || c == '-'

/-- One key. -/
def key : Reader String
  | '"' :: rest => (basic rest).map fun (text, rest) => (String.ofList text, rest)
  | '\x27' :: rest => (literal rest).map fun (text, rest) => (String.ofList text, rest)
  | text =>
    match text.takeWhile isKeyPart with
    | [] => none
    | name => some (String.ofList name, text.dropWhile isKeyPart)

/-- How deep values may nest, and how many keys may stand in a row. -/
def depthLimit : Nat := 79

/-- Keys with dots between them, and the blanks around them, at most as many as there is room
for. -/
def keyPathWithin : (room : Nat) → Reader (List String)
  | 0, _ => none
  | room + 1, text =>
    match key (skipBlanks text) with
    | none => none
    | some (first, rest) =>
      match skipBlanks rest with
      | '.' :: rest => (keyPathWithin room rest).map fun (path, rest) => (first :: path, rest)
      | rest => some ([first], rest)

/-- Keys with dots between them, and the blanks around them. -/
def keyPath : Reader (List String) := keyPathWithin depthLimit

/-- The table of pairs that stand in one line. -/
def inlineTable (pairs : List (List String × Setting)) : Option Setting :=
  (pairs.foldlM (fun fields (path, value) => addValue path value fields) []).map fun fields =>
    .table (fieldSettings fields)

mutual

/-- A value, in which lists and tables nest no deeper than there is room for. -/
def value : (fuel room : Nat) → Reader Setting
  | 0, _, _ => none
  | fuel + 1, room, text =>
    match text, room with
    | '[' :: _, 0 | '{' :: _, 0 => none
    | '[' :: rest, room + 1 =>
      (items fuel room rest).map fun (items, rest) => (.list items, rest)
    | '{' :: rest, room + 1 =>
      match skipBlanks rest with
      | '}' :: rest => some (.table [], rest)
      | rest =>
        (pairs fuel room rest).bind fun (pairs, rest) =>
          (inlineTable pairs).map fun table => (table, rest)
    | '"' :: _, _ | '\x27' :: _, _ =>
      (string text).map fun (text, rest) => (.text (String.ofList text), rest)
    | _, _ => word text

/-- The items of a list up to its closing bracket. -/
def items : (fuel room : Nat) → Reader (List Setting)
  | 0, _, _ => none
  | fuel + 1, room, text =>
    match skipSpace false text with
    | none => none
    | some (']' :: rest) => some ([], rest)
    | some text =>
      (value fuel room text).bind fun (first, rest) =>
        match skipSpace false rest with
        | some (',' :: rest) =>
          (items fuel room rest).map fun (more, rest) => (first :: more, rest)
        | some (']' :: rest) => some ([first], rest)
        | _ => none

/-- The pairs of a table in one line up to its closing brace. -/
def pairs : (fuel room : Nat) → Reader (List (List String × Setting))
  | 0, _, _ => none
  | fuel + 1, room, text =>
    (pair fuel room text).bind fun (first, rest) =>
      match skipBlanks rest with
      | ',' :: rest => (pairs fuel room rest).map fun (more, rest) => (first :: more, rest)
      | '}' :: rest => some ([first], rest)
      | _ => none

/-- A key and its value. -/
def pair : (fuel room : Nat) → Reader (List String × Setting)
  | 0, _, _ => none
  | fuel + 1, room, text =>
    match keyPath text with
    | some (path, '=' :: rest) =>
      (value fuel room (skipBlanks rest)).map fun (value, rest) => ((path, value), rest)
    | _ => none

end

/-- A document as far as it has been read: its fields and the table that was opened last. -/
structure Document where
  fields : Fields := []
  opened : List String := []

/-- Reads one line that is not blank, and what belongs to it. -/
def line (fuel : Nat) (d : Document) (text : List Char) : Option (Document × List Char) :=
  match text with
  | '[' :: '[' :: rest =>
    match keyPath rest with
    | some (path, ']' :: ']' :: rest) => do
      return (⟨← openNext path d.fields, path⟩, ← lineEnd rest)
    | _ => none
  | '[' :: rest =>
    match keyPath rest with
    | some (path, ']' :: rest) => do
      return (⟨← openTable path d.fields, path⟩, ← lineEnd rest)
    | _ => none
  | _ => do
    let ((path, value), rest) ← pair fuel depthLimit text
    return ({ d with fields := ← addValueAt d.opened path value d.fields }, ← lineEnd rest)

/-- Reads all lines. -/
def lines : (fuel : Nat) → Document → List Char → Option Document
  | 0, _, _ => none
  | fuel + 1, d, text =>
    match skipSpace false text with
    | none => none
    | some [] => some d
    | some text => (line fuel d text).bind fun (d, rest) => lines fuel d rest

/-- The settings in a document. -/
def parse? (text : String) : Option Setting :=
  let chars :=
    match text.toList with
    | '\ufeff' :: rest => rest
    | chars => chars
  (lines (2 * chars.length + 8) {} chars).map fun d => .table (fieldSettings d.fields)

end Relocate.Toml
