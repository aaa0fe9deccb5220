import Relocate.Settings.Setting
import Relocate.Text.Affix
import Relocate.Text.Blank
import Relocate.Text.Bytes
import Relocate.Toml.Scalar

/-!
Settings in environment variables. The name of a variable says which setting it gives, and its text
is a number, a truth value, a list, a table, or simply a text.
-/

namespace Relocate.Variable

/-- The beginning of the names of all variables that are of interest. -/
def lead : String := "TSMOVE__"

/-- The name with dots in place of double underscores. -/
def dotted : List Char → List Char
  | '_' :: '_' :: rest => '.' :: dotted rest
  | c :: rest => c :: dotted rest
  | [] => []

/-- The keys of the setting that a variable gives, if it gives one. The case of its name does not
matter, nor do blanks around it or behind its beginning. -/
def keys? (name : String) : Option (List String) :=
  let lower := (Text.trim name).toList.map Char.toLower
  (List.isPrefixOf? (lead.toList.map Char.toLower) lower).bind fun rest =>
    let pieces := Text.splitAt '.' (Text.trim (String.ofList (dotted rest))).toList
    if pieces.any List.isEmpty then none else some (pieces.map String.ofList)

/-- White space between the parts of a value. -/
def isSpace (c : Char) : Bool := [' ', '\t', '\n', '\x0c', '\r'].contains c

/-- The text without white space at its start. -/
def skip (text : List Char) : List Char := text.dropWhile isSpace

/-- The character may stand in a text without quotes. -/
def isBare (c : Char) : Bool := !([',', '{', '}', '[', ']'].contains c)

/-- A number with a point. -/
def isDecimal (text : List Char) : Bool :=
  let (_, text) := Toml.signed text
  let whole := text.takeWhile Char.isDigit
  match text.dropWhile Char.isDigit with
  | '.' :: rest =>
    let fraction := rest.takeWhile Char.isDigit
    !(whole.isEmpty && fraction.isEmpty) &&
      match rest.dropWhile Char.isDigit with
      | [] => true
      | c :: rest =>
        let (_, digits) := Toml.signed rest
        (c == 'e' || c == 'E') && !digits.isEmpty && digits.all Char.isDigit
  | _ => false

/-- An integer, in the range of 64 bits with or without a sign. -/
def integer? (text : List Char) : Option Int :=
  let (negative, digits) := Toml.signed text
  if digits.isEmpty || !digits.all Char.isDigit then none
  else
    (Toml.numberOf 10 digits).bind fun n =>
      if negative then if n ≤ Toml.wordLimit then some (-Int.ofNat n) else none
      else if n < 2 * Toml.wordLimit then some (Int.ofNat n) else none

/-- The value of a text without quotes. -/
def bareValue (text : List Char) : Setting :=
  let text := (Text.trim (String.ofList text)).toList
  match integer? text with
  | some n => .integer n
  | none => if isDecimal text then .other else .text (String.ofList text)

/-- Why a value cannot be read. -/
inductive Trouble where
  /-- The text is no value of this form. -/
  | malformed
  /-- A quoted text is cut within a character. -/
  | cutCharacter
  deriving DecidableEq, Repr

/-- What is found at the beginning of a text, and the rest. -/
abbrev Reader (α : Type) := List Char → Except Trouble (α × List Char)

/-- The characters of a quoted text as written, without its quotation marks. -/
def quotedPart : (escaped : Bool) → Reader (List Char)
  | _, [] => .error .malformed
  | false, '"' :: rest => .ok ([], rest)
  | escaped, c :: rest =>
    (quotedPart (!escaped && c == '\\') rest).map fun (text, rest) => (c :: text, rest)

/-- The text that a part with escapes stands for, or nothing. -/
def unescaped? (part : List Char) : Option (List Char) :=
  match Toml.basic (part ++ ['"']) with
  | some (text, []) => some text
  | _ => none

/-- A quoted text, behind its first quotation mark. Of what stands before the first escape, as many
bytes are kept as it has characters. -/
def quoted : Reader String := fun text => do
  let (written, rest) ← quotedPart false text
  let plain := written.takeWhile (· != '\\')
  let escapes := written.dropWhile (· != '\\')
  let kept := if escapes.isEmpty then some plain else Text.slice? plain 0 plain.length
  match unescaped? plain, kept with
  | none, _ => .error .malformed
  | some _, none => .error .cutCharacter
  | some _, some kept =>
    match unescaped? escapes with
    | none => .error .malformed
    | some more => .ok (String.ofList (kept ++ more), rest)

/-- The key of a field. -/
def key : Reader String
  | '"' :: rest => quoted rest
  | text =>
    let isPart (c : Char) : Bool := c.isAlphanum || c == '_' || c == '-'
    match text.takeWhile isPart with
    | [] => .error .malformed
    | name => .ok (String.ofList name, text.dropWhile isPart)

mutual

/-- A value and the white space around it. -/
def value : (fuel : Nat) → Reader Setting
  | 0, _ => .error .malformed
  | fuel + 1, text =>
    let found : Except Trouble (Setting × List Char) :=
      match skip text with
      | 't' :: 'r' :: 'u' :: 'e' :: rest => .ok (.truth true, rest)
      | 'f' :: 'a' :: 'l' :: 's' :: 'e' :: rest => .ok (.truth false, rest)
      | '"' :: rest => (quoted rest).map fun (text, rest) => (.text text, rest)
      | '{' :: rest => (fields fuel rest).map fun (fields, rest) => (.table fields, rest)
      | '[' :: rest => (items fuel rest).map fun (items, rest) => (.list items, rest)
      | '\x27' :: c :: '\x27' :: rest => .ok (.text (String.ofList [c]), rest)
      | '\x27' :: _ => .error .malformed
      | text => .ok (bareValue (text.takeWhile isBare), text.dropWhile isBare)
    found.map fun (value, rest) => (value, skip rest)

/-- The items of a list up to its closing bracket. -/
def items : (fuel : Nat) → Reader (List Setting)
  | 0, _ => .error .malformed
  | _, ']' :: rest => .ok ([], rest)
  | fuel + 1, text => do
    let (first, rest) ← value fuel text
    match rest with
    | ',' :: rest => (items fuel rest).map fun (more, rest) => (first :: more, rest)
    | ']' :: rest => .ok ([first], rest)
    | _ => .error .malformed

/-- The fields of a table up to its closing brace. -/
def fields : (fuel : Nat) → Reader (List (String × Setting))
  | 0, _ => .error .malformed
  | _, '}' :: rest => .ok ([], rest)
  | fuel + 1, text => do
    let (name, rest) ← key (skip text)
    match skip rest with
    | '=' :: rest =>
      let (first, rest) ← value fuel rest
      match rest with
      | ',' :: rest =>
        (fields fuel rest).map fun (more, rest) => ((name, first) :: more, rest)
      | '}' :: rest => .ok ([(name, first)], rest)
      | _ => .error .malformed
    | _ => .error .malformed

end

/-- The value that the text of a variable stands for. What cannot be read otherwise is a text. A
text that would be cut within a character stands for nothing. -/
def read? (text : String) : Option Setting :=
  match value (2 * text.length + 4) text.toList with
  | .ok (value, []) => some value
  | .error .cutCharacter => none
  | _ => some (.text text)

end Relocate.Variable
