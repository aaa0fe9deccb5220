import Relocate.Text.Letter

/-!
How far each kind of token reaches in a source text. A scan starts at the first character of the
text at hand and never depends on what was read before it. A scan that meets an error still says
how many characters it used up, so that a reader can go on behind them.
-/

namespace Relocate.Source

/-- The character ends a line. -/
def isLineBreak (c : Char) : Bool :=
  c == '\n' || c == '\r' || c.toNat == 0x2028 || c.toNat == 0x2029

/-- The character separates tokens on a line. -/
def isSpace (c : Char) : Bool :=
  let n := c.toNat
  n == 0x20 || n == 9 || n == 11 || n == 12 || n == 0xA0 || n == 0xFEFF || n == 0x1680 ||
    (0x2000 ≤ n && n ≤ 0x200A) || n == 0x202F || n == 0x205F || n == 0x3000

/-- Where a run of blanks has got to. -/
inductive BlankState where
  | between
  | lineComment
  | blockComment

/-- The blanks at the start of a text: how many characters they are, and whether a line ends
before or among them. Besides spaces and comments they hold the comments of HTML: one starts with
`<!--` anywhere and one with `-->` at the start of a line, and both reach to the end of the line.
A block comment may end with the text. -/
def blanksFrom : BlankState → (count : Nat) → (sawBreak : Bool) → List Char → Nat × Bool
  | .between, count, sawBreak, '/' :: '/' :: rest =>
    blanksFrom .lineComment (count + 2) sawBreak rest
  | .between, count, sawBreak, '/' :: '*' :: rest =>
    blanksFrom .blockComment (count + 2) sawBreak rest
  | .between, count, sawBreak, '<' :: '!' :: '-' :: '-' :: rest =>
    blanksFrom .lineComment (count + 4) sawBreak rest
  | .between, count, true, '-' :: '-' :: '>' :: rest =>
    blanksFrom .lineComment (count + 3) true rest
  | .between, count, sawBreak, c :: rest =>
    if isLineBreak c then blanksFrom .between (count + 1) true rest
    else if isSpace c then blanksFrom .between (count + 1) sawBreak rest
    else (count, sawBreak)
  | .lineComment, count, sawBreak, c :: rest =>
    if isLineBreak c then blanksFrom .between (count + 1) true rest
    else blanksFrom .lineComment (count + 1) sawBreak rest
  | .blockComment, count, sawBreak, '*' :: '/' :: rest =>
    blanksFrom .between (count + 2) sawBreak rest
  | .blockComment, count, sawBreak, c :: rest =>
    blanksFrom .blockComment (count + 1) (sawBreak || isLineBreak c) rest
  | _, count, sawBreak, [] => (count, sawBreak)

/-- The character starts a name. -/
def startsName (c : Char) : Bool := c == '$' || c == '_' || Text.isLetter c

/-- The character continues a name. -/
def continuesName (c : Char) : Bool :=
  c == '$' || c == '_' || c.toNat == 0x200C || c.toNat == 0x200D || Text.isLetterOrMark c

/-- The text starts with a character of a name. -/
def startsWithName : List Char → Bool
  | c :: _ => startsName c
  | [] => false

/-- The character is a hexadecimal digit. -/
def isHexDigit (c : Char) : Bool :=
  c.isDigit || ('a' ≤ c && c ≤ 'f') || ('A' ≤ c && c ≤ 'F')

/-- The character is an octal digit. -/
def isOctalDigit (c : Char) : Bool := '0' ≤ c && c ≤ '7'

/-- The character is a binary digit. -/
def isBinaryDigit (c : Char) : Bool := c == '0' || c == '1'

/-- The value of a hexadecimal digit. -/
def hexValue (c : Char) : Nat :=
  if c.isDigit then c.toNat - 48 else if c.toNat < 97 then c.toNat - 55 else c.toNat - 87

/-- The value of a run of hexadecimal digits. -/
def hexNumber (digits : List Char) : Nat := digits.foldl (fun n c => 16 * n + hexValue c) 0

/-- A code point written behind `\u`, with the number of its characters: four hexadecimal digits,
or digits in braces. -/
def codePoint : List Char → Option (Char × Nat)
  | '{' :: rest =>
    let digits := rest.takeWhile isHexDigit
    match rest.drop digits.length with
    | '}' :: _ =>
      if digits.isEmpty || 0x10FFFF < hexNumber digits then none
      else some (Char.ofNat (hexNumber digits), digits.length + 2)
    | _ => none
  | a :: b :: c :: d :: _ =>
    if isHexDigit a && isHexDigit b && isHexDigit c && isHexDigit d then
      some (Char.ofNat (hexNumber [a, b, c, d]), 4)
    else none
  | _ => none

/-- A name as it is scanned. -/
structure NameScan where
  /-- The characters used up. -/
  count : Nat
  /-- The characters of the name with escapes resolved, the last one first. -/
  reversed : List Char
  /-- Some characters are escaped. -/
  escaped : Bool
  /-- An escape is malformed. -/
  faulty : Bool

/-- The rest of a name; `skipped` of the characters at hand belong to an escape that is already
counted. -/
def nameFrom : (skipped : Nat) → NameScan → List Char → NameScan
  | _, scan, [] => scan
  | skipped + 1, scan, _ :: rest => nameFrom skipped scan rest
  | 0, scan, c :: rest =>
    if continuesName c then
      nameFrom 0 { scan with count := scan.count + 1, reversed := c :: scan.reversed } rest
    else if c == '\\' then
      match rest with
      | 'u' :: digits =>
        match codePoint digits with
        | some (value, size) =>
          nameFrom (size + 1)
            ⟨scan.count + size + 2, value :: scan.reversed, true, scan.faulty⟩ rest
        | none => { scan with count := scan.count + 2, faulty := true }
      | _ => { scan with count := scan.count + 1, faulty := true }
    else scan

/-- A name, which may be a reserved word, at the start of a text that starts with one. -/
def nameAt (text : List Char) : NameScan := nameFrom 0 ⟨0, [], false, false⟩ text

/-- How an escape behind a backslash goes on. -/
inductive Escape where
  /-- So many characters belong to it. -/
  | taken (count : Nat)
  /-- An octal code, of which one character is looked at. -/
  | octal
  /-- It is malformed. -/
  | malformed

/-- The escape behind a backslash. -/
def escapeAt : List Char → Escape
  | [] => .malformed
  | 'x' :: a :: b :: _ => if isHexDigit a && isHexDigit b then .taken 3 else .malformed
  | 'x' :: _ => .malformed
  | 'u' :: digits =>
    match codePoint digits with
    | some (_, size) => .taken (size + 1)
    | none => .malformed
  | '\r' :: '\n' :: _ => .taken 2
  | ['0'] => .taken 1
  | '0' :: c :: _ => if isOctalDigit c then .octal else .taken 1
  | c :: _ => if isOctalDigit c then .octal else .taken 1

/-- How far a scan reached, and whether it met an error. -/
structure Extent where
  count : Nat
  faulty : Bool
  deriving DecidableEq, Repr

/-- Where a quoted literal has got to: `skipped` of the characters at hand belong to an escape that
is already counted. It ends behind the quote, before a line break that is not escaped, or with the
text. -/
def quotedFrom (quote : Char) : (skipped count : Nat) → List Char → Extent
  | _, count, [] => ⟨count, false⟩
  | skipped + 1, count, _ :: rest => quotedFrom quote skipped count rest
  | 0, count, c :: rest =>
    if c == quote then ⟨count + 1, false⟩
    else if c == '\n' || c == '\r' then ⟨count, false⟩
    else if c == '\\' then
      match escapeAt rest with
      | .taken size => quotedFrom quote size (count + size + 1) rest
      | .octal => quotedFrom quote 1 (count + 2) rest
      | .malformed => ⟨count + 1, true⟩
    else quotedFrom quote 0 (count + 1) rest

/-- How a piece of a template ends. -/
inductive TemplateEnd where
  /-- With the template. -/
  | closed
  /-- Before a substitution. -/
  | substitution
  /-- With the text, in the middle of the template. -/
  | missing
  deriving DecidableEq, Repr

/-- A piece of a template: the characters up to and with its end, and whether an escape in it is
malformed. -/
structure TemplatePiece where
  count : Nat
  ending : TemplateEnd
  faulty : Bool

/-- The piece of a template that goes on here; `skipped` of the characters at hand belong to an
escape that is already counted. -/
def templateFrom : (skipped count : Nat) → (faulty : Bool) → List Char → TemplatePiece
  | _, count, faulty, [] => ⟨count, .missing, faulty⟩
  | skipped + 1, count, faulty, _ :: rest => templateFrom skipped count faulty rest
  | 0, count, faulty, '`' :: _ => ⟨count + 1, .closed, faulty⟩
  | 0, count, faulty, '$' :: '{' :: _ => ⟨count + 2, .substitution, faulty⟩
  | 0, count, faulty, c :: rest =>
    if c == '\\' then
      match escapeAt rest with
      | .taken size => templateFrom size (count + size + 1) faulty rest
      | .octal => templateFrom 1 (count + 2) true rest
      | .malformed => templateFrom 1 (count + 2) true rest
    else templateFrom 0 (count + 1) faulty rest

/-- The body of a regular expression, with the slash that closes it. -/
def regexFrom : (inClass escaped : Bool) → (count : Nat) → List Char → Option Nat
  | _, _, _, [] => none
  | inClass, true, count, c :: rest =>
    if isLineBreak c then none else regexFrom inClass false (count + 1) rest
  | inClass, false, count, c :: rest =>
    if isLineBreak c then none
    else if c == '\\' then regexFrom inClass true (count + 1) rest
    else if c == '[' then regexFrom true false (count + 1) rest
    else if c == ']' then regexFrom false false (count + 1) rest
    else if c == '/' && !inClass then some (count + 1)
    else regexFrom inClass false (count + 1) rest

/-- A regular expression with its flags. -/
def regexAt : List Char → Option Nat
  | '/' :: rest =>
    match regexFrom false false 1 rest with
    | none => none
    | some count => some (nameFrom 0 ⟨count, [], false, false⟩ (rest.drop (count - 1))).count
  | _ => none

/-- A number as it is scanned. -/
inductive NumberScan where
  | number (count : Nat)
  /-- A number that ends in `n`. -/
  | big (count : Nat)
  | faulty (count : Nat)

/-- How many digits, with underscores between them, a text starts with. -/
def digitCount (isDigit : Char → Bool) (text : List Char) : Nat :=
  (text.takeWhile fun c => isDigit c || c == '_').length

/-- The number of `count` characters, unless a name runs on from it. -/
def endNumber (text : List Char) (count : Nat) : NumberScan :=
  if startsWithName (text.drop count) then .faulty count else .number count

/-- A number behind a radix mark such as `0x`. -/
def radixNumber (isDigit : Char → Bool) (text : List Char) : NumberScan :=
  match digitCount isDigit (text.drop 2) with
  | 0 => .faulty 2
  | digits =>
    if (text.drop (digits + 2)).head? == some 'n' then .big (digits + 3)
    else endNumber text (digits + 2)

/-- The exponent of a number whose `count` characters end before it. -/
def exponentNumber (text : List Char) (count : Nat) : NumberScan :=
  match text.drop count with
  | e :: rest =>
    if e == 'e' || e == 'E' then
      let signs := if rest.head? == some '+' || rest.head? == some '-' then 1 else 0
      match digitCount Char.isDigit (rest.drop signs) with
      | 0 => .faulty (count + signs + 1)
      | digits => endNumber text (count + signs + digits + 1)
    else endNumber text count
  | [] => .number count

/-- The fraction and the exponent of a number whose `count` characters end before them. -/
def fractionNumber (text : List Char) (count : Nat) : NumberScan :=
  match text.drop count with
  | '.' :: rest => exponentNumber text (count + 1 + digitCount Char.isDigit rest)
  | _ => exponentNumber text count

/-- A decimal number. With a zero in front of octal digits it is an octal number, which has no
fraction. -/
def decimalNumber (text : List Char) : NumberScan :=
  let whole := digitCount Char.isDigit text
  let digits := text.take whole
  let padded := 1 < whole && digits.head? == some '0'
  if (text.drop whole).head? == some 'n' then
    if padded then .faulty (whole + 1) else .big (whole + 1)
  else if padded && digits.all (fun c => isOctalDigit c || c == '_') then endNumber text whole
  else fractionNumber text whole

/-- The number at the start of a text that starts with a digit, or with a point and a digit. -/
def numberAt : List Char → NumberScan
  | text@('0' :: mark :: _) =>
    if mark == 'x' || mark == 'X' then radixNumber isHexDigit text
    else if mark == 'o' || mark == 'O' then radixNumber isOctalDigit text
    else if mark == 'b' || mark == 'B' then radixNumber isBinaryDigit text
    else decimalNumber text
  | text@('.' :: _) => fractionNumber text 0
  | text => decimalNumber text

/-- The line behind `#!` that names an interpreter. -/
def interpreterLine : List Char → Nat
  | '#' :: '!' :: rest => (rest.takeWhile fun c => !isLineBreak c).length + 2
  | _ => 0

end Relocate.Source
