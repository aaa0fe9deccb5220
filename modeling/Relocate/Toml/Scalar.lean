import Relocate.Settings.Setting
import Relocate.Text.Affix

/-!
The plain values of TOML: strings in their four forms, numbers, truth values, dates and times. A
reader returns what it found at the beginning of a text together with the rest of the text.
-/

namespace Relocate.Toml

/-- What is found at the beginning of a text, and the rest. -/
abbrev Reader (α : Type) := List Char → Option (α × List Char)

/-- The character may stand in a line: it is no control character other than the tab. -/
def isPlain (c : Char) : Bool := c == '\t' || (0x20 ≤ c.toNat && c.toNat != 0x7f)

/-- The value of a hexadecimal digit. -/
def hexDigit? (c : Char) : Option Nat :=
  if c.isDigit then some (c.toNat - 48)
  else if 'a' ≤ c && c ≤ 'f' then some (c.toNat - 87)
  else if 'A' ≤ c && c ≤ 'F' then some (c.toNat - 55)
  else none

/-- The character with the number that hexadecimal digits give. -/
def scalar? (digits : List Char) : Option Char :=
  (digits.mapM hexDigit?).bind fun values =>
    let n := values.foldl (fun n d => 16 * n + d) 0
    if n.isValidChar then some (Char.ofNat n) else none

/-- The character that an escape of one letter stands for. -/
def escape? : Char → Option Char
  | 'b' => some '\x08'
  | 't' => some '\t'
  | 'n' => some '\n'
  | 'f' => some '\x0c'
  | 'r' => some '\r'
  | '"' => some '"'
  | '\\' => some '\\'
  | _ => none

/-- Puts a character before what a reader found. -/
def before (c : Option Char) (found : Option (List Char × List Char)) :
    Option (List Char × List Char) :=
  c.bind fun c => found.map fun (text, rest) => (c :: text, rest)

/-- A string on one line, behind its opening quotation mark. -/
def basic : Reader (List Char)
  | [] => none
  | '"' :: rest => some ([], rest)
  | '\\' :: 'u' :: a :: b :: c :: d :: rest => before (scalar? [a, b, c, d]) (basic rest)
  | '\\' :: 'U' :: a :: b :: c :: d :: e :: f :: g :: h :: rest =>
    before (scalar? [a, b, c, d, e, f, g, h]) (basic rest)
  | '\\' :: c :: rest => before (escape? c) (basic rest)
  | c :: rest => if isPlain c then before (some c) (basic rest) else none

/-- A string on one line without escapes, behind its opening apostrophe. -/
def literal : Reader (List Char)
  | [] => none
  | '\x27' :: rest => some ([], rest)
  | c :: rest => if isPlain c then before (some c) (literal rest) else none

/-- The rest of the line is blank. -/
def endsLine (text : List Char) : Bool :=
  match text.dropWhile fun c => c == ' ' || c == '\t' with
  | '\n' :: _ => true
  | '\r' :: '\n' :: _ => true
  | _ => false

/-- A string on several lines, behind its opening marks. Behind a backslash at the end of a line
everything up to the next visible character is skipped. -/
def basicLines : (skipping : Bool) → Reader (List Char)
  | _, [] => none
  | true, ' ' :: rest | true, '\t' :: rest | true, '\n' :: rest => basicLines true rest
  | true, '\r' :: '\n' :: rest => basicLines true rest
  | _, '"' :: '"' :: '"' :: '"' :: '"' :: rest => some (['"', '"'], rest)
  | _, '"' :: '"' :: '"' :: '"' :: rest => some (['"'], rest)
  | _, '"' :: '"' :: '"' :: rest => some ([], rest)
  | _, '\\' :: 'u' :: a :: b :: c :: d :: rest =>
    before (scalar? [a, b, c, d]) (basicLines false rest)
  | _, '\\' :: 'U' :: a :: b :: c :: d :: e :: f :: g :: h :: rest =>
    before (scalar? [a, b, c, d, e, f, g, h]) (basicLines false rest)
  | _, '\\' :: c :: rest =>
    if endsLine (c :: rest) then basicLines true (c :: rest)
    else before (escape? c) (basicLines false rest)
  | _, '\n' :: rest => before (some '\n') (basicLines false rest)
  | _, '\r' :: '\n' :: rest => before (some '\r') (before (some '\n') (basicLines false rest))
  | _, c :: rest => if isPlain c then before (some c) (basicLines false rest) else none

/-- A string on several lines without escapes, behind its opening marks. -/
def literalLines : Reader (List Char)
  | [] => none
  | '\x27' :: '\x27' :: '\x27' :: '\x27' :: '\x27' :: rest => some (['\x27', '\x27'], rest)
  | '\x27' :: '\x27' :: '\x27' :: '\x27' :: rest => some (['\x27'], rest)
  | '\x27' :: '\x27' :: '\x27' :: rest => some ([], rest)
  | '\n' :: rest => before (some '\n') (literalLines rest)
  | '\r' :: '\n' :: rest => before (some '\r') (before (some '\n') (literalLines rest))
  | c :: rest => if isPlain c then before (some c) (literalLines rest) else none

/-- The text without a line break at its start. -/
def withoutBreak : List Char → List Char
  | '\n' :: rest => rest
  | '\r' :: '\n' :: rest => rest
  | text => text

/-- A string in any of its forms. -/
def string : Reader (List Char)
  | '"' :: '"' :: '"' :: rest => basicLines false (withoutBreak rest)
  | '\x27' :: '\x27' :: '\x27' :: rest => literalLines (withoutBreak rest)
  | '"' :: rest => basic rest
  | '\x27' :: rest => literal rest
  | _ => none

/-- Digits in groups that are divided by single underscores. -/
def grouped? (isDigit : Char → Bool) (text : List Char) : Option (List Char) :=
  let groups := Text.splitAt '_' text
  if groups.all fun group => !group.isEmpty && group.all isDigit then some groups.flatten else none

/-- Decimal digits without a superfluous zero at their start. -/
def counting? (text : List Char) : Option (List Char) :=
  (grouped? Char.isDigit text).filter fun digits => digits.head? != some '0' || digits.length == 1

/-- The number that digits give to a base. -/
def numberOf (base : Nat) (digits : List Char) : Option Nat :=
  (digits.mapM hexDigit?).map fun values => values.foldl (fun n d => base * n + d) 0

/-- The sign at the start of a number, and the rest. -/
def signed : List Char → Bool × List Char
  | '+' :: rest => (false, rest)
  | '-' :: rest => (true, rest)
  | text => (false, text)

/-- Two to the power of 63. -/
def wordLimit : Nat := 0x8000000000000000

/-- An integer, in the range of 64 bits. -/
def integer? (text : List Char) : Option Int :=
  let digit (base : Nat) (c : Char) : Bool := (hexDigit? c).any (· < base)
  let based (base : Nat) (digits : List Char) : Option Int :=
    ((grouped? (digit base) digits).bind (numberOf base)).map Int.ofNat
  let value :=
    match text with
    | '0' :: 'x' :: digits => based 16 digits
    | '0' :: 'o' :: digits => based 8 digits
    | '0' :: 'b' :: digits => based 2 digits
    | _ =>
      let (negative, digits) := signed text
      ((counting? digits).bind (numberOf 10)).map fun n => if negative then -Int.ofNat n else n
  value.filter fun n => decide (-(wordLimit : Int) ≤ n) && decide (n < wordLimit)

/-- The exponent of a number; zero where it has none. -/
def exponent? : List Char → Option Int
  | [] => some 0
  | c :: rest =>
    if c == 'e' || c == 'E' then
      let (negative, digits) := signed rest
      ((grouped? Char.isDigit digits).bind (numberOf 10)).map fun n =>
        if negative then -Int.ofNat n else n
    else none

/-- The least number that is too large for a word with a sign, eleven bits of exponent and 52 bits
of fraction: half a unit more than the largest one. -/
def decimalLimit : Nat := Nat.pow 2 1024 - Nat.pow 2 970

/-- A number that is read as a whole number times a power of ten is too large. -/
def isTooLarge (whole : Nat) (exponent : Int) : Bool :=
  let digits := (Nat.toDigits 10 whole).length
  if whole == 0 then false
  else
    match exponent with
    | .ofNat e => 310 < digits + e || decimalLimit ≤ whole * Nat.pow 10 e
    | .negSucc e => e + 309 ≤ digits && decimalLimit * Nat.pow 10 (e + 1) ≤ whole

/-- A number with a fraction or an exponent, or one that is none. A positive number must not be too
large. -/
def isDecimal (text : List Char) : Bool :=
  let (negative, text) := signed text
  if text == ['i', 'n', 'f'] || text == ['n', 'a', 'n'] then true
  else
    let isPart (c : Char) : Bool := c.isDigit || c == '_'
    let fits (digits : List Char) (exponent : Option Int) : Bool :=
      match numberOf 10 digits, exponent with
      | some whole, some exponent => negative || !isTooLarge whole exponent
      | _, _ => false
    match counting? (text.takeWhile isPart), text.dropWhile isPart with
    | some whole, '.' :: rest =>
      match grouped? Char.isDigit (rest.takeWhile isPart) with
      | some fraction =>
        fits (whole ++ fraction)
          ((exponent? (rest.dropWhile isPart)).map fun e => e - fraction.length)
      | none => false
    | some whole, c :: rest => fits whole (exponent? (c :: rest))
    | _, _ => false

/-- The number that two digits give, if it is in a range. -/
def isBetween (low high : Nat) (a b : Char) : Bool :=
  a.isDigit && b.isDigit &&
    let n := 10 * (a.toNat - 48) + (b.toNat - 48)
    decide (low ≤ n) && decide (n ≤ high)

/-- The number of days of a month. -/
def daysIn (year month : Nat) : Nat :=
  if month == 2 then
    if year % 4 == 0 && (year % 100 != 0 || year % 400 == 0) then 29 else 28
  else if [4, 6, 9, 11].contains month then 30
  else 31

/-- A date, `yyyy-mm-dd`. -/
def isDate : List Char → Bool
  | [a, b, c, d, '-', e, f, '-', g, h] =>
    match numberOf 10 [a, b, c, d], numberOf 10 [e, f] with
    | some year, some month =>
      [a, b, c, d].all Char.isDigit && isBetween 1 12 e f && isBetween 1 (daysIn year month) g h
    | _, _ => false
  | _ => false

/-- How far a time is from that of Greenwich. -/
def isOffset : List Char → Bool
  | [] | ['Z'] | ['z'] => true
  | [sign, a, b, ':', c, d] =>
    (sign == '+' || sign == '-') && isBetween 0 23 a b && isBetween 0 59 c d
  | _ => false

/-- A time, `hh:mm:ss` with or without a fraction, and what may follow it. -/
def isTime (isEnd : List Char → Bool) : List Char → Bool
  | a :: b :: ':' :: c :: d :: ':' :: e :: f :: rest =>
    isBetween 0 23 a b && isBetween 0 59 c d && isBetween 0 60 e f &&
      match rest with
      | '.' :: fraction =>
        !(fraction.takeWhile Char.isDigit).isEmpty && isEnd (fraction.dropWhile Char.isDigit)
      | _ => isEnd rest
  | _ => false

/-- A date, a time, or both with a letter between them. -/
def isMoment (text : List Char) : Bool :=
  isDate text || isTime List.isEmpty text ||
    (isDate (text.take 10) &&
      match text.drop 10 with
      | c :: time => (c == 'T' || c == 't') && isTime isOffset time
      | [] => false)

/-- The character may stand in a number, a truth value, a date or a time. -/
def isWordPart (c : Char) : Bool := c.isAlphanum || ['+', '-', '_', '.', ':'].contains c

/-- A date or a time, which is taken for a table with one field. -/
def moment (text : List Char) : Setting :=
  .table [("$__toml_private_datetime", .text (String.ofList text))]

/-- The value that a word stands for. -/
def wordValue? (word : List Char) : Option Setting :=
  if word == ['t', 'r', 'u', 'e'] then some (.truth true)
  else if word == ['f', 'a', 'l', 's', 'e'] then some (.truth false)
  else
    match integer? word with
    | some n => some (.integer n)
    | none =>
      if isDecimal word then some .other else if isMoment word then some (moment word) else none

/-- A number, a truth value, a date or a time. A time may follow its date behind a blank. -/
def word : Reader Setting := fun text =>
  let first := text.takeWhile isWordPart
  let rest := text.dropWhile isWordPart
  match isDate first, rest with
  | true, ' ' :: c :: more =>
    let time := (c :: more).takeWhile isWordPart
    if c.isDigit then
      if isTime isOffset time then
        some (moment (first ++ 'T' :: time), (c :: more).dropWhile isWordPart)
      else none
    else some (moment first, rest)
  | _, _ => (wordValue? first).map fun value => (value, rest)

end Relocate.Toml
