import Relocate.Text.Affix

/-!
The tokens of JSON. A text is read one character at a time; strings and numbers are kept as they
are written, so that a value that nobody asks for is checked for its form only.
-/

namespace Relocate.Json

/-- A token of JSON. -/
inductive Token where
  | openBrace
  | closeBrace
  | openBracket
  | closeBracket
  | colon
  | comma
  | null
  | bool (value : Bool)
  /-- A number, as written. -/
  | number (text : List Char)
  /-- A string, as written between its quotes. -/
  | string (text : List Char)
  deriving DecidableEq, Repr

/-- The character is white space between tokens. -/
def isGap (c : Char) : Bool := c == ' ' || c == '\t' || c == '\n' || c == '\r'

/-- The character is a hexadecimal digit. -/
def isHex (c : Char) : Bool := c.isDigit || ('a' ≤ c && c ≤ 'f') || ('A' ≤ c && c ≤ 'F')

/-- At least one digit, and nothing else. -/
def isDigits (text : List Char) : Bool := !text.isEmpty && text.all Char.isDigit

/-- A whole number without needless zeros. -/
def isWhole : List Char → Bool
  | ['0'] => true
  | '0' :: _ => false
  | text => isDigits text

/-- Nothing, or an exponent. -/
def isExponent : List Char → Bool
  | [] => true
  | e :: '+' :: digits => (e == 'e' || e == 'E') && isDigits digits
  | e :: '-' :: digits => (e == 'e' || e == 'E') && isDigits digits
  | e :: digits => (e == 'e' || e == 'E') && isDigits digits

/-- Nothing, or a fraction and perhaps an exponent. -/
def isFraction : List Char → Bool
  | '.' :: rest =>
    isDigits (rest.takeWhile Char.isDigit) && isExponent (rest.dropWhile Char.isDigit)
  | rest => isExponent rest

/-- A number without a sign. -/
def isUnsigned (text : List Char) : Bool :=
  isWhole (text.takeWhile Char.isDigit) && isFraction (text.dropWhile Char.isDigit)

/-- A number. -/
def isNumber : List Char → Bool
  | '-' :: text => isUnsigned text
  | text => isUnsigned text

/-- The token written as a run of letters, digits and signs. -/
def Token.ofWord? (text : List Char) : Option Token :=
  if text = ['n', 'u', 'l', 'l'] then some .null
  else if text = ['t', 'r', 'u', 'e'] then some (.bool true)
  else if text = ['f', 'a', 'l', 's', 'e'] then some (.bool false)
  else if isNumber text then some (.number text)
  else none

/-- The token written as a single mark. -/
def Token.ofMark? : Char → Option Token
  | '{' => some .openBrace
  | '}' => some .closeBrace
  | '[' => some .openBracket
  | ']' => some .closeBracket
  | ':' => some .colon
  | ',' => some .comma
  | _ => none

/-- The character belongs to a word. -/
def isWordChar (c : Char) : Bool := c.isAlphanum || c == '-' || c == '+' || c == '.'

/-- Where the reading of tokens stands; what is read of a token is held backwards. -/
inductive Reading where
  | between
  | word (read : List Char)
  | string (read : List Char)
  /-- Behind a backslash. -/
  | escape (read : List Char)
  /-- Within a code point, of which so many digits are missing. -/
  | code (missing : Nat) (read : List Char)

/-- Reads a character that starts a token or separates two. -/
def startToken (tokens : List Token) (c : Char) : Option (Reading × List Token) :=
  if isGap c then some (.between, tokens)
  else if c == '"' then some (.string [], tokens)
  else if isWordChar c then some (.word [c], tokens)
  else (Token.ofMark? c).map fun token => (.between, token :: tokens)

/-- Reads one character; the tokens read so far are held backwards. -/
def readChar : Reading × List Token → Char → Option (Reading × List Token)
  | (.between, tokens), c => startToken tokens c
  | (.word read, tokens), c =>
    if isWordChar c then some (.word (c :: read), tokens)
    else (Token.ofWord? read.reverse).bind fun token => startToken (token :: tokens) c
  | (.string read, tokens), c =>
    if c == '"' then some (.between, .string read.reverse :: tokens)
    else if c == '\\' then some (.escape (c :: read), tokens)
    else if c.toNat < 0x20 then none
    else some (.string (c :: read), tokens)
  | (.escape read, tokens), c =>
    if c == 'u' then some (.code 4 (c :: read), tokens)
    else if "\"\\/bfnrt".toList.contains c then some (.string (c :: read), tokens)
    else none
  | (.code missing read, tokens), c =>
    if isHex c then
      if missing ≤ 1 then some (.string (c :: read), tokens)
      else some (.code (missing - 1) (c :: read), tokens)
    else none

/-- The tokens of a text that ends here. -/
def endTokens : Reading × List Token → Option (List Token)
  | (.between, tokens) => some tokens.reverse
  | (.word read, tokens) => (Token.ofWord? read.reverse).map fun token => (token :: tokens).reverse
  | _ => none

/-- The tokens of a text. -/
def tokens? (text : List Char) : Option (List Token) :=
  (text.foldlM readChar (.between, [])).bind endTokens

end Relocate.Json
