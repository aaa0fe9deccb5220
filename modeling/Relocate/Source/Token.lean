import Relocate.Source.Scan

/-!
The tokens of a source text. A token that the text spells wrongly is a fault: it takes up some
characters, and no rule accepts it.
-/

namespace Relocate.Source

/-- A token. -/
inductive Token where
  /-- The end of the text. -/
  | stop
  /-- Punctuation. -/
  | mark (text : String)
  /-- A name or a reserved word, with escapes resolved. -/
  | word (text : String)
  | string
  | number
  /-- A whole number that ends in `n`. -/
  | bigNumber
  /-- A template without substitutions, or its text up to the first one. -/
  | template (ending : TemplateEnd) (faulty : Bool)
  /-- The mark before a private name. -/
  | hash
  /-- Characters that are no token. -/
  | fault
  deriving DecidableEq, Repr

namespace Token

/-- The words that are reserved everywhere. -/
def keywords : List String :=
  ["break", "case", "catch", "class", "const", "continue", "debugger", "default", "delete", "do",
    "else", "export", "extends", "false", "finally", "for", "function", "if", "import", "in",
    "instanceof", "new", "null", "return", "super", "switch", "this", "throw", "true", "try",
    "typeof", "var", "void", "while", "with"]

/-- The words that are reserved because a module is in strict mode. A declaration may still use
them as its name. -/
def strictWords : List String :=
  ["enum", "implements", "interface", "let", "package", "private", "protected", "public", "static",
    "yield"]

/-- The word cannot be used as a name in an expression. -/
def isReserved (word : String) : Bool := keywords.contains word || strictWords.contains word

/-- The marks that join two operands. -/
def binaryMarks : List String :=
  ["==", "!=", "===", "!==", "<", "<=", ">", ">=", "<<", ">>", ">>>", "+", "-", "*", "/", "%", "|",
    "^", "&", "||", "&&", "**", "??"]

/-- The marks that assign. -/
def assignmentMarks : List String :=
  ["=", "+=", "-=", "*=", "/=", "%=", "<<=", ">>=", ">>>=", "|=", "^=", "&=", "**=", "&&=", "||=",
    "??="]

/-- How tightly a binary operator holds its operands. -/
def precedence : String → Nat
  | "??" | "||" => 1
  | "&&" => 2
  | "|" => 3
  | "^" => 4
  | "&" => 5
  | "==" | "!=" | "===" | "!==" => 6
  | "<" | "<=" | ">" | ">=" | "in" | "instanceof" => 7
  | "<<" | ">>" | ">>>" => 8
  | "+" | "-" => 9
  | "*" | "/" | "%" => 10
  | "**" => 11
  | _ => 0

/-- The token is a word. -/
def isWord : Token → Bool
  | .word _ => true
  | _ => false

/-- The token is a word that an expression can use as a name. -/
def isName : Token → Bool
  | .word text => !isReserved text
  | _ => false

/-- The token joins two operands and is no word. -/
def isBinary : Token → Bool
  | .mark text => binaryMarks.contains text
  | _ => false

/-- The token assigns. -/
def isAssignment : Token → Bool
  | .mark text => assignmentMarks.contains text
  | _ => false

/-- The token starts a template. -/
def isTemplate : Token → Bool
  | .template .. => true
  | _ => false

/-- The word makes a declaration of the `let` before it. -/
def followsLet : Token → Bool
  | .word text =>
    !keywords.contains text || ["yield", "let", "async"].contains text
  | .mark text => text == "[" || text == "\x7b"
  | _ => false

/-- The token can start an expression. -/
def startsExpression : Token → Bool
  | .word text =>
    !keywords.contains text ||
      ["class", "delete", "false", "function", "import", "new", "null", "super", "this", "true",
        "typeof", "void"].contains text
  | .mark text =>
    ["(", "[", "\x7b", "+", "-", "!", "~", "++", "--", "/", "/=", "<", "@"].contains text
  | .string | .number | .bigNumber | .template .. | .hash => true
  | .stop | .fault => false

end Token

/-- The longest punctuation at the start of a text. -/
def markAt : List Char → Option String
  | '.' :: '.' :: '.' :: _ => some "..."
  | '.' :: _ => some "."
  | '?' :: '?' :: '=' :: _ => some "??="
  | '?' :: '?' :: _ => some "??"
  | '?' :: '.' :: c :: _ => if c.isDigit then some "?" else some "?."
  | ['?', '.'] => some "?."
  | '?' :: _ => some "?"
  | '<' :: '<' :: '=' :: _ => some "<<="
  | '<' :: '<' :: _ => some "<<"
  | '<' :: '=' :: _ => some "<="
  | '<' :: _ => some "<"
  | '>' :: '>' :: '>' :: '=' :: _ => some ">>>="
  | '>' :: '>' :: '>' :: _ => some ">>>"
  | '>' :: '>' :: '=' :: _ => some ">>="
  | '>' :: '>' :: _ => some ">>"
  | '>' :: '=' :: _ => some ">="
  | '>' :: _ => some ">"
  | '=' :: '=' :: '=' :: _ => some "==="
  | '=' :: '=' :: _ => some "=="
  | '=' :: '>' :: _ => some "=>"
  | '=' :: _ => some "="
  | '!' :: '=' :: '=' :: _ => some "!=="
  | '!' :: '=' :: _ => some "!="
  | '!' :: _ => some "!"
  | '+' :: '+' :: _ => some "++"
  | '+' :: '=' :: _ => some "+="
  | '+' :: _ => some "+"
  | '-' :: '-' :: _ => some "--"
  | '-' :: '=' :: _ => some "-="
  | '-' :: _ => some "-"
  | '*' :: '*' :: '=' :: _ => some "**="
  | '*' :: '*' :: _ => some "**"
  | '*' :: '=' :: _ => some "*="
  | '*' :: _ => some "*"
  | '/' :: '=' :: _ => some "/="
  | '/' :: _ => some "/"
  | '%' :: '=' :: _ => some "%="
  | '%' :: _ => some "%"
  | '&' :: '&' :: '=' :: _ => some "&&="
  | '&' :: '&' :: _ => some "&&"
  | '&' :: '=' :: _ => some "&="
  | '&' :: _ => some "&"
  | '|' :: '|' :: '=' :: _ => some "||="
  | '|' :: '|' :: _ => some "||"
  | '|' :: '=' :: _ => some "|="
  | '|' :: _ => some "|"
  | '^' :: '=' :: _ => some "^="
  | '^' :: _ => some "^"
  | c :: _ =>
    if ['(', ')', '[', ']', '{', '}', ';', ',', '~', ':', '@'].contains c then
      some (String.singleton c)
    else none
  | [] => none

/-- The word of a scanned name. A reserved word must not be written with an escape; as the first
token of a text only the words that are reserved everywhere are. -/
def wordToken (isFirst : Bool) (scan : NameScan) : Token :=
  let text := String.ofList scan.reversed.reverse
  if scan.faulty then .fault
  else if scan.escaped &&
      (if isFirst then Token.keywords.contains text else Token.isReserved text) then .fault
  else .word text

/-- The token at the start of a text that starts with no blank, and the number of its characters.
The end of the text has none. -/
def tokenAt (isFirst : Bool) : List Char → Token × Nat
  | [] => (.stop, 0)
  | c :: rest =>
    if startsName c || c == '\\' then
      let scan := nameAt (c :: rest)
      (wordToken isFirst scan, scan.count)
    else if c.isDigit || (c == '.' && (rest.head?.any Char.isDigit)) then
      match numberAt (c :: rest) with
      | .number count => (.number, count)
      | .big count => (.bigNumber, count)
      | .faulty count => (.fault, count)
    else if c == '\'' || c == '"' then
      let extent := quotedFrom c 0 1 rest
      (if extent.faulty then .fault else .string, extent.count)
    else if c == '`' then
      let piece := templateFrom 0 1 false rest
      (if piece.ending == .missing then .fault else .template piece.ending piece.faulty,
        piece.count)
    else if c == '#' then (.hash, 1)
    else
      match markAt (c :: rest) with
      | some text => (.mark text, text.length)
      | none => (.fault, 1)

/-- The character starts and ends a string literal. -/
def IsQuote (q : Char) : Prop := q = '\'' ∨ q = '"'

theorem IsQuote.utf8Size {q : Char} (hq : IsQuote q) : q.utf8Size = 1 := by
  rcases hq with rfl | rfl <;> rfl

/-- The token of a name is a word or a fault. -/
theorem wordToken_ne_string (isFirst : Bool) (scan : NameScan) :
    wordToken isFirst scan ≠ .string := by
  unfold wordToken
  dsimp only
  split
  · exact Token.noConfusion
  · split
    · split <;> exact Token.noConfusion
    · split <;> exact Token.noConfusion

/-- A string starts with its quote. -/
theorem exists_quote_of_tokenAt {isFirst : Bool} {text : List Char}
    (h : (tokenAt isFirst text).1 = .string) : ∃ q after, text = q :: after ∧ IsQuote q := by
  cases text with
  | nil => cases h
  | cons c rest =>
    rw [tokenAt] at h
    split at h
    · exact absurd h (wordToken_ne_string isFirst _)
    · split at h
      · split at h <;> cases h
      · split at h
        · rename_i hquote
          refine ⟨c, rest, rfl, ?_⟩
          simpa [IsQuote] using hquote
        · split at h
          · dsimp only at h
            split at h <;> cases h
          · split at h
            · cases h
            · split at h <;> cases h

end Relocate.Source
