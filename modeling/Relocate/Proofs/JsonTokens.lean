import Mathlib.Data.List.Chain
import Relocate.Json.Token
import Relocate.Text.Blank

/-! # Texts of JSON tokens

A text is made up of lexemes: tokens, and white space and comments between them.  `Token.Valid` says
which numbers and strings there are, by the grammar of JSON and not by what reading checks, and
`Token.text` how each token is written.

Without comments a text is read token by token (`tokens?_textOf`).  A word, such as `null` or `1`,
is over only where something else begins, so no two words may be next to each other (`Token.Apart`).
-/

namespace Relocate.Json

/-! ## Numbers and strings -/

/-- One digit or more. -/
def Digits (text : List Char) : Prop := text ≠ [] ∧ ∀ c ∈ text, c.isDigit = true

/-- A whole number without needless zeros. -/
def WholeText (text : List Char) : Prop := text = ['0'] ∨ Digits text ∧ text.head? ≠ some '0'

/-- Nothing, or a point and digits. -/
def FractionText (text : List Char) : Prop :=
  text = [] ∨ ∃ digits, Digits digits ∧ text = '.' :: digits

/-- Nothing, or the letter of an exponent, a sign or none, and digits. -/
def ExponentText (text : List Char) : Prop :=
  text = [] ∨ ∃ e sign digits, (e = 'e' ∨ e = 'E') ∧ (sign = [] ∨ sign = ['+'] ∨ sign = ['-']) ∧
    Digits digits ∧ text = e :: sign ++ digits

/-- A number. -/
inductive NumberText : List Char → Prop
  | intro {sign whole fraction exponent : List Char} (hsign : sign = [] ∨ sign = ['-'])
      (hwhole : WholeText whole) (hfraction : FractionText fraction)
      (hexponent : ExponentText exponent) :
      NumberText (sign ++ (whole ++ (fraction ++ exponent)))

/-- What stands between the quotation marks of a string. -/
inductive StringText : List Char → Prop
  | nil : StringText []
  | plain {c : Char} {rest : List Char} (hquote : c ≠ '"') (hescape : c ≠ '\\')
      (hcontrol : 0x20 ≤ c.toNat) (hrest : StringText rest) : StringText (c :: rest)
  | escape {c : Char} {rest : List Char} (hc : c ∈ ['"', '\\', '/', 'b', 'f', 'n', 'r', 't'])
      (hrest : StringText rest) : StringText ('\\' :: c :: rest)
  | code {a b c d : Char} {rest : List Char} (ha : isHex a = true) (hb : isHex b = true)
      (hc : isHex c = true) (hd : isHex d = true) (hrest : StringText rest) :
      StringText ('\\' :: 'u' :: a :: b :: c :: d :: rest)

namespace Token

/-- A token as it is written. -/
def text : Token → List Char
  | openBrace => ['{']
  | closeBrace => ['}']
  | openBracket => ['[']
  | closeBracket => [']']
  | colon => [':']
  | comma => [',']
  | null => ['n', 'u', 'l', 'l']
  | bool true => ['t', 'r', 'u', 'e']
  | bool false => ['f', 'a', 'l', 's', 'e']
  | number text => text
  | string text => '"' :: text ++ ['"']

/-- The token is one of JSON. -/
def Valid : Token → Prop
  | number text => NumberText text
  | string text => StringText text
  | _ => True

/-- The token is written as a word. -/
def isWord : Token → Bool
  | null | bool _ | number _ => true
  | _ => false

/-- The token closes an object or an array. -/
def closes : Token → Bool
  | closeBrace | closeBracket => true
  | _ => false

/-- Of the two tokens one at most is a word. -/
def Apart (token next : Token) : Prop := token.isWord = false ∨ next.isWord = false

end Token

/-! ## Reading numbers -/

/-- What is of a kind is nothing that is not. -/
theorem ne_of_kind {α : Type} {kind : α → Bool} {a b : α} (ha : kind a = true)
    (hb : kind b = false) : a ≠ b := by
  rintro rfl
  rw [ha] at hb
  cases hb

theorem Digits.isDigits {digits : List Char} (h : Digits digits) : isDigits digits = true := by
  obtain ⟨hne, hall⟩ := h
  rw [Json.isDigits, Bool.and_eq_true, List.all_eq_true]
  exact ⟨by simpa using hne, hall⟩

/-- Digits in front of something else are told apart from it. -/
theorem Digits.span {digits : List Char} (h : Digits digits) {rest : List Char}
    (hrest : ∀ c ∈ rest.head?, c.isDigit = false) :
    (digits ++ rest).takeWhile Char.isDigit = digits ∧
      (digits ++ rest).dropWhile Char.isDigit = rest := by
  rw [List.takeWhile_append_of_pos h.2, List.dropWhile_append_of_pos h.2]
  cases rest with
  | nil => exact ⟨List.append_nil _, rfl⟩
  | cons c rest =>
    have hc : ¬ c.isDigit = true := by simpa using hrest c rfl
    rw [List.takeWhile_cons_of_neg hc, List.dropWhile_cons_of_neg hc]
    exact ⟨List.append_nil _, rfl⟩

theorem Digits.exists_cons {digits : List Char} (h : Digits digits) :
    ∃ c rest, digits = c :: rest ∧ c.isDigit = true := by
  obtain ⟨c, rest, rfl⟩ := List.exists_cons_of_ne_nil h.1
  exact ⟨c, rest, rfl, h.2 c List.mem_cons_self⟩

theorem ExponentText.isExponent {text : List Char} (h : ExponentText text) :
    isExponent text = true := by
  rcases h with rfl | ⟨e, sign, digits, he, hsign, hdigits, rfl⟩
  · rfl
  · have hletter : (e == 'e' || e == 'E') = true := by simpa using he
    rcases hsign with rfl | rfl | rfl
    · obtain ⟨c, rest, rfl, hc⟩ := hdigits.exists_cons
      have hplus : c ≠ '+' := ne_of_kind hc (by decide)
      have hminus : c ≠ '-' := ne_of_kind hc (by decide)
      simp [Json.isExponent, hplus, hminus, hletter, hdigits.isDigits]
    · simp [Json.isExponent, hletter, hdigits.isDigits]
    · simp [Json.isExponent, hletter, hdigits.isDigits]

theorem ExponentText.head {text : List Char} (h : ExponentText text) :
    ∀ c ∈ text.head?, c.isDigit = false ∧ c ≠ '.' := by
  rcases h with rfl | ⟨e, sign, digits, rfl | rfl, -, -, rfl⟩
  · simp
  · simp
  · simp

theorem FractionText.isFraction {fraction exponent : List Char} (h : FractionText fraction)
    (hexponent : ExponentText exponent) : isFraction (fraction ++ exponent) = true := by
  rcases h with rfl | ⟨digits, hdigits, rfl⟩
  · rw [List.nil_append]
    unfold Json.isFraction
    split
    · rename_i rest
      exact absurd rfl (hexponent.head '.' rfl).2
    · exact hexponent.isExponent
  · obtain ⟨htake, hdrop⟩ := hdigits.span fun c hc => (hexponent.head c hc).1
    rw [List.cons_append, Json.isFraction, htake, hdrop, hdigits.isDigits, hexponent.isExponent]
    rfl

theorem FractionText.head {fraction exponent : List Char} (h : FractionText fraction)
    (hexponent : ExponentText exponent) :
    ∀ c ∈ (fraction ++ exponent).head?, c.isDigit = false := by
  rcases h with rfl | ⟨digits, -, rfl⟩
  · exact fun c hc => (hexponent.head c hc).1
  · simp

theorem WholeText.digits {whole : List Char} (h : WholeText whole) : Digits whole := by
  rcases h with rfl | ⟨hdigits, -⟩
  · exact ⟨by simp, by simp⟩
  · exact hdigits

theorem WholeText.isWhole {whole : List Char} (h : WholeText whole) : isWhole whole = true := by
  rcases h with rfl | ⟨hdigits, hhead⟩
  · rfl
  · unfold Json.isWhole
    split
    · rfl
    · simp at hhead
    · exact hdigits.isDigits

/-- **Every number is read as a number.** -/
theorem NumberText.isNumber {text : List Char} (h : NumberText text) : isNumber text = true := by
  obtain @⟨sign, whole, fraction, exponent, hsign, hwhole, hfraction, hexponent⟩ := h
  obtain ⟨htake, hdrop⟩ := hwhole.digits.span (hfraction.head hexponent)
  have hunsigned : isUnsigned (whole ++ (fraction ++ exponent)) = true := by
    rw [isUnsigned, htake, hdrop, hwhole.isWhole, hfraction.isFraction hexponent]
    rfl
  rcases hsign with rfl | rfl
  · rw [List.nil_append]
    unfold Json.isNumber
    split
    · rename_i rest hminus
      obtain ⟨c, more, rfl, hc⟩ := hwhole.digits.exists_cons
      exact absurd (List.cons.inj hminus).1 (ne_of_kind hc (by decide))
    · exact hunsigned
  · exact hunsigned

theorem Digits.isWordChar {digits : List Char} (h : Digits digits) :
    ∀ c ∈ digits, isWordChar c = true := by
  intro c hc
  simp [Json.isWordChar, Char.isAlphanum, h.2 c hc]

theorem FractionText.isWordChar {fraction : List Char} (h : FractionText fraction) :
    ∀ c ∈ fraction, isWordChar c = true := by
  rcases h with rfl | ⟨digits, hdigits, rfl⟩
  · simp
  · exact List.forall_mem_cons.2 ⟨by decide, hdigits.isWordChar⟩

theorem ExponentText.isWordChar {exponent : List Char} (h : ExponentText exponent) :
    ∀ c ∈ exponent, isWordChar c = true := by
  rcases h with rfl | ⟨e, sign, digits, he, hsign, hdigits, rfl⟩
  · simp
  · rw [List.cons_append, List.forall_mem_cons, List.forall_mem_append]
    refine ⟨?_, ?_, hdigits.isWordChar⟩
    · rcases he with rfl | rfl
      · decide
      · decide
    · rcases hsign with rfl | rfl | rfl
      · simp
      · exact List.forall_mem_singleton.2 (by decide)
      · exact List.forall_mem_singleton.2 (by decide)

/-- A number is written as a word. -/
theorem NumberText.isWordChar {text : List Char} (h : NumberText text) :
    ∀ c ∈ text, isWordChar c = true := by
  obtain @⟨sign, whole, fraction, exponent, hsign, hwhole, hfraction, hexponent⟩ := h
  rw [List.forall_mem_append, List.forall_mem_append, List.forall_mem_append]
  refine ⟨?_, hwhole.digits.isWordChar, hfraction.isWordChar, hexponent.isWordChar⟩
  rcases hsign with rfl | rfl
  · simp
  · exact List.forall_mem_singleton.2 (by decide)

theorem NumberText.ne_nil {text : List Char} (h : NumberText text) : text ≠ [] := by
  obtain @⟨sign, whole, fraction, exponent, hsign, hwhole, hfraction, hexponent⟩ := h
  simp [hwhole.digits.1]

theorem NumberText.ofWord? {text : List Char} (h : NumberText text) :
    Token.ofWord? text = some (.number text) := by
  have hnumber := h.isNumber
  rw [Token.ofWord?, if_neg (ne_of_kind hnumber (by decide)),
    if_neg (ne_of_kind hnumber (by decide)), if_neg (ne_of_kind hnumber (by decide)),
    if_pos hnumber]

/-! ## Reading tokens -/

/-- The tokens that reading a text comes to, from where it stands. -/
def readFrom (state : Reading × List Token) (text : List Char) : Option (List Token) :=
  (text.foldlM readChar state).bind endTokens

theorem readFrom_cons (state : Reading × List Token) (c : Char) (rest : List Char) :
    readFrom state (c :: rest) = (readChar state c).bind fun next => readFrom next rest := by
  rw [readFrom, List.foldlM_cons]
  cases readChar state c <;> rfl

section

variable {c : Char} {rest : List Char} {read : List Token} {token : Token}

theorem readFrom_blank (h : isGap c = true) :
    readFrom (.between, read) (c :: rest) = readFrom (.between, read) rest := by
  rw [readFrom_cons, readChar, startToken, if_pos h, Option.bind_some]

/-- A mark is no white space, no quotation mark and no part of a word. -/
theorem of_ofMark? (h : Token.ofMark? c = some token) :
    isGap c = false ∧ (c == '"') = false ∧ isWordChar c = false ∧ token.text = [c] := by
  unfold Token.ofMark? at h
  split at h <;> first | cases h; decide | cases h

theorem readFrom_mark (h : Token.ofMark? c = some token) :
    readFrom (.between, read) (c :: rest) = readFrom (.between, token :: read) rest := by
  obtain ⟨hgap, hquote, hword, -⟩ := of_ofMark? h
  rw [readFrom_cons, readChar, startToken, hgap, hquote, hword, h]
  rfl

/-- Part of a word is no white space and no quotation mark. -/
theorem of_isWordChar (h : isWordChar c = true) : isGap c = false ∧ (c == '"') = false := by
  have hne : ∀ d, isWordChar d = false → (c == d) = false :=
    fun d hd => beq_false_of_ne (ne_of_kind h hd)
  refine ⟨?_, hne _ (by decide)⟩
  rw [isGap, hne _ (by decide), hne _ (by decide), hne _ (by decide), hne _ (by decide)]
  rfl

/-- Within a word the characters are kept until it is over. -/
theorem readFrom_within {word : List Char} (h : ∀ c ∈ word, isWordChar c = true)
    (front : List Char) : readFrom (.word front, read) (word ++ rest) =
      readFrom (.word (word.reverse ++ front), read) rest := by
  induction word generalizing front with
  | nil => rfl
  | cons c word ih =>
    rw [List.forall_mem_cons] at h
    rw [List.cons_append, readFrom_cons, readChar, if_pos h.1, Option.bind_some, ih h.2,
      List.reverse_cons, List.append_assoc]
    rfl

/-- A word is over at the end of the text or at the first character that is no part of it. -/
theorem readFrom_behind {front : List Char} (hword : Token.ofWord? front.reverse = some token)
    (hrest : ∀ c ∈ rest.head?, isWordChar c = false) :
    readFrom (.word front, read) rest = readFrom (.between, token :: read) rest := by
  cases rest with
  | nil =>
    show (Token.ofWord? front.reverse).map (fun token => (token :: read).reverse) = _
    rw [hword]
    rfl
  | cons c rest =>
    have hstep : readChar (.word front, read) c = startToken (token :: read) c := by
      rw [readChar, hrest c rfl, if_neg (by simp), hword, Option.bind_some]
    rw [readFrom_cons, readFrom_cons, hstep]
    rfl

theorem readFrom_word {word : List Char} (h : ∀ c ∈ word, isWordChar c = true) (hne : word ≠ [])
    (hword : Token.ofWord? word = some token) (hrest : ∀ c ∈ rest.head?, isWordChar c = false) :
    readFrom (.between, read) (word ++ rest) = readFrom (.between, token :: read) rest := by
  obtain ⟨c, more, rfl⟩ := List.exists_cons_of_ne_nil hne
  rw [List.forall_mem_cons] at h
  obtain ⟨hgap, hquote⟩ := of_isWordChar h.1
  have hstart : readFrom (.between, read) (c :: more ++ rest) =
      readFrom (.word [c], read) (more ++ rest) := by
    rw [List.cons_append, readFrom_cons, readChar, startToken, hgap, hquote, h.1]
    rfl
  rw [hstart, readFrom_within h.2]
  exact readFrom_behind (by simpa using hword) hrest

/-- A digit of a code point is kept; the last one leads back into the string. -/
theorem readFrom_code (missing : Nat) (front : List Char) (h : isHex c = true) :
    readFrom (.code (missing + 1) front, read) (c :: rest) =
      readFrom (if missing = 0 then .string (c :: front) else .code missing (c :: front), read)
        rest := by
  rw [readFrom_cons, readChar, if_pos h]
  cases missing <;> rfl

theorem readFrom_quoted {text : List Char} (h : StringText text) (front : List Char) :
    readFrom (.string front, read) (text ++ '"' :: rest) =
      readFrom (.between, .string (front.reverse ++ text) :: read) rest := by
  induction h generalizing front with
  | nil =>
    rw [List.nil_append, readFrom_cons, List.append_nil]
    rfl
  | @plain c text hquote hescape hcontrol _ ih =>
    have hstep : readChar (.string front, read) c = some (.string (c :: front), read) := by
      rw [readChar, if_neg (by simpa using hquote), if_neg (by simpa using hescape),
        if_neg (by omega)]
    rw [List.cons_append, readFrom_cons, hstep, Option.bind_some, ih, List.reverse_cons,
      List.append_assoc]
    rfl
  | @escape c text hc _ ih =>
    have hstep : readChar (.escape ('\\' :: front), read) c =
        some (.string (c :: '\\' :: front), read) := by
      simp only [List.mem_cons, List.not_mem_nil, or_false] at hc
      rcases hc with rfl | rfl | rfl | rfl | rfl | rfl | rfl | rfl <;> rfl
    rw [List.cons_append, List.cons_append, readFrom_cons]
    show readFrom (.escape ('\\' :: front), read) _ = _
    rw [readFrom_cons, hstep, Option.bind_some, ih]
    simp
  | @code a b c d text ha hb hc hd _ ih =>
    simp only [List.cons_append]
    rw [readFrom_cons]
    show readFrom (.escape ('\\' :: front), read) _ = _
    rw [readFrom_cons]
    show readFrom (.code 4 ('u' :: '\\' :: front), read) _ = _
    rw [readFrom_code 3 _ ha, if_neg (by simp), readFrom_code 2 _ hb, if_neg (by simp),
      readFrom_code 1 _ hc, if_neg (by simp), readFrom_code 0 _ hd, if_pos rfl, ih]
    simp

/-- **A token is read as it is written**; behind a word there must be something else. -/
theorem readFrom_token (h : token.Valid)
    (hrest : token.isWord = true → ∀ c ∈ rest.head?, isWordChar c = false) :
    readFrom (.between, read) (token.text ++ rest) = readFrom (.between, token :: read) rest := by
  cases token with
  | openBrace => exact readFrom_mark rfl
  | closeBrace => exact readFrom_mark rfl
  | openBracket => exact readFrom_mark rfl
  | closeBracket => exact readFrom_mark rfl
  | colon => exact readFrom_mark rfl
  | comma => exact readFrom_mark rfl
  | null => exact readFrom_word (List.all_eq_true.1 rfl) (by simp [Token.text]) rfl (hrest rfl)
  | bool value =>
    cases value with
    | true => exact readFrom_word (List.all_eq_true.1 rfl) (by simp [Token.text]) rfl (hrest rfl)
    | false => exact readFrom_word (List.all_eq_true.1 rfl) (by simp [Token.text]) rfl (hrest rfl)
  | number text => exact readFrom_word h.isWordChar h.ne_nil h.ofWord? (hrest rfl)
  | string text =>
    show readFrom (.between, read) ('"' :: ((text ++ ['"']) ++ rest)) = _
    rw [readFrom_cons, List.append_assoc]
    show readFrom (.string [], read) (text ++ '"' :: rest) = _
    rw [readFrom_quoted h]
    rfl

end

/-! ## Lexemes -/

/-- A part of a text: a token, a character of white space or a comment. -/
inductive Lexeme where
  | token (token : Token)
  | blank (c : Char)
  /-- A comment up to the end of its line. -/
  | lineComment (body : List Char)
  | blockComment (body : List Char)
  deriving DecidableEq, Repr

namespace Lexeme

/-- A lexeme as it is written. -/
def text : Lexeme → List Char
  | token t => t.text
  | blank c => [c]
  | lineComment body => '/' :: '/' :: body ++ ['\n']
  | blockComment body => '/' :: '*' :: body ++ ['*', '/']

/-- The lexeme is what it is taken for, from its start to its end. -/
def Valid : Lexeme → Prop
  | token t => t.Valid
  | blank c => isGap c = true
  | lineComment body => '\n' ∉ body
  | blockComment body => ¬ ['*', '/'] <:+: body

/-- The lexeme is a comment. -/
def isComment : Lexeme → Bool
  | lineComment _ | blockComment _ => true
  | _ => false

/-- The token that the lexeme is. -/
def token? : Lexeme → Option Token
  | token t => some t
  | _ => none

end Lexeme

/-- The text that lexemes make up. -/
def textOf (lexemes : List Lexeme) : List Char := lexemes.flatMap Lexeme.text

/-- The tokens among lexemes. -/
def tokensOf (lexemes : List Lexeme) : List Token := lexemes.filterMap Lexeme.token?

theorem textOf_cons (lexeme : Lexeme) (lexemes : List Lexeme) :
    textOf (lexeme :: lexemes) = lexeme.text ++ textOf lexemes :=
  List.flatMap_cons

/-- Part of a word is a visible character. -/
theorem toNat_of_isWordChar {c : Char} (h : isWordChar c = true) :
    0x20 < c.toNat ∧ c.toNat < 0x7f := by
  unfold isWordChar Char.isAlphanum Char.isAlpha Char.isUpper Char.isLower Char.isDigit at h
  simp only [Bool.or_eq_true, Bool.and_eq_true, decide_eq_true_eq, beq_iff_eq, ge_iff_le,
    UInt32.le_iff_toNat_le] at h
  simp only [Char.reduceVal, UInt32.reduceToNat] at h
  show 0x20 < c.val.toNat ∧ c.val.toNat < 0x7f
  rcases h with ((((h | h) | h) | rfl) | rfl) | rfl
  · omega
  · omega
  · omega
  · decide
  · decide
  · decide

theorem isBlank_of_visible {c : Char} (h : 0x20 < c.toNat ∧ c.toNat < 0x7f) :
    Text.isBlank c = false := by
  simp only [Text.isBlank, Bool.or_eq_false_iff, Bool.and_eq_false_iff, decide_eq_false_iff_not,
    beq_eq_false_iff_ne, ne_eq]
  omega

/-- The first character of a token tells whether it is a word and whether it closes something. -/
theorem Token.exists_text {token : Token} (h : token.Valid) :
    ∃ c rest, token.text = c :: rest ∧ Text.isBlank c = false ∧ isWordChar c = token.isWord ∧
      (c == '}' || c == ']') = token.closes := by
  cases token with
  | number text =>
    obtain ⟨c, rest, rfl⟩ := List.exists_cons_of_ne_nil h.ne_nil
    have hword := h.isWordChar c List.mem_cons_self
    refine ⟨c, rest, rfl, isBlank_of_visible (toNat_of_isWordChar hword), hword, ?_⟩
    have hbrace : c ≠ '}' := ne_of_kind hword (by decide)
    have hbracket : c ≠ ']' := ne_of_kind hword (by decide)
    simp [Token.closes, hbrace, hbracket]
  | bool value => cases value <;> exact ⟨_, _, rfl, by decide⟩
  | string text => exact ⟨'"', _, rfl, by decide, rfl, rfl⟩
  | _ => exact ⟨_, _, rfl, by decide⟩

/-- Text starts with part of a word only if its first token is a word. -/
theorem not_isWordChar_head {lexemes : List Lexeme}
    (h : ∀ lexeme ∈ lexemes, lexeme.Valid ∧ lexeme.isComment = false)
    (hfirst : ∀ token ∈ (tokensOf lexemes).head?, token.isWord = false) :
    ∀ c ∈ (textOf lexemes).head?, isWordChar c = false := by
  cases lexemes with
  | nil => simp [textOf]
  | cons lexeme lexemes =>
    obtain ⟨hvalid, hplain⟩ := h lexeme List.mem_cons_self
    rw [textOf_cons]
    intro c hc
    cases lexeme with
    | blank c' =>
      obtain rfl : c' = c := by simpa [Lexeme.text] using hc
      rw [Bool.eq_false_iff]
      intro hword
      exact absurd hvalid (by simp [Lexeme.Valid, (of_isWordChar hword).1])
    | token token =>
      obtain ⟨c', rest, htext, -, hword, -⟩ := Token.exists_text hvalid
      obtain rfl : c' = c := by simpa [Lexeme.text, htext] using hc
      rw [hword]
      exact hfirst token rfl
    | lineComment body => simp [Lexeme.isComment] at hplain
    | blockComment body => simp [Lexeme.isComment] at hplain

/-- **Text without comments is read as its tokens**, if no two words stand in a row. -/
theorem readFrom_textOf {lexemes : List Lexeme}
    (h : ∀ lexeme ∈ lexemes, lexeme.Valid ∧ lexeme.isComment = false)
    (hapart : (tokensOf lexemes).IsChain Token.Apart) (read : List Token) :
    readFrom (.between, read) (textOf lexemes) = some (read.reverse ++ tokensOf lexemes) := by
  induction lexemes generalizing read with
  | nil => exact congrArg some (List.append_nil _).symm
  | cons lexeme lexemes ih =>
    rw [List.forall_mem_cons] at h
    obtain ⟨⟨hvalid, hplain⟩, hrest⟩ := h
    rw [textOf_cons]
    cases lexeme with
    | blank c =>
      show readFrom _ (c :: textOf lexemes) = _
      rw [readFrom_blank hvalid]
      exact ih hrest hapart read
    | token token =>
      have htokens : tokensOf (.token token :: lexemes) = token :: tokensOf lexemes := rfl
      rw [htokens, List.isChain_cons] at hapart
      show readFrom _ (token.text ++ textOf lexemes) = _
      have hbehind : token.isWord = true → ∀ c ∈ (textOf lexemes).head?, isWordChar c = false := by
        intro hword
        refine not_isWordChar_head hrest fun next hnext => ?_
        exact (hapart.1 next hnext).resolve_left (by simp [hword])
      rw [readFrom_token hvalid hbehind, ih hrest hapart.2, htokens, List.reverse_cons,
        List.append_assoc]
      rfl
    | lineComment body => simp [Lexeme.isComment] at hplain
    | blockComment body => simp [Lexeme.isComment] at hplain

theorem tokens?_textOf {lexemes : List Lexeme}
    (h : ∀ lexeme ∈ lexemes, lexeme.Valid ∧ lexeme.isComment = false)
    (hapart : (tokensOf lexemes).IsChain Token.Apart) :
    tokens? (textOf lexemes) = some (tokensOf lexemes) :=
  readFrom_textOf h hapart []

end Relocate.Json
