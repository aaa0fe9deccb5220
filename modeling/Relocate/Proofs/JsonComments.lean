import Relocate.Json.Comments
import Relocate.Proofs.JsonValues

/-! # JSON with comments, made strict

A rendering of a value is a text with the tokens of the value, in which white space and comments
stand wherever they may and a comma may follow the last entry of a list (`Renders`).  Making it
strict gives a text of the same tokens with white space alone, and a text that is strict already
stays as it is (`sanitized_text_is_strict`).

Both passes are followed lexeme by lexeme.  They have in common that they leave strings alone
(`LeavesStrings`), so that whatever looks like a comment or a comma in a string is none.  The first
pass takes out each comment (`dropComments_textOf`).  The second looks ahead over white space, which
is all that is left between two tokens, and so takes out just the commas in front of a closing mark
(`dropCommas_textOf`); of the tokens of a rendering these are the trailing ones (`Spells.tidies`).
-/

namespace Relocate.Json

/-! ## Renderings -/

/-- Entries between two marks, with commas between them and perhaps one behind the last entry. -/
inductive ListedLoosely (first last : Token) (entries : List (List Token)) : List Token → Prop
  | strict : ListedLoosely first last entries (listed first last entries)
  | trailing (hne : entries ≠ []) : ListedLoosely first last entries
      (first :: ([Token.comma].intercalate entries ++ [.comma, last]))

/-- The tokens spell the value, in which each array and object may have a trailing comma. -/
inductive Spells : Value → List Token → Prop
  | null : Spells .null [.null]
  | bool (value : Bool) : Spells (.bool value) [.bool value]
  | number (text : List Char) : Spells (.number text) [.number text]
  | string (text : List Char) : Spells (.string text) [.string text]
  | array {items : List Value} {entries : List (List Token)} {tokens : List Token}
      (hitems : List.Forall₂ Spells items entries)
      (htokens : ListedLoosely .openBracket .closeBracket entries tokens) :
      Spells (.array items) tokens
  | object {fields : List (List Char × Value)} {entries : List (List Token)} {tokens : List Token}
      (hvalues : List.Forall₂ Spells (fields.map Prod.snd) entries)
      (htokens : ListedLoosely .openBrace .closeBrace
        (List.zipWith (fun field entry => .string field.1 :: .colon :: entry) fields entries)
        tokens) :
      Spells (.object fields) tokens

/-- What may stand behind all lexemes: nothing, or a comment that only the end of the text ends. -/
inductive Ending : List Char → Prop
  | none : Ending []
  | openComment {body : List Char} (hbody : '\n' ∉ body) : Ending ('/' :: '/' :: body)

/-- The text has tokens that spell the value, and white space and comments before, between and
behind them. -/
def Renders (value : Value) (text : String) : Prop :=
  ∃ lexemes ending, (∀ lexeme ∈ lexemes, lexeme.Valid) ∧ Spells value (tokensOf lexemes) ∧
    Ending ending ∧ text.toList = textOf lexemes ++ ending

/-- The text has the tokens of the value, and white space before, between and behind them. -/
def RendersStrictly (value : Value) (text : String) : Prop :=
  ∃ lexemes, (∀ lexeme ∈ lexemes, lexeme.Valid ∧ lexeme.isComment = false) ∧
    tokensOf lexemes = value.tokens ∧ text.toList = textOf lexemes

/-! ## Passes that leave strings alone -/

/-- A pass over a text, and how it goes on within a string: it keeps all that is no slash and no
comma until a string begins, and the string until the quotation mark that ends it. -/
structure LeavesStrings (plain quoted : List Char → List Char) : Prop where
  other : ∀ {c : Char} (rest : List Char), c ≠ '/' → c ≠ ',' → c ≠ '"' →
    plain (c :: rest) = c :: plain rest
  opening : ∀ rest : List Char, plain ('"' :: rest) = '"' :: quoted rest
  inside : ∀ {c : Char} (rest : List Char), c ≠ '\\' → c ≠ '"' →
    quoted (c :: rest) = c :: quoted rest
  escape : ∀ (c : Char) (rest : List Char), quoted ('\\' :: c :: rest) = '\\' :: c :: quoted rest
  closing : ∀ rest : List Char, quoted ('"' :: rest) = '"' :: plain rest

namespace LeavesStrings

variable {plain quoted : List Char → List Char}

theorem string (h : LeavesStrings plain quoted) {text : List Char} (htext : StringText text)
    (rest : List Char) : quoted (text ++ '"' :: rest) = text ++ '"' :: plain rest := by
  induction htext with
  | nil => exact h.closing rest
  | plain hquote hescape _ _ ih => rw [List.cons_append, h.inside _ hescape hquote, ih]; rfl
  | escape _ _ ih => rw [List.cons_append, List.cons_append, h.escape, ih]; rfl
  | code ha hb hc hd _ ih =>
    have hhex : ∀ {c : Char} (rest : List Char), isHex c = true →
        quoted (c :: rest) = c :: quoted rest := fun rest hc =>
      h.inside rest (ne_of_kind hc (by decide)) (ne_of_kind hc (by decide))
    simp only [List.cons_append]
    rw [h.escape, hhex _ ha, hhex _ hb, hhex _ hc, hhex _ hd, ih]

theorem run (h : LeavesStrings plain quoted) {run : List Char}
    (hrun : ∀ c ∈ run, c ≠ '/' ∧ c ≠ ',' ∧ c ≠ '"') (rest : List Char) :
    plain (run ++ rest) = run ++ plain rest := by
  induction run with
  | nil => rfl
  | cons c run ih =>
    rw [List.forall_mem_cons] at hrun
    obtain ⟨hslash, hcomma, hquote⟩ := hrun.1
    rw [List.cons_append, h.other _ hslash hcomma hquote, ih hrun.2]
    rfl

/-- A token other than a comma is kept. -/
theorem token (h : LeavesStrings plain quoted) {token : Token} (hvalid : token.Valid)
    (hcomma : token ≠ .comma) (rest : List Char) :
    plain (token.text ++ rest) = token.text ++ plain rest := by
  cases token with
  | comma => exact absurd rfl hcomma
  | string text =>
    show plain ('"' :: ((text ++ ['"']) ++ rest)) = _
    rw [h.opening, List.append_assoc, List.singleton_append, h.string hvalid]
    simp [Token.text]
  | number text =>
    refine h.run (fun c hc => ?_) rest
    have hword := NumberText.isWordChar hvalid c hc
    exact ⟨ne_of_kind hword (by decide), ne_of_kind hword (by decide),
      ne_of_kind hword (by decide)⟩
  | bool value => cases value <;> exact h.run (by simp [Token.text]) rest
  | _ => exact h.run (by simp [Token.text]) rest

end LeavesStrings

theorem dropComments_cons {c : Char} (rest : List Char) (hslash : c ≠ '/') (hquote : c ≠ '"') :
    dropComments .plain (c :: rest) = c :: dropComments .plain rest := by
  rw [dropComments, if_neg hquote]
  · exact fun _ h _ => hslash h
  · exact fun _ h _ => hslash h

theorem leavesStrings_dropComments :
    LeavesStrings (dropComments .plain) (dropComments .quoted) where
  other rest hslash _ hquote := dropComments_cons rest hslash hquote
  opening rest := rfl
  inside rest hescape hquote := by rw [dropComments, if_neg hescape, if_neg hquote]
  escape c rest := by rw [dropComments, if_pos rfl, dropComments]
  closing rest := rfl

theorem leavesStrings_dropCommas : LeavesStrings (dropCommas .plain) (dropCommas .quoted) where
  other rest _ hcomma hquote := by
    rw [dropCommas, if_neg hquote, if_neg (by simp [hcomma])]
  opening rest := rfl
  inside rest hescape hquote := by rw [dropCommas, if_neg hescape, if_neg hquote]
  escape c rest := rfl
  closing rest := rfl

/-! ## The first pass -/

/-- A line comment goes up to its line feed, which stays. -/
theorem dropComments_lineComment {body : List Char} (h : '\n' ∉ body) (rest : List Char) :
    dropComments .lineComment (body ++ '\n' :: rest) = '\n' :: dropComments .plain rest := by
  induction body with
  | nil => rfl
  | cons c body ih =>
    rw [List.mem_cons, not_or] at h
    rw [List.cons_append, dropComments, if_neg (Ne.symm h.1), ih h.2]

/-- A line comment without a line feed goes up to the end. -/
theorem dropComments_openComment {body : List Char} (h : '\n' ∉ body) :
    dropComments .lineComment body = [] := by
  induction body with
  | nil => rfl
  | cons c body ih =>
    rw [List.mem_cons, not_or] at h
    rw [dropComments, if_neg (Ne.symm h.1), ih h.2]

/-- A block comment goes up to the first end mark. -/
theorem dropComments_blockComment {body : List Char} (h : ¬ ['*', '/'] <:+: body)
    (rest : List Char) :
    dropComments .blockComment (body ++ '*' :: '/' :: rest) = dropComments .plain rest := by
  induction body with
  | nil => rfl
  | cons c body ih =>
    have hbody : ¬ ['*', '/'] <:+: body := fun hinfix => h (List.infix_cons hinfix)
    rw [List.cons_append, dropComments, ih hbody]
    -- a star is the end only with a slash behind it, and then the body holds an end mark
    intro more hstar hslash
    subst hstar
    cases body with
    | nil => simp at hslash
    | cons next body =>
      obtain rfl : next = '/' := (List.cons.inj hslash).1
      exact h ⟨[], body, rfl⟩

/-- What the first pass leaves of a lexeme. -/
def Lexeme.uncommented? : Lexeme → Option Lexeme
  | lineComment _ => some (blank '\n')
  | blockComment _ => none
  | lexeme => some lexeme

theorem dropComments_lexeme {lexeme : Lexeme} (h : lexeme.Valid) (rest : List Char) :
    dropComments .plain (lexeme.text ++ rest) =
      textOf lexeme.uncommented?.toList ++ dropComments .plain rest := by
  cases lexeme with
  | token token =>
    have htext : textOf [.token token] = token.text := List.append_nil _
    show dropComments .plain (token.text ++ rest) = textOf [.token token] ++ _
    rw [htext]
    by_cases hcomma : token = .comma
    · subst hcomma
      exact dropComments_cons rest (by decide) (by decide)
    · exact leavesStrings_dropComments.token h hcomma rest
  | blank c =>
    have hgap : isGap c = true := h
    exact dropComments_cons rest (ne_of_kind hgap (by decide)) (ne_of_kind hgap (by decide))
  | lineComment body =>
    show dropComments .lineComment ((body ++ ['\n']) ++ rest) = _
    rw [List.append_assoc]
    exact dropComments_lineComment h rest
  | blockComment body =>
    show dropComments .blockComment ((body ++ ['*', '/']) ++ rest) = _
    rw [List.append_assoc]
    exact dropComments_blockComment h rest

/-- **The first pass takes out comments.** -/
theorem dropComments_textOf {lexemes : List Lexeme} (h : ∀ lexeme ∈ lexemes, lexeme.Valid)
    {ending : List Char} (hending : Ending ending) :
    dropComments .plain (textOf lexemes ++ ending) =
      textOf (lexemes.filterMap Lexeme.uncommented?) := by
  induction lexemes with
  | nil =>
    cases hending with
    | none => rfl
    | openComment hbody => exact dropComments_openComment hbody
  | cons lexeme lexemes ih =>
    rw [List.forall_mem_cons] at h
    rw [textOf_cons, List.append_assoc, dropComments_lexeme h.1, ih h.2, List.filterMap_cons]
    cases lexeme.uncommented? with
    | none => rfl
    | some left => simp [textOf]

theorem tokensOf_uncommented (lexemes : List Lexeme) :
    tokensOf (lexemes.filterMap Lexeme.uncommented?) = tokensOf lexemes := by
  rw [tokensOf, tokensOf, List.filterMap_filterMap]
  congr 1
  funext lexeme
  cases lexeme <;> rfl

theorem valid_uncommented {lexemes : List Lexeme} (h : ∀ lexeme ∈ lexemes, lexeme.Valid) :
    ∀ lexeme ∈ lexemes.filterMap Lexeme.uncommented?, lexeme.Valid ∧ lexeme.isComment = false := by
  intro left hleft
  obtain ⟨lexeme, hmem, hfound⟩ := List.mem_filterMap.1 hleft
  have hvalid := h lexeme hmem
  cases lexeme with
  | token token => cases hfound; exact ⟨hvalid, rfl⟩
  | blank c => cases hfound; exact ⟨hvalid, rfl⟩
  | lineComment body => cases hfound; exact ⟨(by decide : isGap '\n' = true), rfl⟩
  | blockComment body => cases hfound

/-- Where there are no comments, nothing changes. -/
theorem uncommented_of_plain {lexemes : List Lexeme}
    (h : ∀ lexeme ∈ lexemes, lexeme.isComment = false) :
    lexemes.filterMap Lexeme.uncommented? = lexemes := by
  have hsome : ∀ lexeme ∈ lexemes, lexeme.uncommented? = some lexeme := by
    intro lexeme hmem
    have hplain := h lexeme hmem
    cases lexeme with
    | token token => rfl
    | blank c => rfl
    | lineComment body => cases hplain
    | blockComment body => cases hplain
  rw [List.filterMap_congr hsome, List.filterMap_some]

/-! ## The second pass -/

/-- The first of the tokens closes something. -/
def closesFirst (tokens : List Token) : Bool := tokens.head?.any Token.closes

/-- The token is a comma in front of a closing mark. -/
def Token.trails (token : Token) (rest : List Token) : Bool := token == .comma && closesFirst rest

/-- The tokens without the commas in front of a closing mark. -/
def withoutTrailing : List Token → List Token
  | [] => []
  | token :: rest =>
    if token.trails rest then withoutTrailing rest else token :: withoutTrailing rest

/-- The lexemes without the commas in front of a closing mark. -/
def dropTrailing : List Lexeme → List Lexeme
  | [] => []
  | .token token :: rest =>
    if token.trails (tokensOf rest) then dropTrailing rest else .token token :: dropTrailing rest
  | lexeme :: rest => lexeme :: dropTrailing rest

theorem closesNext_blank {c : Char} (h : isGap c = true) (rest : List Char) :
    closesNext (c :: rest) = closesNext rest := by
  have hblank : Text.isBlank c = true := by
    simp only [isGap, Bool.or_eq_true, beq_iff_eq] at h
    rcases h with ((rfl | rfl) | rfl) | rfl <;> decide
  rw [closesNext, List.dropWhile_cons_of_pos hblank]
  rfl

theorem closesNext_cons {c : Char} (h : Text.isBlank c = false) (rest : List Char) :
    closesNext (c :: rest) = (c == '}' || c == ']') := by
  rw [closesNext, List.dropWhile_cons_of_neg (by simp [h])]
  split
  · rename_i heq
    rw [(List.cons.inj heq).1]
    rfl
  · rename_i heq
    rw [(List.cons.inj heq).1]
    rfl
  · rename_i hbrace hbracket
    have hnot : c ≠ '}' ∧ c ≠ ']' :=
      ⟨fun hc => hbrace rest (by rw [hc]), fun hc => hbracket rest (by rw [hc])⟩
    simp [hnot]

/-- Looking ahead over white space finds the first token. -/
theorem closesNext_textOf {lexemes : List Lexeme}
    (h : ∀ lexeme ∈ lexemes, lexeme.Valid ∧ lexeme.isComment = false) :
    closesNext (textOf lexemes) = closesFirst (tokensOf lexemes) := by
  induction lexemes with
  | nil => rfl
  | cons lexeme lexemes ih =>
    rw [List.forall_mem_cons] at h
    obtain ⟨⟨hvalid, hplain⟩, hrest⟩ := h
    cases lexeme with
    | token token =>
      obtain ⟨c, rest, htext, hblank, -, hcloses⟩ := Token.exists_text hvalid
      show closesNext (token.text ++ textOf lexemes) = token.closes
      rw [htext, List.cons_append, closesNext_cons hblank, hcloses]
    | blank c => exact (closesNext_blank hvalid _).trans (ih hrest)
    | lineComment body => cases hplain
    | blockComment body => cases hplain

theorem dropCommas_token {token : Token} (hvalid : token.Valid) {lexemes : List Lexeme}
    (h : ∀ lexeme ∈ lexemes, lexeme.Valid ∧ lexeme.isComment = false) :
    dropCommas .plain (token.text ++ textOf lexemes) =
      (if token.trails (tokensOf lexemes) then [] else token.text) ++
        dropCommas .plain (textOf lexemes) := by
  by_cases hcomma : token = .comma
  · subst hcomma
    have htrails : Token.comma.trails (tokensOf lexemes) = closesFirst (tokensOf lexemes) := rfl
    show dropCommas .plain (',' :: textOf lexemes) = _
    rw [dropCommas, if_neg (by decide), closesNext_textOf h, htrails]
    cases closesFirst (tokensOf lexemes) <;> rfl
  · have hkept : token.trails (tokensOf lexemes) = false := by simp [Token.trails, hcomma]
    rw [hkept, leavesStrings_dropCommas.token hvalid hcomma]
    rfl

/-- **The second pass takes out the commas in front of a closing mark.** -/
theorem dropCommas_textOf {lexemes : List Lexeme}
    (h : ∀ lexeme ∈ lexemes, lexeme.Valid ∧ lexeme.isComment = false) :
    dropCommas .plain (textOf lexemes) = textOf (dropTrailing lexemes) := by
  induction lexemes with
  | nil => rfl
  | cons lexeme lexemes ih =>
    rw [List.forall_mem_cons] at h
    obtain ⟨⟨hvalid, hplain⟩, hrest⟩ := h
    cases lexeme with
    | token token =>
      rw [textOf_cons, dropTrailing]
      show dropCommas .plain (token.text ++ textOf lexemes) = _
      rw [dropCommas_token hvalid hrest, ih hrest]
      split
      · rfl
      · rfl
    | blank c =>
      have hgap : isGap c = true := hvalid
      show dropCommas .plain (c :: textOf lexemes) = c :: textOf (dropTrailing lexemes)
      rw [leavesStrings_dropCommas.other _ (ne_of_kind hgap (by decide))
        (ne_of_kind hgap (by decide)) (ne_of_kind hgap (by decide)), ih hrest]
    | lineComment body => cases hplain
    | blockComment body => cases hplain

theorem tokensOf_dropTrailing (lexemes : List Lexeme) :
    tokensOf (dropTrailing lexemes) = withoutTrailing (tokensOf lexemes) := by
  induction lexemes with
  | nil => rfl
  | cons lexeme lexemes ih =>
    cases lexeme with
    | token token =>
      show tokensOf (dropTrailing _) = withoutTrailing (token :: tokensOf lexemes)
      rw [dropTrailing, withoutTrailing]
      split
      · exact ih
      · exact congrArg (token :: ·) ih
    | _ => exact ih

theorem dropTrailing_sublist (lexemes : List Lexeme) : (dropTrailing lexemes).Sublist lexemes := by
  induction lexemes with
  | nil => exact .slnil
  | cons lexeme lexemes ih =>
    cases lexeme with
    | token token =>
      rw [dropTrailing]
      split
      · exact ih.cons _
      · exact ih.cons_cons _
    | _ => exact ih.cons_cons _

theorem length_withoutTrailing_le (tokens : List Token) :
    (withoutTrailing tokens).length ≤ tokens.length := by
  induction tokens with
  | nil => exact Nat.le_refl 0
  | cons token tokens ih =>
    rw [withoutTrailing]
    split
    · exact Nat.le_succ_of_le ih
    · exact Nat.succ_le_succ ih

/-- Where no comma is taken out of the tokens, nothing changes. -/
theorem dropTrailing_eq_self {lexemes : List Lexeme}
    (h : withoutTrailing (tokensOf lexemes) = tokensOf lexemes) :
    dropTrailing lexemes = lexemes := by
  induction lexemes with
  | nil => rfl
  | cons lexeme lexemes ih =>
    cases lexeme with
    | token token =>
      replace h : withoutTrailing (token :: tokensOf lexemes) = token :: tokensOf lexemes := h
      rw [withoutTrailing] at h
      rw [dropTrailing]
      split at h
      · have hle := length_withoutTrailing_le (tokensOf lexemes)
        rw [h, List.length_cons] at hle
        omega
      · rename_i hkept
        rw [if_neg hkept, ih (List.cons.inj h).2]
    | _ => exact congrArg (List.cons _) (ih h)

/-! ## Trailing commas -/

/-- Without trailing commas the tokens `loose` become `strict`, whatever follows them. -/
structure Tidies (loose strict : List Token) : Prop where
  opens : ∃ first rest, loose = first :: rest ∧ first.closes = false
  tidied : ∀ rest, withoutTrailing (loose ++ rest) = strict ++ withoutTrailing rest

theorem withoutTrailing_cons {token : Token} (h : token ≠ .comma) (rest : List Token) :
    withoutTrailing (token :: rest) = token :: withoutTrailing rest := by
  rw [withoutTrailing, if_neg (by simp [Token.trails, h])]

theorem withoutTrailing_comma {next : Token} (rest : List Token) :
    withoutTrailing (.comma :: next :: rest) =
      if next.closes then withoutTrailing (next :: rest)
      else .comma :: withoutTrailing (next :: rest) := by
  rw [withoutTrailing]
  rfl

theorem tidies_singleton {token : Token} (hcomma : token ≠ .comma)
    (hcloses : token.closes = false) : Tidies [token] [token] :=
  ⟨⟨token, [], rfl, hcloses⟩, withoutTrailing_cons hcomma⟩

theorem Tidies.cons {token : Token} {loose strict : List Token} (h : Tidies loose strict)
    (hcomma : token ≠ .comma) (hcloses : token.closes = false) :
    Tidies (token :: loose) (token :: strict) where
  opens := ⟨token, loose, rfl, hcloses⟩
  tidied rest := by rw [List.cons_append, withoutTrailing_cons hcomma, h.tidied]; rfl

/-- Commas between entries stay. -/
theorem withoutTrailing_intercalate {entries strict : List (List Token)}
    (h : List.Forall₂ Tidies entries strict) (rest : List Token) :
    withoutTrailing ([Token.comma].intercalate entries ++ rest) =
      [Token.comma].intercalate strict ++ withoutTrailing rest := by
  induction h with
  | nil => rfl
  | cons hentry hentries ih =>
    cases hentries with
    | nil =>
      rw [List.intercalate_singleton, List.intercalate_singleton]
      exact hentry.tidied rest
    | cons hnext hothers =>
      rw [List.intercalate_cons_cons, List.intercalate_cons_cons, List.append_assoc,
        List.append_assoc, hentry.tidied, List.append_assoc, List.append_assoc]
      refine congrArg (_ ++ ·) ?_
      -- the entry behind the comma opens with a token that closes nothing
      obtain ⟨first, entry, rfl, hfirst⟩ := hnext.opens
      obtain ⟨more, hmore⟩ := exists_intercalate first entry _ rest
      rw [hmore] at ih ⊢
      rw [List.singleton_append, withoutTrailing_comma, hfirst, if_neg (by simp), ih]
      rfl

/-- A comma behind the last entry goes. -/
theorem Tidies.listed {first last : Token} {entries strict : List (List Token)}
    {tokens : List Token} (h : List.Forall₂ Tidies entries strict)
    (htokens : ListedLoosely first last entries tokens) (hcomma : first ≠ .comma)
    (hfirst : first.closes = false) (hlast : last.closes = true) :
    Tidies tokens (listed first last strict) := by
  have hend : ∀ rest, withoutTrailing (last :: rest) = last :: withoutTrailing rest :=
    withoutTrailing_cons (by rintro rfl; cases hlast)
  cases htokens with
  | strict =>
    refine ⟨⟨first, _, rfl, hfirst⟩, fun rest => ?_⟩
    rw [listed_append, listed_append, withoutTrailing_cons hcomma, withoutTrailing_intercalate h,
      hend]
  | trailing =>
    refine ⟨⟨first, _, rfl, hfirst⟩, fun rest => ?_⟩
    rw [listed_append, List.cons_append, List.append_assoc, withoutTrailing_cons hcomma,
      withoutTrailing_intercalate h]
    show first :: (_ ++ withoutTrailing (.comma :: last :: rest)) = _
    rw [withoutTrailing_comma, hlast, if_pos rfl, hend]

theorem tidies_items {items : List Value} {entries : List (List Token)}
    (h : List.Forall₂ Spells items entries)
    (ih : ∀ item ∈ items, ∀ tokens, Spells item tokens → Tidies tokens item.tokens) :
    List.Forall₂ Tidies entries (itemTokens items) := by
  induction h with
  | nil => exact .nil
  | cons hitem hitems ihitems =>
    rw [List.forall_mem_cons] at ih
    exact .cons (ih.1 _ hitem) (ihitems ih.2)

theorem tidies_fields {fields : List (List Char × Value)} {entries : List (List Token)}
    (h : List.Forall₂ Spells (fields.map Prod.snd) entries)
    (ih : ∀ field ∈ fields, ∀ tokens, Spells field.2 tokens → Tidies tokens field.2.tokens) :
    List.Forall₂ Tidies
      (List.zipWith (fun field entry => .string field.1 :: .colon :: entry) fields entries)
      (fieldTokens fields) := by
  induction fields generalizing entries with
  | nil => exact .nil
  | cons field fields ihfields =>
    rw [List.forall_mem_cons] at ih
    cases h with
    | cons hvalue hvalues =>
      refine .cons ?_ (ihfields hvalues ih.2)
      exact ((ih.1 _ hvalue).cons (by simp) rfl).cons (by simp) rfl

/-- **What spells a value has the tokens of the value, but for trailing commas.** -/
theorem Spells.tidies {value : Value} {tokens : List Token} (h : Spells value tokens) :
    Tidies tokens value.tokens := by
  induction value using Value.induct generalizing tokens with
  | array items ih =>
    cases h with
    | array hitems htokens =>
      exact .listed (tidies_items hitems fun item hitem _ => ih item hitem) htokens (by simp)
        rfl rfl
  | object fields ih =>
    cases h with
    | object hvalues htokens =>
      exact .listed (tidies_fields hvalues fun field hfield _ => ih field hfield) htokens (by simp)
        rfl rfl
  | _ =>
    cases h
    exact tidies_singleton (by simp) rfl

theorem zipWith_itemTokens (fields : List (List Char × Value)) :
    List.zipWith (fun field entry => .string field.1 :: .colon :: entry) fields
      (itemTokens (fields.map Prod.snd)) = fieldTokens fields := by
  induction fields with
  | nil => rfl
  | cons field fields ih => exact congrArg (List.cons _) ih

/-- The tokens of a value spell it. -/
theorem spells_tokens (value : Value) : Spells value value.tokens := by
  induction value using Value.induct with
  | null => exact .null
  | bool value => exact .bool value
  | number text => exact .number text
  | string text => exact .string text
  | array items ih =>
    refine .array ?_ .strict
    rw [itemTokens_eq_map, List.forall₂_map_right_iff]
    exact List.forall₂_same.2 ih
  | object fields ih =>
    have hvalues : List.Forall₂ Spells (fields.map Prod.snd)
        (itemTokens (fields.map Prod.snd)) := by
      rw [itemTokens_eq_map, List.forall₂_map_right_iff]
      exact List.forall₂_same.2 (List.forall_mem_map.2 ih)
    refine .object hvalues ?_
    rw [zipWith_itemTokens]
    exact .strict

theorem withoutTrailing_tokens {value : Value} {tokens : List Token} (h : Spells value tokens) :
    withoutTrailing tokens = value.tokens := by
  have htidied := h.tidies.tidied []
  rwa [List.append_nil, withoutTrailing, List.append_nil] at htidied

/-! ## Strict texts -/

/-- What the two passes make of a text. -/
theorem toList_sanitize {text : String} {lexemes : List Lexeme} {ending : List Char}
    (h : ∀ lexeme ∈ lexemes, lexeme.Valid) (hending : Ending ending)
    (htext : text.toList = textOf lexemes ++ ending) :
    (sanitize text).toList = textOf (dropTrailing (lexemes.filterMap Lexeme.uncommented?)) := by
  rw [sanitize, String.toList_ofList, htext, dropComments_textOf h hending,
    dropCommas_textOf (valid_uncommented h)]

/-- **Made strict, a rendering of a value is a text of its tokens and white space**, from which the
value is read; and what is such a text already does not change. -/
theorem sanitized_text_is_strict {value : Value} {text : String} (h : Renders value text) :
    RendersStrictly value (sanitize text) ∧
      tokens? (sanitize text).toList = some value.tokens ∧
      parse? (sanitize text) = some value ∧
      (RendersStrictly value text → sanitize text = text) := by
  obtain ⟨lexemes, ending, hvalid, hspells, hending, htext⟩ := h
  have hsanitized := toList_sanitize hvalid hending htext
  have hstrict : ∀ lexeme ∈ dropTrailing (lexemes.filterMap Lexeme.uncommented?),
      lexeme.Valid ∧ lexeme.isComment = false :=
    fun lexeme hmem => valid_uncommented hvalid lexeme ((dropTrailing_sublist _).mem hmem)
  have htokens : tokensOf (dropTrailing (lexemes.filterMap Lexeme.uncommented?)) =
      value.tokens := by
    rw [tokensOf_dropTrailing, tokensOf_uncommented, withoutTrailing_tokens hspells]
  obtain ⟨hread, hparse⟩ := parse?_textOf hstrict htokens
  rw [← hsanitized, String.ofList_toList] at hparse
  refine ⟨⟨_, hstrict, htokens, hsanitized⟩, hsanitized ▸ hread, hparse, ?_⟩
  rintro ⟨plain, hplain, hown, htext⟩
  apply String.toList_inj.1
  have hsame := toList_sanitize (fun lexeme hmem => (hplain lexeme hmem).1) .none
    (htext.trans (List.append_nil _).symm)
  rw [uncommented_of_plain fun lexeme hmem => (hplain lexeme hmem).2, dropTrailing_eq_self] at hsame
  · rw [hsame, htext]
  · rw [hown, withoutTrailing_tokens (spells_tokens value)]

namespace Commented

/-- What would end a string and begin a comment, within a string. -/
def key : List Char := ['\\', '"', '/', '/']

/-- An object with an array. -/
def value : Value := .object [(key, .array [.number ['1']])]

/-- A rendering with both kinds of comments, which hold what would end a list or begin a string, and
with a trailing comma in front of each. -/
def lexemes : List Lexeme :=
  [.token .openBrace, .token (.string key), .token .colon, .token .openBracket,
    .token (.number ['1']), .token .comma, .blockComment [']', '*'], .blank ' ',
    .token .closeBracket, .token .comma, .lineComment ['}', '"'], .token .closeBrace]

/-- The text of it, with a comment that only the end of the text ends. -/
def text : String := "\x7b\"\\\"//\":[1,/*]**/ ],//\x7d\"\n\x7d//"

theorem valid : ∀ lexeme ∈ lexemes, lexeme.Valid := by
  have hkey : StringText key :=
    .escape (by decide) (.plain (by decide) (by decide) (by decide)
      (.plain (by decide) (by decide) (by decide) .nil))
  have hwhole : WholeText ['1'] := .inr ⟨⟨by simp, by simp⟩, by simp⟩
  have hnumber : NumberText ['1'] := .intro (.inl rfl) hwhole (.inl rfl) (.inl rfl)
  have hbody : ¬ ['*', '/'] <:+: [']', '*'] := by decide
  simp [lexemes, Lexeme.Valid, Token.Valid, hkey, hnumber, hbody, isGap]

theorem spells : Spells value (tokensOf lexemes) := by
  refine .object (.cons (.array (.cons (.number ['1']) .nil) (.trailing (by simp))) .nil) ?_
  exact .trailing (by simp)

theorem renders : Renders value text :=
  ⟨lexemes, ['/', '/'], valid, spells, .openComment (by simp), by decide +kernel⟩

end Commented

/-- Neither what looks like a comment in a string nor what looks like a string in a comment is
one. -/
theorem sanitized_text_is_strict_around_strings :
    Renders Commented.value Commented.text ∧
      sanitize Commented.text = "\x7b\"\\\"//\":[1 ]\n\x7d" ∧
      parse? (sanitize Commented.text) = some Commented.value :=
  ⟨Commented.renders, by decide +kernel, (sanitized_text_is_strict Commented.renders).2.2.1⟩

end Relocate.Json
