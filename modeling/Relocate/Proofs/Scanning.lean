import Relocate.Source.Token

/-! # What a scan reads ends before the next quote

A scan looks at the characters in front of it, and some scans look a few characters ahead of what
they take.  Here it is shown how little of that reaches past a quote: a scan that stops before a
quote reads the same whatever stands behind the quote.  `tokenAt_quote` says so of the tokens that
make up imports and re-exports (`Token.inHead`), `blanksFrom_quote` of the blanks between tokens and
`interpreterLine_quote` of the line in front of a text.

A scan may well run over a quote, within a comment or a literal of the other kind.  Each lemma
therefore asks that the scan of one of the two texts stops in time, and says it of the other one.
-/

namespace Relocate.Source

/-- The text between two quotes `q` that reads as it is written: nothing in it ends the literal or
escapes a character. -/
def PlainBetween (q : Char) (inner : List Char) : Prop :=
  ∀ c ∈ inner, c ≠ q ∧ c ≠ '\\' ∧ c ≠ '\n' ∧ c ≠ '\r'

instance (q : Char) (inner : List Char) : Decidable (PlainBetween q inner) :=
  List.decidableBAll _ inner

/-- The tokens of imports and re-exports: words, strings and a few marks. -/
def Token.inHead : Token → Bool
  | .word _ | .string => true
  | .mark text => ["\x7b", "\x7d", "*", ",", ";", "=", ".", "(", ")"].contains text
  | _ => false

section

variable {q : Char} {gap behind behind' : List Char}

/-! ## Names -/

theorem takeWhile_append_quote {p : Char → Bool} (hq : p q = false) (gap behind : List Char) :
    (gap ++ q :: behind).takeWhile p = gap.takeWhile p := by
  induction gap with
  | nil => simp [hq]
  | cons c gap ih => simp only [List.cons_append, List.takeWhile_cons, ih]

/-- A code point takes no more characters than there are. -/
theorem codePoint_le {text : List Char} {value : Char} {size : Nat}
    (h : codePoint text = some (value, size)) : size ≤ text.length := by
  unfold codePoint at h
  split at h
  · rename_i rest
    simp only at h
    split at h
    · rename_i after hrest
      have hlength := congrArg List.length hrest
      simp only [List.length_drop, List.length_cons] at hlength ⊢
      split at h
      · simp at h
      · simp only [Option.some.injEq, Prod.mk.injEq] at h
        omega
    · simp at h
  · split at h
    · simp only [Option.some.injEq, Prod.mk.injEq] at h
      simp only [List.length_cons]
      omega
    · simp at h
  · simp at h

/-- A code point that is not in braces has four digits. -/
theorem codePoint_digits {a : Char} (ha : a ≠ '{') (rest : List Char) :
    codePoint (a :: rest) =
      if 3 ≤ rest.length ∧ (a :: rest.take 3).all isHexDigit then
        some (Char.ofNat (hexNumber (a :: rest.take 3)), 4)
      else none := by
  unfold codePoint
  split
  · simp_all
  · simp_all [and_assoc]
  · rename_i hshort
    rw [if_neg]
    rintro ⟨hlength, _⟩
    obtain ⟨b, c, d, tail, rfl⟩ : ∃ b c d tail, rest = b :: c :: d :: tail := by
      rcases rest with _ | ⟨b, _ | ⟨c, _ | ⟨d, tail⟩⟩⟩
      · simp at hlength
      · simp at hlength
      · simp at hlength
      · exact ⟨b, c, d, tail, rfl⟩
    exact hshort _ _ _ _ _ rfl

/-- No code point reaches over a quote. -/
theorem codePoint_quote (hq : IsQuote q) (gap behind : List Char) :
    codePoint (gap ++ q :: behind) = codePoint gap := by
  have hhex : isHexDigit q = false := by rcases hq with rfl | rfl <;> decide
  have hbrace : q ≠ '{' ∧ q ≠ '}' := by rcases hq with rfl | rfl <;> decide
  cases gap with
  | nil =>
    rw [List.nil_append, codePoint_digits hbrace.1]
    simp [hhex, codePoint]
  | cons a gap =>
    by_cases ha : a = '{'
    · subst ha
      simp only [List.cons_append, codePoint, takeWhile_append_quote hhex]
      rw [List.drop_append_of_le_length (List.takeWhile_prefix _).length_le]
      cases hrest : gap.drop (gap.takeWhile isHexDigit).length with
      | nil => simp [hbrace.2]
      | cons c rest =>
        by_cases hc : c = '}'
        · subst hc
          rfl
        · simp [hc]
    · rw [List.cons_append, codePoint_digits ha, codePoint_digits ha]
      by_cases hlength : 3 ≤ gap.length
      · have hlonger : 3 ≤ (gap ++ q :: behind).length := by simp; omega
        rw [List.take_append_of_le_length hlength]
        simp only [hlength, hlonger]
      · -- the quote is one of the four characters
        have hquote : q ∈ (gap ++ q :: behind).take 3 := by
          rw [List.take_append, List.take_cons (by omega)]
          simp
        rw [if_neg (c := 3 ≤ gap.length ∧ _) (by omega), if_neg]
        rintro ⟨_, hall⟩
        have hdigit := List.all_eq_true.1 hall q (List.mem_cons_of_mem _ hquote)
        rw [hhex] at hdigit
        cases hdigit

/-- What follows a name up to a quote, and no character more, belongs to it. -/
theorem nameFrom_quote (hq : IsQuote q) {skipped : Nat} (scan : NameScan) (gap behind : List Char)
    (hskipped : skipped ≤ gap.length) :
    nameFrom skipped scan (gap ++ q :: behind) = nameFrom skipped scan gap := by
  have hname : continuesName q = false := by rcases hq with rfl | rfl <;> decide
  have hescape : q ≠ '\\' ∧ q ≠ 'u' := by rcases hq with rfl | rfl <;> decide
  induction gap generalizing skipped scan with
  | nil =>
    obtain rfl : skipped = 0 := by simpa using hskipped
    simp [nameFrom, hname, hescape.1]
  | cons c gap ih =>
    cases skipped with
    | succ skipped =>
      simp only [List.length_cons] at hskipped
      exact ih scan (by omega)
    | zero =>
      simp only [List.cons_append, nameFrom, ih _ (Nat.zero_le _)]
      split
      · rfl
      · split
        · cases gap with
          | nil => simp [hescape.2]
          | cons d gap =>
            by_cases hd : d = 'u'
            · subst hd
              simp only [List.cons_append, codePoint_quote hq]
              cases hpoint : codePoint gap with
              | none => rfl
              | some point =>
                obtain ⟨value, size⟩ := point
                have hsize := codePoint_le hpoint
                exact ih _ (by simp only [List.length_cons]; omega)
            · simp [hd]
        · rfl

/-! ## Strings -/

/-- Whether an escape is well formed shows before the next quote, or it is the quote that is
escaped. -/
theorem escapeAt_quote (hq : IsQuote q) (gap behind behind' : List Char) :
    escapeAt (gap ++ q :: behind) = escapeAt (gap ++ q :: behind') := by
  have hhex : isHexDigit q = false := by rcases hq with rfl | rfl <;> decide
  have hoctal : isOctalDigit q = false := by rcases hq with rfl | rfl <;> decide
  rcases gap with _ | ⟨a, gap⟩
  · rcases hq with rfl | rfl <;> rfl
  · by_cases hu : a = 'u'
    · subst hu
      simp only [List.cons_append, escapeAt, codePoint_quote hq]
    · by_cases hx : a = 'x'
      · subst hx
        rcases gap with _ | ⟨b, _ | ⟨c, gap⟩⟩
        · cases behind <;> cases behind' <;> simp [escapeAt, hhex]
        · simp [escapeAt, hhex]
        · rfl
      · have hsame : ∀ b rest rest', escapeAt (a :: b :: rest) = escapeAt (a :: b :: rest') := by
          intro b rest rest'
          by_cases hbreak : a = '\r' ∧ b = '\n'
          · obtain ⟨rfl, rfl⟩ := hbreak
            rfl
          · by_cases hzero : a = '0'
            · subst hzero
              rfl
            · have hone : ∀ rest, escapeAt (a :: b :: rest) =
                  if isOctalDigit a then .octal else .taken 1 := by
                intro rest
                unfold escapeAt
                split <;> simp_all
              rw [hone, hone]
        cases gap with
        | nil => exact hsame ..
        | cons b gap => exact hsame ..

/-- A literal has at least the characters counted so far. -/
theorem le_quotedFrom (quote : Char) (skipped count : Nat) (text : List Char) :
    count ≤ (quotedFrom quote skipped count text).count := by
  fun_induction quotedFrom quote skipped count text <;> simp_all <;> omega

/-- A literal that ends before a quote. -/
theorem quotedFrom_quote (hq : IsQuote q) {quote : Char} {skipped count : Nat}
    {gap behind : List Char} (behind' : List Char)
    (hends : (quotedFrom quote skipped count (gap ++ q :: behind)).count + skipped ≤
      count + gap.length) :
    quotedFrom quote skipped count (gap ++ q :: behind') =
      quotedFrom quote skipped count (gap ++ q :: behind) := by
  induction gap generalizing skipped count with
  | nil =>
    -- it does not: the quote ends it, or belongs to it
    exfalso
    have hbreak : q ≠ '\n' ∧ q ≠ '\r' ∧ q ≠ '\\' := by rcases hq with rfl | rfl <;> decide
    cases skipped with
    | succ skipped =>
      have hle := le_quotedFrom quote (skipped + 1) count (q :: behind)
      simp only [List.nil_append, List.length_nil] at hends
      omega
    | zero =>
      simp only [List.nil_append, quotedFrom, List.length_nil] at hends
      split at hends
      · simp only at hends
        omega
      · have hle := le_quotedFrom quote 0 (count + 1) behind
        simp [hbreak] at hends
        omega
  | cons c gap ih =>
    simp only [List.length_cons] at hends
    cases skipped with
    | succ skipped => exact ih (by simp only [List.cons_append, quotedFrom] at hends; omega)
    | zero =>
      simp only [List.cons_append, quotedFrom] at hends ⊢
      rw [escapeAt_quote hq gap behind' behind]
      split
      · rfl
      · rename_i hquote
        split
        · rfl
        · rename_i hbreak
          rw [if_neg hquote, if_neg hbreak] at hends
          split
          · rename_i hescape
            rw [if_pos hescape] at hends
            cases hshape : escapeAt (gap ++ q :: behind) with
            | malformed => rfl
            | taken size =>
              simp only [hshape] at hends
              exact ih (by omega)
            | octal =>
              simp only [hshape] at hends
              exact ih (by omega)
          · rename_i hescape
            rw [if_neg hescape] at hends
            exact ih (by omega)

/-- Between two quotes, a plain text is the inside of a literal. -/
theorem quotedFrom_plain {inner : List Char} (hplain : PlainBetween q inner) (count : Nat)
    (behind : List Char) :
    quotedFrom q 0 count (inner ++ q :: behind) = ⟨count + inner.length + 1, false⟩ := by
  induction inner generalizing count with
  | nil => simp [quotedFrom]
  | cons c inner ih =>
    obtain ⟨hc, hinner⟩ := List.forall_mem_cons.1 hplain
    simp only [List.cons_append, quotedFrom, List.length_cons]
    rw [ih hinner]
    simp [hc]
    omega

/-! ## Marks -/

/-- A mark is what the text starts with. -/
theorem markAt_isPrefix {text : List Char} {mark : String} (h : markAt text = some mark) :
    mark.toList <+: text := by
  unfold markAt at h
  split at h <;> try (obtain rfl := Option.some.inj h; exact ⟨_, rfl⟩)
  · split at h <;> (obtain rfl := Option.some.inj h; exact ⟨_, rfl⟩)
  · split at h
    · obtain rfl := Option.some.inj h
      rw [String.toList_singleton]
      exact ⟨_, rfl⟩
    · simp at h
  · simp at h

theorem markAt_star (rest : List Char) :
    markAt ('*' :: rest) = some "*" ↔ ¬ ['*'] <+: rest ∧ ¬ ['='] <+: rest := by
  unfold markAt
  split <;> grind [List.IsPrefix]

theorem markAt_equals (rest : List Char) :
    markAt ('=' :: rest) = some "=" ↔ ¬ ['='] <+: rest ∧ ¬ ['>'] <+: rest := by
  unfold markAt
  split <;> grind [List.IsPrefix]

theorem markAt_point (rest : List Char) :
    markAt ('.' :: rest) = some "." ↔ ¬ ['.', '.'] <+: rest := by
  unfold markAt
  split <;> grind [List.IsPrefix]

/-- Whether a text starts in a certain way shows before a quote. -/
theorem isPrefix_quote {lead : List Char} (hlead : q ∉ lead) (gap behind : List Char) :
    lead <+: gap ++ q :: behind ↔ lead <+: gap := by
  induction lead generalizing gap with
  | nil => simp
  | cons c lead ih =>
    obtain ⟨hc, hlead⟩ : q ≠ c ∧ q ∉ lead := by simpa using hlead
    cases gap with
    | nil => simp [List.cons_prefix_cons, Ne.symm hc]
    | cons d gap => simp [List.cons_prefix_cons, ih hlead gap]

/-- The marks of imports and re-exports show before a quote. -/
theorem markAt_quote (hq : IsQuote q) {c : Char} {mark : String}
    (hhead : (Token.mark mark).inHead = true) (h : markAt (c :: (gap ++ q :: behind)) = some mark) :
    markAt (c :: (gap ++ q :: behind')) = some mark := by
  have hlead : ∀ {lead : List Char}, q ∉ lead →
      (lead <+: gap ++ q :: behind' ↔ lead <+: gap ++ q :: behind) := fun hlead =>
    (isPrefix_quote hlead gap behind').trans (isPrefix_quote hlead gap behind).symm
  have hother : q ≠ '*' ∧ q ≠ '=' ∧ q ≠ '>' ∧ q ≠ '.' := by rcases hq with rfl | rfl <;> decide
  have hfirst := markAt_isPrefix h
  simp only [Token.inHead, List.contains_eq_mem, List.mem_cons, List.not_mem_nil, or_false,
    decide_eq_true_eq] at hhead
  rcases hhead with rfl | rfl | rfl | rfl | rfl | rfl | rfl | rfl | rfl <;>
    obtain rfl := (List.cons_prefix_cons.1 hfirst).1
  case inr.inr.inl =>
    change markAt ('*' :: _) = _ at h ⊢
    rw [markAt_star] at h ⊢
    rwa [hlead (by simp [hother]), hlead (by simp [hother])]
  case inr.inr.inr.inr.inr.inl =>
    change markAt ('=' :: _) = _ at h ⊢
    rw [markAt_equals] at h ⊢
    rwa [hlead (by simp [hother]), hlead (by simp [hother])]
  case inr.inr.inr.inr.inr.inr.inl =>
    change markAt ('.' :: _) = _ at h ⊢
    rw [markAt_point] at h ⊢
    rwa [hlead (by simp [hother])]
  all_goals rfl

/-! ## Tokens -/

/-- **A token that ends before a quote.**  It is the same whatever stands behind the quote. -/
theorem tokenAt_quote (hq : IsQuote q) {isFirst : Bool} (behind' : List Char)
    (hhead : (tokenAt isFirst (gap ++ q :: behind)).1.inHead = true) (hgap : gap ≠ [])
    (hends : (tokenAt isFirst (gap ++ q :: behind)).2 ≤ gap.length) :
    tokenAt isFirst (gap ++ q :: behind') = tokenAt isFirst (gap ++ q :: behind) := by
  obtain ⟨c, gap, rfl⟩ := List.exists_cons_of_ne_nil hgap
  have hnext : ∀ behind, (gap ++ q :: behind).head? = some (gap.head?.getD q) := by
    cases gap <;> simp
  simp only [List.cons_append, tokenAt, hnext] at hhead hends ⊢
  split
  · have hname : ∀ behind, nameAt (c :: (gap ++ q :: behind)) = nameAt (c :: gap) := fun behind =>
      nameFrom_quote hq _ (c :: gap) behind (Nat.zero_le _)
    rw [hname, hname]
  · rename_i hletter
    rw [if_neg hletter] at hhead hends
    split
    · -- a number is none of the tokens in question
      rename_i hdigit
      rw [if_pos hdigit] at hhead
      cases hnumber : numberAt (c :: (gap ++ q :: behind)) <;>
        simp [hnumber, Token.inHead] at hhead
    · rename_i hdigit
      rw [if_neg hdigit] at hhead hends
      split
      · rename_i hquote
        rw [if_pos hquote] at hends
        have hsame : quotedFrom c 0 1 (gap ++ q :: behind') =
            quotedFrom c 0 1 (gap ++ q :: behind) :=
          quotedFrom_quote hq behind' (by simp only [List.length_cons] at hends; omega)
        rw [hsame]
      · rename_i hquote
        rw [if_neg hquote] at hhead hends
        split
        · rename_i htemplate
          rw [if_pos htemplate] at hhead
          split at hhead <;> simp [Token.inHead] at hhead
        · rename_i htemplate
          rw [if_neg htemplate] at hhead hends
          split
          · rfl
          · rename_i hhash
            rw [if_neg hhash] at hhead hends
            cases hmark : markAt (c :: (gap ++ q :: behind)) with
            | none => simp [hmark, Token.inHead] at hhead
            | some mark =>
              simp only [hmark] at hhead
              rw [markAt_quote hq hhead hmark]

/-- Between two quotes, a plain text makes up a literal. -/
theorem tokenAt_plain (hq : IsQuote q) {inner : List Char} (hplain : PlainBetween q inner)
    (isFirst : Bool) (behind : List Char) :
    tokenAt isFirst (q :: (inner ++ q :: behind)) = (.string, inner.length + 2) := by
  have hname : startsName q = false := by rcases hq with rfl | rfl <;> decide
  have hother : q ≠ '\\' ∧ q.isDigit = false ∧ q ≠ '.' := by
    rcases hq with rfl | rfl <;> decide
  have hquote : (q == '\'' || q == '"') = true := by rcases hq with rfl | rfl <;> decide
  simp only [tokenAt, quotedFrom_plain hplain, hname, hother.2.1, hquote]
  simp [hother]
  omega

theorem continuesName_of_startsName {c : Char} (h : startsName c = true) :
    continuesName c = true := by
  have hletter : Text.isLetter c = true → Text.isLetterOrMark c = true := by
    unfold Text.isLetter Text.isLetterOrMark
    simp only
    split <;> intro h <;> simp_all [Char.isAlphanum]
  simp only [startsName, continuesName, Bool.or_eq_true] at h ⊢
  rcases h with (h | h) | h
  · simp [h]
  · simp [h]
  · exact .inr (hletter h)

/-- A name has at least the characters counted so far. -/
theorem le_nameFrom (skipped : Nat) (scan : NameScan) (text : List Char) :
    scan.count ≤ (nameFrom skipped scan text).count := by
  fun_induction nameFrom skipped scan text <;> simp_all <;> omega

/-- A token in an import or a re-export takes some characters. -/
theorem tokenAt_pos {isFirst : Bool} {text : List Char}
    (hhead : (tokenAt isFirst text).1.inHead = true) : 0 < (tokenAt isFirst text).2 := by
  cases text with
  | nil => simp [tokenAt, Token.inHead] at hhead
  | cons c rest =>
    simp only [tokenAt] at hhead ⊢
    split
    · -- a name, whose first character is counted or starts an escape
      rename_i hname
      have hcount : ∀ scan skipped, 0 < scan.count → 0 < (nameFrom skipped scan rest).count :=
        fun scan skipped h => Nat.lt_of_lt_of_le h (le_nameFrom skipped scan rest)
      simp only [nameAt, nameFrom]
      split
      · exact hcount _ _ (by simp)
      · rename_i hcontinues
        have hescape : (c == '\\') = true := by
          simp only [Bool.or_eq_true] at hname
          exact hname.resolve_left fun h => hcontinues (continuesName_of_startsName h)
        rw [if_pos hescape]
        split
        · split
          · exact hcount _ _ (by simp)
          · simp
        · simp
    · split
      · rename_i hname hdigit
        rw [if_neg hname, if_pos hdigit] at hhead
        cases hnumber : numberAt (c :: rest) <;> simp [hnumber, Token.inHead] at hhead
      · split
        · exact le_quotedFrom c 0 1 rest
        · split
          · rename_i hname hdigit hquote htemplate
            rw [if_neg hname, if_neg hdigit, if_neg hquote, if_pos htemplate] at hhead
            split at hhead <;> simp [Token.inHead] at hhead
          · split
            · simp
            · cases hmark : markAt (c :: rest) with
              | none => simp
              | some mark =>
                rename_i hname hdigit hquote htemplate hhash
                simp only [if_neg hname, if_neg hdigit, if_neg hquote, if_neg htemplate,
                  if_neg hhash, hmark, Token.inHead, List.contains_eq_mem, decide_eq_true_eq]
                  at hhead
                exact (by decide : ∀ mark ∈ ["\x7b", "\x7d", "*", ",", ";", "=", ".", "(", ")"],
                  0 < mark.length) mark hhead

/-! ## Blanks -/

theorem le_blanksFrom (state : BlankState) (count : Nat) (sawBreak : Bool) (text : List Char) :
    count ≤ (blanksFrom state count sawBreak text).1 := by
  fun_induction blanksFrom state count sawBreak text <;> grind

/-- The blanks at the start of a text, by what the text starts with. -/
theorem blanksFrom_between (count : Nat) (sawBreak : Bool) (c : Char) (rest : List Char) :
    blanksFrom .between count sawBreak (c :: rest) =
      if ['/', '/'] <+: c :: rest then blanksFrom .lineComment (count + 2) sawBreak (rest.drop 1)
      else if ['/', '*'] <+: c :: rest then
        blanksFrom .blockComment (count + 2) sawBreak (rest.drop 1)
      else if ['<', '!', '-', '-'] <+: c :: rest then
        blanksFrom .lineComment (count + 4) sawBreak (rest.drop 3)
      else if sawBreak = true ∧ ['-', '-', '>'] <+: c :: rest then
        blanksFrom .lineComment (count + 3) true (rest.drop 2)
      else if isLineBreak c then blanksFrom .between (count + 1) true rest
      else if isSpace c then blanksFrom .between (count + 1) sawBreak rest
      else (count, sawBreak) := by
  rw [blanksFrom.eq_def]
  split <;> grind [List.IsPrefix]

theorem blanksFrom_blockComment (count : Nat) (sawBreak : Bool) (c : Char) (rest : List Char) :
    blanksFrom .blockComment count sawBreak (c :: rest) =
      if ['*', '/'] <+: c :: rest then blanksFrom .between (count + 2) sawBreak (rest.drop 1)
      else blanksFrom .blockComment (count + 1) (sawBreak || isLineBreak c) rest := by
  rw [blanksFrom.eq_def]
  split <;> grind [List.IsPrefix]

/-- Two scans that decide alike what to skip next agree if they agree on what follows. -/
theorem ite_alike {decides : Prop} [Decidable decides] {x x' y y' : Nat × Bool} {limit : Nat}
    (hx : decides → x.1 ≤ limit → x' = x) (hy : ¬ decides → y.1 ≤ limit → y' = y)
    (h : (if decides then x else y).1 ≤ limit) :
    (if decides then x' else y') = if decides then x else y := by
  split
  · rename_i hpos
    rw [if_pos hpos] at h
    exact hx hpos h
  · rename_i hneg
    rw [if_neg hneg] at h
    exact hy hneg h

/-- **Blanks that end before a quote.**  They are the same whatever stands behind the quote.  The
induction is on the characters up to the quote, of which a step takes up to four. -/
theorem blanksFrom_quote (hq : IsQuote q) {state : BlankState} {count : Nat} {sawBreak : Bool}
    (behind' : List Char)
    (hends : (blanksFrom state count sawBreak (gap ++ q :: behind)).1 ≤ count + gap.length) :
    blanksFrom state count sawBreak (gap ++ q :: behind') =
      blanksFrom state count sawBreak (gap ++ q :: behind) := by
  have hother : q ≠ '/' ∧ q ≠ '*' ∧ q ≠ '<' ∧ q ≠ '!' ∧ q ≠ '-' ∧ q ≠ '>' := by
    rcases hq with rfl | rfl <;> decide
  have hblank : isLineBreak q = false ∧ isSpace q = false := by
    rcases hq with rfl | rfl <;> decide
  induction hlength : gap.length using Nat.strongRecOn generalizing state count sawBreak gap with
  | _ length ih =>
  subst hlength
  cases gap with
  | nil =>
    cases state with
    | between =>
      simp only [List.nil_append, blanksFrom_between, List.cons_prefix_cons, Ne.symm hother.1,
        Ne.symm hother.2.2.1, Ne.symm hother.2.2.2.2.1, hblank]
      simp
    | lineComment =>
      have hle := le_blanksFrom .lineComment (count + 1) sawBreak behind
      simp only [List.nil_append, blanksFrom, hblank, List.length_nil] at hends
      simp at hends
      omega
    | blockComment =>
      have hle := le_blanksFrom .blockComment (count + 1) (sawBreak || isLineBreak q) behind
      simp only [List.nil_append, blanksFrom_blockComment, List.cons_prefix_cons,
        Ne.symm hother.2.1, List.length_nil] at hends
      simp at hends
      omega
  | cons c gap =>
    simp only [List.length_cons] at ih hends
    have hlead : ∀ (lead : List Char), q ∉ lead →
        (lead <+: c :: (gap ++ q :: behind') ↔ lead <+: c :: gap) ∧
        (lead <+: c :: (gap ++ q :: behind) ↔ lead <+: c :: gap) := fun lead hlead =>
      ⟨isPrefix_quote hlead (c :: gap) behind', isPrefix_quote hlead (c :: gap) behind⟩
    have hstep : ∀ {state : BlankState} {sawBreak : Bool} (size : Nat), size ≤ gap.length →
        (blanksFrom state (count + (size + 1)) sawBreak ((gap ++ q :: behind).drop size)).1 ≤
          count + (gap.length + 1) →
        blanksFrom state (count + (size + 1)) sawBreak ((gap ++ q :: behind').drop size) =
          blanksFrom state (count + (size + 1)) sawBreak ((gap ++ q :: behind).drop size) := by
      intro state sawBreak size hsize hends
      rw [List.drop_append_of_le_length hsize] at hends ⊢
      rw [List.drop_append_of_le_length hsize]
      have hlength : (gap.drop size).length = gap.length - size := List.length_drop
      exact ih _ (by omega) (by omega) rfl
    cases state with
    | between =>
      obtain ⟨hline', hline⟩ := hlead ['/', '/'] (by simp [hother])
      obtain ⟨hblock', hblock⟩ := hlead ['/', '*'] (by simp [hother])
      obtain ⟨hopen', hopen⟩ := hlead ['<', '!', '-', '-'] (by simp [hother])
      obtain ⟨hclose', hclose⟩ := hlead ['-', '-', '>'] (by simp [hother])
      simp only [List.cons_append, blanksFrom_between, hline, hline', hblock, hblock', hopen,
        hopen', hclose, hclose'] at hends ⊢
      refine ite_alike (fun h => hstep 1 (by simpa using h.length_le)) (fun _ => ?_) hends
      refine ite_alike (fun h => hstep 1 (by simpa using h.length_le)) fun _ => ?_
      refine ite_alike (fun h => hstep 3 (by simpa using h.length_le)) fun _ => ?_
      refine ite_alike (fun h => hstep 2 (by simpa using h.2.length_le)) fun _ => ?_
      refine ite_alike (fun _ => hstep 0 (Nat.zero_le _)) fun _ => ?_
      exact ite_alike (fun _ => hstep 0 (Nat.zero_le _)) fun _ _ => rfl
    | lineComment =>
      simp only [List.cons_append, blanksFrom] at hends ⊢
      exact ite_alike (fun _ => hstep 0 (Nat.zero_le _)) (fun _ => hstep 0 (Nat.zero_le _)) hends
    | blockComment =>
      obtain ⟨hclose', hclose⟩ := hlead ['*', '/'] (by simp [hother])
      simp only [List.cons_append, blanksFrom_blockComment, hclose, hclose'] at hends ⊢
      exact ite_alike (fun h => hstep 1 (by simpa using h.length_le))
        (fun _ => hstep 0 (Nat.zero_le _)) hends

/-! ## The line in front of a text -/

/-- A line that names an interpreter and ends before a quote. -/
theorem interpreterLine_quote (hq : IsQuote q) (behind' : List Char)
    (hends : interpreterLine (gap ++ q :: behind) ≤ gap.length) :
    interpreterLine (gap ++ q :: behind') = interpreterLine (gap ++ q :: behind) := by
  have hother : q ≠ '#' ∧ q ≠ '!' := by rcases hq with rfl | rfl <;> decide
  have hbreak : isLineBreak q = false := by rcases hq with rfl | rfl <;> decide
  rcases gap with _ | ⟨a, _ | ⟨b, gap⟩⟩
  · simp [interpreterLine, hother.1]
  · simp [interpreterLine, hother.2]
  · by_cases hline : a = '#' ∧ b = '!'
    · obtain ⟨rfl, rfl⟩ := hline
      simp only [List.cons_append, interpreterLine, List.length_cons] at hends ⊢
      have hfull : (gap.takeWhile fun c => !isLineBreak c).length ≠ gap.length := by
        intro hfull
        rw [List.takeWhile_append, if_pos hfull] at hends
        simp only [List.takeWhile_cons, hbreak, Bool.not_false, if_true, List.length_append,
          List.length_cons] at hends
        omega
      rw [List.takeWhile_append, List.takeWhile_append, if_neg hfull, if_neg hfull]
    · have hnone : ∀ rest, interpreterLine (a :: b :: rest) = 0 := by
        intro rest
        unfold interpreterLine
        split
        · simp_all
        · rfl
      simp only [List.cons_append, hnone]

end

end Relocate.Source
