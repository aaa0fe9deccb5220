import Relocate.Proofs.Heads
import Relocate.Proofs.Rewriting

/-! # Two texts side by side

The imports in the head of a text are read from `Place`s: from what is left of the text and the
token there.  Two places are `Abreast` when imports are read alike from them, up to the spelling of
their specifiers.

* `Trodden.guides` and `Beside.guides`: both the way through one text and the way through two texts
  that are abreast go along with the tokens of imports.
* `Place.Requoted.abreast`: a text and its rewritten form are abreast from their first places on,
  when the literals that are changed are reached over tokens of imports and get a plain text between
  their quotes.

The second one is an induction from literal to literal.  In front of a changed literal the two texts
are the same up to a quote, and how a text is read there does not depend on what stands behind the
quote.
-/

namespace Relocate.Source

open Text

variable {text text' : List Char}

/-! ## Places -/

/-- What stands between the first and the last byte of a literal. -/
def inner? (literal : List Char) : Option (List Char) :=
  if byteLength literal < 2 then none else slice? literal 1 (byteLength literal - 1)

/-- A place in a text, as far as it decides how imports are read from there on. -/
structure Place where
  rest : List Char
  /-- The number of bytes before it. -/
  position : Nat
  token : Token
  width : Nat
  afterBreak : Bool

namespace Place

/-- The place of the first token of a text with so many bytes in front. -/
def settled (text : List Char) (position : Nat) : Place where
  rest := text.drop (blanksFrom .between 0 false text).1
  position := position + byteLength (text.take (blanksFrom .between 0 false text).1)
  token := (tokenAt false (text.drop (blanksFrom .between 0 false text).1)).1
  width := (tokenAt false (text.drop (blanksFrom .between 0 false text).1)).2
  afterBreak := (blanksFrom .between 0 false text).2

/-- The place of the next token. -/
def next (p : Place) : Place :=
  settled (p.rest.drop p.width) (p.position + byteLength (p.rest.take p.width))

/-- The specifier between the first and the last byte of the literal at a place. -/
def specifier? (p : Place) : Option Reference :=
  (inner? (p.rest.take p.width)).map fun inner =>
    ⟨String.ofList inner,
      ⟨p.position + 1, p.position + (byteLength (p.rest.take p.width) - 1)⟩⟩

/-- The token at the place is read from its text. -/
def Settled (p : Place) : Prop := ∃ isFirst, tokenAt isFirst p.rest = (p.token, p.width)

theorem settled_next (p : Place) : p.next.Settled := ⟨false, rfl⟩

/-- The next place is further on in the same text. -/
theorem suffix_next (p : Place) :
    ∃ front, p.rest = front ++ p.next.rest ∧ p.next.position = p.position + byteLength front := by
  let text := p.rest.drop p.width
  let count := (blanksFrom .between 0 false text).1
  refine ⟨p.rest.take p.width ++ text.take count, ?_, ?_⟩
  · show p.rest = _ ++ text.drop count
    rw [List.append_assoc, List.take_append_drop, List.take_append_drop]
  · show p.position + _ + byteLength (text.take count) = _
    rw [byteLength_append, Nat.add_assoc]

theorem length_next_le (p : Place) : p.next.rest.length ≤ p.rest.length := by
  simp only [next, settled, List.length_drop]
  omega

/-- Behind a token of an import the rest is shorter. -/
theorem length_next_lt {p : Place} (h : p.Settled) (hhead : p.token.inHead = true) :
    p.next.rest.length < p.rest.length := by
  obtain ⟨isFirst, htoken⟩ := h
  have hwidth : 0 < p.width := by
    have hpos : (tokenAt isFirst p.rest).1.inHead = true → 0 < (tokenAt isFirst p.rest).2 :=
      tokenAt_pos
    rw [htoken] at hpos
    exact hpos hhead
  have hrest : p.rest ≠ [] := by
    intro hnil
    rw [hnil] at htoken
    obtain ⟨hstop, _⟩ : Token.stop = p.token ∧ 0 = p.width := by simpa [tokenAt] using htoken
    rw [← hstop] at hhead
    cases hhead
  have hlength := List.length_pos_iff.2 hrest
  simp only [next, settled, List.length_drop]
  omega

end Place

namespace Cursor

/-- The place of a cursor of a text with `base` bytes in front. -/
def place (base : Nat) (c : Cursor text) : Place :=
  ⟨c.rest, base + c.offset, c.token, c.width, c.afterBreak⟩

theorem place_next (base : Nat) (c : Cursor text) : c.next.place base = (c.place base).next := by
  simp only [place, Place.next, Place.settled, next, settle, move, readToken, Nat.add_assoc]

theorem length_next_le (base : Nat) (c : Cursor text) : c.next.rest.length ≤ c.rest.length :=
  have hrest : c.next.rest = (c.place base).next.rest := congrArg Place.rest (c.place_next base)
  hrest ▸ (c.place base).length_next_le

theorem length_next_lt {base : Nat} (c : Cursor text) (h : (c.place base).Settled)
    (hhead : c.token.inHead = true) : c.next.rest.length < c.rest.length :=
  have hrest : c.next.rest = (c.place base).next.rest := congrArg Place.rest (c.place_next base)
  hrest ▸ Place.length_next_lt h hhead

theorem place_record (base : Nat) (c : Cursor text) :
    c.record.place base = (c.place base).next := by
  rw [← place_next]
  unfold record
  split
  · split <;> rfl
  · rfl

theorem found_record (c : Cursor text) (hstring : c.token = .string) :
    c.record.found = c.specifier?.toList ++ c.found := by
  unfold record
  rw [dif_pos hstring]
  split
  · rename_i hnone
    rw [hnone]
    rfl
  · rename_i r hsome
    simp only [hsome]
    rfl

theorem specifier?_place (base : Nat) (c : Cursor text) :
    (c.place base).specifier? = c.specifier?.map (moveBy base) := by
  have hown : c.specifier? = (inner? (c.rest.take c.width)).map fun inner =>
      ⟨String.ofList inner, ⟨c.offset + 1, c.offset + (byteLength (c.rest.take c.width) - 1)⟩⟩ := by
    unfold specifier? inner?
    simp only
    split <;> rfl
  rw [hown, Option.map_map]
  refine congrArg (Option.map · _) (funext fun inner => ?_)
  simp only [Function.comp_apply, moveBy, place, Reference.mk.injEq, Span.mk.injEq, true_and]
  omega

end Cursor

/-! ## The way through the tokens of imports -/

namespace Place

/-- The second place is reached from the first one over tokens of imports. -/
inductive Reaches : Place → Place → Prop
  | here (p : Place) : Reaches p p
  | next {p l : Place} : p.token.inHead = true → Reaches p.next l → Reaches p l

namespace Reaches

theorem trans {p l m : Place} (h : Reaches p l) (h' : Reaches l m) : Reaches p m := by
  induction h with
  | here => exact h'
  | next hhead _ ih => exact .next hhead (ih h')

theorem snoc {p l : Place} (h : Reaches p l) (hhead : l.token.inHead = true) :
    Reaches p l.next := h.trans (.next hhead (.here _))

/-- What is left at a later place is the end of what is left at an earlier one. -/
theorem suffix {p l : Place} (h : Reaches p l) :
    ∃ gap, p.rest = gap ++ l.rest ∧ l.position = p.position + byteLength gap := by
  induction h with
  | here p => exact ⟨[], rfl, rfl⟩
  | @next p l _ _ ih =>
    obtain ⟨gap, hrest, hposition⟩ := ih
    obtain ⟨front, hfront, hnext⟩ := p.suffix_next
    refine ⟨front ++ gap, ?_, ?_⟩
    · rw [hfront, hrest, List.append_assoc]
    · rw [hposition, hnext, byteLength_append, Nat.add_assoc]

end Reaches

/-- The string at the place holds the specifier. -/
def Holds (p : Place) (r : Reference) : Prop := p.token = .string ∧ p.specifier? = some r

/-- The specifier at a place starts behind the place. -/
theorem start_specifier? {p : Place} {r : Reference} (h : p.specifier? = some r) :
    r.span.start = p.position + 1 := by
  obtain ⟨inner, _, rfl⟩ := Option.map_eq_some_iff.1 h
  rfl

end Place

/-- What is known of the places of a text that are reached from `origin`, and of the imports that
are recorded on the way: the strings they are from are reached as well. -/
structure Trodden (bound base : Nat) (origin : Place) (c c' : Cursor text) : Prop where
  same : c' = c
  reached : origin.Reaches (c.place base)
  found : ∀ r ∈ c.found, ∃ l, origin.Reaches l ∧ l.Holds (moveBy base r)
  settled : (c.place base).Settled
  within : c.rest.length < bound

theorem Trodden.guides (bound base : Nat) (origin : Place) :
    Guides bound (Trodden bound base origin : Cursor text → Cursor text → Prop) where
  token h := by rw [h.same]
  afterBreak h := by rw [h.same]
  peek h := by rw [h.same]
  next {c c'} h hhead := by
    have hplace := c.place_next base
    refine ⟨by rw [h.same], ?_, h.found, ?_, ?_⟩
    · rw [hplace]
      exact h.reached.snoc hhead
    · rw [hplace]
      exact Place.settled_next _
    · exact Nat.lt_of_le_of_lt (c.length_next_le base) h.within
  record {c c'} h hstring := by
    have hplace := c.place_record base
    have hhead : (c.place base).token.inHead = true := by
      show c.token.inHead = true
      rw [hstring]
      rfl
    refine ⟨by rw [h.same], ?_, ?_, ?_, ?_⟩
    · rw [hplace]
      exact h.reached.snoc hhead
    · intro r hr
      rw [c.found_record hstring] at hr
      rcases List.mem_append.1 hr with hr | hr
      · refine ⟨c.place base, h.reached, hstring, ?_⟩
        rw [c.specifier?_place, Option.mem_toList.1 hr]
        rfl
      · exact h.found r hr
    · rw [hplace]
      exact Place.settled_next _
    · rw [c.rest_record]
      exact Nat.lt_of_le_of_lt (c.length_next_le base) h.within
  shorter {c c'} h hhead := by
    rw [h.same]
    exact c.length_next_lt h.settled hhead
  within h := by
    rw [h.same]
    exact h.within

/-! ## Two texts side by side -/

namespace Place

/-- **Two places from which imports are read alike.**  Either the two texts are the same from there
on, and so is how their specifiers are spelled; or the two have the same token, what `spell` makes
of the specifier at the first one stands at the second one, and they go on alike. -/
inductive Abreast (spell : Reference → String) : Place → Place → Prop
  | level {p p' : Place} : p'.rest = p.rest → p'.token = p.token → p'.width = p.width →
      p'.afterBreak = p.afterBreak → p.Settled →
      (∀ r : Reference, p.position ≤ r.span.start → spell r = r.specifier) → Abreast spell p p'
  | step {p p' : Place} : p'.token = p.token → p'.afterBreak = p.afterBreak → p'.Settled →
      p'.specifier?.map Reference.specifier = p.specifier?.map spell →
      (∃ r : Reference, p.position < r.span.start ∧ spell r ≠ r.specifier) →
      Abreast spell p.next p'.next → Abreast spell p p'

namespace Abreast

variable {spell : Reference → String} {p p' : Place}

theorem token (h : Abreast spell p p') : p'.token = p.token := by
  cases h with
  | level _ htoken => exact htoken
  | step htoken => exact htoken

theorem afterBreak (h : Abreast spell p p') : p'.afterBreak = p.afterBreak := by
  cases h with
  | level _ _ _ hbreak => exact hbreak
  | step _ hbreak => exact hbreak

theorem settled (h : Abreast spell p p') : p'.Settled := by
  cases h with
  | level hrest htoken hwidth _ hsettled =>
    obtain ⟨isFirst, hread⟩ := hsettled
    exact ⟨isFirst, by rw [hrest, htoken, hwidth, hread]⟩
  | step _ _ hsettled => exact hsettled

theorem specifier? (h : Abreast spell p p') :
    p'.specifier?.map Reference.specifier = p.specifier?.map spell := by
  cases h with
  | level hrest _ hwidth _ _ hspell =>
    simp only [Place.specifier?, hrest, hwidth, Option.map_map]
    refine congrArg (Option.map · _) (funext fun inner => ?_)
    exact (hspell ⟨_, _, _⟩ (Nat.le_succ p.position)).symm
  | step _ _ _ hspecifier => exact hspecifier

theorem next (h : Abreast spell p p') : Abreast spell p.next p'.next := by
  cases h with
  | level hrest _ hwidth _ _ hspell =>
    obtain ⟨front, _, hposition⟩ := p.suffix_next
    refine .level ?_ ?_ ?_ ?_ p.settled_next fun r hr => hspell r (by omega)
    all_goals simp only [Place.next, Place.settled, hrest, hwidth]
  | step _ _ _ _ _ hnext => exact hnext

end Abreast

end Place

/-- Two cursors from which imports are read alike, and that have recorded alike. -/
structure Beside (spell : Reference → String) (bound base base' : Nat) (c : Cursor text)
    (c' : Cursor text') : Prop where
  abreast : Place.Abreast spell (c.place base) (c'.place base')
  found : c'.found.map Reference.specifier = c.found.map fun r => spell (moveBy base r)
  within : c'.rest.length < bound

theorem Beside.guides (spell : Reference → String) (bound base base' : Nat) :
    Guides bound (Beside spell bound base base' : Cursor text → Cursor text' → Prop) where
  token h := h.abreast.token
  afterBreak h := h.abreast.afterBreak
  peek {c c'} h := by
    have hnext := h.abreast.next
    rw [← c.place_next, ← c'.place_next] at hnext
    exact hnext.token
  next {c c'} h _ := by
    have hnext := h.abreast.next
    rw [← c.place_next, ← c'.place_next] at hnext
    exact ⟨hnext, h.found, Nat.lt_of_le_of_lt (c'.length_next_le base') h.within⟩
  record {c c'} h hstring := by
    have hstring' : c'.token = .string := h.abreast.token.trans hstring
    have hnext := h.abreast.next
    rw [← c.place_record, ← c'.place_record] at hnext
    have hwithin : c'.record.rest.length < bound := by
      rw [c'.rest_record]
      exact Nat.lt_of_le_of_lt (c'.length_next_le base') h.within
    refine ⟨hnext, ?_, hwithin⟩
    have hspecifier := h.abreast.specifier?
    rw [c.specifier?_place, c'.specifier?_place, Option.map_map, Option.map_map] at hspecifier
    rw [c.found_record hstring, c'.found_record hstring', List.map_append, List.map_append, h.found]
    refine congrArg (· ++ _) ?_
    cases hown : c.specifier? <;> cases hown' : c'.specifier? <;> simp_all [moveBy]
  shorter {c c'} h hhead := by
    have htoken : c'.token = c.token := h.abreast.token
    exact c'.length_next_lt h.abreast.settled (by rw [htoken]; exact hhead)
  within h := h.within

/-! ## From quote to quote -/

namespace Place

variable {spell : Reference → String} {p p' l : Place} {q : Char} {gap behind behind' : List Char}

/-- Skipping blanks up to a place before a quote, whatever stands behind the quote. -/
theorem drop_blanks_quote (hq : IsQuote q) {sawBreak : Bool} {left : List Char}
    (hrest : (gap ++ q :: behind).drop (blanksFrom .between 0 sawBreak (gap ++ q :: behind)).1 =
      left ++ q :: behind) (behind' : List Char) :
    blanksFrom .between 0 sawBreak (gap ++ q :: behind') =
        blanksFrom .between 0 sawBreak (gap ++ q :: behind) ∧
      (gap ++ q :: behind').drop (blanksFrom .between 0 sawBreak (gap ++ q :: behind)).1 =
        left ++ q :: behind' := by
  have hlength := congrArg List.length hrest
  simp only [List.length_drop, List.length_append, List.length_cons] at hlength
  have hends : (blanksFrom .between 0 sawBreak (gap ++ q :: behind)).1 ≤ gap.length := by omega
  refine ⟨blanksFrom_quote hq behind' (by omega), ?_⟩
  rw [List.drop_append_of_le_length hends] at hrest ⊢
  rw [List.append_cancel_right hrest]

theorem settled_quote (hq : IsQuote q) {position : Nat} {left : List Char}
    (hrest : (settled (gap ++ q :: behind) position).rest = left ++ q :: behind)
    (behind' : List Char) (position' : Nat) :
    (settled (gap ++ q :: behind') position').rest = left ++ q :: behind' ∧
      (settled (gap ++ q :: behind') position').afterBreak =
        (settled (gap ++ q :: behind) position).afterBreak := by
  obtain ⟨hblanks, hrest'⟩ := drop_blanks_quote hq hrest behind'
  simp only [settled, hblanks]
  exact ⟨hrest', trivial⟩

/-- The next place is further on by some bytes. -/
theorem position_next_lt (h : p.Settled) (hhead : p.token.inHead = true) :
    p.position < p.next.position := by
  obtain ⟨front, hfront, hposition⟩ := p.suffix_next
  have hlength := length_next_lt h hhead
  rw [hfront, List.length_append] at hlength
  obtain ⟨c, front, rfl⟩ := List.exists_cons_of_ne_nil (l := front) (by
    intro hnil
    rw [hnil, List.length_nil] at hlength
    omega)
  have hpos := c.utf8Size_pos
  rw [hposition, byteLength]
  omega

/-- Going on from a token that ends before a quote, whatever stands behind the quote. -/
theorem next_quote (hq : IsQuote q) (hrest : p.rest = gap ++ q :: behind)
    (hrest' : p'.rest = gap ++ q :: behind') (hwidth : p.width ≤ gap.length)
    (hsame : p'.width = p.width) {left : List Char} (hnext : p.next.rest = left ++ q :: behind) :
    p'.next.rest = left ++ q :: behind' ∧ p'.next.afterBreak = p.next.afterBreak := by
  have hdrop : p.rest.drop p.width = gap.drop p.width ++ q :: behind := by
    rw [hrest, List.drop_append_of_le_length hwidth]
  have hdrop' : p'.rest.drop p'.width = gap.drop p.width ++ q :: behind' := by
    rw [hrest', hsame, List.drop_append_of_le_length hwidth]
  simp only [next, hdrop, hdrop'] at hnext ⊢
  exact settled_quote hq hnext behind' _

/-- **From a place to the next literal.**  Up to the quote of a literal that is reached from there,
the tokens of two texts are the same if their characters are. -/
theorem Reaches.abreast (h : Reaches p l) (hq : IsQuote q) (hliteral : l.rest = q :: behind)
    (hrest : p.rest = gap ++ q :: behind) (hrest' : p'.rest = gap ++ q :: behind') {isFirst : Bool}
    (hread : tokenAt isFirst p.rest = (p.token, p.width))
    (hread' : tokenAt isFirst p'.rest = (p'.token, p'.width))
    (hbreak : p'.afterBreak = p.afterBreak)
    (hspell : ∀ r : Reference, p.position < r.span.start → r.span.start ≤ l.position →
      spell r = r.specifier)
    (hchanged : ∃ r : Reference, l.position < r.span.start ∧ spell r ≠ r.specifier)
    (hend : ∀ l' : Place, l'.rest = q :: behind' → l'.afterBreak = l.afterBreak → l'.Settled →
      Abreast spell l l') : Abreast spell p p' := by
  induction h generalizing p' gap isFirst with
  | here p =>
    have hgap : gap = [] := by
      have hlength := congrArg List.length (hliteral.symm.trans hrest)
      simp only [List.length_append, List.length_cons] at hlength
      exact List.length_eq_zero_iff.1 (by omega)
    rw [hgap, List.nil_append] at hrest'
    exact hend p' hrest' hbreak ⟨isFirst, hread'⟩
  | @next p l hhead hreach ih =>
    have hsettled : p.Settled := ⟨isFirst, hread⟩
    obtain ⟨left, hleft, hposition⟩ := hreach.suffix
    rw [hliteral] at hleft
    -- the token, and the blanks behind it, end before the quote
    have hwidth : p.width ≤ gap.length := by
      have hlength := congrArg List.length hleft
      simp only [Place.next, settled, hrest, List.length_drop, List.length_append,
        List.length_cons] at hlength
      omega
    have hgap : gap ≠ [] := by
      rintro rfl
      have hlt := length_next_lt hsettled hhead
      rw [hleft, hrest] at hlt
      simp only [List.length_append, List.length_cons, List.length_nil] at hlt
      omega
    obtain ⟨htoken, hsame⟩ : p'.token = p.token ∧ p'.width = p.width := by
      rw [hrest] at hread
      rw [hrest', tokenAt_quote hq behind' (by rw [hread]; exact hhead) hgap
        (by rw [hread]; exact hwidth), hread] at hread'
      simpa using hread'.symm
    obtain ⟨hnext, hnextBreak⟩ := next_quote hq hrest hrest' hwidth hsame hleft
    have hlater := position_next_lt hsettled hhead
    refine .step htoken hbreak ⟨isFirst, hread'⟩ ?_ ?_ ?_
    · -- the characters of the token are the same, and it is not respelled
      have htaken : p'.rest.take p'.width = p.rest.take p.width := by
        rw [hrest, hrest', hsame, List.take_append_of_le_length hwidth,
          List.take_append_of_le_length hwidth]
      simp only [Place.specifier?, htaken, Option.map_map]
      refine congrArg (Option.map · _) (funext fun inner => ?_)
      exact (hspell ⟨_, _, _⟩ (Nat.lt_succ_self p.position) (by simp only; omega)).symm
    · obtain ⟨r, hr, hne⟩ := hchanged
      exact ⟨r, by omega, hne⟩
    · exact ih hliteral hleft hnext rfl rfl hnextBreak
        (fun r hr hle => hspell r (by omega) hle) hchanged hend

/-- Between two quotes stands what is between the first and the last byte. -/
theorem inner?_quoted (hq : IsQuote q) (inner : List Char) :
    inner? (q :: (inner ++ [q])) = some inner := by
  have hsize : byteLength [q] = 1 := by rcases hq with rfl | rfl <;> rfl
  have hall : byteLength (q :: (inner ++ [q])) = byteLength inner + 2 := by
    rw [← List.singleton_append, byteLength_append, byteLength_append, hsize]
    omega
  have hfirst : cut? (q :: (inner ++ [q])) 1 = some ([q], inner ++ [q]) := by
    rw [← hsize]
    exact cut?_front [q] (inner ++ [q])
  have hsecond : cut? (inner ++ [q]) (byteLength inner) = some (inner, [q]) := cut?_front ..
  rw [inner?, hall, if_neg (by omega), slice?, if_pos (by omega), hfirst]
  simp [hsecond]

/-- At a literal, with another plain text between its quotes. -/
theorem abreast_literal (hq : IsQuote q) {inner' : List Char} (hinner : PlainBetween q inner')
    {l' : Place} {rest' : List Char} (hrest' : l'.rest = q :: (inner' ++ q :: rest'))
    (hsettled : l'.Settled) (hbreak : l'.afterBreak = l.afterBreak) {r : Reference}
    (hholds : l.Holds r) (hspell : spell r = String.ofList inner')
    (hchanged : spell r ≠ r.specifier)
    (hnext : ∀ position', Abreast spell l.next (settled rest' position')) :
    Abreast spell l l' := by
  obtain ⟨isFirst, hread⟩ := hsettled
  obtain ⟨htoken, hr⟩ := hholds
  have hread' := hread
  rw [hrest', tokenAt_plain hq hinner] at hread'
  obtain ⟨htoken', hwidth⟩ : .string = l'.token ∧ inner'.length + 2 = l'.width := by
    simpa using hread'
  have hsplit : l'.rest = (q :: (inner' ++ [q])) ++ rest' := by simp [hrest']
  have hlength : l'.width = (q :: (inner' ++ [q])).length := by simp [← hwidth]
  have htake : l'.rest.take l'.width = q :: (inner' ++ [q]) := by
    rw [hsplit, hlength, List.take_left]
  have hdrop : l'.rest.drop l'.width = rest' := by
    rw [hsplit, hlength, List.drop_left]
  refine .step (by rw [← htoken', htoken]) hbreak ⟨isFirst, hread⟩ ?_ ?_ ?_
  · rw [hr]
    simp [specifier?, htake, inner?_quoted hq, hspell]
  · exact ⟨r, by rw [start_specifier? hr]; omega, hchanged⟩
  · rw [next, next, hdrop]
    exact hnext _

/-- The tokens at the two places are read in the same way from their texts. -/
def ReadAlike (p p' : Place) : Prop :=
  p'.afterBreak = p.afterBreak ∧ ∃ isFirst, tokenAt isFirst p.rest = (p.token, p.width) ∧
    tokenAt isFirst p'.rest = (p'.token, p'.width)

/-- The places are the first ones of their texts: the texts are the same up to them if they are the
same up to a quote that comes later. -/
structure Opens (p p' : Place) (text text' : List Char) : Prop where
  same : text' = text → p'.rest = p.rest ∧ ReadAlike p p'
  quote : ∀ {q : Char} {gap behind behind' left : List Char}, IsQuote q →
    text = gap ++ q :: behind → text' = gap ++ q :: behind' → p.rest = left ++ q :: behind →
    p'.rest = left ++ q :: behind' ∧ ReadAlike p p'

theorem opens_settled (text text' : List Char) (position position' : Nat) :
    Opens (settled text position) (settled text' position') text text' where
  same h := by
    subst h
    exact ⟨rfl, rfl, false, rfl, rfl⟩
  quote {q gap behind behind' left} hq htext htext' hrest := by
    subst htext htext'
    obtain ⟨hrest', hbreak⟩ := settled_quote hq hrest behind' position'
    exact ⟨hrest', hbreak, false, rfl, rfl⟩

theorem opens_start (text text' : List Char) (base base' : Nat) :
    Opens ((Cursor.start text).alone.place base) ((Cursor.start text').alone.place base') text
      text' where
  same h := by
    subst h
    exact ⟨rfl, rfl, _, rfl, rfl⟩
  quote {q gap behind behind' left} hq htext htext' hrest := by
    have hstart : ∀ text, (Cursor.start text).rest = (text.drop (interpreterLine text)).drop
        (blanksFrom .between 0 true (text.drop (interpreterLine text))).1 := fun _ => rfl
    have hread : ∀ text, tokenAt (interpreterLine text == 0) (Cursor.start text).rest =
        ((Cursor.start text).token, (Cursor.start text).width) := fun _ => rfl
    have hrest : (Cursor.start text).rest = left ++ q :: behind := hrest
    rw [hstart] at hrest
    have hline : interpreterLine text ≤ gap.length := by
      have hlength := congrArg List.length hrest
      simp only [htext, List.length_drop, List.length_append, List.length_cons] at hlength
      rw [htext]
      omega
    have hline' : interpreterLine text' = interpreterLine text := by
      rw [htext] at hline ⊢
      rw [htext']
      exact interpreterLine_quote hq behind' hline
    have hdrop : text.drop (interpreterLine text) =
        gap.drop (interpreterLine text) ++ q :: behind := by
      rw [← List.drop_append_of_le_length hline, ← htext]
    have hdrop' : text'.drop (interpreterLine text') =
        gap.drop (interpreterLine text) ++ q :: behind' := by
      rw [hline', htext']
      exact List.drop_append_of_le_length hline
    rw [hdrop] at hrest
    obtain ⟨hblanks, hrest'⟩ := drop_blanks_quote hq hrest behind'
    refine ⟨?_, rfl, interpreterLine text == 0, hread text, hline' ▸ hread text'⟩
    show (Cursor.start text').rest = _
    rw [hstart, hdrop', hblanks, hrest']

/-- **A text and its rewritten form, by the literals that are changed.**  Each of them is reached
from the place in front, up to it the texts are the same, and between its quotes stands a plain
text. -/
inductive Requoted (spell : Reference → String) :
    (p : Place) → (text text' : List Char) → Prop
  | rest {p : Place} {text : List Char} :
      (∀ r : Reference, p.position ≤ r.span.start → spell r = r.specifier) →
      Requoted spell p text text
  | slot {p l : Place} {q : Char} {gap inner inner' rest rest' : List Char} {r : Reference} :
      IsQuote q → PlainBetween q inner' → Reaches p l → l.Holds r →
      l.rest = q :: (inner ++ q :: rest) → l.rest.take l.width = q :: (inner ++ [q]) →
      spell r = String.ofList inner' → spell r ≠ r.specifier →
      (∀ r : Reference, p.position < r.span.start → r.span.start ≤ l.position →
        spell r = r.specifier) →
      Requoted spell l.next rest rest' →
      Requoted spell p (gap ++ q :: (inner ++ q :: rest)) (gap ++ q :: (inner' ++ q :: rest'))

/-- **Changed literals keep the two texts abreast.** -/
theorem Requoted.abreast {text text' : List Char} (h : Requoted spell p text text')
    (hopens : Opens p p' text text') : Abreast spell p p' := by
  induction h generalizing p' with
  | rest hspell =>
    obtain ⟨hrest, hbreak, isFirst, hread, hread'⟩ := hopens.same rfl
    rw [hrest, hread] at hread'
    obtain ⟨htoken, hwidth⟩ := Prod.mk.inj hread'
    exact .level hrest htoken.symm hwidth.symm hbreak ⟨isFirst, hread⟩ hspell
  | @slot p l q gap inner inner' rest rest' r hq hplain hreach hholds hliteral htake hspell
      hchanged hbetween _ ih =>
    obtain ⟨left, hleft, hposition⟩ := hreach.suffix
    rw [hliteral] at hleft
    obtain ⟨hrest', hbreak, isFirst, hread, hread'⟩ := hopens.quote hq rfl rfl hleft
    have hdrop : l.rest.drop l.width = rest := by
      have hsplit := List.take_append_drop l.width l.rest
      rw [htake, hliteral] at hsplit
      rw [hliteral]
      simpa using hsplit
    refine hreach.abreast hq hliteral hleft hrest' hread hread' hbreak hbetween
      ⟨r, by rw [start_specifier? hholds.2]; omega, hchanged⟩ fun l' hl' hlbreak hlsettled => ?_
    refine abreast_literal hq hplain hl' hlsettled hlbreak hholds hspell hchanged
      fun position' => ih ?_
    rw [next, hdrop]
    exact opens_settled ..

end Place

end Relocate.Source
