import Relocate.Span
import Relocate.Source.Token

/-!
A place in a source text, with the token that starts there and the specifiers recorded before it.
What every cursor of a text satisfies is part of its type: the characters before and after it make
up the text, and the recorded specifiers stand in the text where they say, in order and apart from
each other. A reader can reach other cursors only by moving on and by recording, so it cannot
break this.
-/

namespace Relocate.Source

open Text

/-- The specifier stands in the text at its span. -/
def StandsIn (text : List Char) (r : Reference) : Prop :=
  ∃ before after, text = before ++ r.specifier.toList ++ after ∧
    byteLength before = r.span.start ∧
    byteLength before + byteLength r.specifier.toList = r.span.stop

/-- In the text there is a quote in front of the specifier. -/
def QuotedIn (text : List Char) (r : Reference) : Prop :=
  ∃ before q after, text = before ++ q :: after ∧ IsQuote q ∧ byteLength before + 1 = r.span.start

/-- What holds of a place: `rest` is the end of the text behind `offset` bytes, and each specifier
in `found`, the last one first, stands before it and behind the next one. In front of a specifier
there is its quote. -/
structure Sound (text rest : List Char) (offset : Nat) (found : List Reference) : Prop where
  split : ∃ before, text = before ++ rest ∧ byteLength before = offset
  stands : ∀ r ∈ found, StandsIn text r ∧ 0 < r.span.start ∧ r.span.stop < offset
  quoted : ∀ r ∈ found, QuotedIn text r
  apart : found.Pairwise fun later earlier => earlier.span.stop < later.span.start

/-- A place in a text. -/
structure Cursor (text : List Char) where
  /-- The text from here on. -/
  rest : List Char
  /-- The number of bytes before it. -/
  offset : Nat
  /-- The token that starts here. -/
  token : Token
  /-- The number of its characters. -/
  width : Nat
  /-- A line ends between the token before and this one. -/
  afterBreak : Bool
  /-- The offset of the last assignment that may turn out to be a function. -/
  arrowStart : Option Nat
  /-- The specifiers recorded so far, the last one first. -/
  found : List Reference
  sound : Sound text rest offset found
  /-- A string starts with its quote. -/
  quote : token = .string → ∃ q after, rest = q :: after ∧ IsQuote q

namespace Cursor

variable {text : List Char}

theorem sound_drop {rest : List Char} {offset : Nat} {found : List Reference}
    (h : Sound text rest offset found) (count : Nat) :
    Sound text (rest.drop count) (offset + byteLength (rest.take count)) found where
  split := by
    obtain ⟨before, htext, hoffset⟩ := h.split
    refine ⟨before ++ rest.take count, ?_, ?_⟩
    · rw [List.append_assoc, List.take_append_drop, htext]
    · rw [byteLength_append, hoffset]
  stands r hr :=
    have ⟨hstands, hquote, hstop⟩ := h.stands r hr
    ⟨hstands, hquote, Nat.lt_of_lt_of_le hstop (Nat.le_add_right ..)⟩
  quoted := h.quoted
  apart := h.apart

/-- The place `count` characters further on, where no token is read yet. -/
def move (c : Cursor text) (count : Nat) : Cursor text where
  rest := c.rest.drop count
  offset := c.offset + byteLength (c.rest.take count)
  token := .fault
  width := 0
  afterBreak := false
  arrowStart := c.arrowStart
  found := c.found
  sound := sound_drop c.sound count
  quote := nofun

/-- Reads the token at a place. -/
def readToken (c : Cursor text) (isFirst afterBreak : Bool) : Cursor text :=
  { c with
    token := (tokenAt isFirst c.rest).1
    width := (tokenAt isFirst c.rest).2
    afterBreak
    quote := exists_quote_of_tokenAt }

/-- Skips the blanks at a place and reads the token behind them. -/
def settle (c : Cursor text) : Cursor text :=
  let (count, sawBreak) := blanksFrom .between 0 false c.rest
  (c.move count).readToken false sawBreak

/-- The place of the next token. -/
def next (c : Cursor text) : Cursor text := (c.move c.width).settle

/-- The place of the first token of a text. A line counts as ended before it. In front of it there
may be a line that names an interpreter; that line is the first token then. -/
def start (text : List Char) : Cursor text :=
  let origin : Cursor text :=
    { rest := text
      offset := 0
      token := .fault
      width := 0
      afterBreak := true
      arrowStart := none
      found := []
      sound := ⟨⟨[], rfl, rfl⟩, by simp, by simp, .nil⟩
      quote := nofun }
  let line := interpreterLine text
  let body := origin.move line
  let (count, _) := blanksFrom .between 0 true body.rest
  (body.move count).readToken (line == 0) true

/-- The start of a text whose first token is read already. -/
def opening (rest : List Char) (token : Token) (width : Nat) (afterBreak : Bool)
    (quote : token = .string → ∃ q after, rest = q :: after ∧ IsQuote q) : Cursor rest where
  rest := rest
  offset := 0
  token := token
  width := width
  afterBreak := afterBreak
  arrowStart := none
  found := []
  sound := ⟨⟨[], rfl, rfl⟩, by simp, by simp, .nil⟩
  quote := quote

/-- The same place, as the start of a text of its own. -/
def alone (c : Cursor text) : Cursor c.rest :=
  opening c.rest c.token c.width c.afterBreak c.quote

/-- The specifier between the first and the last byte of the literal at a place. A literal shorter
than two bytes holds none, nor does one whose last byte lies within a character. -/
def specifier? (c : Cursor text) : Option Reference :=
  let literal := c.rest.take c.width
  let size := byteLength literal
  if size < 2 then none
  else
    (slice? literal 1 (size - 1)).map fun inner =>
      ⟨String.ofList inner, ⟨c.offset + 1, c.offset + (size - 1)⟩⟩

theorem sound_record (c : Cursor text) (hstring : c.token = .string) {r : Reference}
    (h : c.specifier? = some r) :
    Sound text (c.rest.drop c.width) (c.offset + byteLength (c.rest.take c.width))
      (r :: c.found) := by
  have hmoved := sound_drop c.sound c.width
  unfold specifier? at h
  simp only at h
  split at h
  · simp at h
  · rename_i hsize
    cases hslice : slice? (c.rest.take c.width) 1 (byteLength (c.rest.take c.width) - 1) with
    | none => simp [hslice] at h
    | some inner =>
      simp only [hslice, Option.map_some, Option.some.injEq] at h
      subst h
      obtain ⟨before, after, hliteral, hbefore, hstop⟩ := slice?_eq_some hslice
      obtain ⟨front, htext, hoffset⟩ := c.sound.split
      refine ⟨hmoved.split, ?_, ?_, ?_⟩
      · intro r hr
        rcases List.mem_cons.1 hr with rfl | hr
        · refine ⟨⟨front ++ before, after ++ c.rest.drop c.width, ?_, ?_, ?_⟩, Nat.succ_pos _, ?_⟩
          · have hrest : c.rest = before ++ inner ++ after ++ c.rest.drop c.width := by
              rw [← hliteral, List.take_append_drop]
            refine (htext.trans (congrArg (front ++ ·) hrest)).trans ?_
            simp only [String.toList_ofList, List.append_assoc]
          · simp [byteLength_append, hoffset, hbefore]
          · simp only [String.toList_ofList, byteLength_append, hoffset, hbefore]
            omega
          · show c.offset + (byteLength (c.rest.take c.width) - 1) <
              c.offset + byteLength (c.rest.take c.width)
            omega
        · exact hmoved.stands r hr
      · intro r hr
        rcases List.mem_cons.1 hr with rfl | hr
        · obtain ⟨q, behind, hrest, hq⟩ := c.quote hstring
          refine ⟨front, q, behind, ?_, hq, by rw [hoffset]⟩
          rw [← hrest]
          exact htext
        · exact c.sound.quoted r hr
      · refine List.pairwise_cons.2 ⟨fun earlier hr => ?_, c.sound.apart⟩
        have hlt := (c.sound.stands earlier hr).2.2
        show earlier.span.stop < c.offset + 1
        omega

/-- The place behind the token at a place, with its specifier recorded if it is a string. -/
def record (c : Cursor text) : Cursor text :=
  if hstring : c.token = .string then
    match h : c.specifier? with
    | none => c.next
    | some r =>
      let recorded : Cursor text :=
        { rest := c.rest.drop c.width
          offset := c.offset + byteLength (c.rest.take c.width)
          token := .fault
          width := 0
          afterBreak := false
          arrowStart := c.arrowStart
          found := r :: c.found
          sound := sound_record c hstring h
          quote := nofun }
      recorded.settle
  else c.next

end Cursor

end Relocate.Source
