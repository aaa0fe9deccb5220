import Relocate.Proofs.SideBySide
import Relocate.Session.Redirection

/-! # A rewritten text is read back

An edit puts a new specifier between quotes that are there already.  Whether the text can be read
afterwards depends on both: a specifier with the quote in it ends the literal too early.  `FitsIn`
says of an edit that its text is plain between its quotes.

A module is read item by item, and each item as if the text started there.  So the imports and
re-exports in the head of a text, `headImports`, can be compared with those of the rewritten text
one after the other, and what follows the last changed literal is the same text.

* `itemsFrom_abreast`: from places that are abreast, the two texts are read to the same imports, up
  to their spelling.
* `Place.Requoted.of_respecified`: edits that fit, of imports in the head of a text, keep the texts
  abreast.
* `rewritten_text_is_read_back`: after such edits the imports are as many as before, in the same
  order, and spelled as the edits say.
-/

namespace Relocate

open Text

/-! ## Taking off the front of a text -/

/-- What stands in front of all the imports is not changed, and can be taken off. -/
theorem Respecified.behind {spell : Reference → String} {position : Nat}
    {front text rewritten : List Char} {references : List Reference}
    (h : Respecified spell position (front ++ text) references rewritten)
    (hbehind : ∀ r ∈ references, position + byteLength front ≤ r.span.start) :
    ∃ rewritten', rewritten = front ++ rewritten' ∧
      Respecified spell (position + byteLength front) text references rewritten' := by
  generalize hwhole : front ++ text = whole at h
  cases h with
  | rest => exact ⟨text, hwhole.symm, .rest _ _⟩
  | @slot _ gap tail rewritten r references hgap hstop hlater =>
    have hstart := hbehind r (List.mem_cons_self ..)
    obtain ⟨between, rfl, rfl⟩ := Respecified.exists_gap hwhole (by omega)
    rw [byteLength_append] at hgap
    exact ⟨_, List.append_assoc .., .slot (by omega) hstop hlater⟩

/-- The text in front of the first import starts as it did. -/
theorem Respecified.head? {spell : Reference → String} {position : Nat}
    {text rewritten : List Char} {references : List Reference}
    (h : Respecified spell position text references rewritten)
    (hbehind : ∀ r ∈ references, position < r.span.start) : rewritten.head? = text.head? := by
  cases h with
  | rest => rfl
  | @slot _ gap _ _ r _ hgap _ _ =>
    have hstart := hbehind r (List.mem_cons_self ..)
    cases gap with
    | nil =>
      simp only [byteLength] at hgap
      omega
    | cons => rfl

/-- Only the spelling of the imports in the text matters. -/
theorem Respecified.congr {spell spell' : Reference → String} {position : Nat}
    {text rewritten : List Char} {references : List Reference}
    (h : Respecified spell position text references rewritten)
    (hspell : ∀ r ∈ references, spell r = spell' r) :
    Respecified spell' position text references rewritten := by
  induction h with
  | rest => exact .rest _ _
  | slot hgap hstop _ ih =>
    rw [hspell _ (List.mem_cons_self ..)]
    exact .slot hgap hstop (ih fun r hr => hspell r (List.mem_cons_of_mem _ hr))

/-- An import that is spelled in a new way has an edit that says so. -/
theorem exists_edit_of_spelling_ne {edits : List TextEdit} {r : Reference}
    (h : spelling edits r ≠ r.specifier) :
    ∃ e ∈ edits, e.span = r.span ∧ e.newText = spelling edits r := by
  cases hfind : edits.find? fun e => e.span = r.span with
  | none => simp [spelling, hfind] at h
  | some e =>
    refine ⟨e, List.mem_of_find?_eq_some hfind, by simpa using List.find?_some hfind, ?_⟩
    simp [spelling, hfind]

namespace Source

variable {text text' : List Char}

/-! ## From item to item -/

section

variable {dialect : Dialect}

theorem length_le_byteLength (text : List Char) : text.length ≤ byteLength text := by
  induction text with
  | nil => exact Nat.le_refl _
  | cons c text ih =>
    have hpos := c.utf8Size_pos
    simp only [List.length_cons, byteLength]
    omega

/-- A cursor that has moved has taken something of its text, and the other way round. -/
theorem Cursor.length_lt_iff (c : Cursor text) : c.rest.length < text.length ↔ c.offset ≠ 0 := by
  obtain ⟨before, htext, hoffset⟩ := c.sound.split
  have hlength : text.length = before.length + c.rest.length := by
    conv => lhs; rw [htext]
    exact List.length_append
  cases before with
  | nil =>
    simp only [byteLength, List.length_nil] at hoffset hlength
    omega
  | cons d before =>
    have hpos := d.utf8Size_pos
    simp only [byteLength, List.length_cons] at hoffset hlength
    omega

theorem Cursor.length_start_lt (text : List Char) :
    (Cursor.start text).rest.length < byteLength text + 1 := by
  obtain ⟨before, hbefore, _⟩ := (Cursor.start text).sound.split
  have hlength := congrArg List.length hbefore
  have hbytes := length_le_byteLength text
  rw [List.length_append] at hlength
  omega

/-- The imports in the head of a module: of the imports and re-exports that stand in front of
anything else, from a place with `position` bytes in front of it. -/
def headFrom (dialect : Dialect) :
    (count position : Nat) → {text : List Char} → Cursor text → List Reference
  | 0, _, _, _ => []
  | count + 1, position, _, c =>
    match headLine (moduleContext dialect (byteLength c.rest)) c.alone with
    | .fault _ => []
    | .done _ after =>
      if after.offset == 0 then []
      else
        after.found.reverse.map (moveBy position) ++
          headFrom dialect count (position + after.offset) after

/-- The head of a module consists of items. -/
theorem itemAt_headLine {c : Cursor text} {after : Cursor c.rest} {position : Nat}
    (hsettled : (c.alone.place position).Settled)
    (h : headLine (moduleContext dialect (byteLength c.rest)) c.alone = .done () after) :
    itemAt dialect c = .done .other after ∧
      Trodden (byteLength c.rest + 2) position (c.alone.place position) after after := by
  have hlength := length_le_byteLength c.rest
  have hstart : Trodden (byteLength c.rest + 2) position (c.alone.place position) c.alone c.alone :=
    ⟨rfl, .here _, fun r hr => (nomatch hr), hsettled, by show c.rest.length < _; omega⟩
  obtain ⟨a', hread, htrodden⟩ :=
    (Trodden.guides _ _ _).item hstart h (100 * byteLength c.rest + 98)
  obtain rfl := htrodden.same
  refine ⟨?_, htrodden⟩
  rw [itemAt, enoughDepth]
  exact hread

/-- At the end of a text there is no import. -/
theorem headLine_ne_stop {ctx : Context} {c a : Cursor text} (h : headLine ctx c = .done () a) :
    c.token ≠ .stop := by
  intro hstop
  simp [headLine, bind, Reader.token, hstop, Reader.fail] at h

/-- The imports of a module are those of its first item, and those of the others. -/
theorem itemsFrom_item {c : Cursor text} {shape : Shape} {after : Cursor c.rest}
    (hitem : itemAt dialect c = .done shape after) (hstop : c.token ≠ .stop)
    (hmoved : after.offset ≠ 0) (count position : Nat) :
    itemsFrom dialect (count + 1) position c =
      (itemsFrom dialect count (position + after.offset) after).map
        (after.found.reverse.map (moveBy position) ++ ·) := by
  rw [itemsFrom]
  simp [hstop, hitem, hmoved]

/-- An import in the head of a module is of the first item or of the others. -/
theorem headFrom_cases {count position : Nat} {c : Cursor text} {r : Reference}
    (hsettled : (c.alone.place position).Settled) (hr : r ∈ headFrom dialect count position c) :
    ∃ (count' : Nat) (after : Cursor c.rest), count = count' + 1 ∧
      headLine (moduleContext dialect (byteLength c.rest)) c.alone = .done () after ∧
      itemAt dialect c = .done .other after ∧
      Trodden (byteLength c.rest + 2) position (c.alone.place position) after after ∧
      after.offset ≠ 0 ∧
      headFrom dialect count position c = after.found.reverse.map (moveBy position) ++
        headFrom dialect count' (position + after.offset) after := by
  cases count with
  | zero => cases hr
  | succ count =>
    unfold headFrom at hr
    split at hr
    · cases hr
    · rename_i after hread
      obtain ⟨hitem, htrodden⟩ := itemAt_headLine hsettled hread
      split at hr
      · cases hr
      · rename_i hmoved
        have hmoved : after.offset ≠ 0 := by simpa using hmoved
        refine ⟨count, after, rfl, hread, hitem, htrodden, hmoved, ?_⟩
        rw [headFrom]
        simp [hread, hmoved]

/-- The literals of the imports in the head of a module are reached from its start. -/
theorem headFrom_reached {count position : Nat} {c : Cursor text}
    (hsettled : (c.alone.place position).Settled) {r : Reference}
    (hr : r ∈ headFrom dialect count position c) :
    ∃ l, (c.alone.place position).Reaches l ∧ l.Holds r := by
  induction count generalizing position text with
  | zero => cases hr
  | succ count ih =>
    obtain ⟨_, after, hcount, _, _, htrodden, _, hhead⟩ := headFrom_cases hsettled hr
    obtain rfl := Nat.succ.inj hcount
    rw [hhead] at hr
    rcases List.mem_append.1 hr with hr | hr
    · obtain ⟨r, hfound, rfl⟩ := List.mem_map.1 hr
      exact htrodden.found r (List.mem_reverse.1 hfound)
    · obtain ⟨l, hreach, hholds⟩ := ih htrodden.settled hr
      exact ⟨l, htrodden.reached.trans hreach, hholds⟩

/-- The imports in the head of a module are among all its imports. -/
theorem mem_of_mem_headFrom {count position : Nat} {c : Cursor text} {references : List Reference}
    (h : itemsFrom dialect count position c = some references)
    (hsettled : (c.alone.place position).Settled) {r : Reference}
    (hr : r ∈ headFrom dialect count position c) : r ∈ references := by
  induction count generalizing position text references with
  | zero => cases hr
  | succ count ih =>
    obtain ⟨_, after, hcount, hread, hitem, htrodden, hmoved, hhead⟩ := headFrom_cases hsettled hr
    obtain rfl := Nat.succ.inj hcount
    rw [itemsFrom_item hitem (headLine_ne_stop (c := c.alone) hread) hmoved] at h
    obtain ⟨later, hlater, rfl⟩ := Option.map_eq_some_iff.1 h
    rw [hhead] at hr
    rcases List.mem_append.1 hr with hr | hr
    · exact List.mem_append_left _ hr
    · exact List.mem_append_right _ (ih hlater htrodden.settled hr)

theorem moveBy_add (a b : Nat) : moveBy (a + b) = moveBy a ∘ moveBy b := by
  funext r
  simp only [moveBy, Function.comp_apply, Reference.mk.injEq, Span.mk.injEq, true_and]
  omega

/-- How items are read does not depend on what precedes them, nor on how many may follow. -/
theorem itemsFrom_found {count position : Nat} {c : Cursor text} {references : List Reference}
    (h : itemsFrom dialect count position c = some references) :
    ∃ found : List Reference, references = found.map (moveBy position) ∧
      ∀ {count'}, c.rest.length < count' → ∀ position',
        itemsFrom dialect count' position' c = some (found.map (moveBy position')) := by
  induction count generalizing position text references with
  | zero => simp [itemsFrom] at h
  | succ count ih =>
    by_cases hstop : c.token = .stop
    · obtain rfl : [] = references := by simpa [itemsFrom, hstop] using h
      refine ⟨[], rfl, fun {count'} hcount position' => ?_⟩
      obtain ⟨count', rfl⟩ : ∃ n, count' = n + 1 := ⟨count' - 1, by omega⟩
      simp [itemsFrom, hstop]
    · cases hitem : itemAt dialect c with
      | fault a => simp [itemsFrom, hstop, hitem] at h
      | done shape after =>
        by_cases hmoved : after.offset = 0
        · simp [itemsFrom, hstop, hitem, hmoved] at h
        · rw [itemsFrom_item hitem hstop hmoved] at h
          obtain ⟨later, hlater, rfl⟩ := Option.map_eq_some_iff.1 h
          obtain ⟨found, rfl, hfound⟩ := ih hlater
          have hshorter := after.length_lt_iff.2 hmoved
          refine ⟨after.found.reverse ++ found.map (moveBy after.offset), ?_, ?_⟩
          · simp [moveBy_add]
          · intro count' hcount position'
            obtain ⟨count', rfl⟩ : ∃ n, count' = n + 1 := ⟨count' - 1, by omega⟩
            rw [itemsFrom_item hitem hstop hmoved,
              hfound (by omega : after.rest.length < count') (position' + after.offset)]
            simp [moveBy_add]

theorem itemsFrom_alone (count position : Nat) (c : Cursor text) :
    itemsFrom dialect count position c.alone = itemsFrom dialect count position c := by
  cases count with
  | zero => rfl
  | succ count =>
    have htoken : c.alone.token = c.token := rfl
    rw [itemsFrom, itemsFrom, htoken]
    split
    · rfl
    · have hitem : itemAt dialect c.alone = itemAt dialect c := rfl
      rw [hitem]
      cases itemAt dialect c <;> rfl

/-- Items are read from what is left of a text and its first token. -/
theorem itemsFrom_congr {c : Cursor text} {c' : Cursor text'} (hrest : c'.rest = c.rest)
    (htoken : c'.token = c.token) (hwidth : c'.width = c.width)
    (hbreak : c'.afterBreak = c.afterBreak) (count position : Nat) :
    itemsFrom dialect count position c' = itemsFrom dialect count position c := by
  have hopening : ∀ {rest token width afterBreak rest' token' width' afterBreak'}
      (quote : token = .string → ∃ q after, rest = q :: after ∧ IsQuote q)
      (quote' : token' = .string → ∃ q after, rest' = q :: after ∧ IsQuote q),
      rest' = rest → token' = token → width' = width → afterBreak' = afterBreak →
        itemsFrom dialect count position (.opening rest' token' width' afterBreak' quote') =
          itemsFrom dialect count position (.opening rest token width afterBreak quote) := by
    rintro _ _ _ _ _ _ _ _ _ _ rfl rfl rfl rfl
    rfl
  rw [← itemsFrom_alone count position c, ← itemsFrom_alone count position c']
  exact hopening c.quote c'.quote hrest htoken hwidth hbreak

/-- The item of a module that is read alike in a second text: there too it takes some of the text,
and what is recorded is spelled in the new way. -/
theorem itemAt_beside {spell : Reference → String} {c : Cursor text} {c' : Cursor text'}
    {after : Cursor c.rest} {position position' : Nat}
    (habreast : Place.Abreast spell (c.alone.place position) (c'.alone.place position'))
    (hread : headLine (moduleContext dialect (byteLength c.rest)) c.alone = .done () after)
    (hmoved : after.offset ≠ 0) :
    ∃ after', itemAt dialect c' = .done .other after' ∧ after'.offset ≠ 0 ∧
      Place.Abreast spell (after.place position) (after'.place position') ∧
      after'.found.map Reference.specifier =
        after.found.map fun r => spell (moveBy position r) := by
  have hlength := length_le_byteLength c'.rest
  have hbeside : Beside spell (byteLength c'.rest + 2) position position' c.alone c'.alone :=
    ⟨habreast, rfl, by show c'.rest.length < _; omega⟩
  have hguides := (Beside.guides spell (byteLength c'.rest + 2) position position').onward
    c.alone c'.alone
  obtain ⟨after', hitem, hafter, _, hshorter⟩ := hguides.item
    ⟨hbeside, Nat.le_refl _, .inl rfl⟩ hread (100 * byteLength c'.rest + 98)
  refine ⟨after', ?_, ?_, hafter.abreast, hafter.found⟩
  · rw [itemAt, enoughDepth]
    exact hitem
  · exact after'.length_lt_iff.1 (hshorter.resolve_left hmoved)

/-- **Reading the two texts item by item.**  The items up to the last changed literal are imports
and re-exports, which are read alike; behind it the two texts are the same. -/
theorem itemsFrom_abreast {spell : Reference → String} {count count' position position' : Nat}
    {c : Cursor text} {c' : Cursor text'} {references : List Reference}
    (h : itemsFrom dialect count position c = some references)
    (hsettled : (c.alone.place position).Settled)
    (habreast : Place.Abreast spell (c.alone.place position) (c'.alone.place position'))
    (hhead : ∀ r : Reference, position ≤ r.span.start → spell r ≠ r.specifier →
      ∃ r₀ ∈ headFrom dialect count position c, r₀.span = r.span)
    (hcount : c'.rest.length < count') :
    ∃ references', itemsFrom dialect count' position' c' = some references' ∧
      references'.map Reference.specifier = references.map spell := by
  induction count generalizing position position' count' text text' references with
  | zero => simp [itemsFrom] at h
  | succ count ih =>
    cases habreast with
    | level hrest htoken hwidth hbreak _ hspell =>
      have hsame : itemsFrom dialect (count + 1) position c'.alone =
          itemsFrom dialect (count + 1) position c.alone :=
        itemsFrom_congr hrest htoken hwidth hbreak _ _
      rw [← itemsFrom_alone, ← hsame, itemsFrom_alone] at h
      have hstarts := fun r hr => ((itemsFrom_sound h).1 r hr).1
      obtain ⟨found, rfl, hfound⟩ := itemsFrom_found h
      refine ⟨_, hfound hcount position', ?_⟩
      rw [List.map_map, List.map_map]
      refine List.map_congr_left fun r hr => ?_
      exact (hspell _ (Nat.le_of_lt (hstarts _ (List.mem_map_of_mem hr)))).symm
    | step htoken hbreak hsettled' hspecifier hlater hnext =>
      -- a literal further on is changed, so this item is an import or a re-export
      obtain ⟨r, hr, hchanged⟩ := hlater
      obtain ⟨r₀, hr₀, _⟩ := hhead r (Nat.le_of_lt hr) hchanged
      obtain ⟨_, after, hsucc, hread, hitem, htrodden, hmoved, hheadFrom⟩ :=
        headFrom_cases hsettled hr₀
      obtain rfl := Nat.succ.inj hsucc
      obtain ⟨after', hitem', hmoved', hafter, hfound⟩ := itemAt_beside
        (.step htoken hbreak hsettled' hspecifier ⟨r, hr, hchanged⟩ hnext) hread hmoved
      have hstop : c.token ≠ .stop := headLine_ne_stop (c := c.alone) hread
      have hstop' : c'.token ≠ .stop := fun hend => hstop (htoken.symm.trans hend)
      rw [itemsFrom_item hitem hstop hmoved] at h
      obtain ⟨later, hlater, rfl⟩ := Option.map_eq_some_iff.1 h
      have hshorter := after'.length_lt_iff.2 hmoved'
      obtain ⟨count', rfl⟩ : ∃ n, count' = n + 1 := ⟨count' - 1, by omega⟩
      have hafter : Place.Abreast spell (after.alone.place (position + after.offset))
          (after'.alone.place (position' + after'.offset)) := hafter
      have hothers : ∀ r : Reference, position + after.offset ≤ r.span.start →
          spell r ≠ r.specifier →
          ∃ r₀ ∈ headFrom dialect count (position + after.offset) after, r₀.span = r.span := by
        -- what is recorded for this item starts before the others
        intro r hr hchanged
        obtain ⟨r₀, hr₀, hspan⟩ := hhead r (by omega) hchanged
        rw [hheadFrom] at hr₀
        rcases List.mem_append.1 hr₀ with hown | hothers
        · obtain ⟨own, hfound, rfl⟩ := List.mem_map.1 hown
          obtain ⟨⟨_, _, _, hstarts, hstops⟩, _, hends⟩ :=
            after.sound.stands own (List.mem_reverse.1 hfound)
          have hstart : own.span.start + position = r.span.start := congrArg Span.start hspan
          omega
        · exact ⟨r₀, hothers, hspan⟩
      obtain ⟨later', hlater', hspelled⟩ := ih hlater htrodden.settled hafter hothers
        (by omega : after'.rest.length < count')
      refine ⟨_, by rw [itemsFrom_item hitem' hstop' hmoved', hlater']; rfl, ?_⟩
      have hown : (after'.found.reverse.map (moveBy position')).map Reference.specifier =
          (after.found.reverse.map (moveBy position)).map spell := by
        rw [List.map_map, List.map_map, List.map_reverse, List.map_reverse]
        exact congrArg List.reverse hfound
      rw [List.map_append, List.map_append, hown, hspelled]

end

/-! ## From the edits to the literals -/

namespace Place

/-- The way over the tokens is one: of two places on it, the further one is reached from the place
behind the other one. -/
theorem Reaches.of_lt {p l m : Place} (h : Reaches p l) (h' : Reaches p m)
    (hlt : l.position < m.position) : Reaches l.next m := by
  induction h with
  | here p =>
    cases h' with
    | here => omega
    | next _ h' => exact h'
  | next _ hl ih =>
    cases h' with
    | here =>
      obtain ⟨front, _, hnext⟩ := m.suffix_next
      obtain ⟨gap, _, hposition⟩ := hl.suffix
      omega
    | next _ h' => exact ih h' hlt

end Place

/-- The edit replaces what stands between two quotes, and its text can take that place: the literal
goes on to the same quote. -/
def FitsIn (text : List Char) (e : TextEdit) : Prop :=
  ∃ before q old after, IsQuote q ∧ text = before ++ q :: (old ++ q :: after) ∧
    byteLength before + 1 = e.span.start ∧ e.span.start + byteLength old = e.span.stop ∧
    PlainBetween q e.newText.toList

namespace Place

/-- What the literal at a place holds says where the literal ends. -/
theorem Holds.take {l : Place} {r : Reference} (h : l.Holds r) {q : Char} (hq : IsQuote q)
    {old after : List Char} (hrest : l.rest = q :: (old ++ q :: after))
    (hstop : r.span.start + byteLength old = r.span.stop) :
    l.rest.take l.width = q :: (old ++ [q]) := by
  obtain ⟨inner, hinner, rfl⟩ := Option.map_eq_some_iff.1 h.2
  have hsize : ¬ byteLength (l.rest.take l.width) < 2 := by
    intro hshort
    simp [inner?, hshort] at hinner
  have hsplit : l.rest.take l.width ++ l.rest.drop l.width = (q :: (old ++ [q])) ++ after := by
    rw [List.take_append_drop, hrest]
    simp
  refine (append_inj_bytes hsplit ?_).1
  simp only [byteLength, byteLength_append, hq.utf8Size]
  simp only at hstop
  omega

/-- The literal of an import, in a text that an edit for the import fits in. -/
theorem Holds.literal {l : Place} {r : Reference} (h : l.Holds r) {new : String}
    {whole front ahead tail : List Char} (hfits : FitsIn whole ⟨r.span, new⟩)
    (hplace : whole = front ++ l.rest) (hfront : byteLength front = l.position)
    (hwhole : whole = ahead ++ (r.specifier.toList ++ tail))
    (hahead : byteLength ahead = r.span.start)
    (hstop : r.span.start + byteLength r.specifier.toList = r.span.stop) :
    ∃ q after, IsQuote q ∧ PlainBetween q new.toList ∧ ahead = front ++ [q] ∧ tail = q :: after ∧
      l.rest = q :: (r.specifier.toList ++ q :: after) ∧
      l.rest.take l.width = q :: (r.specifier.toList ++ [q]) := by
  obtain ⟨before, q, old, after, hq, hquoted, hstart, hold, hplain⟩ := hfits
  have hposition := start_specifier? h.2
  simp only at hstart hold
  -- the quote in front of the import is where the literal starts
  obtain ⟨hbefore, hrest⟩ := append_inj_bytes (hplace.symm.trans hquoted) (by omega)
  have hbehind : ahead ++ (r.specifier.toList ++ tail) =
      (before ++ [q]) ++ (old ++ q :: after) := by
    rw [← hwhole, hquoted]
    simp
  obtain ⟨hahead, htail⟩ := append_inj_bytes hbehind (by
    simp only [byteLength, byteLength_append, hq.utf8Size]
    omega)
  obtain ⟨rfl, hafter⟩ := append_inj_bytes htail (by omega)
  exact ⟨q, after, hq, hplain, by rw [hahead, hbefore], hafter, hrest, h.take hq hrest hstop⟩

/-- Behind the literal at a place comes the quote, and then the next place. -/
theorem Holds.stop_lt_next {l : Place} {r : Reference} (h : l.Holds r) {q : Char} (hq : IsQuote q)
    {inner : List Char} (htake : l.rest.take l.width = q :: (inner ++ [q]))
    (hstop : r.span.start + byteLength inner = r.span.stop) :
    r.span.stop < l.next.position := by
  have hstart := start_specifier? h.2
  have htook : byteLength (l.rest.take l.width) = byteLength inner + 2 := by
    rw [htake]
    simp only [byteLength, byteLength_append, hq.utf8Size]
    omega
  show _ < l.position + byteLength (l.rest.take l.width) + _
  omega

/-- **Edits that fit change literals.**  The induction is on the imports; `gap` is the text since
the last changed literal. -/
theorem Requoted.of_respecified {spell : Reference → String} {whole : List Char} {position : Nat}
    {text rewritten : List Char} {references : List Reference}
    (h : Respecified spell position text references rewritten) {p : Place} {lead gap : List Char}
    (hwhole : whole = lead ++ (gap ++ text))
    (hposition : byteLength lead + byteLength gap = position)
    (hplace : ∃ front, whole = front ++ p.rest ∧ byteLength front = p.position)
    (hlead : byteLength lead ≤ p.position)
    (hapart : references.Pairwise fun a b => a.span.stop < b.span.start)
    (hreached : ∀ r ∈ references, spell r ≠ r.specifier → ∃ l, p.Reaches l ∧ l.Holds r)
    (hfits : ∀ r ∈ references, spell r ≠ r.specifier → FitsIn whole ⟨r.span, spell r⟩)
    (honly : ∀ r : Reference, p.position ≤ r.span.start → spell r ≠ r.specifier → r ∈ references) :
    Requoted spell p (gap ++ text) (gap ++ rewritten) := by
  induction references generalizing position text rewritten p lead gap with
  | nil =>
    cases h
    refine .rest fun r hr => Decidable.byContradiction fun hchanged => ?_
    cases honly r hr hchanged
  | cons r references ih =>
    cases h with
    | @slot _ between text rewritten _ _ hbetween hstop hlater =>
      obtain ⟨hfirst, hapart⟩ := List.pairwise_cons.1 hapart
      have hreached' := fun r' hr' => hreached r' (List.mem_cons_of_mem r hr')
      have hfits' := fun r' hr' => hfits r' (List.mem_cons_of_mem r hr')
      by_cases hsame : spell r = r.specifier
      · -- the import is not changed: it belongs to the gap
        have hwhole : whole = lead ++ ((gap ++ (between ++ r.specifier.toList)) ++ text) := by
          simpa [List.append_assoc] using hwhole
        have hkept := ih hlater hwhole (by simp only [byteLength_append]; omega) hplace hlead hapart
          hreached' hfits' fun r' hr' hchanged => by
            rcases List.mem_cons.1 (honly r' hr' hchanged) with rfl | hmem
            · exact absurd hsame hchanged
            · exact hmem
        rw [hsame]
        simpa [List.append_assoc] using hkept
      · obtain ⟨l, hreach, hholds⟩ := hreached r (List.mem_cons_self ..) hsame
        obtain ⟨front, hfront, hp⟩ := hplace
        obtain ⟨way, hway, hl⟩ := hreach.suffix
        obtain ⟨q, after, hq, hplain, hahead, rfl, hliteral, htake⟩ :=
          hholds.literal (hfits r (List.mem_cons_self ..) hsame)
            (by rw [hfront, hway, List.append_assoc] : whole = (front ++ way) ++ l.rest)
            (by rw [byteLength_append, hp, hl])
            (by rw [hwhole]; simp : whole =
              (lead ++ (gap ++ between)) ++ (r.specifier.toList ++ text))
            (by simp only [byteLength_append]; omega) hstop
        have hquote : byteLength [q] = 1 := by simp [byteLength, hq.utf8Size]
        have hstart := start_specifier? hholds.2
        obtain ⟨gap', hlead', hgap⟩ := Respecified.exists_gap hahead (by
          rw [byteLength_append]
          omega)
        have hlater : Respecified spell r.span.stop ([q] ++ after) references rewritten := hlater
        obtain ⟨rewritten, rfl, hafter⟩ := hlater.behind fun r' hr' => by
          have hr' := hfirst r' hr'
          omega
        -- behind the literal, the text goes on as it did, up to the next change
        have hnext := hholds.stop_lt_next hq htake hstop
        have hrest : Requoted spell l.next ([] ++ after) ([] ++ rewritten) := by
          obtain ⟨way', hway', hl'⟩ := (hreach.snoc (by rw [hholds.1]; rfl)).suffix
          refine ih hafter
            (by rw [hfront, hway, hliteral]; simp : whole =
              ((front ++ way) ++ q :: (r.specifier.toList ++ [q])) ++ ([] ++ after))
            ?_ ⟨front ++ way', ?_, ?_⟩ ?_ hapart ?_ hfits' ?_
          · simp only [byteLength, byteLength_append, hq.utf8Size]
            omega
          · rw [hfront, hway', List.append_assoc]
          · rw [byteLength_append, hp, hl']
          · simp only [byteLength, byteLength_append, hq.utf8Size]
            omega
          · intro r' hr' hchanged
            obtain ⟨l', hreach', hholds'⟩ := hreached' r' hr' hchanged
            have hstart' := start_specifier? hholds'.2
            have hlt := hfirst r' hr'
            exact ⟨l', hreach.of_lt hreach' (by omega), hholds'⟩
          · intro r' hr' hchanged
            rcases List.mem_cons.1 (honly r' (by omega) hchanged) with rfl | hmem
            · omega
            · exact hmem
        have hsplit : ∀ rest, gap ++ (between ++ rest) = gap' ++ q :: rest := by
          intro rest
          rw [← List.append_assoc, hgap]
          simp
        rw [hsplit, hsplit]
        refine .slot hq hplain hreach hholds hliteral htake String.ofList_toList.symm hsame ?_ hrest
        intro r' hr' hle
        refine Decidable.byContradiction fun hchanged => ?_
        rcases List.mem_cons.1 (honly r' (Nat.le_of_lt hr') hchanged) with rfl | hmem
        · omega
        · have hlt := hfirst r' hmem
          omega

end Place

/-! ## Texts with a mark in front -/

theorem withoutMark_of_ne {text : List Char} (h : text.head? ≠ some mark) :
    withoutMark text = (text, 0) := by
  rcases withoutMark_eq text with ⟨hmark, _⟩ | ⟨hsame, hnone, _⟩
  · rw [hmark] at h
    exact absurd rfl h
  · exact Prod.ext hsame hnone

/-- A text that does not start with two marks is made of a front part and a body.  Any body with the
same first character is told apart from the same front part. -/
theorem exists_body {text : String} (hmarks : ¬ DoublyMarked text) :
    ∃ front body, text.toList = front ++ body ∧
      ∀ body' : List Char, body'.head? = body.head? →
        withoutMark (front ++ body') = (body', byteLength front) ∧
          withoutMark body' = (body', 0) := by
  rcases withoutMark_eq text.toList with ⟨htext, _⟩ | ⟨_, _, hhead⟩
  · refine ⟨[mark], _, htext, fun body' hhead => ⟨rfl, withoutMark_of_ne ?_⟩⟩
    rw [hhead]
    intro hsecond
    obtain ⟨rest, hrest⟩ := List.head?_eq_some_iff.1 hsecond
    exact hmarks ⟨rest, by rw [htext, hrest]⟩
  · refine ⟨[], text.toList, rfl, fun body' hhead' => ?_⟩
    have hbody : withoutMark body' = (body', 0) := withoutMark_of_ne (by rwa [hhead'])
    exact ⟨hbody, hbody⟩

/-- The imports in the head of a text: of the imports and re-exports in front of all other code. -/
def headImports (path : Path) (text : String) : List Reference :=
  let body := (withoutMark (withoutMark text.toList).1).1
  let c := Cursor.start body
  headFrom (dialectOf path) (byteLength body + 1) ((withoutMark text.toList).2 + c.offset) c

/-- **Reading a text whose literals are changed.**  The text stands behind `front`; the imports that
are changed are in its head, and their edits fit. -/
theorem itemsFrom_respecified {dialect : Dialect} {spell : Reference → String}
    {front body body' : List Char} {references : List Reference}
    (h : itemsFrom dialect (byteLength body + 1) (byteLength front + (Cursor.start body).offset)
      (Cursor.start body) = some references)
    (hrespecified : Respecified spell (byteLength front) body references body')
    (hhead : ∀ r, spell r ≠ r.specifier → ∃ r₀ ∈ headFrom dialect (byteLength body + 1)
      (byteLength front + (Cursor.start body).offset) (Cursor.start body), r₀.span = r.span)
    (honly : ∀ r, spell r ≠ r.specifier → r ∈ references)
    (hfits : ∀ r, spell r ≠ r.specifier → FitsIn (front ++ body) ⟨r.span, spell r⟩) :
    ∃ references', itemsFrom dialect (byteLength body' + 1)
        (byteLength front + (Cursor.start body').offset) (Cursor.start body') = some references' ∧
      references'.map Reference.specifier = references.map spell := by
  let c := Cursor.start body
  let c' := Cursor.start body'
  obtain ⟨before, hbefore, hoffset⟩ := c.sound.split
  obtain ⟨hstands, hapart⟩ := itemsFrom_sound h
  have hsettled : (c.alone.place (byteLength front + c.offset)).Settled :=
    ⟨interpreterLine body == 0, rfl⟩
  have hordered : ∀ r ∈ references, r.span.start ≤ r.span.stop := by
    intro r hr
    obtain ⟨⟨_, _, _, hstart, hstop⟩, _⟩ := (hstands r hr).2 (front ++ before) (by
      rw [byteLength_append, hoffset])
    omega
  have hreached : ∀ r ∈ references, spell r ≠ r.specifier →
      ∃ l, (c.alone.place (byteLength front + c.offset)).Reaches l ∧ l.Holds r := by
    intro r hr hchanged
    obtain ⟨r₀, hr₀, hspan⟩ := hhead r hchanged
    have hdistinct : references.Pairwise fun a b => a.span ≠ b.span := by
      refine hapart.imp_of_mem fun ha hb hab hspan => ?_
      have hle := hordered _ hb
      rw [hspan] at hab
      omega
    obtain rfl := TextEdit.eq_of_pairwise_ne hdistinct (mem_of_mem_headFrom h hsettled hr₀) hr hspan
    exact headFrom_reached hsettled hr₀
  have hrequoted : Place.Requoted spell (c.alone.place (byteLength front + c.offset))
      ([] ++ body) ([] ++ body') := by
    refine .of_respecified hrespecified (rfl : front ++ body = front ++ ([] ++ body)) rfl
      ⟨front ++ before, ?_, ?_⟩ (Nat.le_add_right _ _) hapart hreached (fun r _ => hfits r)
      fun r _ => honly r
    · rw [List.append_assoc]
      exact congrArg (front ++ ·) hbefore
    · rw [byteLength_append, hoffset]
      rfl
  have habreast := hrequoted.abreast
    (Place.opens_start body body' _ (byteLength front + c'.offset))
  exact itemsFrom_abreast h hsettled habreast (fun r _ => hhead r) (Cursor.length_start_lt body')

/-! ## The imports of a file -/

/-- With more in front of the first item, the imports are further on by as much. -/
theorem itemsFrom_add {dialect : Dialect} {count position : Nat} {c : Cursor text}
    (hcount : c.rest.length < count) (more : Nat) :
    itemsFrom dialect count (more + position) c =
      (itemsFrom dialect count position c).map fun found => found.map (moveBy more) := by
  cases h : itemsFrom dialect count position c with
  | some references =>
    obtain ⟨found, rfl, hfound⟩ := itemsFrom_found h
    rw [hfound hcount]
    simp [moveBy_add]
  | none =>
    cases h' : itemsFrom dialect count (more + position) c with
    | none => rfl
    | some references =>
      obtain ⟨found, _, hfound⟩ := itemsFrom_found h'
      rw [hfound hcount] at h
      cases h

/-- The imports of a text are read item by item from its body. -/
theorem imports_eq_itemsFrom (path : Path) {text : String} {front body : List Char}
    (htext : text.toList = front ++ body)
    (hmark : withoutMark (front ++ body) = (body, byteLength front))
    (hbody : withoutMark body = (body, 0)) :
    imports path text = itemsFrom (dialectOf path) (byteLength body + 1)
      (byteLength front + (Cursor.start body).offset) (Cursor.start body) := by
  have hbehind : (withoutMark (withoutMark text.toList).1).1 = body := by rw [htext, hmark, hbody]
  have hfront : (withoutMark text.toList).2 = byteLength front := by rw [htext, hmark]
  show (importsIn (dialectOf path) (withoutMark (withoutMark text.toList).1).1).map
    (fun found => found.map (moveBy (withoutMark text.toList).2)) = _
  rw [itemsFrom_add (Cursor.length_start_lt body), hbehind, hfront]
  rfl

/-- So are the imports in its head. -/
theorem headImports_eq_headFrom (path : Path) {text : String} {front body : List Char}
    (htext : text.toList = front ++ body)
    (hmark : withoutMark (front ++ body) = (body, byteLength front))
    (hbody : withoutMark body = (body, 0)) :
    headImports path text = headFrom (dialectOf path) (byteLength body + 1)
      (byteLength front + (Cursor.start body).offset) (Cursor.start body) := by
  have hbehind : (withoutMark (withoutMark text.toList).1).1 = body := by rw [htext, hmark, hbody]
  have hfront : (withoutMark text.toList).2 = byteLength front := by rw [htext, hmark]
  simp only [headImports]
  rw [hbehind, hfront]

/-- **Reading a file after edits.**  Edits of imports in the head of a text, each of which fits
between the quotes it is put in, leave a text whose imports are those that were there, spelled as
the edits say. -/
theorem imports_respecified {path : Path} {text rewritten : String} {references : List Reference}
    (h : imports path text = some references) (hmarks : ¬ DoublyMarked text)
    {edits : List TextEdit}
    (hedits : ∀ e ∈ edits, (∃ reference ∈ headImports path text, reference.span = e.span) ∧
      FitsIn text.toList e)
    (hrespecified : Respecified (spelling edits) 0 text.toList references rewritten.toList) :
    ∃ reread, imports path rewritten = some reread ∧
      reread.map Reference.specifier = references.map (spelling edits) := by
  obtain ⟨front, body, htext, hbodies⟩ := exists_body hmarks
  obtain ⟨hmark, hbody⟩ := hbodies body rfl
  rw [imports_eq_itemsFrom path htext hmark hbody] at h
  rw [headImports_eq_headFrom path htext hmark hbody, htext] at hedits
  have hstarts := fun r hr => ((itemsFrom_sound h).1 r hr).1
  -- what is in front of the body is not changed, nor is the first character of the body
  rw [htext] at hrespecified
  obtain ⟨body', htext', hrespecified⟩ := hrespecified.behind fun r hr => by
    have hstart := hstarts r hr
    omega
  rw [Nat.zero_add] at hrespecified
  have hhead : body'.head? = body.head? := hrespecified.head? fun r hr => by
    have hstart := hstarts r hr
    omega
  obtain ⟨hmark', hbody'⟩ := hbodies body' hhead
  -- only the imports of this text are spelled in a new way
  let spell : Reference → String := fun r =>
    if r ∈ references then spelling edits r else r.specifier
  have hspell : ∀ r ∈ references, spelling edits r = spell r := fun r hr => (if_pos hr).symm
  have hchanged : ∀ r, spell r ≠ r.specifier →
      r ∈ references ∧ ∃ e ∈ edits, e.span = r.span ∧ e.newText = spell r := by
    intro r hr
    by_cases hmem : r ∈ references
    · rw [← hspell r hmem] at hr ⊢
      exact ⟨hmem, exists_edit_of_spelling_ne hr⟩
    · exact absurd (if_neg hmem) hr
  obtain ⟨reread, hreread, hspecifiers⟩ := itemsFrom_respecified h
    (hrespecified.congr hspell)
    (fun r hr => by
      obtain ⟨_, e, he, hspan, _⟩ := hchanged r hr
      exact hspan ▸ (hedits e he).1)
    (fun r hr => (hchanged r hr).1)
    (fun r hr => by
      obtain ⟨_, e, he, hspan, hnew⟩ := hchanged r hr
      rw [← hspan, ← hnew]
      exact (hedits e he).2)
  refine ⟨reread, ?_, ?_⟩
  · rw [imports_eq_itemsFrom path htext' hmark' hbody', hreread]
  · rw [hspecifiers]
    exact List.map_congr_left fun r hr => (hspell r hr).symm

end Source

/-- **A rewritten text is read back.**  Edits of imports in the head of a text, each of which fits
between the quotes it is put in, leave a text whose imports can be read.  There are as many, in the
same order, and they are spelled as the edits say. -/
theorem rewritten_text_is_read_back {path : Path} {text : String} {references : List Reference}
    (h : Source.imports path text = some references) (hmarks : ¬ Source.DoublyMarked text)
    (r : Resolver) (disk : Disk) (file : Path) (replacements : List Replacement)
    (hedits : ∀ e ∈ r.editsFor disk file references replacements,
      (∃ reference ∈ Source.headImports path text, reference.span = e.span) ∧
        Source.FitsIn text.toList e) :
    ∃ rewritten reread,
      TextEdit.applyAll text (r.editsFor disk file references replacements) = .ok rewritten ∧
      Source.imports path rewritten = some reread ∧
      reread.map Reference.specifier =
        references.map (spelling (r.editsFor disk file references replacements)) := by
  obtain ⟨rewritten, happly, hrespecified⟩ := Resolver.applyAll_editsFor
    (Source.imports_standsIn h hmarks) (Source.imports_apart h) r disk file replacements
  obtain ⟨reread, hreread, hspecifiers⟩ := Source.imports_respecified h hmarks hedits hrespecified
  exact ⟨rewritten, reread, happly, hreread, hspecifiers⟩

/-- The head may have quotes of both kinds, and any code may follow it. -/
theorem rewritten_text_is_read_back_before_code :
    Source.imports ⟨"/a.ts"⟩ "import './x';\nexport * from \"./y\";\nlet n = 1;\n" =
        some [⟨"./x", ⟨8, 11⟩⟩, ⟨"./y", ⟨29, 32⟩⟩] ∧
      ¬ Source.DoublyMarked "import './x';\nexport * from \"./y\";\nlet n = 1;\n" ∧
      (Resolver.ofExtensions .standard).editsFor default ⟨"/a.ts"⟩
          [⟨"./x", ⟨8, 11⟩⟩, ⟨"./y", ⟨29, 32⟩⟩] [⟨"./y", "./it's"⟩] =
        [⟨⟨29, 32⟩, "./it's"⟩] ∧
      ∃ rewritten reread,
        TextEdit.applyAll "import './x';\nexport * from \"./y\";\nlet n = 1;\n"
            ((Resolver.ofExtensions .standard).editsFor default ⟨"/a.ts"⟩
              [⟨"./x", ⟨8, 11⟩⟩, ⟨"./y", ⟨29, 32⟩⟩] [⟨"./y", "./it's"⟩]) = .ok rewritten ∧
        Source.imports ⟨"/a.ts"⟩ rewritten = some reread ∧
        reread.map Reference.specifier =
          [⟨"./x", ⟨8, 11⟩⟩, ⟨"./y", ⟨29, 32⟩⟩].map
            (spelling ((Resolver.ofExtensions .standard).editsFor default ⟨"/a.ts"⟩
              [⟨"./x", ⟨8, 11⟩⟩, ⟨"./y", ⟨29, 32⟩⟩] [⟨"./y", "./it's"⟩])) := by
  have himports : Source.imports ⟨"/a.ts"⟩ "import './x';\nexport * from \"./y\";\nlet n = 1;\n" =
      some [⟨"./x", ⟨8, 11⟩⟩, ⟨"./y", ⟨29, 32⟩⟩] := by decide +kernel
  have hedits : (Resolver.ofExtensions .standard).editsFor default ⟨"/a.ts"⟩
      [⟨"./x", ⟨8, 11⟩⟩, ⟨"./y", ⟨29, 32⟩⟩] [⟨"./y", "./it's"⟩] = [⟨⟨29, 32⟩, "./it's"⟩] := by
    decide +kernel
  have hmarks : ¬ Source.DoublyMarked
      "import './x';\nexport * from \"./y\";\nlet n = 1;\n" := by decide
  have hhead : ⟨"./y", ⟨29, 32⟩⟩ ∈ Source.headImports ⟨"/a.ts"⟩
      "import './x';\nexport * from \"./y\";\nlet n = 1;\n" := by decide +kernel
  refine ⟨himports, hmarks, hedits, rewritten_text_is_read_back himports hmarks _ _ _ _ ?_⟩
  intro e he
  rw [hedits] at he
  obtain rfl := List.mem_singleton.1 he
  exact ⟨⟨_, hhead, rfl⟩, "import './x';\nexport * from ".toList, '"', "./y".toList,
    ";\nlet n = 1;\n".toList, .inr rfl, by decide, by decide, by decide, by decide⟩

/-- A module moves to a file whose name holds the quote that stands around the import of it.  The
new specifier ends the literal too early, and the rewritten text is no module. -/
theorem quote_in_specifier_is_not_read_back :
    Source.imports ⟨"/src/main.ts"⟩ "import './x';\n" = some [⟨"./x", ⟨8, 11⟩⟩] ∧
      (TextEdit.applyAll "import './x';\n"
          ((Resolver.ofExtensions .standard).editsFor default ⟨"/src/main.ts"⟩
            [⟨"./x", ⟨8, 11⟩⟩]
            [Session.replacementFor (Resolver.ofExtensions .standard) ⟨"/src/main.ts"⟩
              ⟨"/src/x.ts"⟩ ⟨"/src/it's.ts"⟩])).toOption = some "import './it's';\n" ∧
      Source.imports ⟨"/src/main.ts"⟩ "import './it's';\n" = none :=
  ⟨by decide +kernel, by decide +kernel, by decide +kernel⟩

end Relocate
