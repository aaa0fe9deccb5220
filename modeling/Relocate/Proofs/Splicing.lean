import Relocate.Edit.Apply

/-! # Edits made in place

Edits are made one after the other in a text that changes under them.  A span names bytes of the
text as it was, so each edit is first moved by the drift of those before it, and whether it fits is
asked of the text as it is by then.

What keeps the two texts together is that an edit leaves alone all that stands behind it.  A draft
is at any time a finished part followed by the untouched rest of the original, and its drift is by
how much the finished part has grown (`Draft.halfway`); an edit behind it finds the same characters
at its moved span as the original has at its span (`Draft.replace_halfway`).  From this follow the
two sides of `edits_apply_exactly`: edits that fit the original are all made, and the text is the
original with their spans exchanged; of edits that do not fit, the first is refused.

The refusal does not always say so.  Offsets are words, and whether one can be moved is asked before
whether it fits: an offset behind the text that the edits before would move past the last word is
said to be shifted below zero, although it is too large
(`offset_past_last_word_reported_below_zero`).
-/

namespace Relocate

open Text

/-! ## Cutting behind a known front part -/

namespace Text

/-- A cut behind `front` is a cut of what follows it. -/
theorem cut?_append (front rest : List Char) (n : Nat) :
    cut? (front ++ rest) (byteLength front + n) =
      (cut? rest n).map fun (before, after) => (front ++ before, after) := by
  induction front with
  | nil => simp [byteLength]
  | cons c front ih =>
    have hpos := c.utf8Size_pos
    have hne : c.utf8Size + byteLength front + n ≠ 0 := by omega
    have hle : c.utf8Size ≤ c.utf8Size + byteLength front + n := by omega
    have hrest : c.utf8Size + byteLength front + n - c.utf8Size = byteLength front + n := by omega
    simp only [List.cons_append, byteLength, cut?, hne, hle, hrest, if_true, if_false, ih]
    cases cut? rest n <;> rfl

/-- A text can be cut behind any front part of it. -/
theorem cut?_front (front rest : List Char) :
    cut? (front ++ rest) (byteLength front) = some (front, rest) := by
  have h := cut?_append front rest 0
  cases rest <;> simpa [cut?] using h

/-- Two divisions of a text behind the same number of bytes are the same. -/
theorem append_inj_bytes {a b c d : List Char} (h : a ++ b = c ++ d)
    (hbytes : byteLength a = byteLength c) : a = c ∧ b = d := by
  have hcut := cut?_front a b
  rw [h, hbytes, cut?_front] at hcut
  obtain ⟨hfront, hrest⟩ := Prod.mk.inj (Option.some.inj hcut)
  exact ⟨hfront.symm, hrest.symm⟩

theorem byteLength_toList (s : String) : byteLength s.toList = s.utf8ByteSize := by
  have hlist : ∀ text : List Char, (String.ofList text).utf8ByteSize = byteLength text := by
    intro text
    induction text with
    | nil => rfl
    | cons c text ih =>
      rw [String.ofList_cons, String.utf8ByteSize_append, ih, String.utf8ByteSize_singleton,
        byteLength]
  rw [← hlist, String.ofList_toList]

/-- The bytes of a text are as many as its length says. -/
theorem size_utf8Encode (text : List Char) : text.utf8Encode.size = byteLength text := by
  rw [← String.toByteArray_ofList, String.size_toByteArray, ← byteLength_toList,
    String.toList_ofList]

/-- The bytes of a part of a text stand in the bytes of the text. -/
theorem extract_utf8Encode (front middle back : List Char) :
    (front ++ (middle ++ back)).utf8Encode.extract (byteLength front)
      (byteLength front + byteLength middle) = middle.utf8Encode := by
  have hfront := size_utf8Encode front
  have hmiddle := size_utf8Encode middle
  have hpart : (front ++ middle).utf8Encode.extract (byteLength front)
      (byteLength front + byteLength middle) = middle.utf8Encode := by
    rw [List.utf8Encode_append,
      ByteArray.extract_append_eq_right hfront.symm (by rw [hfront, hmiddle])]
  have hnone : back.utf8Encode.extract (byteLength front - (front ++ middle).utf8Encode.size)
      (byteLength front + byteLength middle - (front ++ middle).utf8Encode.size) =
      ByteArray.empty := by
    rw [ByteArray.extract_eq_empty_iff, size_utf8Encode, byteLength_append]
    omega
  rw [← List.append_assoc, List.utf8Encode_append, ByteArray.extract_append, hpart, hnone,
    ByteArray.append_empty]

/-- A cut behind `front` can be made if what follows can be cut there. -/
theorem isSome_cut?_append {front : List Char} {n : Nat} (h : byteLength front ≤ n)
    (rest : List Char) :
    (cut? (front ++ rest) n).isSome = (cut? rest (n - byteLength front)).isSome := by
  have hcut := cut?_append front rest (n - byteLength front)
  rw [Nat.add_sub_cancel' h] at hcut
  rw [hcut, Option.isSome_map]

/-- A text can be cut where a character of it starts, and at its end. -/
theorem isSome_cut?_iff (text : String) (n : Nat) :
    (cut? text.toList n).isSome = true ↔ (⟨n⟩ : String.Pos.Raw).IsValid text := by
  rw [String.Pos.Raw.isValid_iff_exists_append]
  constructor
  · intro h
    obtain ⟨⟨before, after⟩, hcut⟩ := Option.isSome_iff_exists.1 h
    obtain ⟨htext, hsize⟩ := cut?_eq_some hcut
    refine ⟨.ofList before, .ofList after, ?_, ?_⟩
    · rw [← String.ofList_append, ← htext, String.ofList_toList]
    · rw [String.Pos.Raw.ext_iff, String.byteIdx_rawEndPos, ← byteLength_toList,
        String.toList_ofList, hsize]
  · rintro ⟨before, after, rfl, hn⟩
    have hn : n = byteLength before.toList := by
      rw [byteLength_toList, ← String.byteIdx_rawEndPos, ← hn]
    rw [hn, String.toList_append, cut?_front]
    rfl

end Text

namespace TextEdit

/-! ## One edit -/

/-- The first end of the span that lies behind a text of `size` bytes and that edits which make the
text longer by `growth` would move past the last offset. -/
def overshoot? (size : Nat) (growth : Int) (e : TextEdit) : Option Nat :=
  [e.span.start, e.span.stop].find? fun offset =>
    decide (size < offset ∧ offsetCount ≤ offset + growth)

/-- What is said about an edit that does not fit a text of `size` bytes, when the edits before it
make the text longer by `growth`. -/
def refusal (size : Nat) (growth : Int) (e : TextEdit) : EditError :=
  match e.overshoot? size growth with
  | some offset => .belowZero offset
  | none => .misfit e.span size

namespace Draft

/-- The draft in which `done` is finished and `rest`, which the original holds from the offset
`position` on, is untouched. -/
def halfway (done : List Char) (position : Nat) (rest : List Char) : Draft :=
  ⟨done ++ rest, byteLength done - position⟩

variable {done rest kept behind gone after : List Char} {position : Nat} {e : TextEdit}

/-- An offset behind the finished part is as far behind it as it was, unless it lies behind the text
and there is no such offset. -/
theorem rebase_halfway (size : Nat) {offset : Nat} (h : position ≤ offset) :
    (halfway done position rest).rebase size offset =
      if size < offset ∧ offsetCount ≤ byteLength done + (offset - position) then
        .error (.belowZero offset)
      else .ok (byteLength done + (offset - position)) := by
  have hplace : (offset : Int) + (halfway done position rest).drift =
      (byteLength done + (offset - position) : Nat) := by
    simp only [halfway]
    omega
  have hsign : ¬ ((byteLength done + (offset - position) : Nat) : Int) < 0 := by omega
  simp only [rebase, hplace, hsign, false_or, Int.ofNat_le, Int.toNat_natCast]

/-- Where the draft has offsets for all its bytes, an offset is moved by checked addition: it is
refused just if the sum is no offset. -/
theorem rebase_halfway_eq_checked {size offset : Nat} (h : position ≤ offset)
    (hsize : position + byteLength rest = size)
    (hdraft : byteLength (done ++ rest) < offsetCount) :
    (halfway done position rest).rebase size offset =
      if byteLength done + (offset - position) < offsetCount then
        .ok (byteLength done + (offset - position))
      else .error (.belowZero offset) := by
  rw [byteLength_append] at hdraft
  rw [rebase_halfway size h]
  by_cases hplace : byteLength done + (offset - position) < offsetCount
  · rw [if_pos hplace, if_neg (by omega)]
  · rw [if_neg hplace, if_pos (by omega)]

/-- **One edit.**  An edit that fits the untouched rest finishes what it keeps, puts in its text,
and leaves what stands behind its span. -/
theorem replace_halfway {size : Nat} (hsize : position + byteLength rest ≤ size)
    (hposition : position ≤ e.span.start) (horder : e.span.start ≤ e.span.stop)
    (hkept : cut? rest (e.span.start - position) = some (kept, behind))
    (hgone : cut? behind e.span.length = some (gone, after)) :
    (halfway done position rest).replace size e =
      .ok (halfway (done ++ (kept ++ e.newText.toList)) e.span.stop after) := by
  obtain ⟨rfl, hbefore⟩ := cut?_eq_some hkept
  obtain ⟨rfl, hlength⟩ := cut?_eq_some hgone
  rw [Span.length] at hlength
  have hstart : cut? (done ++ (kept ++ (gone ++ after)))
      (byteLength done + (e.span.start - position)) = some (done ++ kept, gone ++ after) := by
    rw [cut?_append, hkept]
    rfl
  have hstop : cut? (done ++ (kept ++ (gone ++ after)))
      (byteLength done + (e.span.stop - position)) = some (done ++ (kept ++ gone), after) := by
    have hlast : e.span.stop - position = byteLength (kept ++ gone) := by
      rw [byteLength_append]
      omega
    rw [cut?_append, hlast, ← List.append_assoc kept, cut?_front]
    rfl
  rw [byteLength_append, byteLength_append] at hsize
  rw [replace, rebase_halfway size hposition, if_neg (by omega),
    rebase_halfway size (Nat.le_trans hposition horder), if_neg (by omega)]
  simp only [Except.bind, halfway, hstart, hstop]
  rw [if_neg (by omega)]
  have hdrift : (byteLength done : Int) - position + e.growth =
      byteLength (done ++ (kept ++ e.newText.toList)) - e.span.stop := by
    rw [byteLength_append, byteLength_append, byteLength_toList, growth, Span.length]
    omega
  rw [hdrift, List.append_assoc, List.append_assoc, List.append_assoc]

/-- An edit that does not fit the untouched rest is refused. -/
theorem replace_halfway_refused (size : Nat) (hposition : position ≤ e.span.start)
    (horder : e.span.start ≤ e.span.stop)
    (h : cut? rest (e.span.start - position) = none ∨ cut? rest (e.span.stop - position) = none) :
    (halfway done position rest).replace size e =
      .error (e.refusal size (byteLength done - position)) := by
  have hmoved : ∀ offset, position ≤ offset →
      ((offsetCount : Int) ≤ offset + (byteLength done - position) ↔
        offsetCount ≤ byteLength done + (offset - position)) := by
    intro offset hoffset
    omega
  have hposition' := Nat.le_trans hposition horder
  rw [replace, rebase_halfway size hposition, rebase_halfway size hposition', refusal, overshoot?,
    List.find?_cons, List.find?_cons]
  simp only [hmoved _ hposition, hmoved _ hposition']
  by_cases hstart : size < e.span.start ∧ offsetCount ≤ byteLength done + (e.span.start - position)
  · rw [if_pos hstart, decide_eq_true hstart]
    rfl
  by_cases hstop : size < e.span.stop ∧ offsetCount ≤ byteLength done + (e.span.stop - position)
  · rw [if_neg hstart, if_pos hstop, decide_eq_false hstart, decide_eq_true hstop]
    rfl
  rw [if_neg hstart, if_neg hstop, decide_eq_false hstart, decide_eq_false hstop]
  simp only [Except.bind, halfway, cut?_append]
  rcases h with h | h
  · rw [h]
    rfl
  · rw [h]
    cases cut? rest (e.span.start - position) <;> rfl

end Draft

/-- The text can be cut at both ends of the edit's span. -/
def Fits (text : List Char) (e : TextEdit) : Prop :=
  (cut? text e.span.start).isSome = true ∧ (cut? text e.span.stop).isSome = true

/-- **What an edit does.**  The original is `front ++ rest`, and what has become of `front` is
`done`.  An edit of the rest fits the original, is made, and then a longer part of the original is
passed; or it does not fit and is refused. -/
theorem Draft.replace_cases {size : Nat} {e : TextEdit} (done : List Char) {front rest : List Char}
    (hsize : byteLength (front ++ rest) ≤ size) (hposition : byteLength front ≤ e.span.start)
    (horder : e.span.start ≤ e.span.stop) :
    (Fits (front ++ rest) e ∧ ∃ kept gone after, rest = kept ++ (gone ++ after) ∧
      byteLength front + byteLength kept = e.span.start ∧
      byteLength (front ++ (kept ++ gone)) = e.span.stop ∧
      (halfway done (byteLength front) rest).replace size e =
        .ok (halfway (done ++ (kept ++ e.newText.toList)) (byteLength (front ++ (kept ++ gone)))
          after)) ∨
      (¬ Fits (front ++ rest) e ∧
        (halfway done (byteLength front) rest).replace size e =
          .error (e.refusal size (byteLength done - byteLength front))) := by
  rw [byteLength_append] at hsize
  rw [Fits, isSome_cut?_append hposition, isSome_cut?_append (Nat.le_trans hposition horder)]
  cases hkept : cut? rest (e.span.start - byteLength front) with
  | none => exact .inr ⟨by simp, replace_halfway_refused size hposition horder (.inl hkept)⟩
  | some parts =>
    obtain ⟨kept, behind⟩ := parts
    obtain ⟨hrest, hbefore⟩ := cut?_eq_some hkept
    have hstop : (cut? rest (e.span.stop - byteLength front)).isSome =
        (cut? behind e.span.length).isSome := by
      rw [hrest, isSome_cut?_append (by omega), Span.length, hbefore]
      congr 2
      omega
    cases hgone : cut? behind e.span.length with
    | none =>
      rw [hgone, Option.isSome_none, Option.isSome_eq_false_iff, Option.isNone_iff_eq_none] at hstop
      exact .inr ⟨by simp [hstop], replace_halfway_refused size hposition horder (.inr hstop)⟩
    | some parts =>
      obtain ⟨gone, after⟩ := parts
      obtain ⟨hbehind, hlength⟩ := cut?_eq_some hgone
      have hpassed : byteLength (front ++ (kept ++ gone)) = e.span.stop := by
        rw [Span.length] at hlength
        rw [byteLength_append, byteLength_append]
        omega
      refine .inl ⟨⟨rfl, by rw [hstop, hgone]; rfl⟩, kept, gone, after, ?_, by omega, hpassed, ?_⟩
      · rw [hrest, hbehind]
      · rw [replace_halfway hsize hposition horder hkept hgone, hpassed]

/-! ## Edits in a row -/

/-- Every edit ends before the next one starts, or where it starts. -/
def Successive : List TextEdit → Prop
  | a :: b :: edits => a.span.stop ≤ b.span.start ∧ Successive (b :: edits)
  | _ => True

/-- Edits clash unless they are in a row. -/
theorem clash?_eq_none_iff (edits : List TextEdit) : clash? edits = none ↔ Successive edits := by
  induction edits with
  | nil => simp [clash?, Successive]
  | cons a edits ih =>
    cases edits with
    | nil => simp [clash?, Successive]
    | cons b edits =>
      rw [clash?, Successive, ← ih]
      by_cases hab : a.span.stop ≤ b.span.start
      · have hoverlap :
            (a.span.overlaps b.span || decide (a.span.stop > b.span.start)) = false := by
          simp only [Span.overlaps, Bool.or_eq_false_iff, Bool.and_eq_false_iff,
            decide_eq_false_iff_not]
          omega
        rw [hoverlap]
        exact ⟨fun h => ⟨hab, h⟩, fun h => h.2⟩
      · have hoverlap : (a.span.overlaps b.span || decide (a.span.stop > b.span.start)) = true := by
          simp only [Bool.or_eq_true, decide_eq_true_eq]
          omega
        rw [hoverlap]
        exact ⟨fun h => absurd h (by simp), fun h => absurd h.1 hab⟩

/-- Edits that all lie apart are in a row. -/
theorem Successive.of_pairwise {edits : List TextEdit}
    (h : edits.Pairwise fun a b => a.span.stop ≤ b.span.start) : Successive edits := by
  induction edits with
  | nil => trivial
  | cons a edits ih =>
    obtain ⟨hfirst, hlater⟩ := List.pairwise_cons.1 h
    cases edits with
    | nil => trivial
    | cons b edits => exact ⟨hfirst b (List.mem_cons_self ..), ih hlater⟩

/-- Edits in a row all lie apart, since none of them ends before it starts. -/
theorem Successive.pairwise {edits : List TextEdit} (h : Successive edits)
    (horder : ∀ e ∈ edits, e.span.start ≤ e.span.stop) :
    edits.Pairwise fun a b => a.span.stop ≤ b.span.start := by
  induction edits with
  | nil => exact .nil
  | cons a edits ih =>
    cases edits with
    | nil => exact List.pairwise_singleton _ _
    | cons b edits =>
      have hlater := ih h.2 fun e he => horder e (List.mem_cons_of_mem _ he)
      refine List.pairwise_cons.2 ⟨fun e he => ?_, hlater⟩
      have hb := horder b (by simp)
      have hab := h.1
      rcases List.mem_cons.1 he with rfl | he
      · exact hab
      · have hbe := (List.pairwise_cons.1 hlater).1 e he
        omega

/-- By how many bytes edits make a text longer. -/
def totalGrowth : List TextEdit → Int
  | [] => 0
  | e :: edits => e.growth + totalGrowth edits

theorem totalGrowth_append (edits edits' : List TextEdit) :
    totalGrowth (edits ++ edits') = totalGrowth edits + totalGrowth edits' := by
  induction edits with
  | nil => simp [totalGrowth]
  | cons e edits ih =>
    rw [List.cons_append, totalGrowth, totalGrowth, ih]
    omega

theorem totalGrowth_perm {edits edits' : List TextEdit} (h : edits.Perm edits') :
    totalGrowth edits = totalGrowth edits' := by
  induction h with
  | nil => rfl
  | cons e _ ih => rw [totalGrowth, totalGrowth, ih]
  | swap e e' edits =>
    simp only [totalGrowth]
    omega
  | trans _ _ ih ih' => exact ih.trans ih'

/-- The bytes from the offset `position` on, with the texts of the edits in the place of their
spans. -/
def splicedBytes (bytes : ByteArray) : (position : Nat) → List TextEdit → ByteArray
  | position, [] => bytes.extract position bytes.size
  | position, e :: edits =>
    bytes.extract position e.span.start ++
      (e.newText.toByteArray ++ splicedBytes bytes e.span.stop edits)

/-- **A row of edits.**  Either all of them fit the original, and then they are made, or one of them
does not, and the row is refused for the first of these.  The induction is on the edits, with
`front`, `rest` and `done` as in `Draft.replace_cases`. -/
theorem Draft.replaceAll_cases {size : Nat} {edits : List TextEdit}
    (horder : ∀ e ∈ edits, e.span.start ≤ e.span.stop)
    (hapart : edits.Pairwise fun a b => a.span.stop ≤ b.span.start)
    (done front rest : List Char) (hsize : byteLength (front ++ rest) ≤ size)
    (hbehind : ∀ e ∈ edits, byteLength front ≤ e.span.start) :
    ((∀ e ∈ edits, Fits (front ++ rest) e) ∧
      ∃ draft, (halfway done (byteLength front) rest).replaceAll size edits = .ok draft ∧
        draft.chars.utf8Encode = done.utf8Encode ++
          splicedBytes (front ++ rest).utf8Encode (byteLength front) edits) ∨
      ∃ before e after, edits = before ++ e :: after ∧
        (∀ e ∈ before, Fits (front ++ rest) e) ∧ ¬ Fits (front ++ rest) e ∧
        (halfway done (byteLength front) rest).replaceAll size edits =
          .error (e.refusal size (byteLength done - byteLength front + totalGrowth before)) := by
  induction edits generalizing done front rest with
  | nil =>
    refine .inl ⟨by simp, _, rfl, ?_⟩
    have hrest := extract_utf8Encode front rest []
    rw [List.append_nil, ← byteLength_append, ← size_utf8Encode (front ++ rest)] at hrest
    rw [splicedBytes, hrest, halfway, List.utf8Encode_append]
  | cons e edits ih =>
    obtain ⟨hfirst, hlater⟩ := List.pairwise_cons.1 hapart
    rcases replace_cases done hsize (hbehind e (List.mem_cons_self ..))
        (horder e (List.mem_cons_self ..)) with
      ⟨hfits, kept, gone, after, hrest, hstart, hstop, hmade⟩ | ⟨hmisfit, hrefused⟩
    · have hwhole : front ++ rest = front ++ (kept ++ gone) ++ after := by
        simp only [hrest, List.append_assoc]
      have hnext := ih (fun e he => horder e (List.mem_cons_of_mem _ he)) hlater
        (done ++ (kept ++ e.newText.toList)) (front ++ (kept ++ gone)) after (hwhole ▸ hsize)
        fun e he => hstop ▸ hfirst e he
      rw [← hwhole] at hnext
      rw [replaceAll, hmade]
      rcases hnext with
        ⟨hall, draft, hdraft, hbytes⟩ | ⟨before, other, behind, rfl, hbefore, hmisfit, hrefused⟩
      · refine .inl ⟨List.forall_mem_cons.2 ⟨hfits, hall⟩, draft, hdraft, ?_⟩
        have hslice := extract_utf8Encode front kept (gone ++ after)
        rw [← hrest, hstart] at hslice
        rw [hbytes, splicedBytes, hslice, hstop, List.utf8Encode_append, List.utf8Encode_append,
          String.utf8Encode_toList, ByteArray.append_assoc, ByteArray.append_assoc]
      · refine .inr ⟨e :: before, other, behind, rfl, List.forall_mem_cons.2 ⟨hfits, hbefore⟩,
          hmisfit, hrefused.trans ?_⟩
        -- what the finished part has grown by this edit is the growth of the edit
        have hgrowth : (byteLength (done ++ (kept ++ e.newText.toList)) : Int) -
            byteLength (front ++ (kept ++ gone)) + totalGrowth before =
            byteLength done - byteLength front + totalGrowth (e :: before) := by
          rw [hstop, byteLength_append, byteLength_append, byteLength_toList, totalGrowth, growth,
            Span.length]
          have hle := horder e (List.mem_cons_self ..)
          omega
        rw [hgrowth]
    · refine .inr ⟨[], e, edits, rfl, by simp, hmisfit, ?_⟩
      rw [replaceAll, hrefused, totalGrowth, Int.add_zero]
      rfl

/-! ## All edits -/

/-- In a list whose members differ under `f`, `f` tells the members apart. -/
theorem eq_of_pairwise_ne {α β : Type} {f : α → β} {items : List α}
    (h : items.Pairwise fun a b => f a ≠ f b) {a b : α} (ha : a ∈ items) (hb : b ∈ items)
    (hab : f a = f b) : a = b := by
  induction items with
  | nil => simp at ha
  | cons item items ih =>
    obtain ⟨hfirst, hlater⟩ := List.pairwise_cons.1 h
    rcases List.mem_cons.1 ha with rfl | ha'
    · rcases List.mem_cons.1 hb with rfl | hb'
      · rfl
      · exact absurd hab (hfirst b hb')
    · rcases List.mem_cons.1 hb with rfl | hb'
      · exact absurd hab.symm (hfirst a ha')
      · exact ih hlater ha' hb'

section

variable {α : Type} (key : α → Nat)

theorem decide_le_trans (a b c : α) (hab : decide (key a ≤ key b) = true)
    (hbc : decide (key b ≤ key c) = true) : decide (key a ≤ key c) = true := by
  simp only [decide_eq_true_eq] at hab hbc ⊢
  exact Nat.le_trans hab hbc

theorem decide_le_total (a b : α) :
    (decide (key a ≤ key b) || decide (key b ≤ key a)) = true := by
  simp only [Bool.or_eq_true, decide_eq_true_eq]
  exact Nat.le_total ..

/-- What is sorted by a number is in the order of these numbers. -/
theorem pairwise_sortedBy (items : List α) :
    (items.mergeSort fun a b => decide (key a ≤ key b)).Pairwise fun a b => key a ≤ key b :=
  (List.pairwise_mergeSort (decide_le_trans key) (decide_le_total key) items).imp of_decide_eq_true

end

theorem applyAll_of_clash?_eq_none {text : String} {edits : List TextEdit}
    (h : clash? (sorted edits) = none) :
    applyAll text edits =
      (((Draft.halfway [] 0 text.toList).replaceAll text.utf8ByteSize (sorted edits)).map
        Draft.chars).map String.ofList := by
  simp only [applyAll, h]
  cases hdraft : Draft.replaceAll text.utf8ByteSize ⟨text.toList, 0⟩ (sorted edits) with
  | error problem =>
    have hstart : (Draft.halfway [] 0 text.toList).replaceAll text.utf8ByteSize (sorted edits) =
        .error problem := hdraft
    rw [hstart]
    rfl
  | ok draft =>
    have hstart : (Draft.halfway [] 0 text.toList).replaceAll text.utf8ByteSize (sorted edits) =
        .ok draft := hdraft
    rw [hstart]
    rfl

theorem perm_sorted (edits : List TextEdit) : (sorted edits).Perm edits :=
  List.mergeSort_perm _ _

/-- The edits in the order of their starts, those with one start in the order given. -/
structure StablyOrdered (edits ordered : List TextEdit) : Prop where
  perm : ordered.Perm edits
  ascending : ordered.Pairwise fun a b => a.span.start ≤ b.span.start
  stable : ∀ start, (ordered.filter fun e => e.span.start = start) =
    edits.filter fun e => e.span.start = start

theorem stablyOrdered_sorted (edits : List TextEdit) : StablyOrdered edits (sorted edits) := by
  refine ⟨perm_sorted edits, pairwise_sortedBy (fun e => e.span.start) edits, fun start => ?_⟩
  -- the edits with one start are in order as they are given, so sorting keeps them as they are
  have hsame : (edits.filter fun e => e.span.start = start).Pairwise fun a b =>
      decide (a.span.start ≤ b.span.start) = true := by
    refine List.pairwise_of_forall_mem_list fun a ha b hb => ?_
    have ha : a.span.start = start := by simpa using (List.mem_filter.1 ha).2
    have hb : b.span.start = start := by simpa using (List.mem_filter.1 hb).2
    simp [ha, hb]
  have hsub : (edits.filter fun e => e.span.start = start).Sublist (sorted edits) :=
    List.sublist_mergeSort (decide_le_trans fun e : TextEdit => e.span.start)
      (decide_le_total fun e : TextEdit => e.span.start) hsame List.filter_sublist
  have hfiltered := hsub.filter fun e => decide (e.span.start = start)
  simp only [List.filter_filter, Bool.and_self] at hfiltered
  exact (hfiltered.eq_of_length ((perm_sorted edits).filter _).length_eq.symm).symm

/-- The order in which edits with different starts are given is of no account. -/
theorem sorted_eq_of_perm {edits edits' : List TextEdit} (hperm : edits'.Perm edits)
    (hstarts : edits.Pairwise fun a b => a.span.start ≠ b.span.start) :
    sorted edits' = sorted edits := by
  refine @List.Perm.eq_of_pairwise _ (fun a b => a.span.start ≤ b.span.start) _ _ ?_
    (pairwise_sortedBy (fun e => e.span.start) edits')
    (pairwise_sortedBy (fun e => e.span.start) edits)
    ((perm_sorted edits').trans (hperm.trans (perm_sorted edits).symm))
  intro a b ha hb hab hba
  have ha : a ∈ edits := hperm.mem_iff.1 ((perm_sorted edits').mem_iff.1 ha)
  have hb : b ∈ edits := (perm_sorted edits).mem_iff.1 hb
  exact eq_of_pairwise_ne hstarts ha hb (Nat.le_antisymm hab hba)

/-- An offset that cannot be moved lies behind the text, so its edit does not fit. -/
theorem not_fits_of_overshoot? {text : String} {offset : Nat} {growth : Int} {e : TextEdit}
    (horder : e.span.start ≤ e.span.stop)
    (h : e.overshoot? text.utf8ByteSize growth = some offset) : ¬ Fits text.toList e := by
  intro hfits
  have hstop : e.span.stop ≤ text.utf8ByteSize :=
    ((isSome_cut?_iff text e.span.stop).1 hfits.2).le_utf8ByteSize
  have hend : offset = e.span.start ∨ offset = e.span.stop := by
    simpa using List.mem_of_find?_eq_some h
  have hpast := List.find?_some h
  simp only [decide_eq_true_eq] at hpast
  omega

/-- There is one first member that lacks a property. -/
theorem first_unique {α : Type} {P : α → Prop} {before before' after after' : List α} {a a' : α}
    (h : before ++ a :: after = before' ++ a' :: after') (hbefore : ∀ b ∈ before, P b)
    (hbefore' : ∀ b ∈ before', P b) (ha : ¬ P a) (ha' : ¬ P a') : before = before' ∧ a = a' := by
  induction before generalizing before' with
  | nil =>
    cases before' with
    | nil => exact ⟨rfl, (List.cons.inj h).1⟩
    | cons b before' =>
      have hab : a = b := (List.cons.inj h).1
      exact absurd (hbefore' b (List.mem_cons_self ..)) (hab ▸ ha)
  | cons b before ih =>
    cases before' with
    | nil =>
      have hba : b = a' := (List.cons.inj h).1
      exact absurd (hbefore b (List.mem_cons_self ..)) (hba ▸ ha')
    | cons b' before' =>
      obtain ⟨rfl, hrest⟩ := List.cons.inj h
      obtain ⟨rfl, rfl⟩ := ih hrest (fun c hc => hbefore c (List.mem_cons_of_mem _ hc))
        fun c hc => hbefore' c (List.mem_cons_of_mem _ hc)
      exact ⟨rfl, rfl⟩

/-- The edit of a row at which an offset cannot be moved: all edits before it fit the text, and they
would move the offset past the last one. -/
def Overshoots (text : String) (edits : List TextEdit) (offset : Nat) : Prop :=
  ∃ before e after, edits = before ++ e :: after ∧ (∀ e ∈ before, Fits text.toList e) ∧
    e.overshoot? text.utf8ByteSize (totalGrowth before) = some offset

section

variable {text : String} {edits before after : List TextEdit} {e : TextEdit} {offset : Nat}

theorem refusal_eq_belowZero_iff {size : Nat} {growth : Int} :
    e.refusal size growth = .belowZero offset ↔ e.overshoot? size growth = some offset := by
  rw [refusal]
  cases e.overshoot? size growth <;> simp

theorem Overshoots.not_forall_fits (horder : ∀ e ∈ edits, e.span.start ≤ e.span.stop)
    (h : Overshoots text (sorted edits) offset) : ¬ ∀ e ∈ sorted edits, Fits text.toList e := by
  obtain ⟨before, e, after, hsplit, -, hpast⟩ := h
  have he : e ∈ sorted edits := by simp [hsplit]
  exact fun hfits => not_fits_of_overshoot? (horder e ((perm_sorted edits).mem_iff.1 he)) hpast
    (hfits e he)

/-- Only at the first edit that does not fit can it be that an offset cannot be moved. -/
theorem overshoots_iff (horder : ∀ e ∈ edits, e.span.start ≤ e.span.stop)
    (hsplit : sorted edits = before ++ e :: after) (hbefore : ∀ e ∈ before, Fits text.toList e)
    (hmisfit : ¬ Fits text.toList e) :
    Overshoots text (sorted edits) offset ↔
      e.overshoot? text.utf8ByteSize (totalGrowth before) = some offset := by
  refine ⟨fun h => ?_, fun h => ⟨before, e, after, hsplit, hbefore, h⟩⟩
  obtain ⟨before', e', after', hsplit', hbefore', hpast⟩ := h
  have he' : e' ∈ sorted edits := by simp [hsplit']
  have hmisfit' := not_fits_of_overshoot? (horder e' ((perm_sorted edits).mem_iff.1 he')) hpast
  obtain ⟨rfl, rfl⟩ := first_unique (hsplit.symm.trans hsplit') hbefore hbefore' hmisfit hmisfit'
  exact hpast

end

/-- What applying edits comes to, for spans that do not end before they start: they are in a row,
fit the text and are made; or two of them clash; or the first that does not fit is refused. -/
theorem applyAll_cases (text : String) {edits : List TextEdit}
    (horder : ∀ e ∈ edits, e.span.start ≤ e.span.stop) :
    ((Successive (sorted edits) ∧ ∀ e ∈ sorted edits, Fits text.toList e) ∧
      ∃ edited, applyAll text edits = .ok edited ∧
        edited.toByteArray = splicedBytes text.toByteArray 0 (sorted edits)) ∨
      (¬ Successive (sorted edits) ∧
        ∃ first second, applyAll text edits = .error (.overlap first second)) ∨
      (Successive (sorted edits) ∧ ∃ before e after, sorted edits = before ++ e :: after ∧
        (∀ e ∈ before, Fits text.toList e) ∧ ¬ Fits text.toList e ∧
        applyAll text edits = .error (e.refusal text.utf8ByteSize (totalGrowth before))) := by
  cases hclash : clash? (sorted edits) with
  | some pair =>
    refine .inr (.inl ⟨fun h => ?_, pair.1, pair.2, by simp only [applyAll, hclash]⟩)
    rw [(clash?_eq_none_iff _).2 h] at hclash
    exact absurd hclash (by simp)
  | none =>
    have hrow := (clash?_eq_none_iff _).1 hclash
    have horder' : ∀ e ∈ sorted edits, e.span.start ≤ e.span.stop := fun e he =>
      horder e ((perm_sorted edits).mem_iff.1 he)
    rw [applyAll_of_clash?_eq_none hclash]
    have hcases := Draft.replaceAll_cases horder' (hrow.pairwise horder') [] [] text.toList
      (Nat.le_of_eq (byteLength_toList text)) fun _ _ => Nat.zero_le _
    simp only [byteLength, List.nil_append, Int.sub_self, Int.zero_add, Int.ofNat_zero] at hcases
    rcases hcases with
      ⟨hfits, draft, hdraft, hbytes⟩ | ⟨before, e, after, hsplit, hbefore, hmisfit, hrefused⟩
    · refine .inl ⟨⟨hrow, hfits⟩, .ofList draft.chars, ?_, ?_⟩
      · rw [hdraft]
        rfl
      · rw [String.toByteArray_ofList, hbytes, ← String.utf8Encode_toList]
        exact ByteArray.empty_append
    · refine .inr (.inr ⟨hrow, before, e, after, hsplit, hbefore, hmisfit, ?_⟩)
      rw [hrefused]
      rfl

end TextEdit

/-- **Edits are applied exactly.**  They are taken in the order of their starts, and are applied if
and only if each ends before the next one starts, all end within the text and no span cuts a
character.  The bytes are then those of the text with the new texts in the place of the spans, and
edits with different starts may be given in any order.  An offset is said to be shifted below zero
just if it lies behind the text and the edits before it, which all fit, would move it past the last
offset. -/
theorem edits_apply_exactly (text : String) (edits : List TextEdit)
    (horder : ∀ e ∈ edits, e.span.start ≤ e.span.stop) :
    ∃ ordered, TextEdit.StablyOrdered edits ordered ∧
      ((∃ edited, TextEdit.applyAll text edits = .ok edited) ↔
        TextEdit.Successive ordered ∧ (∀ e ∈ ordered, e.span.stop ≤ text.utf8ByteSize) ∧
          ∀ e ∈ ordered, (⟨e.span.start⟩ : String.Pos.Raw).IsValid text ∧
            (⟨e.span.stop⟩ : String.Pos.Raw).IsValid text) ∧
      (∀ edited, TextEdit.applyAll text edits = .ok edited →
        edited.toByteArray = TextEdit.splicedBytes text.toByteArray 0 ordered) ∧
      (∀ offset, TextEdit.applyAll text edits = .error (.belowZero offset) ↔
        TextEdit.Successive ordered ∧ TextEdit.Overshoots text ordered offset) ∧
      ∀ edits', edits'.Perm edits → (edits.Pairwise fun a b => a.span.start ≠ b.span.start) →
        TextEdit.applyAll text edits' = TextEdit.applyAll text edits := by
  have hfits : (∀ e ∈ TextEdit.sorted edits, TextEdit.Fits text.toList e) ↔
      (∀ e ∈ TextEdit.sorted edits, e.span.stop ≤ text.utf8ByteSize) ∧
        ∀ e ∈ TextEdit.sorted edits, (⟨e.span.start⟩ : String.Pos.Raw).IsValid text ∧
          (⟨e.span.stop⟩ : String.Pos.Raw).IsValid text := by
    simp only [TextEdit.Fits, Text.isSome_cut?_iff]
    exact ⟨fun h => ⟨fun e he => (h e he).2.le_utf8ByteSize, h⟩, fun h => h.2⟩
  have hgiven : ∀ edits', edits'.Perm edits →
      (edits.Pairwise fun a b => a.span.start ≠ b.span.start) →
      TextEdit.applyAll text edits' = TextEdit.applyAll text edits := by
    intro edits' hperm hstarts
    simp only [TextEdit.applyAll, TextEdit.sorted_eq_of_perm hperm hstarts]
  refine ⟨TextEdit.sorted edits, TextEdit.stablyOrdered_sorted edits, ?_⟩
  rw [← hfits]
  rcases TextEdit.applyAll_cases text horder with
    ⟨hfit, edited, hedited, hbytes⟩ | ⟨hclash, first, second, hrefused⟩ |
      ⟨hrow, before, e, after, hsplit, hbefore, hmisfit, hrefused⟩
  · refine ⟨⟨fun _ => hfit, fun _ => ⟨edited, hedited⟩⟩, ?_, fun offset => ?_, hgiven⟩
    · intro edited' hedited'
      rw [hedited, Except.ok.injEq] at hedited'
      exact hedited' ▸ hbytes
    · refine ⟨fun h => absurd (hedited.symm.trans h) (by simp), fun h => ?_⟩
      exact absurd hfit.2 (TextEdit.Overshoots.not_forall_fits horder h.2)
  · exact ⟨by simp [hrefused, hclash], by simp [hrefused], by simp [hrefused, hclash], hgiven⟩
  · refine ⟨?_, by simp [hrefused], fun offset => ?_, hgiven⟩
    · simp only [hrefused, reduceCtorEq, exists_false, false_iff]
      exact fun h => hmisfit (h.2 e (by simp [hsplit]))
    · rw [hrefused, TextEdit.overshoots_iff horder hsplit hbefore hmisfit,
        ← TextEdit.refusal_eq_belowZero_iff]
      simp [hrow]

/-- An insertion behind a character of two bytes, given in front of a deletion that moves it. -/
def TextEdit.crossed : List TextEdit := [⟨⟨3, 3⟩, "xy"⟩, ⟨⟨0, 1⟩, ""⟩]

theorem TextEdit.sorted_crossed : sorted crossed = crossed.reverse := by
  rw [← sorted_eq_of_perm (List.reverse_perm _) (by simp [crossed])]
  exact List.mergeSort_of_pairwise (by simp [crossed])

theorem edits_apply_exactly_out_of_order :
    (∀ e ∈ TextEdit.crossed, e.span.start ≤ e.span.stop) ∧
      TextEdit.applyAll "aéb" TextEdit.crossed = .ok "éxyb" ∧
      (∃ ordered, TextEdit.StablyOrdered TextEdit.crossed ordered ∧ TextEdit.Successive ordered ∧
        "éxyb".toByteArray = TextEdit.splicedBytes "aéb".toByteArray 0 ordered) ∧
      TextEdit.applyAll "aéb" TextEdit.crossed.reverse =
        TextEdit.applyAll "aéb" TextEdit.crossed := by
  have horder : ∀ e ∈ TextEdit.crossed, e.span.start ≤ e.span.stop := by simp [TextEdit.crossed]
  have hedited : TextEdit.applyAll "aéb" TextEdit.crossed = .ok "éxyb" := by
    simp only [TextEdit.applyAll, TextEdit.sorted_crossed]
    rfl
  obtain ⟨ordered, hordered, hiff, hbytes, -, hgiven⟩ :=
    edits_apply_exactly "aéb" TextEdit.crossed horder
  refine ⟨horder, hedited, ⟨ordered, hordered, (hiff.1 ⟨_, hedited⟩).1, hbytes _ hedited⟩, ?_⟩
  exact hgiven _ (List.reverse_perm _) (by simp [TextEdit.crossed])

/-- An insertion in front of a text, and an edit that changes nothing at an offset. -/
def TextEdit.pushed (offset : Nat) : List TextEdit := [⟨⟨0, 0⟩, "x"⟩, ⟨⟨offset, offset⟩, ""⟩]

/-- Two offsets far behind a text of three bytes.  The last but one is moved to the last and does
not fit; the last, with one byte more in front of it, is no offset, and is said to be below zero. -/
theorem offset_past_last_word_reported_below_zero :
    TextEdit.applyAll "abc" (TextEdit.pushed (TextEdit.offsetCount - 2)) =
        .error (.misfit ⟨18446744073709551614, 18446744073709551614⟩ 3) ∧
      TextEdit.applyAll "abc" (TextEdit.pushed (TextEdit.offsetCount - 1)) =
        .error (.belowZero 18446744073709551615) ∧
      (EditError.belowZero 18446744073709551615).message =
        "Edit offset 18446744073709551615 shifted below zero" := by
  have hsorted : ∀ offset,
      TextEdit.sorted (TextEdit.pushed offset) = TextEdit.pushed offset := fun offset =>
    List.mergeSort_of_pairwise (by simp [TextEdit.pushed])
  refine ⟨?_, ?_, by decide +kernel⟩
  · simp only [TextEdit.applyAll, hsorted]
    rfl
  · simp only [TextEdit.applyAll, hsorted]
    rfl

end Relocate
