import Relocate.Proofs.Rewriting

/-! # The bytes an import's span names

Whoever rewrites a file trusts the spans of its imports: the bytes between the two ends of a span
are exchanged, whatever they are.  So a span has to enclose its specifier byte for byte
(`Span.Encloses`): both ends lie between characters of the text as it is on disk, the bytes between
them are those of the specifier, and the byte in front is the quote of the literal.

The reader of a text knows at every place that the specifiers recorded before it are written in the
text, behind a quote (`Source.WrittenIn`).  That is said of characters; `Source.WrittenIn.encloses`
says it of bytes.  A mark of the byte order in front of the text is three of these bytes.  The spans
count them for the first mark and not for a second one, so behind two marks a span encloses its
specifier only when it is moved by three bytes.
-/

namespace Relocate

open Text

/-- The span encloses the specifier in a text, behind a quote. -/
structure Span.Encloses (text : String) (span : Span) (specifier : String) : Prop where
  forward : span.start ≤ span.stop
  within : span.stop ≤ text.utf8ByteSize
  start_valid : (⟨span.start⟩ : String.Pos.Raw).IsValid text
  stop_valid : (⟨span.stop⟩ : String.Pos.Raw).IsValid text
  bytes : text.toByteArray.extract span.start span.stop = specifier.toByteArray
  behind : 0 < span.start
  quote : text.toByteArray.extract (span.start - 1) span.start = "'".toByteArray ∨
    text.toByteArray.extract (span.start - 1) span.start = "\"".toByteArray

namespace Source

/-- A text can be cut at both ends of a specifier that stands in it, and its bytes lie between. -/
theorem StandsIn.bytes {text : String} {r : Reference} (h : StandsIn text.toList r) :
    (⟨r.span.start⟩ : String.Pos.Raw).IsValid text ∧
      (⟨r.span.stop⟩ : String.Pos.Raw).IsValid text ∧
      text.toByteArray.extract r.span.start r.span.stop = r.specifier.toByteArray := by
  obtain ⟨before, after, htext, hstart, hstop⟩ := h
  refine ⟨?_, ?_, ?_⟩
  · rw [← isSome_cut?_iff, htext, List.append_assoc, ← hstart, cut?_front]
    rfl
  · rw [← isSome_cut?_iff, htext, ← hstop, ← byteLength_append, cut?_front]
    rfl
  · rw [← hstop, ← hstart, ← String.utf8Encode_toList, htext, List.append_assoc,
      extract_utf8Encode, String.utf8Encode_toList]

/-- The byte in front of a quoted specifier is a quote. -/
theorem QuotedIn.bytes {text : String} {r : Reference} (h : QuotedIn text.toList r) :
    0 < r.span.start ∧
      (text.toByteArray.extract (r.span.start - 1) r.span.start = "'".toByteArray ∨
        text.toByteArray.extract (r.span.start - 1) r.span.start = "\"".toByteArray) := by
  obtain ⟨before, q, after, htext, hq, hstart⟩ := h
  have hquote : text.toByteArray.extract (r.span.start - 1) r.span.start = [q].utf8Encode := by
    have hextract := extract_utf8Encode before [q] after
    have hsize : byteLength [q] = 1 := hq.utf8Size
    have hbefore : r.span.start - 1 = byteLength before := by omega
    rw [hsize, hstart] at hextract
    rw [hbefore, ← String.utf8Encode_toList, htext]
    exact hextract
  refine ⟨by omega, ?_⟩
  rw [hquote]
  rcases hq with rfl | rfl
  · exact .inl rfl
  · exact .inr rfl

/-- A specifier that is written in a text is enclosed by its span. -/
theorem WrittenIn.encloses {text : String} {r : Reference} (h : WrittenIn text.toList r) :
    r.span.Encloses text r.specifier := by
  obtain ⟨hstart, hstop, hbytes⟩ := h.1.bytes
  obtain ⟨hbehind, hquote⟩ := h.2.bytes
  obtain ⟨_, _, _, hbefore, hlength⟩ := h.1
  exact {
    forward := by omega
    within := hstop.le_rawEndPos
    start_valid := hstart
    stop_valid := hstop
    bytes := hbytes
    behind := hbehind
    quote := hquote }

end Source

/-- **Spans are exact.**  Unless a text starts with two marks of the byte order, the span of each of
its imports encloses the specifier.  Of a text with two marks, the spans lie three bytes too far in
front.  In both, the imports come in the order of the text, and their spans are disjoint. -/
theorem import_spans_are_exact {path : Path} {text : String} {references : List Reference}
    (h : Source.imports path text = some references) :
    (¬ Source.DoublyMarked text → ∀ r ∈ references, r.span.Encloses text r.specifier) ∧
    (Source.DoublyMarked text →
      ∀ r ∈ references, (Source.moveBy 3 r).span.Encloses text r.specifier) ∧
    references.Pairwise fun a b => a.span.start < b.span.start ∧ a.span.stop < b.span.start := by
  refine ⟨?_, ?_, ?_⟩
  · intro hmarks r hr
    exact (Source.imports_writtenIn h hmarks r hr).encloses
  · intro hmarks r hr
    exact (Source.imports_writtenBehind h hmarks r hr).encloses
  · refine (Source.imports_apart h).imp_of_mem fun ha _ hapart => ⟨?_, hapart⟩
    exact Nat.lt_of_le_of_lt (Source.imports_forward h _ ha) hapart

/-- A single mark, a character of two bytes in the first specifier, and quotes of both kinds. -/
theorem import_spans_are_exact_behind_mark :
    Source.imports ⟨"/a.ts"⟩ "\uFEFFimport './é';export*from\"b\"" =
        some [⟨"./é", ⟨11, 15⟩⟩, ⟨"b", ⟨29, 30⟩⟩] ∧
      ¬ Source.DoublyMarked "\uFEFFimport './é';export*from\"b\"" ∧
      (⟨11, 15⟩ : Span).Encloses "\uFEFFimport './é';export*from\"b\"" "./é" ∧
      (⟨29, 30⟩ : Span).Encloses "\uFEFFimport './é';export*from\"b\"" "b" :=
  have himports : Source.imports ⟨"/a.ts"⟩ "\uFEFFimport './é';export*from\"b\"" =
      some [⟨"./é", ⟨11, 15⟩⟩, ⟨"b", ⟨29, 30⟩⟩] := by
    decide +kernel
  have hexact := (import_spans_are_exact himports).1 (by decide)
  ⟨himports, by decide, hexact ⟨"./é", ⟨11, 15⟩⟩ (by decide), hexact ⟨"b", ⟨29, 30⟩⟩ (by decide)⟩

/-- Behind two marks the span of an import does not enclose its specifier: the three bytes between
its ends are the last of the keyword, the blank and the quote. -/
theorem span_behind_two_marks :
    Source.imports ⟨"/src/a.ts"⟩ "\uFEFF\uFEFFimport './a';\n" = some [⟨"./a", ⟨11, 14⟩⟩] ∧
      ¬ (⟨11, 14⟩ : Span).Encloses "\uFEFF\uFEFFimport './a';\n" "./a" ∧
      (⟨14, 17⟩ : Span).Encloses "\uFEFF\uFEFFimport './a';\n" "./a" :=
  have himports : Source.imports ⟨"/src/a.ts"⟩ "\uFEFF\uFEFFimport './a';\n" =
      some [⟨"./a", ⟨11, 14⟩⟩] := by
    decide +kernel
  have hwritten := Source.imports_writtenBehind himports ⟨_, rfl⟩ ⟨"./a", ⟨11, 14⟩⟩ (by decide)
  ⟨himports, fun hencloses => absurd hencloses.bytes (by decide +kernel), hwritten.encloses⟩

end Relocate
