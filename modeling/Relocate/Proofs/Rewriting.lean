import Relocate.Edit.Compute
import Relocate.Proofs.Splicing
import Relocate.Source.Imports

/-! # Rewriting touches the specifiers and nothing else

A rewrite reads the imports of a text, decides which of them to edit and applies the edits.  The
three steps measure differently: the reader counts from behind a mark of the byte order, an edit
names the span of an import in the text as it was, and each edit is made in the text that the ones
before it have left.  `Respecified` is what they have to agree on: a text and its rewritten form are
read side by side, they have the same characters between the specifiers, and each specifier stands
where its span says.

* `Resolver.editsFor_span` and `Resolver.editsFor_pairwise`: every edit is made for an import, and
  no import gets two.
* `TextEdit.applyAll_respecified`: edits made for imports that stand apart from each other always
  apply, and rewrite the specifiers only.
* `Source.imports_laidOut`: the imports of a text stand apart from each other, where their spans
  say.  A text that starts with two marks is the exception (`Source.imports_doublyMarked`): all its
  spans lie the three bytes of one mark too far in front.
-/

namespace Relocate

open Text

/-! ## Which edits are made -/

namespace Resolver

/-- What holds of claims on the imports `references` at any time: edits are made for imports only
and change them, for spans that are claimed, and never twice for one span. -/
structure Claims.Fair (references : List Reference) (c : Claims) : Prop where
  made : ∀ e ∈ c.edits, ∃ r ∈ references, r.span = e.span ∧ r.specifier ≠ e.newText
  claimed : ∀ e ∈ c.edits, e.span ∈ c.spans
  once : c.edits.Pairwise fun a b => a.span ≠ b.span

theorem Claims.Fair.start (references : List Reference) : Claims.Fair references ⟨[], []⟩ where
  made := by simp
  claimed := by simp
  once := .nil

theorem Claims.Fair.consider {references : List Reference} {c : Claims} (h : c.Fair references)
    {r : Reference} (hr : r ∈ references) (target : Option Identity) (wanted : Identity)
    (new : String) : (c.consider wanted new (r, target)).Fair references := by
  unfold Claims.consider
  simp only
  split
  · rename_i hclaims
    have hfresh : r.span ∉ c.spans := by
      simp only [Bool.and_eq_true, Bool.not_eq_true', List.contains_eq_mem,
        decide_eq_false_iff_not] at hclaims
      exact hclaims.2
    split
    · exact ⟨h.made, fun e he => List.mem_cons_of_mem _ (h.claimed e he), h.once⟩
    · rename_i hchanges
      refine ⟨?_, ?_, ?_⟩
      · intro e he
        rcases List.mem_append.1 he with he | he
        · exact h.made e he
        · rw [List.mem_singleton.1 he]
          exact ⟨r, hr, rfl, hchanges⟩
      · intro e he
        rcases List.mem_append.1 he with he | he
        · exact List.mem_cons_of_mem _ (h.claimed e he)
        · rw [List.mem_singleton.1 he]
          exact List.mem_cons_self ..
      · refine List.pairwise_append.2 ⟨h.once, List.pairwise_singleton _ _, ?_⟩
        intro a ha b hb hab
        rw [List.mem_singleton.1 hb] at hab
        have hspan : a.span = r.span := hab
        exact hfresh (hspan ▸ h.claimed a ha)
  · exact h

theorem Claims.Fair.follow {references : List Reference} {c : Claims} (h : c.Fair references)
    (r : Resolver) (disk : Disk) (file : Path) (replacement : Replacement) :
    (c.follow r disk file (r.targets disk file references) replacement).Fair references := by
  unfold Claims.follow
  split
  · exact h
  · split
    · exact h
    · rename_i wanted _
      -- every import the replacement looks at is one of `references`
      have hall : ∀ found ∈ r.targets disk file references, found.1 ∈ references := by
        intro found hfound
        obtain ⟨reference, hreference, rfl⟩ := List.mem_map.1 hfound
        exact hreference
      generalize r.targets disk file references = founds at hall
      induction founds generalizing c with
      | nil => exact h
      | cons found founds ih =>
        exact ih (h.consider (hall found (List.mem_cons_self ..)) found.2 wanted replacement.new)
          fun f hf => hall f (List.mem_cons_of_mem _ hf)

theorem editsFor_fair (r : Resolver) (disk : Disk) (file : Path) (references : List Reference)
    (replacements : List Replacement) :
    ∃ c : Claims, c.Fair references ∧ r.editsFor disk file references replacements = c.edits := by
  refine ⟨_, ?_, rfl⟩
  suffices key : ∀ (c : Claims), c.Fair references →
      (replacements.foldl (Claims.follow r disk file (r.targets disk file references)) c).Fair
        references from key _ (.start references)
  induction replacements with
  | nil => exact fun c hc => hc
  | cons replacement replacements ih =>
    exact fun c hc => ih _ (hc.follow r disk file replacement)

/-- Every edit is made for an import, at its span. -/
theorem editsFor_span {r : Resolver} {disk : Disk} {file : Path} {references : List Reference}
    {replacements : List Replacement} {e : TextEdit}
    (he : e ∈ r.editsFor disk file references replacements) :
    ∃ reference ∈ references, reference.span = e.span := by
  obtain ⟨c, hfair, hedits⟩ := r.editsFor_fair disk file references replacements
  obtain ⟨reference, hreference, hspan, -⟩ := hfair.made e (hedits ▸ he)
  exact ⟨reference, hreference, hspan⟩

/-- Among imports with distinct spans, an edit changes the import at its span. -/
theorem editsFor_changes {r : Resolver} {disk : Disk} {file : Path} {references : List Reference}
    {replacements : List Replacement} {e : TextEdit}
    (hdistinct : references.Pairwise fun a b => a.span ≠ b.span)
    (he : e ∈ r.editsFor disk file references replacements) {reference : Reference}
    (hmem : reference ∈ references) (hspan : reference.span = e.span) :
    reference.specifier ≠ e.newText := by
  obtain ⟨c, hfair, hedits⟩ := r.editsFor_fair disk file references replacements
  obtain ⟨edited, hedited, hspan', hchanges⟩ := hfair.made e (hedits ▸ he)
  rwa [TextEdit.eq_of_pairwise_ne hdistinct hmem hedited (hspan.trans hspan'.symm)]

/-- No span is edited twice. -/
theorem editsFor_pairwise (r : Resolver) (disk : Disk) (file : Path)
    (references : List Reference) (replacements : List Replacement) :
    (r.editsFor disk file references replacements).Pairwise fun a b => a.span ≠ b.span := by
  obtain ⟨c, hfair, hedits⟩ := r.editsFor_fair disk file references replacements
  exact hedits ▸ hfair.once

end Resolver

/-! ## Texts that differ in their specifiers only -/

/-- **The text from `position` on, and its rewritten form.**  Up to the first import the two have
the same characters; there the first reads as the import does and the second as `spell` says; and so
on behind it.  Each import stands at its span. -/
inductive Respecified (spell : Reference → String) :
    (position : Nat) → (text : List Char) → List Reference → (rewritten : List Char) → Prop
  | rest (position : Nat) (text : List Char) : Respecified spell position text [] text
  | slot {position : Nat} {gap text rewritten : List Char} {r : Reference}
      {references : List Reference} :
      position + byteLength gap = r.span.start →
      r.span.start + byteLength r.specifier.toList = r.span.stop →
      Respecified spell r.span.stop text references rewritten →
      Respecified spell position (gap ++ (r.specifier.toList ++ text)) (r :: references)
        (gap ++ ((spell r).toList ++ rewritten))

/-- The imports stand in the text where their spans say, one behind the other. -/
def LaidOut (text : List Char) (references : List Reference) : Prop :=
  Respecified Reference.specifier 0 text references text

/-- What an import reads after the edits: the text of the edit at its span, or what it read. -/
def spelling (edits : List TextEdit) (r : Reference) : String :=
  ((edits.find? fun e => e.span = r.span).map TextEdit.newText).getD r.specifier

namespace Respecified

/-- An equal front part with fewer bytes can be taken off. -/
theorem exists_gap {front rest before tail : List Char} (h : front ++ rest = before ++ tail)
    (hle : byteLength front ≤ byteLength before) :
    ∃ gap, before = front ++ gap ∧ rest = gap ++ tail := by
  rcases List.append_eq_append_iff.1 h with ⟨gap, hbefore, hrest⟩ | ⟨extra, hfront, htail⟩
  · exact ⟨gap, hbefore, hrest⟩
  · have hextra : extra = [] := by
      cases extra with
      | nil => rfl
      | cons c extra =>
        have hpos := c.utf8Size_pos
        rw [hfront, byteLength_append] at hle
        simp only [byteLength] at hle
        omega
    subst hextra
    exact ⟨[], by simpa using hfront.symm, by simpa using htail.symm⟩

/-- Imports that stand in a text, in order and apart from each other, leave gaps between them. -/
theorem of_standsIn (front : List Char) {rest : List Char} {references : List Reference}
    (hstands : ∀ r ∈ references, Source.StandsIn (front ++ rest) r)
    (hbehind : ∀ r ∈ references, byteLength front ≤ r.span.start)
    (hapart : references.Pairwise fun a b => a.span.stop ≤ b.span.start) :
    Respecified Reference.specifier (byteLength front) rest references rest := by
  induction references generalizing front rest with
  | nil => exact .rest _ _
  | cons r references ih =>
    obtain ⟨before, after, htext, hstart, hstop⟩ := hstands r (List.mem_cons_self ..)
    obtain ⟨hfirst, hlater⟩ := List.pairwise_cons.1 hapart
    rw [List.append_assoc] at htext
    obtain ⟨gap, hbefore, hrest⟩ := exists_gap htext
      (hstart ▸ hbehind r (List.mem_cons_self ..))
    have hfront : byteLength (front ++ (gap ++ r.specifier.toList)) = r.span.stop := by
      rw [← List.append_assoc, ← hbefore, byteLength_append, hstop]
    have htail : Respecified Reference.specifier r.span.stop after references after := by
      rw [← hfront]
      refine ih _ ?_ ?_ hlater
      · intro r' hr'
        have h := hstands r' (List.mem_cons_of_mem _ hr')
        rw [hrest] at h
        simpa [List.append_assoc] using h
      · intro r' hr'
        rw [hfront]
        exact hfirst r' hr'
    rw [hrest]
    refine .slot ?_ (by rw [← hstart]; exact hstop) htail
    rw [← byteLength_append, ← hbefore, hstart]

end Respecified

/-! ## Applying the edits -/

namespace TextEdit

/-- Making the edits of a list of imports, one for each import at most, respells those imports.
The induction is on the layout; `front` is the text since the last edit. -/
theorem replaceAll_respecified {size : Nat} {edit? : Reference → Option TextEdit}
    (hspan : ∀ r e, edit? r = some e → e.span = r.span) {position : Nat} {text same : List Char}
    {references : List Reference}
    (h : Respecified Reference.specifier position text references same)
    (hsize : position + byteLength text ≤ size) :
    ∃ rewritten,
      Respecified (fun r => ((edit? r).map newText).getD r.specifier) position text references
        rewritten ∧
      ∀ done start front, start + byteLength front = position →
        ((Draft.halfway done start (front ++ text)).replaceAll size
            (references.filterMap edit?)).map Draft.chars =
          .ok (done ++ (front ++ rewritten)) := by
  induction h with
  | rest position text => exact ⟨text, .rest _ _, fun done start front _ => rfl⟩
  | @slot position gap text same r references hgap hstop _ ih =>
    rw [byteLength_append, byteLength_append] at hsize
    obtain ⟨rewritten, hrewritten, hmade⟩ := ih (by omega)
    refine ⟨_, .slot hgap hstop hrewritten, ?_⟩
    intro done start front hfront
    cases hedit : edit? r with
    | none =>
      rw [List.filterMap_cons_none hedit]
      have hkept := hmade done start (front ++ (gap ++ r.specifier.toList)) (by
        rw [byteLength_append, byteLength_append]
        omega)
      simpa [List.append_assoc] using hkept
    | some e =>
      have hes := hspan r e hedit
      have hcut : cut? (front ++ (gap ++ (r.specifier.toList ++ text))) (e.span.start - start) =
          some (front ++ gap, r.specifier.toList ++ text) := by
        rw [← List.append_assoc, ← cut?_front (front ++ gap), hes]
        congr 1
        rw [byteLength_append]
        omega
      have hslot : cut? (r.specifier.toList ++ text) e.span.length =
          some (r.specifier.toList, text) := by
        rw [← cut?_front r.specifier.toList, hes, Span.length]
        congr 1
        omega
      have hrest : start + byteLength (front ++ (gap ++ (r.specifier.toList ++ text))) ≤ size := by
        simp only [byteLength_append]
        omega
      have hreplace : (Draft.halfway done start _).replace size e = _ :=
        Draft.replace_halfway hrest (by rw [hes]; omega) (by rw [hes]; omega) hcut hslot
      have hrest := hmade (done ++ (front ++ gap ++ e.newText.toList)) e.span.stop []
        (by rw [hes, byteLength, Nat.add_zero])
      rw [List.filterMap_cons_some hedit, Draft.replaceAll, hreplace]
      simpa [Except.bind, List.append_assoc] using hrest

/-- In the order of their starts, the edits come in the order of the imports they are for.  Of two
imports the first starts in front of the second, unless it is not edited. -/
theorem sorted_eq_filterMap {references : List Reference} {edits : List TextEdit}
    (hstarts : references.Pairwise fun a b =>
      (∀ e ∈ edits, e.span ≠ a.span) ∨ a.span.start < b.span.start)
    (hmade : ∀ e ∈ edits, ∃ r ∈ references, r.span = e.span)
    (honce : edits.Pairwise fun a b => a.span ≠ b.span) :
    sorted edits = references.filterMap fun r => edits.find? fun e => e.span = r.span := by
  have hfound : ∀ (r : Reference) (e : TextEdit),
      (edits.find? fun e => e.span = r.span) = some e ↔ e ∈ edits ∧ e.span = r.span := by
    intro r e
    constructor
    · intro h
      exact ⟨List.mem_of_find?_eq_some h, by simpa using List.find?_some h⟩
    · rintro ⟨he, hspan⟩
      cases h : edits.find? fun e => e.span = r.span with
      | none => exact absurd hspan (by simpa using List.find?_eq_none.1 h e he)
      | some e' =>
        have hspan' : e'.span = r.span := by simpa using List.find?_some h
        rw [eq_of_pairwise_ne honce (List.mem_of_find?_eq_some h) he (hspan'.trans hspan.symm)]
  have hmem : ∀ e, e ∈ edits ↔
      e ∈ references.filterMap fun r => edits.find? fun e => e.span = r.span := by
    intro e
    rw [List.mem_filterMap]
    constructor
    · intro he
      obtain ⟨r, hr, hspan⟩ := hmade e he
      exact ⟨r, hr, (hfound r e).2 ⟨he, hspan.symm⟩⟩
    · rintro ⟨r, _, h⟩
      exact ((hfound r e).1 h).1
  have hincreasing : (references.filterMap fun r => edits.find? fun e => e.span = r.span).Pairwise
      fun a b => a.span.start < b.span.start := by
    refine List.Pairwise.filterMap _ ?_ hstarts
    intro r r' hlt e he e' he'
    obtain ⟨hmem, hspan⟩ := (hfound r e).1 he
    rw [hspan, ((hfound r' e').1 he').2]
    exact hlt.resolve_left fun hnone => hnone e hmem hspan
  refine @List.Perm.eq_of_pairwise _ (fun a b => a.span.start ≤ b.span.start) _ _ ?_ ?_
    (hincreasing.imp Nat.le_of_lt) ?_
  · intro a b ha hb hab hba
    have ha' : a ∈ references.filterMap fun r => edits.find? fun e => e.span = r.span :=
      (hmem a).1 ((List.mergeSort_perm edits _).mem_iff.1 ha)
    exact eq_of_pairwise_ne (hincreasing.imp Nat.ne_of_lt) ha' hb (Nat.le_antisymm hab hba)
  · exact pairwise_sortedBy (fun e => e.span.start) edits
  · refine (List.mergeSort_perm edits _).trans ?_
    refine (List.perm_ext_iff_of_nodup (honce.imp ?_) (hincreasing.imp ?_)).2 hmem
    · rintro a _ h rfl
      exact h rfl
    · rintro a _ h rfl
      exact Nat.lt_irrefl _ h

/-- **Edits made for imports apply.**  Where imports stand apart from each other in a text, edits
at their spans can be made, and they change nothing but the specifiers. -/
theorem applyAll_respecified {text : String} {references : List Reference}
    {edits : List TextEdit} (hlaid : LaidOut text.toList references)
    (hapart : references.Pairwise fun a b => a.span.stop ≤ b.span.start)
    (hstarts : references.Pairwise fun a b =>
      (∀ e ∈ edits, e.span ≠ a.span) ∨ a.span.start < b.span.start)
    (hmade : ∀ e ∈ edits, ∃ r ∈ references, r.span = e.span)
    (honce : edits.Pairwise fun a b => a.span ≠ b.span) :
    ∃ rewritten, applyAll text edits = .ok rewritten ∧
      Respecified (spelling edits) 0 text.toList references rewritten.toList := by
  have hsorted := sorted_eq_filterMap hstarts hmade honce
  have hspan : ∀ (r : Reference) (e : TextEdit),
      (edits.find? fun e => e.span = r.span) = some e → e.span = r.span :=
    fun r e h => by simpa using List.find?_some h
  have hsize : 0 + byteLength text.toList ≤ text.utf8ByteSize :=
    Nat.le_of_eq ((Nat.zero_add _).trans (byteLength_toList text))
  obtain ⟨rewritten, hrewritten, hmadeAll⟩ := replaceAll_respecified hspan hlaid hsize
  have hclash : clash? (sorted edits) = none := by
    rw [hsorted]
    refine (clash?_eq_none_iff _).2 (.of_pairwise (List.Pairwise.filterMap _ ?_ hapart))
    intro r r' hlt e he e' he'
    rw [hspan r e he, hspan r' e' he']
    exact hlt
  refine ⟨String.ofList rewritten, ?_, by rw [String.toList_ofList]; exact hrewritten⟩
  have hchars := hmadeAll [] 0 [] rfl
  simp only [List.nil_append] at hchars
  rw [applyAll_of_clash?_eq_none hclash, hsorted, hchars]
  rfl

end TextEdit

/-! ## Where the imports of a text stand -/

namespace Source

/-- The mark of the byte order. -/
def mark : Char := '\uFEFF'

/-- The text starts with two marks of the byte order. -/
def DoublyMarked (text : String) : Prop := ∃ rest, text.toList = mark :: mark :: rest

instance (text : String) : Decidable (DoublyMarked text) :=
  match h : text.toList with
  | [] | [_] => isFalse (by simp [DoublyMarked, h])
  | c :: d :: rest =>
    if hmarks : c = mark ∧ d = mark then
      isTrue ⟨rest, by rw [h, hmarks.1, hmarks.2]⟩
    else
      isFalse (by
        rintro ⟨rest', h'⟩
        rw [h] at h'
        simp only [List.cons.injEq] at h'
        exact hmarks ⟨h'.1, h'.2.1⟩)

/-- What stands in a text stands further behind in a longer one. -/
theorem StandsIn.moveBy {text : List Char} {r : Reference} (h : StandsIn text r)
    (front : List Char) : StandsIn (front ++ text) (moveBy (byteLength front) r) := by
  obtain ⟨before, after, htext, hstart, hstop⟩ := h
  refine ⟨front ++ before, after, ?_, ?_, ?_⟩
  · rw [htext]
    simp [Source.moveBy, List.append_assoc]
  · rw [byteLength_append, hstart]
    simp only [Source.moveBy]
    omega
  · rw [byteLength_append, Nat.add_assoc]
    simp only [Source.moveBy]
    omega

/-- The specifier stands in the text at its span, behind a quote. -/
def WrittenIn (text : List Char) (r : Reference) : Prop := StandsIn text r ∧ QuotedIn text r

theorem WrittenIn.moveBy {text : List Char} {r : Reference} (h : WrittenIn text r)
    (front : List Char) : WrittenIn (front ++ text) (moveBy (byteLength front) r) := by
  obtain ⟨hstands, before, q, after, htext, hq, hstart⟩ := h
  refine ⟨hstands.moveBy front, front ++ before, q, after, ?_, hq, ?_⟩
  · rw [htext, List.append_assoc]
  · rw [byteLength_append]
    simp only [Source.moveBy]
    omega

/-- The imports of the items from a place on are written in the text, in order and apart from each
other.  For the imports of one item this is what every place in the text knows of the imports
recorded before it; the later items start behind that place. -/
theorem itemsFrom_sound {dialect : Dialect} {count position : Nat} {text : List Char}
    {c : Cursor text} {references : List Reference}
    (h : itemsFrom dialect count position c = some references) :
    (∀ r ∈ references, position < r.span.start ∧
      ∀ front, byteLength front = position → WrittenIn (front ++ c.rest) r) ∧
    references.Pairwise fun a b => a.span.stop < b.span.start := by
  induction count generalizing position text references with
  | zero => simp [itemsFrom] at h
  | succ count ih =>
    unfold itemsFrom at h
    split at h
    · simp only [Option.some.injEq] at h
      subst h
      exact ⟨by simp, .nil⟩
    · split at h
      · simp at h
      · rename_i after _
        split at h
        · simp at h
        · obtain ⟨later, hlater, rfl⟩ := Option.map_eq_some_iff.1 h
          obtain ⟨hwritten, hapart⟩ := ih hlater
          have hown : ∀ r ∈ after.found.reverse.map (moveBy position), ∃ r₀ ∈ after.found,
              moveBy position r₀ = r := by
            intro r hr
            obtain ⟨r₀, hr₀, rfl⟩ := List.mem_map.1 hr
            exact ⟨r₀, List.mem_reverse.1 hr₀, rfl⟩
          refine ⟨?_, List.pairwise_append.2 ⟨?_, hapart, ?_⟩⟩
          · intro r hr
            rcases List.mem_append.1 hr with hr | hr
            · obtain ⟨r₀, hr₀, rfl⟩ := hown r hr
              obtain ⟨hstands, hquote, _⟩ := after.sound.stands r₀ hr₀
              refine ⟨Nat.lt_add_of_pos_left hquote, fun front hfront => ?_⟩
              have hwritten : WrittenIn c.rest r₀ := ⟨hstands, after.sound.quoted r₀ hr₀⟩
              exact hfront ▸ hwritten.moveBy front
            · obtain ⟨hstart, hr⟩ := hwritten r hr
              refine ⟨by omega, fun front hfront => ?_⟩
              obtain ⟨before, htext, hoffset⟩ := after.sound.split
              rw [htext, ← List.append_assoc]
              exact hr (front ++ before) (by rw [byteLength_append, hfront, hoffset])
          · refine List.pairwise_map.2 (List.pairwise_reverse.2 (after.sound.apart.imp ?_))
            intro a b hab
            simp only [moveBy]
            omega
          · intro a ha b hb
            obtain ⟨a₀, ha₀, rfl⟩ := hown a ha
            have hstop := (after.sound.stands a₀ ha₀).2.2
            have hstart := (hwritten b hb).1
            simp only [moveBy]
            omega

/-- The imports of a parsed text are written in it, in order and apart from each other. -/
theorem importsIn_sound {dialect : Dialect} {text : List Char} {references : List Reference}
    (h : importsIn dialect text = some references) :
    (∀ r ∈ references, WrittenIn text r) ∧
      references.Pairwise fun a b => a.span.stop < b.span.start := by
  obtain ⟨hwritten, hapart⟩ := itemsFrom_sound h
  obtain ⟨before, htext, hoffset⟩ := (Cursor.start text).sound.split
  refine ⟨fun r hr => ?_, hapart⟩
  rw [htext]
  exact (hwritten r hr).2 before hoffset

/-- What is taken off in front of a text is at most one mark. -/
theorem withoutMark_eq (text : List Char) :
    (text = mark :: (withoutMark text).1 ∧ (withoutMark text).2 = byteLength [mark]) ∨
      ((withoutMark text).1 = text ∧ (withoutMark text).2 = 0 ∧ text.head? ≠ some mark) := by
  cases text with
  | nil => exact .inr ⟨rfl, rfl, by simp⟩
  | cons c rest =>
    by_cases hc : c = mark
    · subst hc
      exact .inl ⟨rfl, rfl⟩
    · have hcode : ¬ c.toNat = 0xFEFF := fun h => hc (Char.toNat_inj.1 h)
      refine .inr ⟨?_, ?_, ?_⟩
      · simp [withoutMark, hcode]
      · simp [withoutMark, hcode]
      · simpa using hc

/-- The imports of a text are those found behind its marks, moved by the bytes of the first one. -/
theorem exists_found {path : Path} {text : String} {references : List Reference}
    (h : imports path text = some references) :
    ∃ found, importsIn (dialectOf path) (withoutMark (withoutMark text.toList).1).1 = some found ∧
      references = found.map (moveBy (withoutMark text.toList).2) := by
  obtain ⟨found, hfound, hreferences⟩ := Option.map_eq_some_iff.1 h
  exact ⟨found, hfound, hreferences.symm⟩

/-- Behind at most one mark, the imports of a text are written where their spans say. -/
theorem imports_writtenIn {path : Path} {text : String} {references : List Reference}
    (h : imports path text = some references) (hmarks : ¬ DoublyMarked text) :
    ∀ r ∈ references, WrittenIn text.toList r := by
  obtain ⟨found, hfound, rfl⟩ := exists_found h
  intro moved hmoved
  obtain ⟨r, hr, rfl⟩ := List.mem_map.1 hmoved
  rcases withoutMark_eq text.toList with ⟨hfront, hlength⟩ | ⟨hbody, hlength, hhead⟩
  · -- one mark was taken off; a second one is not there
    have hbody : (withoutMark (withoutMark text.toList).1).1 = (withoutMark text.toList).1 := by
      rcases withoutMark_eq (withoutMark text.toList).1 with ⟨hsecond, _⟩ | ⟨hsame, _, _⟩
      · exact absurd ⟨_, hfront.trans (congrArg (mark :: ·) hsecond)⟩ hmarks
      · exact hsame
    have hwritten := ((importsIn_sound hfound).1 r hr).moveBy [mark]
    rw [hbody] at hwritten
    rw [hlength, hfront]
    exact hwritten
  · have hsame : (withoutMark (withoutMark text.toList).1).1 = text.toList := by
      rw [hbody, hbody]
    have hwritten := ((importsIn_sound hfound).1 r hr).moveBy []
    rw [hsame] at hwritten
    rw [hlength]
    exact hwritten

/-- Behind two marks, the imports of a text are written three bytes behind their spans. -/
theorem imports_writtenBehind {path : Path} {text : String} {references : List Reference}
    (h : imports path text = some references) (hmarks : DoublyMarked text) :
    ∀ r ∈ references, WrittenIn text.toList (moveBy 3 r) := by
  obtain ⟨found, hfound, rfl⟩ := exists_found h
  obtain ⟨rest, htext⟩ := hmarks
  rw [htext] at hfound ⊢
  intro moved hmoved
  obtain ⟨r, hr, rfl⟩ := List.mem_map.1 hmoved
  exact ((importsIn_sound hfound).1 r hr).moveBy [mark, mark]

theorem imports_standsIn {path : Path} {text : String} {references : List Reference}
    (h : imports path text = some references) (hmarks : ¬ DoublyMarked text) :
    ∀ r ∈ references, StandsIn text.toList r :=
  fun r hr => (imports_writtenIn h hmarks r hr).1

theorem imports_doublyMarked {path : Path} {text : String} {references : List Reference}
    (h : imports path text = some references) (hmarks : DoublyMarked text) :
    ∀ r ∈ references, StandsIn text.toList (moveBy 3 r) :=
  fun r hr => (imports_writtenBehind h hmarks r hr).1

/-- The spans of the imports of a text follow each other, with a byte between any two. -/
theorem imports_apart {path : Path} {text : String} {references : List Reference}
    (h : imports path text = some references) :
    references.Pairwise fun a b => a.span.stop < b.span.start := by
  obtain ⟨found, hfound, rfl⟩ := exists_found h
  refine List.pairwise_map.2 ((importsIn_sound hfound).2.imp ?_)
  intro a b hab
  simp only [moveBy]
  omega

/-- The span of an import does not end before it begins. -/
theorem imports_forward {path : Path} {text : String} {references : List Reference}
    (h : imports path text = some references) :
    ∀ r ∈ references, r.span.start ≤ r.span.stop := by
  obtain ⟨found, hfound, rfl⟩ := exists_found h
  intro moved hmoved
  obtain ⟨r, hr, rfl⟩ := List.mem_map.1 hmoved
  obtain ⟨⟨before, after, -, hstart, hstop⟩, _⟩ := (importsIn_sound hfound).1 r hr
  simp only [moveBy]
  omega

end Source

/-! ## The whole rewrite -/

/-- Where a text and a rewritten form of it are told apart by imports, these stand in the text. -/
theorem Respecified.standsIn {spell : Reference → String} {position : Nat}
    {text rewritten : List Char} {references : List Reference}
    (h : Respecified spell position text references rewritten) (front : List Char)
    (hfront : byteLength front = position) :
    ∀ r ∈ references, Source.StandsIn (front ++ text) r := by
  induction h generalizing front with
  | rest => simp
  | @slot position gap text rewritten r references hgap hstop _ ih =>
    intro r' hr'
    rcases List.mem_cons.1 hr' with rfl | hr'
    · refine ⟨front ++ gap, text, by simp [List.append_assoc], ?_, ?_⟩
      · rw [byteLength_append, hfront, hgap]
      · rw [byteLength_append, hfront, hgap, hstop]
    · have hstands := ih (front ++ (gap ++ r.specifier.toList)) (by
        rw [byteLength_append, byteLength_append]
        omega) r' hr'
      simpa [List.append_assoc] using hstands

/-- Edits for imports that stand in the text, in order and apart, change nothing else. -/
theorem Resolver.applyAll_editsFor {text : String} {references : List Reference}
    (hstands : ∀ r ∈ references, Source.StandsIn text.toList r)
    (hapart : references.Pairwise fun a b => a.span.stop < b.span.start)
    (r : Resolver) (disk : Disk) (file : Path) (replacements : List Replacement) :
    ∃ rewritten,
      TextEdit.applyAll text (r.editsFor disk file references replacements) = .ok rewritten ∧
      Respecified (spelling (r.editsFor disk file references replacements)) 0 text.toList
        references rewritten.toList := by
  have hlaid : LaidOut text.toList references :=
    Respecified.of_standsIn [] hstands (fun _ _ => Nat.zero_le _) (hapart.imp Nat.le_of_lt)
  refine TextEdit.applyAll_respecified hlaid (hapart.imp Nat.le_of_lt) ?_
    (fun e he => editsFor_span he) (r.editsFor_pairwise disk file references replacements)
  refine hapart.imp_of_mem fun {a b} ha _ hab => .inr ?_
  obtain ⟨_, _, _, hstart, hstop⟩ := hstands a ha
  omega

/-- **Rewriting is exact.**  Unless a text starts with two marks of the byte order, every set of
replacements can be carried out in it, and the result differs from the text in the specifiers that
were edited only.  Of a text with two marks, all imports stand three bytes behind their spans; such
a text is rewritten exactly when its imports stand at the spans as well. -/
theorem rewriting_is_exact {path : Path} {text : String} {references : List Reference}
    (h : Source.imports path text = some references) :
    (¬ Source.DoublyMarked text →
      ∀ (r : Resolver) (disk : Disk) (file : Path) (replacements : List Replacement),
        ∃ rewritten,
          TextEdit.applyAll text (r.editsFor disk file references replacements) = .ok rewritten ∧
          Respecified (spelling (r.editsFor disk file references replacements)) 0 text.toList
            references rewritten.toList) ∧
    (Source.DoublyMarked text →
      (∀ reference ∈ references, Source.StandsIn text.toList (Source.moveBy 3 reference)) ∧
      ((∀ (r : Resolver) (disk : Disk) (file : Path) (replacements : List Replacement),
          ∃ rewritten,
            TextEdit.applyAll text (r.editsFor disk file references replacements) =
              .ok rewritten ∧
            Respecified (spelling (r.editsFor disk file references replacements)) 0 text.toList
              references rewritten.toList) ↔
        ∀ reference ∈ references, Source.StandsIn text.toList reference)) := by
  have hapart := Source.imports_apart h
  refine ⟨?_, ?_⟩
  · intro hmarks
    exact Resolver.applyAll_editsFor (Source.imports_standsIn h hmarks) hapart
  · intro hmarks
    refine ⟨Source.imports_doublyMarked h hmarks, ?_, ?_⟩
    · intro hrewrites
      obtain ⟨rewritten, _, hrespecified⟩ := hrewrites default default default []
      exact hrespecified.standsIn [] rfl
    · intro hstands
      exact Resolver.applyAll_editsFor hstands hapart

/-- A single mark, and a character of two bytes in the specifier. -/
theorem rewriting_is_exact_behind_mark :
    Source.imports ⟨"/a.ts"⟩ "\uFEFFimport './é'" = some [⟨"./é", ⟨11, 15⟩⟩] ∧
      ¬ Source.DoublyMarked "\uFEFFimport './é'" ∧
      ∃ rewritten,
        TextEdit.applyAll "\uFEFFimport './é'"
            ((Resolver.ofExtensions .standard).editsFor default ⟨"/a.ts"⟩ [⟨"./é", ⟨11, 15⟩⟩]
              [⟨"./é", "./c"⟩]) = .ok rewritten ∧
        Respecified
          (spelling ((Resolver.ofExtensions .standard).editsFor default ⟨"/a.ts"⟩
            [⟨"./é", ⟨11, 15⟩⟩] [⟨"./é", "./c"⟩])) 0
          "\uFEFFimport './é'".toList [⟨"./é", ⟨11, 15⟩⟩] rewritten.toList :=
  have himports : Source.imports ⟨"/a.ts"⟩ "\uFEFFimport './é'" = some [⟨"./é", ⟨11, 15⟩⟩] := by
    decide +kernel
  ⟨himports, by decide, (rewriting_is_exact himports).1 (by decide) _ _ _ _⟩

/-- Behind two marks an edit may be refused: its span, three bytes too far in front, ends within a
character. -/
theorem rewriting_behind_two_marks :
    Source.imports ⟨"/src/a.ts"⟩ "\uFEFF\uFEFFimport a from './éab';\n" =
        some [⟨"./éab", ⟨18, 24⟩⟩] ∧
      (TextEdit.applyAll "\uFEFF\uFEFFimport a from './éab';\n"
          ((Resolver.ofExtensions .standard).editsFor default ⟨"/src/a.ts"⟩
            [⟨"./éab", ⟨18, 24⟩⟩] [⟨"./éab", "./c"⟩])).isOk = false :=
  ⟨by decide +kernel, by decide +kernel⟩

end Relocate
