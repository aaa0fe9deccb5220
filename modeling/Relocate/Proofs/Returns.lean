import Relocate.Proofs.Retargeting

/-! # There and back

When a module comes back to where it was, the imports of it are redirected a second time.  They then
stand in another text, at other spans and with other specifiers, and are read on another disk.

Edits that are made for imports shift the others (`Reference.after`).  A text and its edited form
are laid out by the same imports, before and after the edits (`Respecified.after`), so that what
spells each of them as it was gives back the text.  `redirected_imports_return` says that the second
redirection does.
-/

namespace Relocate

open Text

/-! ## Imports in any order -/

/-- The imports stand in the text where their spans say, and no two of them overlap. -/
structure Sliced (text : List Char) (references : List Reference) : Prop where
  stands : ∀ r ∈ references, Source.StandsIn text r
  disjoint : references.Pairwise fun a b => a.span.overlaps b.span = false

theorem Span.overlaps_comm (s t : Span) : s.overlaps t = t.overlaps s := by
  rw [overlaps, overlaps, Bool.and_comm]

/-- Imports with one span that stand in a text have one specifier. -/
theorem Source.StandsIn.specifier_eq {text : List Char} {a b : Reference} (h : StandsIn text a)
    (h' : StandsIn text b) (hspan : a.span = b.span) : a.specifier = b.specifier := by
  obtain ⟨before, behind, htext, hstart, hstop⟩ := h
  obtain ⟨before', behind', htext', hstart', hstop'⟩ := h'
  rw [htext, List.append_assoc, List.append_assoc] at htext'
  rw [hspan] at hstart hstop
  obtain ⟨-, hrest⟩ := append_inj_bytes htext' (hstart.trans hstart'.symm)
  exact String.toList_inj.1 (append_inj_bytes hrest (by omega)).1

namespace Respecified

variable {spell spell' : Reference → String} {position : Nat}
  {text rewritten rewritten' : List Char} {r : Reference} {references : List Reference}

/-- The imports follow each other. -/
theorem apart (h : Respecified spell position text references rewritten) :
    (∀ r ∈ references, position ≤ r.span.start ∧ r.span.start ≤ r.span.stop) ∧
      references.Pairwise fun a b => a.span.stop ≤ b.span.start := by
  induction h with
  | rest => exact ⟨by simp, .nil⟩
  | @slot position gap text rewritten r references hgap hstop _ ih =>
    obtain ⟨hbehind, hapart⟩ := ih
    refine ⟨fun r' hr' => ?_, List.pairwise_cons.2 ⟨fun r' hr' => (hbehind r' hr').1, hapart⟩⟩
    rcases List.mem_cons.1 hr' with rfl | hr'
    · omega
    · have hr' := hbehind r' hr'
      omega

theorem of_cons (h : Respecified spell position text (r :: references) rewritten) :
    ∃ gap rest rest', text = gap ++ (r.specifier.toList ++ rest) ∧
      rewritten = gap ++ ((spell r).toList ++ rest') ∧
      position + byteLength gap = r.span.start ∧
      Respecified spell r.span.stop rest references rest' := by
  cases h with
  | slot hgap hstop hrest => exact ⟨_, _, _, rfl, rfl, hgap, hrest⟩

/-- A text has one rewritten form. -/
theorem unique (h : Respecified spell position text references rewritten)
    (h' : Respecified spell' position text references rewritten')
    (hsame : ∀ r ∈ references, spell r = spell' r) : rewritten = rewritten' := by
  induction references generalizing position text rewritten rewritten' with
  | nil =>
    cases h
    cases h'
    rfl
  | cons r references ih =>
    obtain ⟨gap, rest, rewritten, rfl, rfl, hgap, hrest⟩ := h.of_cons
    obtain ⟨gap', rest', rewritten', htext, rfl, hgap', hrest'⟩ := h'.of_cons
    obtain ⟨rfl, hbehind⟩ := append_inj_bytes htext (by omega)
    obtain rfl := List.append_cancel_left hbehind
    rw [hsame r List.mem_cons_self,
      ih hrest hrest' fun r hr => hsame r (List.mem_cons_of_mem _ hr)]

end Respecified

namespace Sliced

variable {text : List Char} {references ordered : List Reference}

/-- Imports that slice a text lay it out in some order. -/
theorem exists_laidOut (h : Sliced text references) :
    ∃ ordered, ordered.Perm references ∧ LaidOut text ordered := by
  -- empty spans are why the order is by both ends
  have hperm := List.mergeSort_perm references fun a b =>
    decide (a.span.start + a.span.stop ≤ b.span.start + b.span.stop)
  have hsorted := TextEdit.pairwise_sortedBy
    (fun r : Reference => r.span.start + r.span.stop) references
  have hstands : ∀ r ∈ references.mergeSort fun a b =>
      decide (a.span.start + a.span.stop ≤ b.span.start + b.span.stop), Source.StandsIn text r :=
    fun r hr => h.stands r (hperm.mem_iff.1 hr)
  have hdisjoint := h.disjoint.perm hperm.symm fun {a b} hab =>
    (Span.overlaps_comm b.span a.span).trans hab
  refine ⟨_, hperm, .of_standsIn [] hstands (fun _ _ => Nat.zero_le _) ?_⟩
  refine (hsorted.and hdisjoint).imp_of_mem fun {a b} ha hb hab => ?_
  obtain ⟨hle, hapart⟩ := hab
  obtain ⟨_, _, _, hstart, hstop⟩ := hstands a ha
  obtain ⟨_, _, _, hstart', hstop'⟩ := hstands b hb
  simp only [Span.overlaps, Bool.and_eq_false_iff, decide_eq_false_iff_not] at hapart
  omega

theorem of_laidOut (h : LaidOut text ordered) (hperm : ordered.Perm references) :
    Sliced text references where
  stands r hr := h.standsIn [] rfl r (hperm.mem_iff.2 hr)
  disjoint := by
    refine (h.apart.2.imp fun {a b} hab => ?_).perm hperm fun {a b} hab =>
      (Span.overlaps_comm b.span a.span).trans hab
    simp only [Span.overlaps, Bool.and_eq_false_iff, decide_eq_false_iff_not]
    omega

end Sliced

/-! ## Where imports stand after edits -/

namespace TextEdit

/-- Where an offset goes to when edits are made: each edit in front of it moves it by its growth. -/
def shifted (edits : List TextEdit) (offset : Nat) : Nat :=
  ((offset : Int) + totalGrowth (edits.filter fun e => e.span.stop ≤ offset)).toNat

/-- Only the edits that an offset has passed count. -/
theorem shifted_eq {edits passed coming : List TextEdit} {offset : Nat}
    (hperm : edits.Perm (passed ++ coming)) (hpassed : ∀ e ∈ passed, e.span.stop ≤ offset)
    (hcoming : ∀ e ∈ coming, offset < e.span.stop) :
    shifted edits offset = ((offset : Int) + totalGrowth passed).toNat := by
  have hfilter : (passed ++ coming).filter (fun e => e.span.stop ≤ offset) = passed := by
    rw [List.filter_append, List.filter_eq_self.2 (by simpa using hpassed),
      List.filter_eq_nil_iff.2 (by simpa using hcoming), List.append_nil]
  rw [shifted, totalGrowth_perm (hperm.filter _), hfilter]

end TextEdit

/-- The import as it is after edits. -/
def Reference.after (edits : List TextEdit) (r : Reference) : Reference where
  specifier := spelling edits r
  span :=
    { start := TextEdit.shifted edits r.span.start
      stop := TextEdit.shifted edits r.span.start + (spelling edits r).utf8ByteSize }

/-- The end of an import is shifted by the edits in front of it and by its own, if there is one. -/
theorem Reference.stop_after {edits passed : List TextEdit} {r : Reference}
    (hstart : (TextEdit.shifted edits r.span.start : Int) =
      r.span.start + TextEdit.totalGrowth passed)
    (hstop : r.span.start + byteLength r.specifier.toList = r.span.stop) :
    ((r.after edits).span.stop : Int) = r.span.stop +
      TextEdit.totalGrowth (passed ++ (edits.find? fun e => e.span = r.span).toList) := by
  rw [byteLength_toList] at hstop
  cases hfind : edits.find? fun e => e.span = r.span with
  | none =>
    have hspelling : spelling edits r = r.specifier := by simp [spelling, hfind]
    simp only [after, hspelling, Option.toList_none, List.append_nil]
    omega
  | some e =>
    have hspan : e.span = r.span := by simpa using List.find?_some hfind
    have hspelling : spelling edits r = e.newText := by simp [spelling, hfind]
    simp only [after, hspelling, Option.toList_some, TextEdit.totalGrowth_append,
      TextEdit.totalGrowth, TextEdit.growth, hspan, Span.length]
    omega

namespace Respecified

variable {edits : List TextEdit} {position position' : Nat} {text rewritten : List Char}
  {references : List Reference}

/-- **The imports lay out the edited text as they laid out the text.**  Whatever spells them anew in
the edited text gives what it gives in the text itself.  The induction is on the layout; `passed`
are the edits in front of `position`, which has become `position'`. -/
theorem after (h : Respecified (spelling edits) position text references rewritten)
    (hfull : ∀ e ∈ edits, e.span.start < e.span.stop) {passed : List TextEdit}
    (hperm : edits.Perm
      (passed ++ references.filterMap fun r => edits.find? fun e => e.span = r.span))
    (hpassed : ∀ e ∈ passed, e.span.stop ≤ position)
    (hposition : (position' : Int) = position + TextEdit.totalGrowth passed)
    (spell : Reference → String) :
    ∃ third, Respecified (fun r => spell (r.after edits)) position text references third ∧
      Respecified spell position' rewritten (references.map (Reference.after edits)) third := by
  induction h generalizing passed position' with
  | rest position text => exact ⟨text, .rest _ _, .rest _ _⟩
  | @slot position gap text rewritten r references hgap hstop hrest ih =>
    have hfound : ∀ (r : Reference) (e : TextEdit),
        (edits.find? fun e => e.span = r.span) = some e → e.span = r.span :=
      fun r e hfind => by simpa using List.find?_some hfind
    -- The edits of this import and of those behind it are still to come at its start.
    have hcoming : ∀ e ∈ (r :: references).filterMap
        (fun r => edits.find? fun e => e.span = r.span), r.span.start < e.span.stop := by
      intro e he
      obtain ⟨r', hr', hfind⟩ := List.mem_filterMap.1 he
      have hnonempty := hfull e (List.mem_of_find?_eq_some hfind)
      rw [hfound r' e hfind] at hnonempty ⊢
      rcases List.mem_cons.1 hr' with rfl | hr'
      · exact hnonempty
      · have hbehind := (hrest.apart.1 r' hr').1
        omega
    have hpassed' : ∀ e ∈ passed, e.span.stop ≤ r.span.start := by
      intro e he
      have hle := hpassed e he
      omega
    have hstart : position' + byteLength gap = TextEdit.shifted edits r.span.start := by
      rw [TextEdit.shifted_eq hperm hpassed' hcoming]
      omega
    -- At its end its own edit is passed as well.
    have hperm' : edits.Perm ((passed ++ (edits.find? fun e => e.span = r.span).toList) ++
        references.filterMap fun r => edits.find? fun e => e.span = r.span) := by
      rw [List.append_assoc]
      cases hfind : edits.find? fun e => e.span = r.span with
      | none => simpa [List.filterMap_cons, hfind] using hperm
      | some e => simpa [List.filterMap_cons, hfind] using hperm
    have hpassed'' : ∀ e ∈ passed ++ (edits.find? fun e => e.span = r.span).toList,
        e.span.stop ≤ r.span.stop := by
      intro e he
      rcases List.mem_append.1 he with he | he
      · have hle := hpassed' e he
        omega
      · exact Nat.le_of_eq (congrArg Span.stop (hfound r e (Option.mem_toList.1 he)))
    have hposition' : ((r.after edits).span.stop : Int) = r.span.stop +
        TextEdit.totalGrowth (passed ++ (edits.find? fun e => e.span = r.span).toList) :=
      Reference.stop_after (by omega) hstop
    obtain ⟨third, hthird, hthird'⟩ := ih hperm' hpassed'' hposition'
    refine ⟨_, .slot hgap hstop hthird, ?_⟩
    have hsize := byteLength_toList (spelling edits r)
    exact Respecified.slot (r := r.after edits) hstart
      (congrArg (TextEdit.shifted edits r.span.start + ·) hsize) hthird'

end Respecified

/-- **Edits are undone by what spells the imports as they were.**  Edits of imports that lay out a
text apply, the imports as they are then lay out the edited text, and respelling them there gives
the text back. -/
theorem TextEdit.applyAll_after {text : String} {ordered : List Reference} {edits : List TextEdit}
    (hlaid : LaidOut text.toList ordered)
    (hedits : ∀ e ∈ edits, e.span.start < e.span.stop ∧ ∃ r ∈ ordered, r.span = e.span)
    (honce : edits.Pairwise fun a b => a.span ≠ b.span) :
    ∃ edited, applyAll text edits = .ok edited ∧
      Respecified (spelling edits) 0 text.toList ordered edited.toList ∧
      LaidOut edited.toList (ordered.map (Reference.after edits)) ∧
      ∀ spell, (∀ r ∈ ordered, spell (r.after edits) = r.specifier) →
        Respecified spell 0 edited.toList (ordered.map (Reference.after edits)) text.toList := by
  have hapart := hlaid.apart.2
  have hstarts : ordered.Pairwise fun a b =>
      (∀ e ∈ edits, e.span ≠ a.span) ∨ a.span.start < b.span.start := by
    refine hapart.imp fun {a b} hab => ?_
    by_cases hedited : ∃ e ∈ edits, e.span = a.span
    · obtain ⟨e, he, hspan⟩ := hedited
      have hnonempty := (hedits e he).1
      rw [hspan] at hnonempty
      exact .inr (by omega)
    · exact .inl fun e he hspan => hedited ⟨e, he, hspan⟩
  have hmade : ∀ e ∈ edits, ∃ r ∈ ordered, r.span = e.span := fun e he => (hedits e he).2
  have hperm : edits.Perm
      ([] ++ ordered.filterMap fun r => edits.find? fun e => e.span = r.span) := by
    rw [List.nil_append, ← sorted_eq_filterMap hstarts hmade honce]
    exact (List.mergeSort_perm edits _).symm
  obtain ⟨edited, hedited, hrespecified⟩ := applyAll_respecified hlaid hapart hstarts hmade honce
  have hafter : ∀ spell, ∃ third,
      Respecified (fun r => spell (r.after edits)) 0 text.toList ordered third ∧
        Respecified spell 0 edited.toList (ordered.map (Reference.after edits)) third :=
    hrespecified.after (fun e he => (hedits e he).1) hperm (by simp) rfl
  refine ⟨edited, hedited, hrespecified, ?_, ?_⟩
  · obtain ⟨third, hthird, hlaid'⟩ := hafter Reference.specifier
    obtain rfl := hthird.unique hrespecified fun _ _ => rfl
    exact hlaid'
  · intro spell hspell
    obtain ⟨third, hthird, hback⟩ := hafter spell
    obtain rfl := hthird.unique hlaid hspell
    exact hback

/-! ## Edits that are made for imports in any order -/

namespace Resolver

variable {known : Extensions} {disk : Disk} {file : Path} {references ordered : List Reference}
  {replacements : List Replacement} {text : String}

theorem resolve?_empty (known : Extensions) (disk : Disk) (file : Path) :
    (ofExtensions known).resolve? disk file "" = none := by
  rw [resolve?, resolvePath?_ofExtensions]
  rfl

/-- A replacement passes over the imports that mean nothing. -/
theorem Claims.follow_filter (r : Resolver) (disk : Disk) (file : Path)
    (references : List Reference) (c : Claims) (replacement : Replacement) :
    c.follow r disk file (r.targets disk file
      (references.filter fun x => (r.resolve? disk file x.specifier).isSome)) replacement =
      c.follow r disk file (r.targets disk file references) replacement := by
  unfold Claims.follow
  split
  · rfl
  · split
    · rfl
    · rename_i wanted _
      induction references generalizing c with
      | nil => rfl
      | cons x references ih =>
        cases hx : r.resolve? disk file x.specifier with
        | none =>
          rw [List.filter_cons_of_neg (by simp [hx]), ih]
          simp [targets, Claims.consider, hx]
        | some identity =>
          rw [List.filter_cons_of_pos (by simp [hx])]
          exact ih _

/-- Imports that mean nothing are as good as absent. -/
theorem editsFor_filter (r : Resolver) (disk : Disk) (file : Path) (references : List Reference)
    (replacements : List Replacement) :
    r.editsFor disk file (references.filter fun x => (r.resolve? disk file x.specifier).isSome)
      replacements = r.editsFor disk file references replacements := by
  have hfollow := Claims.follow_filter r disk file references
  rw [editsFor, editsFor]
  congr 2
  funext c replacement
  exact hfollow c replacement

/-- Every edit is made for an import that means something. -/
theorem editsFor_meaning {r : Resolver} {e : TextEdit}
    (he : e ∈ r.editsFor disk file references replacements) :
    ∃ x ∈ references, x.span = e.span ∧ (r.resolve? disk file x.specifier).isSome = true := by
  rw [← editsFor_filter] at he
  obtain ⟨x, hx, hspan⟩ := editsFor_span he
  obtain ⟨hx, hmeans⟩ := List.mem_filter.1 hx
  exact ⟨x, hx, hspan, hmeans⟩

/-- An import that means something is not empty. -/
theorem span_of_meaning {x : Reference} {chars : List Char} (hstands : Source.StandsIn chars x)
    (hmeans : ((ofExtensions known).resolve? disk file x.specifier).isSome = true) :
    x.span.start < x.span.stop := by
  obtain ⟨before, behind, -, hstart, hstop⟩ := hstands
  have hsize : x.specifier.utf8ByteSize ≠ 0 := by
    intro hzero
    rw [String.utf8ByteSize_eq_zero_iff.1 hzero, resolve?_empty] at hmeans
    cases hmeans
  have hlength := byteLength_toList x.specifier
  omega

/-- What a replacement says of an import in a sliced text does not depend on the other imports. -/
theorem spelling_editsFor_sliced {chars : List Char} (h : Sliced chars references)
    {reference : Reference} (hmem : reference ∈ references) :
    spelling ((ofExtensions known).editsFor disk file references replacements) reference =
      ((replacements.find? ((ofExtensions known).speaksOf disk file reference)).map
        Replacement.new).getD reference.specifier := by
  cases hmeans : (ofExtensions known).resolve? disk file reference.specifier with
  | some identity =>
    rw [← editsFor_filter]
    refine spelling_editsFor ?_ (List.mem_filter.2 ⟨hmem, by simp [hmeans]⟩) _ disk file _
    refine (h.disjoint.filter _).imp_of_mem fun {a b} ha _ hdisjoint heq => ?_
    obtain ⟨ha, hmeans⟩ := List.mem_filter.1 ha
    have hnonempty := span_of_meaning (h.stands a ha) hmeans
    simp [Span.overlaps, ← heq] at hdisjoint
    omega
  | none =>
    have hsilent :
        replacements.find? ((ofExtensions known).speaksOf disk file reference) = none := by
      rw [List.find?_eq_none]
      intro replacement _ hspeaks
      obtain ⟨-, wanted, -, hwanted⟩ := speaksOf_iff.1 hspeaks
      simp [hmeans] at hwanted
    have hnone : ((ofExtensions known).editsFor disk file references replacements).find?
        (fun e => e.span = reference.span) = none := by
      rw [List.find?_eq_none]
      intro e he hspan
      obtain ⟨x, hx, hspan', hsome⟩ := editsFor_meaning he
      rw [(h.stands x hx).specifier_eq (h.stands reference hmem)
        (hspan'.trans (by simpa using hspan)), hmeans] at hsome
      cases hsome
    rw [hsilent, spelling, hnone]
    rfl

/-- Every edit has bytes to replace, at the span of an import. -/
theorem editsFor_apply {chars : List Char} (hsliced : Sliced chars references)
    (hperm : ordered.Perm references) {e : TextEdit}
    (he : e ∈ (ofExtensions known).editsFor disk file references replacements) :
    e.span.start < e.span.stop ∧ ∃ x ∈ ordered, x.span = e.span := by
  obtain ⟨x, hx, hspan, hmeans⟩ := editsFor_meaning he
  exact ⟨hspan ▸ span_of_meaning (hsliced.stands x hx) hmeans, x, hperm.mem_iff.2 hx, hspan⟩

end Resolver

/-! ## Redirecting there and back -/

/-- The edits that make a file import `target` in the stead of `source`. -/
def Session.redirection (r : Resolver) (disk : Disk) (file source target : Path)
    (references : List Reference) : List TextEdit :=
  r.editsFor disk file references [replacementFor r file source target]

namespace Session

section

variable {known : Extensions} (hknown : known.Proper) {disk disk' : Disk}
  (hdisk : ∀ place, disk.entry? (place ++ [Identity.indexName]) ≠ some .directory)
  (hdisk' : ∀ place, disk'.entry? (place ++ [Identity.indexName]) ≠ some .directory)
  {p q file source target : Path} (hp : IsModulePath known p)
  (hsource : IsModuleFile known p source) (hq : IsModulePath known q)
  (htarget : IsModuleFile known q target) (hdiffer : p ≠ q) (hfile : file.isAbsolute = true)
  (hout : source.isInDir (Resolver.directoryOf file) = false)
  (hout' : target.isInDir (Resolver.directoryOf file) = false) {text text' : List Char}
  {references : List Reference} (hsliced : Sliced text references) {reference : Reference}
  (hmem : reference ∈ references)

include hknown hdisk hp hsource hq htarget hdiffer hfile hout hout' hsliced hmem

/-- The imports of the module that moves, and no others, are spelled anew. -/
theorem spelling_redirection :
    spelling (redirection (.ofExtensions known) disk file source target references) reference =
      if (Resolver.ofExtensions known).resolve? disk file reference.specifier == some ⟨p⟩ then
        (replacementFor (.ofExtensions known) file source target).new
      else reference.specifier := by
  have hold := Resolver.resolve?_replacementFor_old hknown hdisk hp hsource hfile hout target
  have hnew := Resolver.resolve?_replacementFor_new hknown disk hq htarget hfile hout' source
  have hchanges : (replacementFor (.ofExtensions known) file source target).old ≠
      (replacementFor (.ofExtensions known) file source target).new := by
    intro hsame
    rw [← hsame, hold] at hnew
    exact hdiffer (Identity.mk.inj (Option.some.inj hnew))
  have hspeaks : (Resolver.ofExtensions known).speaksOf disk file reference
      (replacementFor (.ofExtensions known) file source target) =
        ((Resolver.ofExtensions known).resolve? disk file reference.specifier == some ⟨p⟩) := by
    rw [Bool.eq_iff_iff, Resolver.speaksOf_iff, hold]
    simp [hchanges]
  rw [redirection, Resolver.spelling_editsFor_sliced hsliced hmem, List.find?_singleton, hspeaks]
  split
  · rfl
  · rfl

include hdisk'

/-- Redirecting an import there and back spells it as it was, if it means the module that moves and
is spelled like that, or means another one. -/
theorem spelling_redirection_back {edits : List TextEdit}
    (hedits : edits = redirection (.ofExtensions known) disk file source target references)
    (hsliced' : Sliced text' (references.map (Reference.after edits)))
    (hspelled : ((Resolver.ofExtensions known).resolve? disk file reference.specifier ==
      some ⟨p⟩) = true →
        reference.specifier = Resolver.withoutIndex ((Resolver.ofExtensions known).withoutExtension
          ((Resolver.ofExtensions known).specifierFor file source)))
    (hother : ((Resolver.ofExtensions known).resolve? disk file reference.specifier ==
      some ⟨p⟩) = false →
        ((Resolver.ofExtensions known).resolve? disk' file reference.specifier ==
          some ⟨q⟩) = false) :
    spelling (redirection (.ofExtensions known) disk' file target source
      (references.map (Reference.after edits))) (reference.after edits) =
        reference.specifier := by
  have hthere : (reference.after edits).specifier =
      if (Resolver.ofExtensions known).resolve? disk file reference.specifier == some ⟨p⟩ then
        (replacementFor (.ofExtensions known) file source target).new
      else reference.specifier := by
    rw [← spelling_redirection hknown hdisk hp hsource hq htarget hdiffer hfile hout hout' hsliced
      hmem, ← hedits, Reference.after]
  rw [spelling_redirection hknown hdisk' hq htarget hp hsource hdiffer.symm hfile hout' hout
    hsliced' (List.mem_map_of_mem hmem), hthere]
  by_cases hmeans : ((Resolver.ofExtensions known).resolve? disk file reference.specifier ==
      some ⟨p⟩) = true
  · have hnew :=
      Resolver.resolve?_replacementFor_new hknown disk' hq htarget hfile hout' source
    rw [if_pos hmeans, hnew, if_pos BEq.rfl, hspelled hmeans, replacementFor]
  · have hother := hother (Bool.eq_false_iff.2 hmeans)
    rw [if_neg hmeans, if_neg (Bool.eq_false_iff.1 hother)]

end

/-- The edits of a redirection apply, wherever the imports stand. -/
theorem applyAll_redirection {text : String} {references ordered : List Reference}
    (hlaid : LaidOut text.toList ordered) (hperm : ordered.Perm references) (known : Extensions)
    (disk : Disk) (file source target : Path) :
    ∃ edits edited,
      edits = redirection (.ofExtensions known) disk file source target references ∧
      TextEdit.applyAll text edits = .ok edited ∧
      Respecified (spelling edits) 0 text.toList ordered edited.toList ∧
      LaidOut edited.toList (ordered.map (Reference.after edits)) ∧
      ∀ spell, (∀ r ∈ ordered, spell (r.after edits) = r.specifier) →
        Respecified spell 0 edited.toList (ordered.map (Reference.after edits)) text.toList := by
  have hsliced := Sliced.of_laidOut hlaid hperm
  obtain ⟨edited, hedited⟩ := TextEdit.applyAll_after hlaid
    (fun e he => Resolver.editsFor_apply hsliced hperm he)
    (Resolver.editsFor_pairwise (.ofExtensions known) disk file references
      [replacementFor (.ofExtensions known) file source target])
  exact ⟨_, edited, rfl, hedited⟩

end Session

/-- **Redirecting imports to a module that moves away, and back when it returns, restores the
text.**  Without aliases and packages, let `disk` be the disk before the module file `source`
becomes `target`, and `disk'` the one after that, and let none of them have a directory named
`index`.  The imports of the module in the file are spelled as a redirection to `source` would spell
them, and no other import means the module of `target` on `disk'`.  Then the edits that redirect the
imports apply, the imports as they are then slice the edited text, and the edits that redirect those
back give the text byte for byte.  The imports may come in any order. -/
theorem redirected_imports_return {known : Extensions} (hknown : known.Proper) {disk disk' : Disk}
    (hdisk : ∀ place, disk.entry? (place ++ [Identity.indexName]) ≠ some .directory)
    (hdisk' : ∀ place, disk'.entry? (place ++ [Identity.indexName]) ≠ some .directory)
    {p q file source target : Path} (hp : IsModulePath known p)
    (hsource : IsModuleFile known p source) (hq : IsModulePath known q)
    (htarget : IsModuleFile known q target)
    (hdiffer : (Resolver.ofExtensions known).identityOf source ≠
      (Resolver.ofExtensions known).identityOf target)
    (hfile : file.isAbsolute = true)
    (hout : source.isInDir (Resolver.directoryOf file) = false)
    (hout' : target.isInDir (Resolver.directoryOf file) = false) {text : String}
    {references : List Reference} (hsliced : Sliced text.toList references)
    (hspelled : ∀ reference ∈ references,
      ((Resolver.ofExtensions known).resolve? disk file reference.specifier ==
        some ((Resolver.ofExtensions known).identityOf source)) = true →
      reference.specifier = Resolver.withoutIndex ((Resolver.ofExtensions known).withoutExtension
        ((Resolver.ofExtensions known).specifierFor file source)))
    (hothers : ∀ reference ∈ references,
      ((Resolver.ofExtensions known).resolve? disk file reference.specifier ==
        some ((Resolver.ofExtensions known).identityOf source)) = false →
      ((Resolver.ofExtensions known).resolve? disk' file reference.specifier ==
        some ((Resolver.ofExtensions known).identityOf target)) = false) :
    ∃ edits edited,
      edits = Session.redirection (.ofExtensions known) disk file source target references ∧
      TextEdit.applyAll text edits = .ok edited ∧
      Sliced edited.toList (references.map (Reference.after edits)) ∧
      TextEdit.applyAll edited (Session.redirection (.ofExtensions known) disk' file target source
        (references.map (Reference.after edits))) = .ok text := by
  have hfrom : (Resolver.ofExtensions known).identityOf source = ⟨p⟩ :=
    hsource.ofPath_eq hknown.dotless hp.toIsBarePath
  have hto : (Resolver.ofExtensions known).identityOf target = ⟨q⟩ :=
    htarget.ofPath_eq hknown.dotless hq.toIsBarePath
  rw [hfrom, hto] at hdiffer
  rw [hfrom] at hspelled hothers
  rw [hto] at hothers
  have hpq : p ≠ q := fun heq => hdiffer (heq ▸ rfl)
  obtain ⟨ordered, hperm, hlaid⟩ := hsliced.exists_laidOut
  obtain ⟨edits, edited, hedits, hedited, -, hlaid', hback⟩ :=
    Session.applyAll_redirection hlaid hperm known disk file source target
  have hperm' := hperm.map (Reference.after edits)
  have hsliced' := Sliced.of_laidOut hlaid' hperm'
  obtain ⟨edits', text', hedits', htext', hrespecified, -, -⟩ :=
    Session.applyAll_redirection hlaid' hperm' known disk' file target source
  -- The second redirection spells each import as it was, so it gives back the text.
  have hspell : ∀ reference ∈ ordered,
      spelling edits' (reference.after edits) = reference.specifier := by
    intro reference hreference
    have hmem := hperm.mem_iff.1 hreference
    rw [hedits']
    exact Session.spelling_redirection_back hknown hdisk hdisk' hp hsource hq htarget hpq hfile hout
      hout' hsliced hmem hedits hsliced' (hspelled reference hmem) (hothers reference hmem)
  have hsame : text' = text :=
    String.toList_inj.1 (hrespecified.unique (hback _ hspell) fun _ _ => rfl)
  rw [hedits', hsame] at htext'
  exact ⟨edits, edited, hedits, hedited, hsliced', htext'⟩

namespace Utilities

/-- The project when the utilities have become a declaration file elsewhere. -/
def movedDisk : Disk where
  entries :=
    [(["src"], .directory), (["src", "util"], .directory), (["lib"], .directory),
      (["lib", "tools.d.ts"], .file (.text "")), (["src", "main.ts"], .file (.text ""))]
  workingDir := []

/-- A text with two imports of the utilities and one from outside. -/
def text : String := "import './util';import 'react';export * from './util';"

/-- The imports of the text, not in their order. -/
def sites : List Reference := [⟨"react", ⟨24, 29⟩⟩, ⟨"./util", ⟨46, 52⟩⟩, ⟨"./util", ⟨8, 14⟩⟩]

theorem sliced_sites : Sliced text.toList sites where
  stands := by
    intro r hr
    simp only [sites, List.mem_cons, List.not_mem_nil, or_false] at hr
    rcases hr with rfl | rfl | rfl
    · exact ⟨"import './util';import '".toList, "';export * from './util';".toList,
        by decide, by decide, by decide⟩
    · exact ⟨"import './util';import 'react';export * from '".toList, "';".toList,
        by decide, by decide, by decide⟩
    · exact ⟨"import '".toList, "';import 'react';export * from './util';".toList,
        by decide, by decide, by decide⟩
  disjoint := by decide

end Utilities

/-- The utilities become a declaration file elsewhere and come back. -/
theorem redirected_imports_return_index :
    ∃ edits edited,
      edits = Session.redirection (.ofExtensions .standard) Utilities.disk ⟨"/src/main.ts"⟩
        ⟨"/src/util/index.ts"⟩ ⟨"/lib/tools.d.ts"⟩ Utilities.sites ∧
      TextEdit.applyAll Utilities.text edits = .ok edited ∧
      Sliced edited.toList (Utilities.sites.map (Reference.after edits)) ∧
      TextEdit.applyAll edited (Session.redirection (.ofExtensions .standard) Utilities.movedDisk
        ⟨"/src/main.ts"⟩ ⟨"/lib/tools.d.ts"⟩ ⟨"/src/util/index.ts"⟩
        (Utilities.sites.map (Reference.after edits))) = .ok Utilities.text := by
  have hp : IsModulePath .standard ⟨"/src/util"⟩ := by decide
  have hsource : IsModuleFile .standard ⟨"/src/util"⟩ ⟨"/src/util/index.ts"⟩ :=
    ⟨".ts", by decide, .inr (by decide)⟩
  have hq : IsModulePath .standard ⟨"/lib/tools"⟩ := by decide
  have htarget : IsModuleFile .standard ⟨"/lib/tools"⟩ ⟨"/lib/tools.d.ts"⟩ :=
    ⟨".d.ts", by decide, .inl (by decide)⟩
  have hdiffer : (Resolver.ofExtensions .standard).identityOf ⟨"/src/util/index.ts"⟩ ≠
      (Resolver.ofExtensions .standard).identityOf ⟨"/lib/tools.d.ts"⟩ := by decide +kernel
  exact redirected_imports_return (by decide) (Utilities.entry_index_ne (by decide))
    (Utilities.entry_index_ne (by decide)) hp hsource hq htarget hdiffer (by decide) (by decide)
    (by decide) Utilities.sliced_sites (by decide +kernel) (by decide +kernel)

end Relocate
