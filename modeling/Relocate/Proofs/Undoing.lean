import Relocate.Proofs.Splicing

/-! # Taking edits back

What edits do to a text can be read from either side.  `TextEdit.Spliced` lays a text and its edited
form side by side: they have the same characters between the edits, and at each edit the one has
what is taken away and the other what is put in its place.  The relation holds exactly of texts and
the results of applying edits to them (`TextEdit.spliced_of_applyAll`, `TextEdit.Spliced.applyAll`).

Read from the other side it is the same relation again, for the edits that put back what was taken
away (`TextEdit.Spliced.undo`).  Nothing is said there about empty spans, so it does not matter that
deletions become insertions, several of which may stand at one place.
-/

namespace Relocate

open Text

theorem Text.slice?_middle (front middle back : List Char) :
    slice? (front ++ (middle ++ back)) (byteLength front) (byteLength front + byteLength middle) =
      some middle := by
  rw [slice?, if_pos (Nat.le_add_right _ _), cut?_front, Option.bind_some, Nat.add_sub_cancel_left]
  dsimp only
  rw [cut?_front, Option.map_some]

namespace TextEdit

/-! ## A text beside its edited form -/

/-- **The text from `position` on, and what edits make of it.**  Up to the first edit the two have
the same characters; there the first has what the edit takes away and the second has its new text;
and so on behind it. -/
inductive Spliced :
    (position : Nat) → (text : List Char) → List TextEdit → (edited : List Char) → Prop
  | rest (position : Nat) (text : List Char) : Spliced position text [] text
  | edit {position : Nat} {kept gone text edited : List Char} {e : TextEdit}
      {edits : List TextEdit} :
      position + byteLength kept = e.span.start →
      e.span.start + byteLength gone = e.span.stop →
      Spliced e.span.stop text edits edited →
      Spliced position (kept ++ (gone ++ text)) (e :: edits)
        (kept ++ (e.newText.toList ++ edited))

namespace Spliced

variable {position : Nat} {text edited : List Char} {edits : List TextEdit}

/-- The edits follow each other. -/
theorem apart (h : Spliced position text edits edited) :
    (∀ e ∈ edits, position ≤ e.span.start ∧ e.span.start ≤ e.span.stop) ∧
      edits.Pairwise fun a b => a.span.stop ≤ b.span.start := by
  induction h with
  | rest => exact ⟨by simp, .nil⟩
  | @edit position kept gone text edited e edits hkept hgone _ ih =>
    obtain ⟨hbehind, hapart⟩ := ih
    refine ⟨List.forall_mem_cons.2 ⟨by omega, fun e' he' => ?_⟩,
      List.pairwise_cons.2 ⟨fun e' he' => (hbehind e' he').1, hapart⟩⟩
    have he' := hbehind e' he'
    omega

theorem sorted_eq (h : Spliced position text edits edited) : sorted edits = edits := by
  refine List.mergeSort_of_pairwise (h.apart.2.imp_of_mem fun {a b} ha _ hab => ?_)
  have hle := (h.apart.1 a ha).2
  exact decide_eq_true (by omega)

/-- Such edits are made one after the other. -/
theorem replaceAll_halfway {size : Nat} (h : Spliced position text edits edited)
    (hsize : position + byteLength text ≤ size) (done : List Char) :
    ((Draft.halfway done position text).replaceAll size edits).map Draft.chars =
      .ok (done ++ edited) := by
  induction h generalizing done with
  | rest => rfl
  | @edit position kept gone text edited e edits hkept hgone _ ih =>
    have hfront : cut? (kept ++ (gone ++ text)) (e.span.start - position) =
        some (kept, gone ++ text) := by
      rw [← hkept, Nat.add_sub_cancel_left, cut?_front]
    have hspan : cut? (gone ++ text) e.span.length = some (gone, text) := by
      rw [Span.length, ← hgone, Nat.add_sub_cancel_left, cut?_front]
    rw [Draft.replaceAll, Draft.replace_halfway hsize (by omega) (by omega) hfront hspan]
    rw [byteLength_append, byteLength_append] at hsize
    have hrest := ih (by omega) (done ++ (kept ++ e.newText.toList))
    rw [List.append_assoc, List.append_assoc] at hrest
    exact hrest

/-- **A text beside its edited form.**  Edits that lead from one text to another are accepted and
give the other. -/
theorem applyAll {text edited : String} (h : Spliced 0 text.toList edits edited.toList) :
    applyAll text edits = .ok edited := by
  have hclash : clash? (sorted edits) = none := by
    rw [h.sorted_eq, clash?_eq_none_iff]
    exact .of_pairwise h.apart.2
  have hsize : 0 + byteLength text.toList ≤ text.utf8ByteSize :=
    Nat.le_of_eq ((Nat.zero_add _).trans (byteLength_toList text))
  rw [applyAll_of_clash?_eq_none hclash, h.sorted_eq, h.replaceAll_halfway hsize, List.nil_append]
  exact congrArg Except.ok String.ofList_toList

end Spliced

/-! ## Accepted edits -/

/-- An edit that is made does not start behind its end. -/
theorem Draft.le_of_replace {size : Nat} {draft draft' : Draft} {e : TextEdit}
    (h : draft.replace size e = .ok draft') : e.span.start ≤ e.span.stop := by
  have hrebase : ∀ offset place, draft.rebase size offset = .ok place →
      (place : Int) = offset + draft.drift := by
    intro offset place hplace
    simp only [rebase] at hplace
    split at hplace
    · cases hplace
    · rw [← Except.ok.inj hplace]
      omega
  rw [replace] at h
  cases hstart : draft.rebase size e.span.start with
  | error problem =>
    rw [hstart] at h
    cases h
  | ok start =>
    cases hstop : draft.rebase size e.span.stop with
    | error problem =>
      rw [hstart, hstop] at h
      cases h
    | ok stop =>
      have hstart' := hrebase _ _ hstart
      have hstop' := hrebase _ _ hstop
      simp only [hstart, hstop, Except.bind] at h
      split at h
      · split at h
        · cases h
        · omega
      · cases h

/-- Edits in a row that are made lead from the untouched rest of a text to what is made of it.  The
original is `front ++ rest`, and what has become of `front` is `done`. -/
theorem Draft.spliced_of_replaceAll {size : Nat} {edits : List TextEdit} (hrow : Successive edits)
    (front : List Char) {rest done : List Char} {draft : Draft}
    (hsize : byteLength (front ++ rest) ≤ size)
    (hbehind : ∀ e ∈ edits.head?, byteLength front ≤ e.span.start)
    (h : (halfway done (byteLength front) rest).replaceAll size edits = .ok draft) :
    ∃ edited, Spliced (byteLength front) rest edits edited ∧ draft.chars = done ++ edited := by
  induction edits generalizing front rest done with
  | nil => exact ⟨rest, .rest _ _, by rw [← Except.ok.inj h]; rfl⟩
  | cons e edits ih =>
    rw [replaceAll] at h
    cases hmade : (halfway done (byteLength front) rest).replace size e with
    | error problem =>
      rw [hmade] at h
      cases h
    | ok next =>
      have horder := le_of_replace hmade
      rcases replace_cases done hsize (hbehind e rfl) horder with
        ⟨-, kept, gone, after, rfl, hstart, hstop, hnext⟩ | ⟨-, hrefused⟩
      · rw [hnext] at h
        have hbehind' : ∀ e' ∈ edits.head?,
            byteLength (front ++ (kept ++ gone)) ≤ e'.span.start := by
          intro e' he'
          cases edits with
          | nil => cases he'
          | cons first edits =>
            obtain rfl := Option.some.inj he'
            exact hstop ▸ hrow.1
        have hrow' : Successive edits := by
          cases edits with
          | nil => trivial
          | cons first edits => exact hrow.2
        have hsize' : byteLength (front ++ (kept ++ gone) ++ after) ≤ size := by
          rw [List.append_assoc, List.append_assoc]
          exact hsize
        obtain ⟨edited, hedited, hchars⟩ := ih hrow' _ hsize' hbehind' h
        rw [hstop] at hedited
        refine ⟨_, .edit hstart ?_ hedited, ?_⟩
        · rw [byteLength_append, byteLength_append] at hstop
          omega
        · rw [hchars, List.append_assoc, List.append_assoc]
      · rw [hrefused] at hmade
        cases hmade

/-- Edits in the order of their starts that are accepted lead from the text to the result. -/
theorem spliced_of_applyAll {text edited : String} {edits : List TextEdit}
    (hsorted : edits.Pairwise fun a b => a.span.start ≤ b.span.start)
    (h : applyAll text edits = .ok edited) : Spliced 0 text.toList edits edited.toList := by
  have hsame : sorted edits = edits :=
    List.mergeSort_of_pairwise (hsorted.imp fun hab => decide_eq_true hab)
  cases hclash : clash? (sorted edits) with
  | some pair =>
    simp only [TextEdit.applyAll, hclash] at h
    cases h
  | none =>
    rw [applyAll_of_clash?_eq_none hclash, hsame] at h
    rw [hsame] at hclash
    cases hmade : (Draft.halfway [] 0 text.toList).replaceAll text.utf8ByteSize edits with
    | error problem =>
      rw [hmade] at h
      cases h
    | ok draft =>
      rw [hmade] at h
      obtain ⟨chars, hchars, hdraft⟩ := Draft.spliced_of_replaceAll
        ((clash?_eq_none_iff edits).1 hclash) [] (Nat.le_of_eq (byteLength_toList text))
        (fun e _ => Nat.zero_le _) hmade
      have hedited : String.ofList draft.chars = edited := Except.ok.inj h
      rwa [← hedited, String.toList_ofList, hdraft]

/-! ## The edits that take edits back -/

/-- The edit that takes back an edit of a text: it stands where the new text has come to stand,
`drift` bytes behind the start of the edit, and puts back what was there before. -/
def takeBack (text : List Char) (drift : Int) (e : TextEdit) : TextEdit where
  span :=
    { start := (e.span.start + drift).toNat
      stop := (e.span.start + drift).toNat + e.newText.utf8ByteSize }
  newText := String.ofList ((slice? text e.span.start e.span.stop).getD [])

/-- The edits that take back edits of a text, in front of which others have made the text longer by
`drift`. -/
def undo (text : List Char) : (drift : Int) → List TextEdit → List TextEdit
  | _, [] => []
  | drift, e :: edits => takeBack text drift e :: undo text (drift + e.growth) edits

theorem length_undo (text : List Char) (drift : Int) (edits : List TextEdit) :
    (undo text drift edits).length = edits.length := by
  induction edits generalizing drift with
  | nil => rfl
  | cons e edits ih => rw [undo, List.length_cons, List.length_cons, ih]

/-- What `back` has to be to take back an edit `e` that made `edited` of `text` together with
others, those in front of it having made the text longer by `drift`. -/
structure TakesBack (text edited : List Char) (drift : Int) (e back : TextEdit) : Prop where
  start : (back.span.start : Int) = e.span.start + drift
  stop : back.span.stop = back.span.start + e.newText.utf8ByteSize
  /-- It puts back what the edit took away. -/
  restores : slice? text e.span.start e.span.stop = some back.newText.toList
  /-- It takes away what the edit put there. -/
  removes : slice? edited back.span.start back.span.stop = some e.newText.toList

section

variable {front front' kept gone text : List Char} {drift : Int} {e : TextEdit}

theorem slice?_span (hkept : byteLength front + byteLength kept = e.span.start)
    (hgone : e.span.start + byteLength gone = e.span.stop) :
    slice? (front ++ (kept ++ (gone ++ text))) e.span.start e.span.stop = some gone := by
  have hmiddle := slice?_middle (front ++ kept) gone text
  rwa [byteLength_append, hkept, hgone, List.append_assoc] at hmiddle

/-- Up to an edit, the text is `front ++ kept` and its edited form `front' ++ kept`. -/
theorem takesBack_takeBack (text edited : List Char)
    (hkept : byteLength front + byteLength kept = e.span.start)
    (hgone : e.span.start + byteLength gone = e.span.stop)
    (hdrift : (byteLength front' : Int) = byteLength front + drift) :
    TakesBack (front ++ (kept ++ (gone ++ text)))
      (front' ++ (kept ++ (e.newText.toList ++ edited))) drift e
      (takeBack (front ++ (kept ++ (gone ++ text))) drift e) := by
  have hstart : (e.span.start + drift).toNat = byteLength (front' ++ kept) := by
    rw [byteLength_append]
    omega
  refine ⟨?_, rfl, ?_, ?_⟩
  · change ((e.span.start + drift).toNat : Int) = e.span.start + drift
    omega
  · rw [takeBack, slice?_span hkept hgone, Option.getD_some, String.toList_ofList]
  · rw [takeBack, hstart, ← byteLength_toList, ← List.append_assoc]
    exact slice?_middle _ _ _

end

/-- **The relation is read from the other side.**  The induction is on the edits; `front` is the
text up to `position` and `front'` what has become of it. -/
theorem Spliced.undo {position : Nat} {text edited : List Char} {edits : List TextEdit}
    (h : Spliced position text edits edited) (front front' : List Char) (drift : Int)
    (hfront : byteLength front = position)
    (hdrift : (byteLength front' : Int) = position + drift) :
    Spliced (byteLength front') edited (undo (front ++ text) drift edits) text ∧
      ∀ i e back, edits[i]? = some e → (undo (front ++ text) drift edits)[i]? = some back →
        TakesBack (front ++ text) (front' ++ edited) (drift + totalGrowth (edits.take i)) e
          back := by
  induction h generalizing front front' drift with
  | rest position text => exact ⟨.rest _ _, by simp⟩
  | @edit position kept gone text edited e edits hkept hgone _ ih =>
    rw [← hfront] at hkept hdrift
    have hback := takesBack_takeBack text edited hkept hgone hdrift
    have htext : front ++ (kept ++ (gone ++ text)) = front ++ (kept ++ gone) ++ text := by
      simp only [List.append_assoc]
    have hedited : front' ++ (kept ++ (e.newText.toList ++ edited)) =
        front' ++ (kept ++ e.newText.toList) ++ edited := by
      simp only [List.append_assoc]
    have hpassed : byteLength (front ++ (kept ++ gone)) = e.span.stop := by
      rw [byteLength_append, byteLength_append]
      omega
    have hpassed' : byteLength (front' ++ (kept ++ e.newText.toList)) =
        (takeBack (front ++ (kept ++ (gone ++ text))) drift e).span.stop := by
      have hstart := hback.start
      rw [hback.stop, byteLength_append, byteLength_append, byteLength_toList]
      omega
    have hdrift' : (byteLength (front' ++ (kept ++ e.newText.toList)) : Int) =
        e.span.stop + (drift + e.growth) := by
      rw [byteLength_append, byteLength_append, byteLength_toList, growth, Span.length]
      omega
    obtain ⟨hrest, hothers⟩ := ih _ _ _ hpassed hdrift'
    rw [← htext] at hrest hothers
    rw [← hedited] at hothers
    rw [TextEdit.undo]
    constructor
    · have hgone' :
          (takeBack (front ++ (kept ++ (gone ++ text))) drift e).newText.toList = gone :=
        Option.some.inj (hback.restores.symm.trans (slice?_span hkept hgone))
      rw [hpassed'] at hrest
      have hstart := hback.start
      have hstop := hback.stop
      have hsize := byteLength_toList e.newText
      have hflipped := @Spliced.edit (byteLength front') kept e.newText.toList edited text _ _
        (by omega) (by omega) hrest
      rwa [hgone'] at hflipped
    · intro i e' back he' hb
      cases i with
      | zero =>
        obtain rfl := Option.some.inj he'
        obtain rfl := Option.some.inj hb
        rw [List.take_zero, totalGrowth, Int.add_zero]
        exact hback
      | succ i =>
        rw [List.getElem?_cons_succ] at he' hb
        rw [List.take_succ_cons, totalGrowth, ← Int.add_assoc]
        exact hothers i e' back he' hb

end TextEdit

/-- The edits that take back edits of a text. -/
def TextEdit.inverse (text : String) (edits : List TextEdit) : List TextEdit :=
  undo text.toList 0 edits

/-- **Edits can be undone.**  Let edits in the order of their starts be accepted.  The inverse edits
then stand where the new texts have come to stand, each being shifted by the growth of the edits in
front of it, and put back what was taken away; they are accepted and give back the text. -/
theorem edits_can_be_undone {text edited : String} {edits : List TextEdit}
    (hsorted : edits.Pairwise fun a b => a.span.start ≤ b.span.start)
    (hedited : TextEdit.applyAll text edits = .ok edited) :
    TextEdit.applyAll edited (TextEdit.inverse text edits) = .ok text ∧
      (TextEdit.inverse text edits).length = edits.length ∧
      ∀ i e back, edits[i]? = some e → (TextEdit.inverse text edits)[i]? = some back →
        TextEdit.TakesBack text.toList edited.toList (TextEdit.totalGrowth (edits.take i)) e
          back := by
  have hspliced := TextEdit.spliced_of_applyAll hsorted hedited
  obtain ⟨hback, heach⟩ := hspliced.undo [] [] 0 rfl rfl
  refine ⟨TextEdit.Spliced.applyAll hback, TextEdit.length_undo _ _ _, ?_⟩
  intro i e back he hb
  have htakes := heach i e back he hb
  rwa [Int.zero_add] at htakes

/-- Two deletions, the second of a character of two bytes, and an insertion behind them. -/
def TextEdit.adjoining : List TextEdit := [⟨⟨0, 1⟩, ""⟩, ⟨⟨1, 3⟩, ""⟩, ⟨⟨3, 3⟩, "éé"⟩]

/-- All the inverse edits start at one place. -/
theorem edits_can_be_undone_at_one_place :
    (TextEdit.adjoining.Pairwise fun a b => a.span.start ≤ b.span.start) ∧
      TextEdit.applyAll "aéb" TextEdit.adjoining = .ok "ééb" ∧
      TextEdit.inverse "aéb" TextEdit.adjoining =
        [⟨⟨0, 0⟩, "a"⟩, ⟨⟨0, 0⟩, "é"⟩, ⟨⟨0, 4⟩, ""⟩] ∧
      TextEdit.applyAll "ééb" [⟨⟨0, 0⟩, "a"⟩, ⟨⟨0, 0⟩, "é"⟩, ⟨⟨0, 4⟩, ""⟩] = .ok "aéb" := by
  have hsorted : TextEdit.adjoining.Pairwise fun a b => a.span.start ≤ b.span.start := by
    simp [TextEdit.adjoining]
  have hedited : TextEdit.applyAll "aéb" TextEdit.adjoining = .ok "ééb" := by
    have hsame : TextEdit.sorted TextEdit.adjoining = TextEdit.adjoining :=
      List.mergeSort_of_pairwise (hsorted.imp fun hab => decide_eq_true hab)
    simp only [TextEdit.applyAll, hsame]
    rfl
  have hinverse : TextEdit.inverse "aéb" TextEdit.adjoining =
      [⟨⟨0, 0⟩, "a"⟩, ⟨⟨0, 0⟩, "é"⟩, ⟨⟨0, 4⟩, ""⟩] := by decide +kernel
  have hback := (edits_can_be_undone hsorted hedited).1
  rw [hinverse] at hback
  exact ⟨hsorted, hedited, hinverse, hback⟩

end Relocate
