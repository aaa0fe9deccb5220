import Relocate.Proofs.Operations
import Relocate.Proofs.Specifiers

/-! # Modules and their files

A bare path is a path without an extension and without a final `index`; the files of the module are
the path with an ending, or `index` with an ending in the directory of that path.  The identity of
each of them is the bare path, on every disk (`IsModuleFile.ofPath_eq`), and so is that of what the
path means in an import (`IsBarePath.ofTarget_eq`).  An import of `index` in its directory means the
same, as long as no directory of that name comes before (`ModuleStem.ofTarget_eq`).

For identities a backslash is a character like any other.  In a specifier it is not, and a module
path is a bare path without one.
-/

namespace Relocate

/-! ## Ends of texts -/

namespace Text

theorem dropTail?_eq_some_iff {tail text stem : String} :
    dropTail? tail text = some stem ↔ stem ++ tail = text := by
  rw [dropTail?, Option.map_eq_some_iff]
  constructor
  · rintro ⟨front, hfront, rfl⟩
    apply String.toList_inj.1
    rw [String.toList_append, String.toList_ofList]
    exact List.isSuffixOf?_eq_some_iff_append_eq.1 hfront
  · rintro rfl
    refine ⟨stem.toList, ?_, String.ofList_toList⟩
    rw [List.isSuffixOf?_eq_some_iff_append_eq, String.toList_append]

theorem dropTail?_eq_none_iff {tail text : String} :
    dropTail? tail text = none ↔ ¬ tail.toList <:+ text.toList := by
  rw [Option.eq_none_iff_forall_ne_some]
  constructor
  · rintro h ⟨front, hfront⟩
    refine h (String.ofList front) (dropTail?_eq_some_iff.2 (String.toList_inj.1 ?_))
    rw [String.toList_append, String.toList_ofList, hfront]
  · intro h stem hstem
    refine h ⟨stem.toList, ?_⟩
    rw [← dropTail?_eq_some_iff.1 hstem, String.toList_append]

/-- A text is cut in one way before the last occurrence of a character. -/
theorem append_cons_inj {c : Char} {front front' back back' : List Char} (h : c ∉ back)
    (h' : c ∉ back') (heq : front ++ c :: back = front' ++ c :: back') :
    front = front' ∧ back = back' := by
  rcases List.append_eq_append_iff.1 heq with ⟨mid, rfl, hmid⟩ | ⟨mid, rfl, hmid⟩
  · cases mid with
    | nil => simpa using hmid
    | cons first mid =>
      rw [List.cons_append] at hmid
      exact absurd (by simp [(List.cons.inj hmid).2]) h
  · cases mid with
    | nil => simpa [eq_comm] using hmid
    | cons first mid =>
      rw [List.cons_append] at hmid
      exact absurd (by simp [(List.cons.inj hmid).2]) h'

/-- A tail without separators is the tail of the last piece. -/
theorem suffix_of_suffix_append_cons {tail front piece : List Char} (h : '/' ∉ tail)
    (hsuffix : tail <:+ front ++ '/' :: piece) : tail <:+ piece := by
  obtain ⟨lead, hlead⟩ := hsuffix
  rcases List.append_eq_append_iff.1 hlead with ⟨mid, -, htail⟩ | ⟨mid, -, hpiece⟩
  · exact absurd (by simp [htail]) h
  · cases mid with
    | nil =>
      rw [List.nil_append] at hpiece
      exact absurd (hpiece ▸ List.mem_cons_self) h
    | cons first mid =>
      rw [List.cons_append] at hpiece
      exact ⟨mid, (List.cons.inj hpiece).2.symm⟩

end Text

open Text

/-! ## Extensions -/

namespace Extensions

variable {known : Extensions} {stem ending : String}

/-- The extensions are as they should be given: none is empty, and none holds a dot or a
separator. -/
def Proper (known : Extensions) : Prop :=
  ∀ name ∈ known.names, name ≠ "" ∧ '.' ∉ name.toList ∧ '/' ∉ name.toList ∧ '\\' ∉ name.toList

instance (known : Extensions) : Decidable known.Proper := by
  unfold Proper
  infer_instance

/-- No extension is empty, and none holds a dot or a separator. -/
def Dotless (known : Extensions) : Prop :=
  ∀ name ∈ known.names, name ≠ "" ∧ '.' ∉ name.toList ∧ '/' ∉ name.toList

theorem Proper.dotless (h : known.Proper) : known.Dotless := fun name hname =>
  ⟨(h name hname).1, (h name hname).2.1, (h name hname).2.2.1⟩

/-- What the names of module files end in. -/
def endings (known : Extensions) : List String :=
  known.names.map ("." ++ ·) ++ if known.names.contains "ts" then [".d.ts"] else []

/-- **A file without its ending.**  Before `.ts` the stem must not look like that of a
declaration. -/
theorem stem?_append (hknown : known.Dotless) (hending : ending ∈ known.endings)
    (hstem : ending = ".ts" → ¬ ".d".toList <:+ stem.toList) :
    known.stem? (stem ++ ending) = some stem := by
  unfold stem?
  dsimp only
  rcases List.mem_append.1 hending with hending | hending
  · obtain ⟨name, hname, rfl⟩ := List.mem_map.1 hending
    -- what comes behind the last dot is the extension
    have hunique : ∀ other, '.' ∉ other.toList → ∀ front : String,
        front ++ ("." ++ other) = stem ++ ("." ++ name) → front = stem ∧ other = name := by
      intro other hother front heq
      have hchars := congrArg String.toList heq
      simp only [String.toList_append] at hchars
      obtain ⟨hfront, hback⟩ := append_cons_inj hother (hknown name hname).2.1 hchars
      exact ⟨String.toList_inj.1 hfront, String.toList_inj.1 hback⟩
    have hother : (known.names.findSome? fun name' =>
        dropTail? ("." ++ name') (stem ++ ("." ++ name))) = some stem := by
      cases hfind : known.names.findSome? fun name' =>
          dropTail? ("." ++ name') (stem ++ ("." ++ name)) with
      | none =>
        have hnone := List.findSome?_eq_none_iff.1 hfind name hname
        rw [dropTail?_eq_some_iff.2 rfl] at hnone
        simp at hnone
      | some found =>
        obtain ⟨name', hname', hfound⟩ := List.exists_of_findSome?_eq_some hfind
        rw [(hunique name' (hknown name' hname').2.1 found (dropTail?_eq_some_iff.1 hfound)).1]
    split
    · rename_i front hfront
      have hfront' : (front ++ ".d") ++ ("." ++ "ts") = stem ++ ("." ++ name) := by
        rw [← dropTail?_eq_some_iff.1 hfront, String.append_assoc]
        rfl
      obtain ⟨rfl, rfl⟩ := hunique "ts" (by decide) _ hfront'
      refine absurd ⟨front.toList, ?_⟩ (hstem rfl)
      rw [String.toList_append]
    · exact hother
  · split at hending
    · rename_i hts
      rw [List.mem_singleton.1 hending, dropTail?_eq_some_iff.2 rfl]
      simp only [hts, if_true]
    · simp at hending

theorem strip_append (hknown : known.Dotless) (hending : ending ∈ known.endings)
    (hstem : ending = ".ts" → ¬ ".d".toList <:+ stem.toList) :
    known.strip (stem ++ ending) = stem := by
  rw [strip, stem?_append hknown hending hstem, Option.getD_some]

/-- A text whose last piece has no dot carries no extension. -/
theorem strip_append_index (hknown : known.Dotless) (front : List Char) {text : String}
    (htext : text.toList = front ++ '/' :: Identity.indexName.toList) :
    known.strip text = text := by
  have hnone : ∀ tail : String, '/' ∉ tail.toList → '.' ∈ tail.toList →
      dropTail? tail text = none := by
    intro tail hslash hdot
    rw [dropTail?_eq_none_iff, htext]
    intro hsuffix
    exact absurd ((suffix_of_suffix_append_cons hslash hsuffix).mem hdot) (by decide)
  have hother : (known.names.findSome? fun name => dropTail? ("." ++ name) text) = none := by
    rw [List.findSome?_eq_none_iff]
    intro name hname
    refine hnone _ ?_ (by simp)
    rw [String.toList_append, List.mem_append, not_or]
    exact ⟨by decide, (hknown name hname).2.2⟩
  rw [strip, stem?, hnone ".d.ts" (by decide) (by decide), hother]
  rfl

/-- What a file's name ends in has no separator, and is no name for itself. -/
theorem chars_of_mem_endings (hknown : known.Dotless) (h : ending ∈ known.endings) :
    '/' ∉ ending.toList ∧ 2 ≤ ending.toList.length := by
  rcases List.mem_append.1 h with h | h
  · obtain ⟨name, hname, rfl⟩ := List.mem_map.1 h
    obtain ⟨hne, -, hslash⟩ := hknown name hname
    have hlength : name.toList ≠ [] := fun heq => hne (String.toList_inj.1 heq)
    have hpos := List.length_pos_iff.2 hlength
    simp only [String.toList_append, List.mem_append, not_or, List.length_append]
    have hdot : ".".toList.length = 1 := by decide
    exact ⟨⟨by decide, hslash⟩, by omega⟩
  · split at h
    · rw [List.mem_singleton.1 h]
      decide
    · simp at h

theorem no_backslash_of_mem_endings (hknown : known.Proper) (h : ending ∈ known.endings) :
    '\\' ∉ ending.toList := by
  rcases List.mem_append.1 h with h | h
  · obtain ⟨name, hname, rfl⟩ := List.mem_map.1 h
    rw [String.toList_append, List.mem_append, not_or]
    exact ⟨by decide, (hknown name hname).2.2.2⟩
  · split at h
    · rw [List.mem_singleton.1 h]
      decide
    · simp at h

/-- A text that ends in no extension has no stem. -/
theorem stem?_eq_none {text : String}
    (h : ∀ name ∈ known.names, ¬ ("." ++ name).toList <:+ text.toList) :
    known.stem? text = none := by
  have hother : (known.names.findSome? fun name => dropTail? ("." ++ name) text) = none := by
    rw [List.findSome?_eq_none_iff]
    exact fun name hname => dropTail?_eq_none_iff.2 (h name hname)
  rw [stem?, hother]
  split
  · rename_i stem hstem
    split
    · -- what ends like a declaration ends in `ts`
      rename_i hts
      refine absurd ⟨(stem ++ ".d").toList, ?_⟩ (h "ts" (List.contains_iff_mem.1 hts))
      rw [← dropTail?_eq_some_iff.1 hstem, ← String.toList_append, String.append_assoc]
      rfl
    · rfl
  · rfl

/-- A text that ends in no extension is left as it is. -/
theorem strip_eq_self {text : String}
    (h : ∀ name ∈ known.names, ¬ ("." ++ name).toList <:+ text.toList) :
    known.strip text = text := by
  rw [strip, stem?_eq_none h, Option.getD_none]

/-- A text without a stem ends in no extension. -/
theorem not_suffix_of_stem?_eq_none {text : String} (h : known.stem? text = none) :
    ∀ name ∈ known.names, ¬ ("." ++ name).toList <:+ text.toList := by
  intro name hname
  rw [← dropTail?_eq_none_iff]
  rw [stem?] at h
  have hother : (known.names.findSome? fun name => dropTail? ("." ++ name) text) = none := by
    split at h
    · split at h
      · cases h
      · exact h
    · exact h
  exact List.findSome?_eq_none_iff.1 hother name hname

end Extensions

/-! ## Module paths and module files -/

namespace Path

/-- The path of an entry ends in its name, behind a separator. -/
theorem exists_toList_ofPlace_concat (place : Location) : ∃ lead : List Char, ∀ name : String,
    (ofPlace (place ++ [name])).text.toList = lead ++ '/' :: name.toList := by
  by_cases hne : place = []
  · subst hne
    exact ⟨[], fun name => toList_ofPlace_singleton name⟩
  · exact ⟨(ofPlace place).text.toList, fun name => toList_ofPlace_concat hne name⟩

/-- An ending goes to the last name. -/
theorem ofPlace_concat_append (place : Location) (name ending : String) :
    (⟨(ofPlace (place ++ [name])).text ++ ending⟩ : Path) =
      ofPlace (place ++ [name ++ ending]) := by
  obtain ⟨lead, hlead⟩ := exists_toList_ofPlace_concat place
  refine congrArg Path.mk (String.toList_inj.1 ?_)
  change _ = (ofPlace (place ++ [name ++ ending])).text.toList
  rw [String.toList_append, hlead, hlead, String.toList_append, List.append_assoc,
    List.cons_append]

/-- A name goes behind a separator. -/
theorem text_ofPlace_concat {place : Location} (hne : place ≠ []) (name : String) :
    (ofPlace (place ++ [name])).text = (ofPlace place).text ++ ("/" ++ name) := by
  apply String.toList_inj.1
  rw [toList_ofPlace_concat hne, String.toList_append, String.toList_append]
  rfl

end Path

open Relocate.Path Identity

theorem isName_indexName : IsName indexName :=
  ⟨by decide, by decide, by decide, by decide⟩

theorem IsName.append_ending {known : Extensions} (hknown : known.Dotless) {name ending : String}
    (h : IsName name) (hending : ending ∈ known.endings) : IsName (name ++ ending) := by
  obtain ⟨hslash, hlength⟩ := Extensions.chars_of_mem_endings hknown hending
  have hne : name.toList ≠ [] := fun heq => h.ne_empty (String.toList_inj.1 heq)
  have hpos := List.length_pos_iff.2 hne
  have hshort : ∀ text : String, text.toList.length < 3 → name ++ ending ≠ text := by
    rintro text htext rfl
    rw [String.toList_append, List.length_append] at htext
    omega
  refine ⟨hshort "" (by decide), ?_, hshort "." (by decide), hshort ".." (by decide)⟩
  rw [String.toList_append, List.mem_append, not_or]
  exact ⟨h.no_separator, hslash⟩

/-- The path is absolute and in normal form, is not the root, does not end in `index`, carries no
recognised extension and does not end in `.d`. -/
structure IsBarePath (known : Extensions) (p : Path) : Prop where
  absolute : p.isAbsolute = true
  normal : p.normalize = p
  ne_top : p ≠ Path.top
  ne_index : p.fileName? ≠ some indexName
  no_extension : ∀ name ∈ known.names, ¬ ("." ++ name).toList <:+ p.text.toList
  not_declaration : ¬ ".d".toList <:+ p.text.toList

theorem isBarePath_iff {known : Extensions} {p : Path} : IsBarePath known p ↔
    p.isAbsolute = true ∧ p.normalize = p ∧ p ≠ Path.top ∧ p.fileName? ≠ some indexName ∧
      known.stem? p.text = none ∧ dropTail? ".d" p.text = none := by
  constructor
  · exact fun h => ⟨h.absolute, h.normal, h.ne_top, h.ne_index,
      Extensions.stem?_eq_none h.no_extension, dropTail?_eq_none_iff.2 h.not_declaration⟩
  · rintro ⟨habsolute, hnormal, htop, hindex, hstem, hdeclaration⟩
    exact ⟨habsolute, hnormal, htop, hindex, Extensions.not_suffix_of_stem?_eq_none hstem,
      dropTail?_eq_none_iff.1 hdeclaration⟩

instance (known : Extensions) (p : Path) : Decidable (IsBarePath known p) :=
  decidable_of_iff _ isBarePath_iff.symm

/-- The path can be that of a module that is written into imports: it holds no backslash, which
would be turned into a separator. -/
structure IsModulePath (known : Extensions) (p : Path) : Prop extends IsBarePath known p where
  no_backslash : '\\' ∉ p.text.toList

instance (known : Extensions) (p : Path) : Decidable (IsModulePath known p) :=
  decidable_of_iff (IsBarePath known p ∧ '\\' ∉ p.text.toList)
    ⟨fun ⟨h, h'⟩ => ⟨h, h'⟩, fun h => ⟨h.toIsBarePath, h.no_backslash⟩⟩

/-- The path is that of a file of the module: of the module path with an ending, or of `index` with
an ending in the directory of that path. -/
def IsModuleFile (known : Extensions) (p file : Path) : Prop :=
  ∃ ending ∈ known.endings, file = ⟨p.text ++ ending⟩ ∨ file = ⟨p.text ++ "/index" ++ ending⟩

variable {known : Extensions} {p file : Path} {disk : Disk}

namespace IsBarePath

theorem eq_ofPlace (h : IsBarePath known p) : p = ofPlace p.place := by
  rw [← normalize_eq_ofPlace h.absolute, h.normal]

theorem place_ne_nil (h : IsBarePath known p) : p.place ≠ [] := by
  intro hnil
  apply h.ne_top
  rw [h.eq_ofPlace, hnil]
  decide

theorem plain (h : IsBarePath known p) : Plain p.place := plain_place h.absolute

/-- The last name of a bare path. -/
theorem exists_last (h : IsBarePath known p) : ∃ front last, p.place = front ++ [last] ∧
    last ≠ indexName ∧ ¬ ".d".toList <:+ last.toList := by
  obtain ⟨front, last, hplace⟩ := (List.eq_nil_or_concat' p.place).resolve_left h.place_ne_nil
  have hp := h.eq_ofPlace
  have hplain := h.plain
  rw [hplace] at hp hplain
  refine ⟨front, last, hplace, ?_, fun hsuffix => ?_⟩
  · rintro rfl
    exact h.ne_index (hp ▸ fileName?_ofPlace_concat hplain)
  · obtain ⟨lead, hlead⟩ := exists_toList_ofPlace_concat front
    apply h.not_declaration
    rw [hp, hlead]
    exact hsuffix.trans ⟨lead ++ ['/'], by simp⟩

/-- A bare path is its own identity. -/
theorem ofPath_eq (h : IsBarePath known p) : ofPath known p = ⟨p⟩ := by
  rw [ofPath, h.normal, Extensions.strip_eq_self h.no_extension]
  exact if_neg h.ne_index

end IsBarePath

theorem IsModulePath.no_backslash_of_mem (h : IsModulePath known p) {name : String}
    (hname : name ∈ p.place) : '\\' ∉ name.toList :=
  fun hmem => h.no_backslash (mem_text_of_mem_place h.absolute hname hmem)

/-- The stem of a module file: it is the last name of the module path, or `index` in its
directory. -/
structure ModuleStem (p : Path) (front : Location) (last : String) : Prop where
  plain : Plain (front ++ [last])
  not_declaration : ¬ ".d".toList <:+ last.toList
  stem : p.place = front ++ [last] ∧ last ≠ indexName ∨ p.place = front ∧ last = indexName

/-- The path with an ending, and `index` with it in the directory, are stems with that ending. -/
theorem IsBarePath.exists_stem (hp : IsBarePath known p) {ending : String}
    (h : file = ⟨p.text ++ ending⟩ ∨ file = ⟨p.text ++ "/index" ++ ending⟩) :
    ∃ front last, ModuleStem p front last ∧ file = ofPlace (front ++ [last ++ ending]) := by
  rcases h with rfl | rfl
  · obtain ⟨front, last, hplace, hindex, hdeclaration⟩ := hp.exists_last
    refine ⟨front, last, ⟨hplace ▸ hp.plain, hdeclaration, .inl ⟨hplace, hindex⟩⟩, ?_⟩
    rw [← ofPlace_concat_append, ← hplace, ← hp.eq_ofPlace]
  · refine ⟨p.place, indexName, ⟨hp.plain.concat isName_indexName, by decide,
      .inr ⟨rfl, rfl⟩⟩, ?_⟩
    rw [← ofPlace_concat_append, text_ofPlace_concat hp.place_ne_nil, ← hp.eq_ofPlace]
    rfl

/-- A module file is a stem with an ending. -/
theorem IsModuleFile.exists_stem (hp : IsBarePath known p) (h : IsModuleFile known p file) :
    ∃ front last ending, ModuleStem p front last ∧ ending ∈ known.endings ∧
      file = ofPlace (front ++ [last ++ ending]) := by
  obtain ⟨ending, hending, hfile⟩ := h
  obtain ⟨front, last, hstem, hplace⟩ := hp.exists_stem hfile
  exact ⟨front, last, ending, hstem, hending, hplace⟩

namespace ModuleStem

variable {front : Location} {last : String}

theorem not_declaration_text (h : ModuleStem p front last) :
    ¬ ".d".toList <:+ (ofPlace (front ++ [last])).text.toList := by
  obtain ⟨lead, hlead⟩ := exists_toList_ofPlace_concat front
  rw [hlead]
  exact fun hsuffix => h.not_declaration (suffix_of_suffix_append_cons (by decide) hsuffix)

theorem no_backslash_of_mem (hp : IsModulePath known p) (h : ModuleStem p front last)
    {name : String} (hname : name ∈ front ++ [last]) : '\\' ∉ name.toList := by
  rcases h.stem with ⟨hplace, -⟩ | ⟨hplace, hindex⟩
  · exact hp.no_backslash_of_mem (hplace ▸ hname)
  · rcases List.mem_append.1 hname with hname | hname
    · exact hp.no_backslash_of_mem (hplace ▸ hname)
    · rw [List.mem_singleton.1 hname, hindex]
      decide

theorem plain_append (hknown : known.Dotless) (h : ModuleStem p front last) {ending : String}
    (hending : ending ∈ known.endings) : Plain (front ++ [last ++ ending]) :=
  h.plain.left.concat (h.plain.last.append_ending hknown hending)

theorem no_backslash_append (hknown : known.Proper) (hp : IsModulePath known p)
    (h : ModuleStem p front last) {ending : String} (hending : ending ∈ known.endings)
    {name : String} (hname : name ∈ front ++ [last ++ ending]) : '\\' ∉ name.toList := by
  rcases List.mem_append.1 hname with hname | hname
  · exact h.no_backslash_of_mem hp (List.mem_append_left _ hname)
  · rw [List.mem_singleton.1 hname, String.toList_append, List.mem_append, not_or]
    exact ⟨h.no_backslash_of_mem hp (List.mem_append_right _ List.mem_cons_self),
      Extensions.no_backslash_of_mem_endings hknown hending⟩

/-- Without `index`, the stem is the module path. -/
theorem withoutIndex_eq (hp : IsBarePath known p) (h : ModuleStem p front last) :
    (if (ofPlace (front ++ [last])).fileName? = some indexName then
      (⟨(ofPlace (front ++ [last])).parent?.getD (ofPlace (front ++ [last]))⟩ : Identity)
    else ⟨ofPlace (front ++ [last])⟩) = ⟨p⟩ := by
  rw [fileName?_ofPlace_concat h.plain, parent?_ofPlace_concat h.plain, Option.getD_some]
  rcases h.stem with ⟨hplace, hindex⟩ | ⟨hplace, rfl⟩
  · rw [if_neg (by simpa using hindex), ← hplace, ← hp.eq_ofPlace]
  · rw [if_pos rfl, ← hplace, ← hp.eq_ofPlace]

/-- The identity of the stem itself. -/
theorem ofPath_eq (hknown : known.Dotless) (hp : IsBarePath known p)
    (h : ModuleStem p front last) : ofPath known (ofPlace (front ++ [last])) = ⟨p⟩ := by
  rcases h.stem with ⟨hplace, -⟩ | ⟨-, rfl⟩
  · rw [← hplace, ← hp.eq_ofPlace]
    exact hp.ofPath_eq
  · obtain ⟨lead, hlead⟩ := exists_toList_ofPlace_concat front
    rw [ofPath, normalize_ofPlace h.plain, Extensions.strip_append_index hknown lead (hlead _)]
    exact h.withoutIndex_eq hp

/-- The identity of a file with such a stem. -/
theorem ofPath_append (hknown : known.Dotless) (hp : IsBarePath known p)
    (h : ModuleStem p front last) {ending : String} (hending : ending ∈ known.endings) :
    ofPath known (ofPlace (front ++ [last ++ ending])) = ⟨p⟩ := by
  have hstrip : known.strip (ofPlace (front ++ [last ++ ending])).text =
      (ofPlace (front ++ [last])).text := by
    rw [← ofPlace_concat_append]
    exact Extensions.strip_append hknown hending fun _ => h.not_declaration_text
  rw [ofPath, normalize_ofPlace (h.plain_append hknown hending), hstrip]
  exact h.withoutIndex_eq hp

end ModuleStem

/-- **The identity of a module file is the path of its module.** -/
theorem IsModuleFile.ofPath_eq (hknown : known.Dotless) (hp : IsBarePath known p)
    (h : IsModuleFile known p file) : ofPath known file = ⟨p⟩ := by
  obtain ⟨front, last, ending, hstem, hending, rfl⟩ := h.exists_stem hp
  exact hstem.ofPath_append hknown hp hending

/-! ## What an import of a module means -/

theorem dot_append_mem_endings {name : String} (h : name ∈ known.names) :
    "." ++ name ∈ known.endings :=
  List.mem_append_left _ (List.mem_map.2 ⟨name, h, rfl⟩)

namespace IsBarePath

/-- `index` with an ending in the directory of a bare path. -/
theorem join_index (hknown : known.Dotless) (hp : IsBarePath known p) {ending : String}
    (hending : ending ∈ known.endings) :
    p.join ⟨indexName ++ ending⟩ = ⟨p.text ++ "/index" ++ ending⟩ := by
  have hjoin := join_ofPlace hp.plain (isName_indexName.append_ending hknown hending)
  rw [← hp.eq_ofPlace] at hjoin
  rw [hjoin, ← ofPlace_concat_append, text_ofPlace_concat hp.place_ne_nil, ← hp.eq_ofPlace]
  rfl

/-- The identity of the path itself, and of any file that is tried for it. -/
theorem ofPath_candidate (hknown : known.Dotless) (hp : IsBarePath known p) {path : Path}
    (h : path ∈ candidates known p) : ofPath known path = ⟨p⟩ := by
  rcases List.mem_append.1 h with h | h
  · rcases List.mem_cons.1 h with rfl | h
    · exact hp.ofPath_eq
    · obtain ⟨name, hname, rfl⟩ := List.mem_map.1 h
      refine IsModuleFile.ofPath_eq hknown hp ⟨_, dot_append_mem_endings hname, .inl ?_⟩
      rw [String.append_assoc]
  · obtain ⟨name, hname, rfl⟩ := List.mem_map.1 h
    have hending := dot_append_mem_endings hname
    refine IsModuleFile.ofPath_eq hknown hp ⟨_, hending, .inr ?_⟩
    rw [String.append_assoc, hp.join_index hknown hending]

/-- **An import of a bare path means the module**, whatever the disk holds. -/
theorem ofTarget_eq (hknown : known.Dotless) (hp : IsBarePath known p) (disk : Disk) :
    ofTarget disk known p = ⟨p⟩ := by
  rw [ofTarget]
  cases hlocate : locate? disk known p with
  | none => exact hp.ofPath_eq
  | some path => exact hp.ofPath_candidate hknown (List.mem_of_find?_eq_some hlocate)

end IsBarePath

/-- A stem with an extension is one of the files that are tried for the module path. -/
theorem ModuleStem.mem_candidates {front : Location} {last : String} (hknown : known.Dotless)
    (hp : IsBarePath known p) (h : ModuleStem p front last) {name : String}
    (hname : name ∈ known.names) :
    ofPlace (front ++ [last ++ ("." ++ name)]) ∈ candidates known p := by
  rcases h.stem with ⟨hplace, -⟩ | ⟨hplace, rfl⟩
  · refine List.mem_append_left _ (List.mem_cons_of_mem _ (List.mem_map.2 ⟨name, hname, ?_⟩))
    rw [String.append_assoc, hp.eq_ofPlace, hplace, ofPlace_concat_append]
  · refine List.mem_append_right _ (List.mem_map.2 ⟨name, hname, ?_⟩)
    have hindex := isName_indexName.append_ending hknown (dot_append_mem_endings hname)
    have hjoin := join_ofPlace hp.plain hindex
    rw [← hp.eq_ofPlace, hplace] at hjoin
    rw [String.append_assoc, hjoin]

theorem Disk.exists_locate_of_isFile {d : Disk} {path : Path} (h : d.isFile path = true) :
    ∃ place, d.locate path = .ok place := by
  cases hlocate : d.locate path with
  | ok place => exact ⟨place, rfl⟩
  | error cause =>
    have hfind : d.find path = .error cause := by rw [Disk.find, hlocate]; rfl
    simp [Disk.isFile, hfind] at h

/-- **An import of a module file without its ending means the module**, as long as `index` is no
directory or such a file is there. -/
theorem ModuleStem.ofTarget_eq {front : Location} {last : String} (hknown : known.Dotless)
    (hp : IsBarePath known p) (h : ModuleStem p front last)
    (hdisk : disk.entry? (front ++ [indexName]) = some .directory →
      ∃ name ∈ known.names, disk.isFile (ofPlace (front ++ [last ++ ("." ++ name)])) = true) :
    ofTarget disk known (ofPlace (front ++ [last])) = ⟨p⟩ := by
  rcases h.stem with ⟨hplace, -⟩ | ⟨-, rfl⟩
  · rw [← hplace, ← hp.eq_ofPlace]
    exact hp.ofTarget_eq hknown disk
  · have hself := h.ofPath_eq hknown hp
    rw [ofTarget]
    cases hlocate : locate? disk known (ofPlace (front ++ [indexName])) with
    | none => exact hself
    | some path =>
      rw [Option.getD_some]
      -- a file below `index` would make it a directory, and `index` with an ending comes first
      have hmem : path ∈ ofPlace (front ++ [indexName]) ::
          known.names.map fun name => ⟨(ofPlace (front ++ [indexName])).text ++ "." ++ name⟩ := by
        rw [locate?, candidates, List.find?_append, Option.or_eq_some_iff] at hlocate
        rcases hlocate with hlocate | ⟨hnone, hlocate⟩
        · exact List.mem_of_find?_eq_some hlocate
        · obtain ⟨name, hname, rfl⟩ := List.mem_map.1 (List.mem_of_find?_eq_some hlocate)
          have hindex := isName_indexName.append_ending hknown (dot_append_mem_endings hname)
          have hfile := List.find?_some hlocate
          rw [String.append_assoc, join_ofPlace h.plain hindex] at hfile
          obtain ⟨place, hthere⟩ := Disk.exists_locate_of_isFile hfile
          obtain ⟨other, hother, hbeside⟩ :=
            hdisk (Disk.directory_of_locate_ofPlace (h.plain.concat hindex) hthere)
          refine absurd ?_ (List.find?_eq_none.1 hnone _
            (List.mem_cons_of_mem _ (List.mem_map.2 ⟨other, hother, rfl⟩)))
          rwa [String.append_assoc, ofPlace_concat_append]
      rcases List.mem_cons.1 hmem with rfl | hmem
      · exact hself
      · obtain ⟨name, hname, rfl⟩ := List.mem_map.1 hmem
        rw [String.append_assoc, ofPlace_concat_append]
        exact h.ofPath_append hknown hp (dot_append_mem_endings hname)

/-- **The files of a module share one identity.**  Let no extension be empty or hold a dot or a
separator, and let a path be bare.  An import of the path has the path itself as its identity on
every disk, whichever file it is found to mean, and so has every file that can belong to the module:
the path with an extension, `index` with an extension in its directory, and the declarations beside
these where `ts` is an extension. -/
theorem module_files_share_identity {known : Extensions} (hknown : known.Dotless) {p : Path}
    (hp : IsBarePath known p) :
    (∀ disk, Identity.ofTarget disk known p = ⟨p⟩) ∧ Identity.ofPath known p = ⟨p⟩ ∧
      (∀ disk file, Identity.locate? disk known p = some file →
        Identity.ofPath known file = ⟨p⟩) ∧
      (∀ name ∈ known.names, Identity.ofPath known ⟨p.text ++ ("." ++ name)⟩ = ⟨p⟩ ∧
        Identity.ofPath known (p.join ⟨"index" ++ ("." ++ name)⟩) = ⟨p⟩) ∧
      ("ts" ∈ known.names → Identity.ofPath known ⟨p.text ++ ".d.ts"⟩ = ⟨p⟩ ∧
        Identity.ofPath known (p.join ⟨"index" ++ ".d.ts"⟩) = ⟨p⟩) := by
  have hfile : ∀ ending ∈ known.endings, Identity.ofPath known ⟨p.text ++ ending⟩ = ⟨p⟩ ∧
      Identity.ofPath known (p.join ⟨"index" ++ ending⟩) = ⟨p⟩ := by
    intro ending hending
    refine ⟨IsModuleFile.ofPath_eq hknown hp ⟨ending, hending, .inl rfl⟩, ?_⟩
    exact IsModuleFile.ofPath_eq hknown hp ⟨ending, hending, .inr (hp.join_index hknown hending)⟩
  refine ⟨hp.ofTarget_eq hknown, hp.ofPath_eq, fun disk file hlocate => ?_, ?_, ?_⟩
  · exact hp.ofPath_candidate hknown (List.mem_of_find?_eq_some hlocate)
  · exact fun name hname => hfile _ (dot_append_mem_endings hname)
  · intro hts
    refine hfile _ (List.mem_append_right _ ?_)
    rw [if_pos (List.contains_iff_mem.2 hts)]
    exact List.mem_singleton_self _

/-- A module in the `index` of a directory whose name has a dot and a backslash. -/
def Disk.withVersion : Disk where
  entries :=
    [(["src"], .directory), (["src", "v1.0\\x"], .directory),
      (["src", "v1.0\\x", "index.tsx"], .file (.text ""))]
  workingDir := []

theorem module_files_share_identity_of_version :
    Identity.locate? Disk.withVersion .standard ⟨"/src/v1.0\\x"⟩ =
        some ⟨"/src/v1.0\\x/index.tsx"⟩ ∧
      Identity.ofTarget Disk.withVersion .standard ⟨"/src/v1.0\\x"⟩ = ⟨⟨"/src/v1.0\\x"⟩⟩ ∧
      Identity.ofPath .standard ⟨"/src/v1.0\\x/index.tsx"⟩ = ⟨⟨"/src/v1.0\\x"⟩⟩ ∧
      Identity.ofPath .standard ⟨"/src/v1.0\\x.d.ts"⟩ = ⟨⟨"/src/v1.0\\x"⟩⟩ := by
  have hknown : Extensions.Dotless .standard := Extensions.Proper.dotless (by decide)
  have hp : IsBarePath .standard ⟨"/src/v1.0\\x"⟩ := by decide
  have hlocate : Identity.locate? Disk.withVersion .standard ⟨"/src/v1.0\\x"⟩ =
      some ⟨"/src/v1.0\\x/index.tsx"⟩ := by decide +kernel
  obtain ⟨htarget, -, hfound, -, hdeclarations⟩ := module_files_share_identity hknown hp
  exact ⟨hlocate, htarget _, hfound _ _ hlocate, (hdeclarations (by decide)).1⟩

end Relocate
