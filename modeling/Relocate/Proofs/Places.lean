import Relocate.Disk.Basic

/-! # Paths of places

A place is a list of names, a path is a text.  `Path.ofPlace` is the path a place is written with:
absolute, in normal form and without a separator at its end.  On such paths every operation of
`Relocate.Path` is an operation on the list of names, and this module says which: joining a name
appends it, the parent drops the last one, lying in a directory is being continued by it.

A path leads from one place to another (`Path.readFrom`), and normalising keeps the place that it
leads to from the root (`Path.collapse_components`).  So every absolute path is, once normalised,
the path of a place (`Path.normalize_eq_ofPlace`), and what a move is asked for and all it derives
from that are paths of places.
-/

namespace Relocate

open Text

/-- The text can name an entry of a directory: it is not empty, holds no separator, and is neither
`.` nor `..`. -/
structure IsName (name : String) : Prop where
  ne_empty : name ≠ ""
  no_separator : '/' ∉ name.toList
  ne_here : name ≠ "."
  ne_up : name ≠ ".."

instance (name : String) : Decidable (IsName name) :=
  decidable_of_iff (name ≠ "" ∧ '/' ∉ name.toList ∧ name ≠ "." ∧ name ≠ "..")
    ⟨fun ⟨h, h', h'', h'''⟩ => ⟨h, h', h'', h'''⟩, fun ⟨h, h', h'', h'''⟩ => ⟨h, h', h'', h'''⟩⟩

/-- Every step to the place is a name. -/
def Plain (place : Location) : Prop := ∀ name ∈ place, IsName name

instance (place : Location) : Decidable (Plain place) := List.decidableBAll _ place

theorem Plain.nil : Plain [] := by simp [Plain]

theorem Plain.append {place rest : Location} (h : Plain place) (hrest : Plain rest) :
    Plain (place ++ rest) := by
  intro name hname
  rcases List.mem_append.1 hname with hname | hname
  · exact h name hname
  · exact hrest name hname

theorem Plain.concat {place : Location} {name : String} (h : Plain place) (hname : IsName name) :
    Plain (place ++ [name]) :=
  h.append (by simpa [Plain] using hname)

theorem Plain.of_prefix {place rest : Location} (h : Plain rest) (hpre : place <+: rest) :
    Plain place :=
  fun name hname => h name (hpre.subset hname)

theorem Plain.left {place rest : Location} (h : Plain (place ++ rest)) : Plain place :=
  h.of_prefix (List.prefix_append _ _)

theorem Plain.right {place rest : Location} (h : Plain (place ++ rest)) : Plain rest :=
  fun name hname => h name (List.mem_append_right _ hname)

theorem Plain.last {place : Location} {name : String} (h : Plain (place ++ [name])) :
    IsName name :=
  h name (by simp)

/-! ## Pieces between separators -/

namespace Text

theorem splitAt_ne_nil {α : Type} [BEq α] (separator : α) (items : List α) :
    splitAt separator items ≠ [] := by
  cases items with
  | nil => simp [splitAt]
  | cons c rest =>
    unfold splitAt
    split
    · simp
    · split <;> simp

theorem splitAt_of_not_mem {piece : List Char} (h : '/' ∉ piece) : splitAt '/' piece = [piece] := by
  induction piece with
  | nil => rfl
  | cons c rest ih =>
    simp only [List.mem_cons, not_or] at h
    have hc : (c == '/') = false := by simpa using fun hc => h.1 hc.symm
    simp [splitAt, hc, ih h.2]

theorem splitAt_append_cons {piece : List Char} (h : '/' ∉ piece) (rest : List Char) :
    splitAt '/' (piece ++ '/' :: rest) = piece :: splitAt '/' rest := by
  induction piece with
  | nil => simp [splitAt]
  | cons c piece ih =>
    simp only [List.mem_cons, not_or] at h
    have hc : (c == '/') = false := by simpa using fun hc => h.1 hc.symm
    simp [splitAt, hc, ih h.2]

/-- Pieces without separators come back from the text they make up. -/
theorem splitAt_intercalate {pieces : List (List Char)} (hne : pieces ≠ [])
    (h : ∀ piece ∈ pieces, '/' ∉ piece) : splitAt '/' (['/'].intercalate pieces) = pieces := by
  induction pieces with
  | nil => exact absurd rfl hne
  | cons piece pieces ih =>
    cases pieces with
    | nil => simpa using splitAt_of_not_mem (h piece (List.mem_cons_self ..))
    | cons next pieces =>
      have htail := ih (by simp) fun p hp => h p (List.mem_cons_of_mem _ hp)
      have hhead := h piece (List.mem_cons_self ..)
      rw [List.intercalate_cons_cons, List.append_assoc]
      simp only [List.singleton_append]
      rw [splitAt_append_cons hhead, htail]

/-- No piece holds a separator. -/
theorem not_mem_of_mem_splitAt {items piece : List Char} (h : piece ∈ splitAt '/' items) :
    '/' ∉ piece := by
  induction items generalizing piece with
  | nil =>
    have : piece = [] := by simpa [splitAt] using h
    simp [this]
  | cons c rest ih =>
    unfold splitAt at h
    split at h
    · rcases List.mem_cons.1 h with rfl | h
      · simp
      · exact ih h
    · rename_i hc
      split at h
      · rename_i hnil
        exact absurd hnil (splitAt_ne_nil _ _)
      · rename_i first pieces hsplit
        rcases List.mem_cons.1 h with rfl | h
        · have hfirst := ih (hsplit ▸ List.mem_cons_self ..)
          simp only [List.mem_cons, not_or]
          exact ⟨fun heq => hc (by simp [← heq]), hfirst⟩
        · exact ih (hsplit ▸ List.mem_cons_of_mem _ h)

end Text

/-! ## Components -/

namespace Component

/-- A name stands for itself. -/
theorem ofPiece?_toList {name : String} (h : IsName name) :
    ofPiece? name.toList = some (.name name) := by
  have hne : name.toList ≠ [] := fun heq => h.ne_empty (String.toList_inj.1 heq)
  have hhere : name.toList ≠ ['.'] := fun heq => h.ne_here (String.toList_inj.1 heq)
  have hup : name.toList ≠ ['.', '.'] := fun heq => h.ne_up (String.toList_inj.1 heq)
  unfold ofPiece?
  split
  · exact absurd ‹_› hne
  · exact absurd ‹_› hhere
  · exact absurd ‹_› hup
  · rw [String.ofList_toList]

/-- What a piece stands for is a step up or a name. -/
theorem eq_of_ofPiece? {piece : List Char} {part : Component} (hpiece : '/' ∉ piece)
    (h : ofPiece? piece = some part) : part = .up ∨ ∃ name, part = .name name ∧ IsName name := by
  unfold ofPiece? at h
  split at h
  · simp at h
  · simp at h
  · exact .inl (by simpa using h.symm)
  · rename_i hne hhere hup
    refine .inr ⟨String.ofList piece, by simpa using h.symm, ?_, by simpa using hpiece, ?_, ?_⟩
    · exact fun heq => hne (by simpa using congrArg String.toList heq)
    · exact fun heq => hhere (by simpa using congrArg String.toList heq)
    · exact fun heq => hup (by simpa using congrArg String.toList heq)

end Component

namespace Path

/-- The path that a place is written with. -/
def ofPlace (place : Location) : Path := ofComponents (.root :: place.map .name)

/-- The text of a place's path. -/
theorem toList_ofPlace (place : Location) :
    (ofPlace place).text.toList = '/' :: ['/'].intercalate (place.map String.toList) := by
  have hnames : (place.map Component.name).map Component.text = place := by
    simp [Function.comp_def, Component.text]
  simp only [ofPlace, ofComponents, hnames, String.toList_append, String.toList_intercalate]
  rfl

theorem isAbsolute_ofPlace (place : Location) : (ofPlace place).isAbsolute = true := by
  simp [isAbsolute, toList_ofPlace]

/-- The pieces behind the first separator of a place's path. -/
theorem splitAt_place {place : Location} (h : Plain place) (hne : place ≠ []) :
    splitAt '/' (['/'].intercalate (place.map String.toList)) = place.map String.toList := by
  refine splitAt_intercalate (by simpa using hne) ?_
  intro piece hpiece
  obtain ⟨name, hname, rfl⟩ := List.mem_map.1 hpiece
  exact (h name hname).no_separator

theorem filterMap_ofPiece? {place : Location} (h : Plain place) :
    (place.map String.toList).filterMap Component.ofPiece? = place.map .name := by
  induction place with
  | nil => rfl
  | cons name place ih =>
    have hname := h name (List.mem_cons_self ..)
    have hrest := ih fun n hn => h n (List.mem_cons_of_mem _ hn)
    rw [List.map_cons, List.filterMap_cons_some (Component.ofPiece?_toList hname), hrest]
    rfl

@[simp] theorem components_ofPlace {place : Location} (h : Plain place) :
    (ofPlace place).components = .root :: place.map .name := by
  rw [components, toList_ofPlace]
  cases place with
  | nil => rfl
  | cons name place =>
    show Component.root :: _ = _
    rw [splitAt_place h (by simp), filterMap_ofPiece? h]

/-- Places have different paths, even as paths are compared. -/
theorem ofPlace_beq {place other : Location} (h : Plain place) (h' : Plain other) :
    (ofPlace place == ofPlace other) = true ↔ place = other := by
  show ((ofPlace place).components == (ofPlace other).components) = true ↔ _
  rw [components_ofPlace h, components_ofPlace h', beq_iff_eq]
  constructor
  · intro heq
    have hnames : place.map Component.name = other.map Component.name := by simpa using heq
    exact List.map_inj_right (fun _ _ hab => Component.name.inj hab) |>.1 hnames
  · rintro rfl
    rfl

theorem ofPlace_inj {place other : Location} (h : Plain place) (h' : Plain other) :
    ofPlace place = ofPlace other ↔ place = other := by
  refine ⟨fun heq => (ofPlace_beq h h').1 ?_, fun heq => heq ▸ rfl⟩
  rw [heq]
  exact (ofPlace_beq h' h').2 rfl

@[simp] theorem fileName?_ofPlace_concat {place : Location} {name : String}
    (h : Plain (place ++ [name])) : (ofPlace (place ++ [name])).fileName? = some name := by
  simp [fileName?, components_ofPlace h, List.getLast?_cons]

@[simp] theorem startsWith_ofPlace {place dir : Location} (h : Plain place) (hdir : Plain dir) :
    (ofPlace place).startsWith (ofPlace dir) = true ↔ dir <+: place := by
  rw [startsWith, components_ofPlace h, components_ofPlace hdir, List.isPrefixOf_iff_prefix,
    List.cons_prefix_cons]
  constructor
  · rintro ⟨-, rest, hrest⟩
    obtain ⟨first, second, rfl, hfirst, -⟩ := List.map_eq_append_iff.1 hrest.symm
    have : first = dir := List.map_inj_right (fun _ _ hab => Component.name.inj hab) |>.1 hfirst
    exact this ▸ List.prefix_append _ _
  · rintro ⟨rest, rfl⟩
    exact ⟨rfl, by rw [List.map_append]; exact List.prefix_append _ _⟩

/-! ## Normal forms -/

/-- The place that an absolute path names: what is left of its names once every `..` is read. -/
def place (p : Path) : Location :=
  (collapse p.components).filterMap fun
    | .name text => some text
    | _ => none

/-- The place that a path leads to, read from another one. -/
def readFrom (p : Path) (start : Location) : Location := p.components.foldl Disk.stepFrom start

/-- Collapsing is reading from a place: `..` at the start stays there. -/
theorem foldl_collapseStep {start : List Component} (hstart : start = [] ∨ start = [.root])
    {parts : List Component} (h : .root ∉ parts) (place : Location) :
    parts.foldl collapseStep ((place.map Component.name).reverse ++ start) =
      ((parts.foldl Disk.stepFrom place).map Component.name).reverse ++ start := by
  induction parts generalizing place with
  | nil => rfl
  | cons part parts ih =>
    rw [List.mem_cons, not_or] at h
    rw [List.foldl_cons, List.foldl_cons, ← ih h.2]
    congr 1
    cases part with
    | root => exact absurd rfl h.1
    | here => rfl
    | up =>
      rcases List.eq_nil_or_concat place with rfl | ⟨front, last, rfl⟩
      · rcases hstart with rfl | rfl
        · rfl
        · rfl
      · simp [collapseStep, Disk.stepFrom]
    | name text => simp [collapseStep, Disk.stepFrom]

theorem plain_foldl_stepFrom {parts : List Component}
    (h : ∀ name, .name name ∈ parts → IsName name) {place : Location} (hplace : Plain place) :
    Plain (parts.foldl Disk.stepFrom place) := by
  induction parts generalizing place with
  | nil => exact hplace
  | cons part parts ih =>
    refine ih (fun name hname => h name (List.mem_cons_of_mem _ hname)) ?_
    cases part with
    | root => exact Plain.nil
    | here => exact hplace
    | up => exact hplace.of_prefix (List.dropLast_prefix place)
    | name text => exact hplace.concat (h text List.mem_cons_self)

theorem exists_rest {p : Path} (h : p.isAbsolute = true) : ∃ rest, p.text.toList = '/' :: rest := by
  cases htext : p.text.toList with
  | nil => simp [isAbsolute, htext] at h
  | cons c rest =>
    have hc : c = '/' := by simpa [isAbsolute, htext] using h
    exact ⟨rest, by rw [hc]⟩

/-- The components of an absolute path: the root, then names and steps up. -/
theorem components_of_isAbsolute {p : Path} (h : p.isAbsolute = true) :
    ∃ parts, p.components = .root :: parts ∧
      ∀ part ∈ parts, part = .up ∨ ∃ name, part = .name name ∧ IsName name := by
  obtain ⟨rest, htext⟩ := exists_rest h
  refine ⟨(splitAt '/' rest).filterMap Component.ofPiece?, ?_, ?_⟩
  · rw [components, htext]
    rfl
  · intro part hpart
    obtain ⟨piece, hpiece, hof⟩ := List.mem_filterMap.1 hpart
    exact Component.eq_of_ofPiece? (not_mem_of_mem_splitAt hpiece) hof

/-- The components of a path that does not start at the root. -/
theorem eq_of_mem_components {p : Path} (h : p.isAbsolute = false) {part : Component}
    (hpart : part ∈ p.components) :
    part = .here ∨ part = .up ∨ ∃ name, part = .name name ∧ IsName name := by
  have hpieces : ∀ {pieces : List (List Char)}, (∀ piece ∈ pieces, '/' ∉ piece) →
      part ∈ pieces.filterMap Component.ofPiece? →
      part = .here ∨ part = .up ∨ ∃ name, part = .name name ∧ IsName name := by
    intro pieces hpieces hmem
    obtain ⟨piece, hpiece, hof⟩ := List.mem_filterMap.1 hmem
    exact .inr (Component.eq_of_ofPiece? (hpieces piece hpiece) hof)
  have hsplit : ∀ piece ∈ splitAt '/' p.text.toList, '/' ∉ piece :=
    fun piece hpiece => not_mem_of_mem_splitAt hpiece
  rw [components] at hpart
  unfold componentsOf at hpart
  split at hpart
  · rename_i rest htext
    simp [isAbsolute, htext] at h
  · split at hpart
    · rename_i pieces heq
      rcases List.mem_cons.1 hpart with rfl | hpart
      · exact .inl rfl
      · refine hpieces (fun piece hpiece => hsplit piece ?_) hpart
        rw [heq]
        exact List.mem_cons_of_mem _ hpiece
    · exact hpieces hsplit hpart

theorem root_not_mem_components {p : Path} (h : p.isAbsolute = false) : .root ∉ p.components := by
  intro hmem
  rcases eq_of_mem_components h hmem with hhere | hup | ⟨name, hname, -⟩
  · simp at hhere
  · simp at hup
  · simp at hname

theorem isName_of_mem_components {p : Path} {name : String} (h : .name name ∈ p.components) :
    IsName name := by
  by_cases habsolute : p.isAbsolute = true
  · obtain ⟨parts, hparts, hall⟩ := components_of_isAbsolute habsolute
    have hmem : .name name ∈ parts := by simpa [hparts] using h
    rcases hall _ hmem with hup | ⟨text, htext, hname⟩
    · simp at hup
    · exact Component.name.inj htext ▸ hname
  · rcases eq_of_mem_components (Bool.eq_false_iff.2 habsolute) h with
      hhere | hup | ⟨text, htext, hname⟩
    · simp at hhere
    · simp at hup
    · exact Component.name.inj htext ▸ hname

/-- What is kept of a path: the root, if it starts there, and the place it leads to from there. -/
theorem collapse_components (p : Path) :
    collapse p.components =
      (if p.isAbsolute then [.root] else []) ++ (p.readFrom []).map .name := by
  by_cases h : p.isAbsolute = true
  · obtain ⟨parts, hparts, hall⟩ := components_of_isAbsolute h
    have hroot : .root ∉ parts := by
      intro hmem
      rcases hall _ hmem with hup | ⟨name, hname, -⟩
      · simp at hup
      · simp at hname
    have hfold := foldl_collapseStep (.inr rfl) hroot []
    rw [if_pos h, collapse, readFrom, hparts]
    change (parts.foldl collapseStep ((([] : Location).map .name).reverse ++ [.root])).reverse = _
    rw [hfold]
    simp [Disk.stepFrom]
  · have hfold :=
      foldl_collapseStep (.inl rfl) (root_not_mem_components (Bool.eq_false_iff.2 h)) []
    rw [if_neg h, collapse, readFrom]
    change (p.components.foldl collapseStep ((([] : Location).map .name).reverse ++ [])).reverse = _
    rw [hfold]
    simp

theorem place_eq_readFrom (p : Path) : p.place = p.readFrom [] := by
  rw [place, collapse_components, List.filterMap_append, List.filterMap_map]
  by_cases h : p.isAbsolute = true
  · rw [if_pos h]
    exact List.filterMap_some
  · rw [if_neg h]
    exact List.filterMap_some

theorem plain_readFrom (p : Path) {start : Location} (h : Plain start) :
    Plain (p.readFrom start) :=
  plain_foldl_stepFrom (fun _ => isName_of_mem_components) h

theorem place_isPlain (p : Path) : Plain p.place :=
  p.place_eq_readFrom ▸ p.plain_readFrom Plain.nil

theorem collapse_of_isAbsolute {p : Path} (h : p.isAbsolute = true) :
    collapse p.components = .root :: p.place.map .name ∧ Plain p.place := by
  refine ⟨?_, p.place_isPlain⟩
  rw [collapse_components, if_pos h, place_eq_readFrom]
  rfl

/-- The names of an absolute path's place are names. -/
theorem plain_place {p : Path} (h : p.isAbsolute = true) : Plain p.place :=
  (collapse_of_isAbsolute h).2

/-- **Every absolute path is the path of a place, once normalised.** -/
theorem normalize_eq_ofPlace {p : Path} (h : p.isAbsolute = true) :
    p.normalize = ofPlace p.place := by
  rw [normalize, (collapse_of_isAbsolute h).1]
  rfl

/-- Names are kept as they are. -/
theorem foldl_collapseStep_map_name (names : Location) (kept : List Component) :
    (names.map Component.name).foldl collapseStep kept =
      (names.map Component.name).reverse ++ kept := by
  induction names generalizing kept with
  | nil => simp
  | cons name names ih => simp [collapseStep, ih]

@[simp] theorem place_ofPlace {place : Location} (h : Plain place) :
    (ofPlace place).place = place := by
  rw [Path.place, components_ofPlace h, collapse, List.foldl_cons]
  show List.filterMap _ ((place.map Component.name).foldl collapseStep [.root]).reverse = _
  rw [foldl_collapseStep_map_name, List.reverse_append, List.reverse_reverse,
    List.filterMap_append, List.filterMap_map]
  exact List.filterMap_some

@[simp] theorem normalize_ofPlace {place : Location} (h : Plain place) :
    (ofPlace place).normalize = ofPlace place := by
  rw [normalize_eq_ofPlace (isAbsolute_ofPlace place), place_ofPlace h]

@[simp] theorem isInDir_ofPlace {dir place : Location} (hdir : Plain dir) (h : Plain place) :
    (ofPlace dir).isInDir (ofPlace place) = true ↔ dir <+: place := by
  rw [isInDir, normalize_ofPlace hdir, normalize_ofPlace h, startsWith_ofPlace h hdir]

theorem isAbsolute_join {base : Path} (h : base.isAbsolute = true) (tail : Path) :
    (base.join tail).isAbsolute = true := by
  unfold join
  split
  · assumption
  · obtain ⟨rest, htext⟩ := exists_rest h
    split
    · simp_all
    · simp [isAbsolute, htext]
    · simp [isAbsolute, htext]

/-- What is read from an absolute directory is the path of a place. -/
theorem absolutize_eq_ofPlace {base : Path} (h : base.isAbsolute = true) (p : Path) :
    base.absolutize p = ofPlace (base.join p).place ∧ Plain (base.join p).place :=
  ⟨normalize_eq_ofPlace (isAbsolute_join h p), plain_place (isAbsolute_join h p)⟩

/-! ## Steps between places -/

theorem isAbsolute_name {name : String} (h : IsName name) : isAbsolute ⟨name⟩ = false := by
  cases htext : name.toList with
  | nil => simp [isAbsolute, htext]
  | cons c rest =>
    have hc : c ≠ '/' := by
      rintro rfl
      exact h.no_separator (htext ▸ List.mem_cons_self ..)
    simp [isAbsolute, htext, hc]

theorem intercalate_concat {pieces : List (List Char)} (hne : pieces ≠ []) (last : List Char) :
    ['/'].intercalate (pieces ++ [last]) = ['/'].intercalate pieces ++ '/' :: last := by
  induction pieces with
  | nil => exact absurd rfl hne
  | cons piece pieces ih =>
    cases pieces with
    | nil => simp
    | cons next pieces =>
      have htail := ih (by simp)
      rw [List.cons_append] at htail
      rw [List.cons_append, List.cons_append, List.intercalate_cons_cons,
        List.intercalate_cons_cons, htail]
      simp

/-- The path of an entry of the root directory. -/
theorem toList_ofPlace_singleton (name : String) :
    (ofPlace [name]).text.toList = '/' :: name.toList := by
  simp [toList_ofPlace]

/-- The path of an entry of another directory. -/
theorem toList_ofPlace_concat {place : Location} (hne : place ≠ []) (name : String) :
    (ofPlace (place ++ [name])).text.toList =
      (ofPlace place).text.toList ++ '/' :: name.toList := by
  rw [toList_ofPlace, toList_ofPlace, List.map_append, List.map_singleton,
    intercalate_concat (by simpa using hne)]
  rfl

/-- The last character of a place's path is that of its last name. -/
theorem getLast?_ofPlace_concat (place : Location) {name : String} (h : IsName name) :
    ∃ c, c ≠ '/' ∧ (ofPlace (place ++ [name])).text.toList.getLast? = some c := by
  obtain ⟨front, c, hname⟩ : ∃ front c, name.toList = front ++ [c] := by
    rcases List.eq_nil_or_concat name.toList with hnil | ⟨front, c, hconcat⟩
    · exact absurd (String.toList_inj.1 hnil) h.ne_empty
    · exact ⟨front, c, by rw [hconcat, List.concat_eq_append]⟩
  have hc : c ≠ '/' := by
    rintro rfl
    exact h.no_separator (hname ▸ by simp)
  refine ⟨c, hc, ?_⟩
  cases place with
  | nil =>
    rw [List.nil_append, toList_ofPlace_singleton, hname, ← List.cons_append,
      List.getLast?_concat]
  | cons first place =>
    rw [toList_ofPlace_concat (by simp), hname, ← List.cons_append, ← List.append_assoc,
      List.getLast?_concat]

/-- Joining a name leads to the entry of that name. -/
@[simp] theorem join_ofPlace {place : Location} {name : String} (h : Plain place)
    (hname : IsName name) : (ofPlace place).join ⟨name⟩ = ofPlace (place ++ [name]) := by
  have htext : ((ofPlace place).join ⟨name⟩).text = (ofPlace (place ++ [name])).text := by
    apply String.toList_inj.1
    rcases List.eq_nil_or_concat place with rfl | ⟨front, last, rfl⟩
    · rw [List.nil_append, toList_ofPlace_singleton]
      simp [join, isAbsolute_name hname, toList_ofPlace]
    · rw [List.concat_eq_append] at h ⊢
      obtain ⟨c, hc, hlast⟩ := getLast?_ofPlace_concat front h.last
      rw [toList_ofPlace_concat (by simp)]
      simp [join, isAbsolute_name hname, hlast]
  cases hjoin : (ofPlace place).join ⟨name⟩ with
  | mk text =>
    rw [hjoin] at htext
    exact congrArg Path.mk htext

theorem isIdle_toList {name : String} (h : IsName name) : isIdle name.toList = false := by
  simp [isIdle, Component.ofPiece?_toList h]

/-- Pieces that are names all count. -/
theorem withoutIdleEnd_place {place : Location} (h : Plain place) :
    withoutIdleEnd (place.map String.toList) = place.map String.toList := by
  rcases List.eq_nil_or_concat place with rfl | ⟨front, last, rfl⟩
  · rfl
  · rw [List.concat_eq_append] at h ⊢
    simp [withoutIdleEnd, isIdle_toList h.last]

/-- The directory that holds an entry. -/
@[simp] theorem parent?_ofPlace_concat {place : Location} {name : String}
    (h : Plain (place ++ [name])) : (ofPlace (place ++ [name])).parent? = some (ofPlace place) := by
  have hpieces : leadAndPieces (ofPlace (place ++ [name])).text.toList =
      (['/'], (place ++ [name]).map String.toList) := by
    rw [toList_ofPlace]
    show (['/'], splitAt '/' _) = _
    rw [splitAt_place h (by simp)]
  have hkept : withoutIdleEnd ((place ++ [name]).map String.toList).dropLast =
      place.map String.toList := by
    rw [List.map_append, List.map_singleton, List.dropLast_concat, withoutIdleEnd_place h.left]
  have hparent : ofPieces ['/'] (place.map String.toList) = ofPlace place := by
    have htext : (ofPieces ['/'] (place.map String.toList)).text = (ofPlace place).text := by
      apply String.toList_inj.1
      rw [toList_ofPlace]
      simp [ofPieces]
    cases hof : ofPieces ['/'] (place.map String.toList) with
    | mk text =>
      rw [hof] at htext
      exact congrArg Path.mk htext
  unfold parent?
  rw [hpieces]
  simp only [withoutIdleEnd_place h]
  cases hcase : (place ++ [name]).map String.toList with
  | nil => simp at hcase
  | cons first pieces =>
    simp only
    rw [← hcase, hkept, hparent]

end Path

end Relocate
