import Mathlib.Data.List.Basic
import Mathlib.Data.List.Induction
import Relocate.Project.Resolver
import Relocate.Proofs.Places

/-! # Relative specifiers

A specifier that starts with a dot is read from the directory of the file it stands in.  The
specifiers that are written are of one form, `dotted up names`: they climb `up` directories, or
start with `.` if there is nothing to climb, and go down by `names`.

* `Resolver.specifierFor_eq_dotted`: what is written for a target is of this form, and says how the
  directory of the file and the target part.
* `Resolver.resolvePath?_dotted`: what such a specifier means, and so
  `Resolver.resolvePath?_specifierFor`: reading undoes writing.
-/

namespace Relocate

/-! ## Characters of pieces -/

namespace Text

theorem splitAt_append (front back : List Char) :
    splitAt '/' (front ++ '/' :: back) = splitAt '/' front ++ splitAt '/' back := by
  induction front with
  | nil => simp [splitAt]
  | cons c front ih =>
    simp only [List.cons_append, splitAt, ih]
    split
    · rfl
    · cases hfront : splitAt '/' front with
      | nil => exact absurd hfront (splitAt_ne_nil _ _)
      | cons piece pieces => rfl

/-- The characters of a piece are characters of the text. -/
theorem mem_of_mem_piece {items piece : List Char} (h : piece ∈ splitAt '/' items) {c : Char}
    (hc : c ∈ piece) : c ∈ items := by
  induction items generalizing piece with
  | nil =>
    obtain rfl : piece = [] := by simpa [splitAt] using h
    simp at hc
  | cons first rest ih =>
    unfold splitAt at h
    split at h
    · rcases List.mem_cons.1 h with rfl | h
      · simp at hc
      · exact List.mem_cons_of_mem _ (ih h hc)
    · split at h
      · rename_i hnil
        exact absurd hnil (splitAt_ne_nil _ _)
      · rename_i piece' pieces hsplit
        rcases List.mem_cons.1 h with rfl | h
        · rcases List.mem_cons.1 hc with rfl | hc
          · exact List.mem_cons_self
          · exact List.mem_cons_of_mem _ (ih (hsplit ▸ List.mem_cons_self) hc)
        · exact List.mem_cons_of_mem _ (ih (hsplit ▸ List.mem_cons_of_mem _ h) hc)

/-- The characters of pieces put together are separators and those of the pieces. -/
theorem mem_intercalate {pieces : List (List Char)} {c : Char}
    (h : c ∈ ['/'].intercalate pieces) : c = '/' ∨ ∃ piece ∈ pieces, c ∈ piece := by
  induction pieces with
  | nil => simp at h
  | cons piece pieces ih =>
    cases pieces with
    | nil => exact .inr ⟨piece, List.mem_cons_self, by simpa using h⟩
    | cons next pieces =>
      rw [List.intercalate_cons_cons, List.append_assoc, List.mem_append] at h
      rcases h with h | h
      · exact .inr ⟨piece, List.mem_cons_self, h⟩
      · rcases List.mem_cons.1 h with rfl | h
        · exact .inl rfl
        · exact (ih h).imp_right fun ⟨q, hq, hc⟩ => ⟨q, List.mem_cons_of_mem _ hq, hc⟩

end Text

open Text

namespace Path

/-! ## Reading steps from a place -/

/-- The steps that the pieces of a text stand for. -/
def stepsIn (text : List Char) : List Component :=
  (splitAt '/' text).filterMap Component.ofPiece?

theorem stepsIn_append (front back : List Char) :
    stepsIn (front ++ '/' :: back) = stepsIn front ++ stepsIn back := by
  rw [stepsIn, splitAt_append, List.filterMap_append]
  rfl

theorem eq_of_mem_stepsIn {text : List Char} {part : Component} (h : part ∈ stepsIn text) :
    part = .up ∨ ∃ name, part = .name name ∧ IsName name := by
  obtain ⟨piece, hpiece, hof⟩ := List.mem_filterMap.1 h
  exact Component.eq_of_ofPiece? (not_mem_of_mem_splitAt hpiece) hof

/-- The components of a relative text: a leading `.` counts, besides the steps. -/
theorem componentsOf_relative {chars : List Char} (h : chars.head? ≠ some '/') :
    componentsOf chars =
      (if (splitAt '/' chars).head? = some ['.'] then [.here] else []) ++ stepsIn chars := by
  unfold componentsOf
  split
  · exact absurd rfl h
  · split
    · rename_i pieces hpieces
      rw [stepsIn, hpieces]
      rfl
    · rename_i hother
      rw [if_neg, List.nil_append, stepsIn]
      intro hhead
      obtain ⟨pieces, hpieces⟩ := List.head?_eq_some_iff.1 hhead
      exact hother pieces hpieces

/-- A leading separator makes the first piece empty. -/
theorem head?_ne_separator {chars piece : List Char} {pieces : List (List Char)}
    (hsplit : splitAt '/' chars = piece :: pieces) (hne : piece ≠ []) :
    chars.head? ≠ some '/' := by
  intro hhead
  obtain ⟨rest, rfl⟩ := List.head?_eq_some_iff.1 hhead
  have hempty : splitAt '/' ('/' :: rest) = [] :: splitAt '/' rest := by simp [splitAt]
  exact hne (List.cons.inj (hempty.symm.trans hsplit)).1.symm

/-- A text whose first piece counts has no components but its steps. -/
theorem componentsOf_of_split {chars piece : List Char} {pieces : List (List Char)}
    (hsplit : splitAt '/' chars = piece :: pieces) (hcounts : isIdle piece = false) :
    componentsOf chars = (piece :: pieces).filterMap Component.ofPiece? := by
  have hslash : chars.head? ≠ some '/' := by
    refine head?_ne_separator hsplit ?_
    rintro rfl
    exact absurd hcounts (by decide)
  have hdot : piece ≠ ['.'] := by
    rintro rfl
    exact absurd hcounts (by decide)
  rw [componentsOf_relative hslash, stepsIn, hsplit, List.head?_cons,
    if_neg fun hhead => hdot (Option.some.inj hhead), List.nil_append]

theorem componentsOf_append {front : List Char} (hne : front ≠ []) (back : List Char) :
    componentsOf (front ++ '/' :: back) = componentsOf front ++ stepsIn back := by
  obtain ⟨c, rest, rfl⟩ := List.exists_cons_of_ne_nil hne
  by_cases hc : c = '/'
  · subst hc
    exact congrArg (Component.root :: ·) (stepsIn_append rest back)
  · have hfirst : (splitAt '/' (c :: rest) ++ splitAt '/' back).head? =
        (splitAt '/' (c :: rest)).head? :=
      List.head?_append_of_ne_nil _ (splitAt_ne_nil _ _)
    rw [componentsOf_relative (by simpa using hc), componentsOf_relative (by simpa using hc),
      splitAt_append, hfirst, stepsIn_append, List.append_assoc]

/-- What is joined to a path continues its components. -/
theorem components_join {base tail : Path} (hbase : base.text ≠ "")
    (htail : tail.isAbsolute = false) :
    (base.join tail).components = base.components ++ stepsIn tail.text.toList := by
  have hne : base.text.toList ≠ [] := by simpa using hbase
  obtain ⟨front, last, htext⟩ := (List.eq_nil_or_concat' base.text.toList).resolve_left hne
  have hlast : base.text.toList.getLast? = some last := by rw [htext, List.getLast?_concat]
  rw [components, components]
  by_cases hsep : last = '/'
  · subst hsep
    have hjoin : (base.join tail).text.toList = front ++ '/' :: tail.text.toList := by
      simp only [join, htail, hlast]
      simp [htext]
    rw [hjoin, htext]
    by_cases hfront : front = []
    · subst hfront
      rfl
    · have hidle : stepsIn [] = [] := rfl
      rw [componentsOf_append hfront, componentsOf_append hfront, hidle, List.append_nil]
  · have hjoin : (base.join tail).text.toList = base.text.toList ++ '/' :: tail.text.toList := by
      simp only [join, htail, hlast]
      simp
    rw [hjoin, componentsOf_append hne]

theorem stepsIn_name {name : String} (h : IsName name) : stepsIn name.toList = [.name name] := by
  rw [stepsIn, splitAt_of_not_mem h.no_separator, List.filterMap_cons, Component.ofPiece?_toList h]
  rfl

theorem join_of_isAbsolute {tail : Path} (h : tail.isAbsolute = true) (dir : Path) :
    dir.join tail = tail := by
  rw [join, if_pos h]

theorem join_of_empty {base : Path} (h : base.text = "") (tail : Path) : base.join tail = tail := by
  rw [join]
  split
  · rfl
  · simp [h]

/-- A leading `.` leads nowhere. -/
theorem readFrom_eq_foldl_stepsIn {p : Path} (h : p.isAbsolute = false) (start : Location) :
    p.readFrom start = (stepsIn p.text.toList).foldl Disk.stepFrom start := by
  have hslash : p.text.toList.head? ≠ some '/' := by simpa [isAbsolute] using h
  rw [readFrom, components, componentsOf_relative hslash, List.foldl_append]
  split
  · rfl
  · rfl

/-- It does not matter where an absolute path is read from. -/
theorem readFrom_of_isAbsolute {p : Path} (h : p.isAbsolute = true) (start : Location) :
    p.readFrom start = p.readFrom [] := by
  obtain ⟨parts, hparts, -⟩ := components_of_isAbsolute h
  rw [readFrom, readFrom, hparts]
  rfl

/-- **What is joined to a path is read from where the path leads.** -/
theorem readFrom_join (base tail : Path) (start : Location) :
    (base.join tail).readFrom start = tail.readFrom (base.readFrom start) := by
  by_cases htail : tail.isAbsolute = true
  · rw [join_of_isAbsolute htail, readFrom_of_isAbsolute htail start,
      readFrom_of_isAbsolute htail (base.readFrom start)]
  · by_cases hbase : base.text = ""
    · have hstay : base.readFrom start = start := by
        rw [readFrom, components, hbase]
        rfl
      rw [join_of_empty hbase, hstay]
    · rw [Bool.not_eq_true] at htail
      rw [readFrom_eq_foldl_stepsIn htail, readFrom, readFrom, components_join hbase htail,
        List.foldl_append]

/-- What is joined to a directory is read from its place. -/
theorem place_join (dir : Path) {tail : Path} (htail : tail.isAbsolute = false) :
    (dir.join tail).place = (stepsIn tail.text.toList).foldl Disk.stepFrom dir.place := by
  rw [place_eq_readFrom, readFrom_join, readFrom_eq_foldl_stepsIn htail, place_eq_readFrom]

/-- What ends the whole ends the second part, unless that part is empty. -/
theorem eq_nil_or_concat_of_append_eq {front place names : Location} {name : String}
    (h : front ++ [name] = place ++ names) :
    names = [] ∨ ∃ rest, names = rest ++ [name] ∧ front = place ++ rest := by
  obtain rfl | ⟨rest, last, rfl⟩ := List.eq_nil_or_concat' names
  · exact .inl rfl
  · rw [← List.append_assoc] at h
    obtain ⟨rfl, hlast⟩ := List.append_inj' h rfl
    obtain rfl : name = last := by simpa using hlast
    exact .inr ⟨rest, rfl, rfl⟩

theorem foldl_stepFrom_names (place names : Location) :
    (names.map Component.name).foldl Disk.stepFrom place = place ++ names := by
  induction names generalizing place with
  | nil => simp
  | cons name names ih => simp [Disk.stepFrom, ih]

theorem foldl_stepFrom_up (place above : Location) :
    (List.replicate above.length Component.up).foldl Disk.stepFrom (place ++ above) = place := by
  induction above using List.reverseRecOn with
  | nil => simp
  | append_singleton above name ih =>
    rw [List.length_append, List.length_singleton, List.replicate_succ, List.foldl_cons,
      Disk.stepFrom, ← List.append_assoc, List.dropLast_concat, ih]

/-! ## Characters of places -/

theorem mem_of_mem_foldl_stepFrom {parts : List Component} {place : Location} {name : String}
    (h : name ∈ parts.foldl Disk.stepFrom place) : name ∈ place ∨ .name name ∈ parts := by
  induction parts generalizing place with
  | nil => exact .inl h
  | cons part parts ih =>
    rcases ih h with hmem | hmem
    · cases part with
      | root => simp [Disk.stepFrom] at hmem
      | here => exact .inl hmem
      | up => exact .inl ((List.dropLast_sublist place).mem hmem)
      | name text =>
        rcases List.mem_append.1 hmem with hmem | hmem
        · exact .inl hmem
        · rw [List.mem_singleton.1 hmem]
          exact .inr List.mem_cons_self
    · exact .inr (List.mem_cons_of_mem _ hmem)

/-- The characters of a name of a path's place are characters of the path. -/
theorem mem_text_of_mem_place {p : Path} (h : p.isAbsolute = true) {name : String}
    (hname : name ∈ p.place) {c : Char} (hc : c ∈ name.toList) : c ∈ p.text.toList := by
  obtain ⟨rest, htext⟩ := exists_rest h
  have hparts : p.components = .root :: stepsIn rest := by
    rw [components, htext]
    rfl
  rw [place_eq_readFrom, readFrom, hparts] at hname
  have hstep : .name name ∈ stepsIn rest := by
    simpa using (mem_of_mem_foldl_stepFrom hname).resolve_left (by simp)
  obtain ⟨piece, hpiece, hof⟩ := List.mem_filterMap.1 hstep
  have hpiece' : piece = name.toList := by
    unfold Component.ofPiece? at hof
    split at hof
    · simp at hof
    · simp at hof
    · simp at hof
    · rw [← Component.name.inj (Option.some.inj hof), String.toList_ofList]
  rw [htext]
  exact List.mem_cons_of_mem _ (mem_of_mem_piece hpiece (hpiece' ▸ hc))

theorem mem_text_join {dir tail : Path} {c : Char} (h : c ∈ (dir.join tail).text.toList) :
    c = '/' ∨ c ∈ dir.text.toList ∨ c ∈ tail.text.toList := by
  unfold join at h
  split at h
  · exact .inr (.inr h)
  · split at h
    · exact .inr (.inr h)
    · rw [String.toList_append, List.mem_append] at h
      exact .inr h
    · rw [String.toList_append, String.toList_append, List.mem_append, List.mem_append] at h
      rcases h with (h | h) | h
      · exact .inr (.inl h)
      · exact .inl (List.mem_singleton.1 h)
      · exact .inr (.inr h)

/-! ## The form of relative specifiers -/

/-- The pieces that climb so many directories; a single dot if there is none to climb. -/
def climbing (up : Nat) : List String := if up = 0 then ["."] else List.replicate up ".."

/-- The specifier that climbs `up` directories and goes down by `names`. -/
def dotted (up : Nat) (names : Location) : String := "/".intercalate (climbing up ++ names)

theorem toList_dotted (up : Nat) (names : Location) :
    (dotted up names).toList = ['/'].intercalate ((climbing up ++ names).map String.toList) := by
  rw [dotted, String.toList_intercalate]
  rfl

theorem climbing_ne_nil (up : Nat) : climbing up ≠ [] := by
  unfold climbing
  split
  · simp
  · simpa

theorem eq_of_mem_climbing {up : Nat} {piece : String} (h : piece ∈ climbing up) :
    piece = "." ∨ piece = ".." := by
  unfold climbing at h
  split at h
  · exact .inl (List.mem_singleton.1 h)
  · exact .inr (List.eq_of_mem_replicate h)

/-- The pieces of such a specifier. -/
theorem splitAt_dotted (up : Nat) {names : Location} (h : Plain names) :
    splitAt '/' (dotted up names).toList = (climbing up ++ names).map String.toList := by
  rw [toList_dotted]
  refine splitAt_intercalate (by simp [climbing_ne_nil]) ?_
  intro piece hpiece
  obtain ⟨name, hname, rfl⟩ := List.mem_map.1 hpiece
  rcases List.mem_append.1 hname with hname | hname
  · rcases eq_of_mem_climbing hname with rfl | rfl
    · decide
    · decide
  · exact (h name hname).no_separator

theorem filterMap_climbing (up : Nat) :
    ((climbing up).map String.toList).filterMap Component.ofPiece? = List.replicate up .up := by
  unfold climbing
  split
  · rename_i hup
    subst hup
    rfl
  · have hpiece : Component.ofPiece? "..".toList = some .up := rfl
    rw [List.map_replicate, List.filterMap_replicate_of_some hpiece]

theorem stepsIn_dotted (up : Nat) {names : Location} (h : Plain names) :
    stepsIn (dotted up names).toList = List.replicate up .up ++ names.map .name := by
  rw [stepsIn, splitAt_dotted up h, List.map_append, List.filterMap_append, filterMap_climbing,
    filterMap_ofPiece? h]

/-- Such a specifier starts with a dot. -/
theorem exists_toList_dotted (up : Nat) (names : Location) :
    ∃ rest, (dotted up names).toList = '.' :: rest := by
  have hclimb : ∃ first pieces, climbing up = first :: pieces ∧ first.toList.head? = some '.' := by
    unfold climbing
    split
    · exact ⟨".", [], rfl, by decide⟩
    · rename_i hup
      obtain ⟨n, rfl⟩ := Nat.exists_eq_succ_of_ne_zero hup
      exact ⟨"..", List.replicate n "..", List.replicate_succ, by decide⟩
  obtain ⟨first, pieces, hclimbing, hfirst⟩ := hclimb
  obtain ⟨rest, hrest⟩ := List.head?_eq_some_iff.1 hfirst
  rw [toList_dotted, hclimbing, List.cons_append, List.map_cons, hrest]
  cases (pieces ++ names).map String.toList with
  | nil => exact ⟨rest, by simp⟩
  | cons next others =>
    exact ⟨_, by rw [List.intercalate_cons_cons, List.cons_append, List.cons_append]⟩

theorem isAbsolute_dotted (up : Nat) (names : Location) : isAbsolute ⟨dotted up names⟩ = false := by
  obtain ⟨rest, htext⟩ := exists_toList_dotted up names
  simp [isAbsolute, htext]

/-- **What a relative specifier leads to**: it leaves `above` and goes down by `names`. -/
theorem place_join_dotted {dir : Path} {place above names : Location}
    (hdir : dir.place = place ++ above) (hnames : Plain names) :
    (dir.join ⟨dotted above.length names⟩).place = place ++ names := by
  rw [place_join dir (isAbsolute_dotted _ _), stepsIn_dotted _ hnames, hdir, List.foldl_append,
    foldl_stepFrom_up, foldl_stepFrom_names]

/-! ## Writing relative specifiers -/

theorem climb_names (names : Location) :
    climb (names.map Component.name) = List.replicate names.length .up := by
  rw [climb, List.map_const', List.length_map]

/-- The steps between two places leave what they have in common. -/
theorem stepsBetween_names (source target : Location) :
    ∃ place above names, source = place ++ above ∧ target = place ++ names ∧
      stepsBetween (source.map .name) (target.map .name) =
        some (List.replicate above.length .up ++ names.map .name) := by
  induction source generalizing target with
  | nil =>
    refine ⟨[], [], target, rfl, rfl, ?_⟩
    cases target with
    | nil => rfl
    | cons name target => rfl
  | cons first source ih =>
    cases target with
    | nil =>
      refine ⟨[], first :: source, [], rfl, rfl, ?_⟩
      rw [List.map_nil, List.append_nil, ← climb_names]
      rfl
    | cons name target =>
      by_cases heq : first = name
      · subst heq
        obtain ⟨place, above, names, rfl, rfl, hsteps⟩ := ih target
        refine ⟨first :: place, above, names, rfl, rfl, ?_⟩
        rw [← hsteps, List.map_cons, List.map_cons, stepsBetween, if_pos rfl]
      · refine ⟨[], first :: source, name :: target, rfl, rfl, ?_⟩
        rw [← climb_names, List.map_cons, List.map_cons, stepsBetween, if_neg (by simpa using heq)]
        rfl

/-- The path that leads from a directory to a place. -/
theorem relative_eq {dir target : Path} (hdir : dir.isAbsolute = true)
    (htarget : target.isAbsolute = true) :
    ∃ place above names, dir.place = place ++ above ∧ target.place = place ++ names ∧
      dir.relative target = ofComponents (List.replicate above.length .up ++ names.map .name) := by
  obtain ⟨place, above, names, hsource, hplace, hsteps⟩ :=
    stepsBetween_names dir.place target.place
  refine ⟨place, above, names, hsource, hplace, ?_⟩
  have hsteps' : stepsBetween (ofPlace dir.place).components (ofPlace target.place).components =
      some (List.replicate above.length .up ++ names.map .name) := by
    rw [components_ofPlace (plain_place hdir), components_ofPlace (plain_place htarget),
      stepsBetween, if_pos rfl, hsteps]
  rw [relative, normalize_eq_ofPlace hdir, normalize_eq_ofPlace htarget]
  simp [isAbsolute_ofPlace, hsteps']

/-- The text of steps up and down. -/
theorem toList_ofComponents_steps (up : Nat) (names : Location) :
    (ofComponents (List.replicate up .up ++ names.map .name)).text.toList =
      ['/'].intercalate ((List.replicate up ".." ++ names).map String.toList) := by
  have htext : (ofComponents (List.replicate up .up ++ names.map .name)).text =
      "/".intercalate (List.replicate up ".." ++ names) := by
    have hparts : (List.replicate up Component.up ++ names.map Component.name).map Component.text =
        List.replicate up ".." ++ names := by
      simp [Function.comp_def, Component.text]
    rw [← hparts]
    cases up with
    | succ up => rfl
    | zero =>
      cases names with
      | nil => rfl
      | cons name names => rfl
  rw [htext, String.toList_intercalate]
  rfl

theorem slashed_eq_self {p : Path} (h : '\\' ∉ p.text.toList) : p.slashed = p.text := by
  have hsame : p.text.toList.map (fun c => if c == '\\' then '/' else c) = p.text.toList := by
    refine (List.map_congr_left fun c hc => ?_).trans (List.map_id _)
    have hne : c ≠ '\\' := fun heq => h (heq ▸ hc)
    simp [hne]
  rw [slashed, hsame, String.ofList_toList]

end Path

namespace Resolver

open Relocate.Path

/-- A path that goes down by names does not start with dots that stand for a step. -/
theorem not_startsWith_of_name {name : String} {names : Location} (h : Plain (name :: names))
    {text : String} (htext : text.toList = ['/'].intercalate ((name :: names).map String.toList)) :
    text ≠ "" ∧ text ≠ ".." ∧ Text.startsWith "./" text = false ∧
      Text.startsWith "../" text = false := by
  have hsplit : splitAt '/' text.toList = name.toList :: names.map String.toList := by
    rw [htext, splitAt_place h (by simp), List.map_cons]
  have hname := h name List.mem_cons_self
  -- the first piece tells the name
  have hfirst : ∀ piece rest, splitAt '/' text.toList ≠ String.toList piece :: rest ∨
      name = piece := by
    intro piece rest
    by_cases heq : name = piece
    · exact .inr heq
    · refine .inl fun hpiece => heq ?_
      rw [hsplit] at hpiece
      exact String.toList_inj.1 (List.cons.inj hpiece).1
  have hlead : ∀ piece : String, '/' ∉ piece.toList → name ≠ piece →
      Text.startsWith (piece ++ "/") text = false := by
    intro piece hpiece hne
    rw [Text.startsWith, Bool.eq_false_iff, ne_eq, List.isPrefixOf_iff_prefix]
    rintro ⟨rest, hrest⟩
    refine (hfirst piece (splitAt '/' rest)).elim (fun hnot => hnot ?_) hne
    rw [← hrest, String.toList_append, List.append_assoc]
    exact splitAt_append_cons hpiece rest
  refine ⟨?_, ?_, hlead "." (by decide) hname.ne_here, hlead ".." (by decide) hname.ne_up⟩
  · rintro rfl
    exact (hfirst "" []).elim (fun hnot => hnot rfl) hname.ne_empty
  · rintro rfl
    exact (hfirst ".." []).elim (fun hnot => hnot rfl) hname.ne_up

theorem relativeSpecifier_steps {up : Nat} {names : Location} (h : Plain names) {text : String}
    (htext : text.toList =
      ['/'].intercalate ((List.replicate up ".." ++ names).map String.toList)) :
    relativeSpecifier text = dotted up names := by
  cases up with
  | zero =>
    rw [List.replicate_zero, List.nil_append] at htext
    cases names with
    | nil =>
      obtain rfl : text = "" := String.toList_inj.1 htext
      decide
    | cons name names =>
      obtain ⟨hempty, hup, hhere, hup'⟩ := not_startsWith_of_name h htext
      have hspecifier : relativeSpecifier text = "./" ++ text := by
        simp [relativeSpecifier, hempty, hup, hhere, hup']
      rw [hspecifier]
      apply String.toList_inj.1
      rw [String.toList_append, htext, toList_dotted]
      rfl
  | succ up =>
    have hdotted : text = dotted (up + 1) names := by
      apply String.toList_inj.1
      rw [htext, toList_dotted]
      rfl
    have hspecifier : relativeSpecifier text = text := by
      rw [List.replicate_succ, List.cons_append, List.map_cons] at htext
      cases hpieces : (List.replicate up ".." ++ names).map String.toList with
      | nil =>
        rw [hpieces] at htext
        obtain rfl : text = ".." := String.toList_inj.1 htext
        decide
      | cons next pieces =>
        rw [hpieces, List.intercalate_cons_cons] at htext
        have hlead : Text.startsWith "../" text = true := by
          rw [Text.startsWith, List.isPrefixOf_iff_prefix, htext]
          exact List.prefix_append _ _
        have hempty : text ≠ "" := by
          rintro rfl
          simp at htext
        simp [relativeSpecifier, hempty, hlead]
    rw [hspecifier, hdotted]

/-! ## Reading undoes writing -/

/-- The directory of a file is made of pieces of the file's path. -/
theorem toList_directoryOf {file : Path} {rest : List Char} (h : file.text.toList = '/' :: rest) :
    ∃ pieces, (∀ piece ∈ pieces, piece ∈ splitAt '/' rest) ∧
      (directoryOf file).text.toList = '/' :: ['/'].intercalate pieces := by
  have hkept : ∀ pieces : List (List Char), ∀ piece ∈ withoutIdleEnd pieces, piece ∈ pieces := by
    intro pieces piece hpiece
    rw [withoutIdleEnd, List.mem_reverse] at hpiece
    exact List.mem_reverse.1 ((List.dropWhile_sublist _).mem hpiece)
  have hlead : leadAndPieces file.text.toList = (['/'], splitAt '/' rest) := by rw [h]; rfl
  unfold directoryOf parent?
  rw [hlead]
  dsimp only
  split
  · rename_i hdot
    exact absurd hdot (by decide)
  · exact ⟨[], by simp, rfl⟩
  · refine ⟨withoutIdleEnd (withoutIdleEnd (splitAt '/' rest)).dropLast, fun piece hpiece => ?_,
      by simp [ofPieces]⟩
    exact hkept _ _ ((List.dropLast_sublist _).mem (hkept _ _ hpiece))

theorem isAbsolute_directoryOf {file : Path} (h : file.isAbsolute = true) :
    (directoryOf file).isAbsolute = true := by
  obtain ⟨rest, htext⟩ := exists_rest h
  obtain ⟨pieces, -, hdir⟩ := toList_directoryOf htext
  simp [isAbsolute, hdir]

theorem mem_text_directoryOf {file : Path} (h : file.isAbsolute = true) {c : Char}
    (hc : c ∈ (directoryOf file).text.toList) : c = '/' ∨ c ∈ file.text.toList := by
  obtain ⟨rest, htext⟩ := exists_rest h
  obtain ⟨pieces, hpieces, hdir⟩ := toList_directoryOf htext
  rw [hdir] at hc
  rcases List.mem_cons.1 hc with hsep | hc
  · exact .inl hsep
  · refine (mem_intercalate hc).imp_right ?_
    rintro ⟨piece, hpiece, hmem⟩
    rw [htext]
    exact List.mem_cons_of_mem _ (mem_of_mem_piece (hpieces piece hpiece) hmem)

@[simp] theorem nearestTable?_ofExtensions (known : Extensions) (file : Path) :
    (ofExtensions known).nearestTable? file = none := by
  simp [nearestTable?, ofExtensions, Ordered.get?]

/-- Without aliases and packages, a specifier that starts with a dot is read from the directory of
the file, and no other specifier is read at all. -/
theorem resolvePath?_ofExtensions (known : Extensions) (disk : Disk) (file : Path)
    (specifier : String) :
    (ofExtensions known).resolvePath? disk file specifier =
      if Text.startsWith "." specifier then some ((directoryOf file).join ⟨specifier⟩).normalize
      else none := by
  have halias : (ofExtensions known).aliasPath? disk file specifier = none := by
    simp [aliasPath?]
  have hpackages : (ofExtensions known).packages.resolve? specifier = none := rfl
  rw [resolvePath?, halias, hpackages]
  rfl

/-- What a specifier means is the path of a place, in the characters of the file and of the
specifier. -/
theorem exists_place_of_resolvePath? {known : Extensions} {disk : Disk} {file path : Path}
    {specifier : String} (hfile : file.isAbsolute = true)
    (h : (ofExtensions known).resolvePath? disk file specifier = some path) :
    ∃ place, Plain place ∧ path = ofPlace place ∧ ∀ name ∈ place, ∀ c ∈ name.toList,
      c = '/' ∨ c ∈ file.text.toList ∨ c ∈ specifier.toList := by
  have habsolute := isAbsolute_join (isAbsolute_directoryOf hfile) ⟨specifier⟩
  rw [resolvePath?_ofExtensions] at h
  split at h
  · refine ⟨_, plain_place habsolute, ?_, ?_⟩
    · rw [← normalize_eq_ofPlace habsolute]
      exact (Option.some.inj h).symm
    · intro name hname c hc
      rcases mem_text_join (mem_text_of_mem_place habsolute hname hc) with hsep | hc | hc
      · exact .inl hsep
      · exact (mem_text_directoryOf hfile hc).imp_right .inl
      · exact .inr (.inr hc)
  · simp at h

/-- It has no backslashes if the file and the specifier have none. -/
theorem eq_ofPlace_of_resolvePath? {known : Extensions} {disk : Disk} {file path : Path}
    {specifier : String} (hfile : file.isAbsolute = true) (hslash : '\\' ∉ file.text.toList)
    (hslash' : '\\' ∉ specifier.toList)
    (h : (ofExtensions known).resolvePath? disk file specifier = some path) :
    ∃ place, Plain place ∧ path = ofPlace place ∧ ∀ name ∈ place, '\\' ∉ name.toList := by
  obtain ⟨place, hplain, hpath, hchars⟩ := exists_place_of_resolvePath? hfile h
  refine ⟨place, hplain, hpath, fun name hname hmem => ?_⟩
  rcases hchars name hname _ hmem with hsep | hmem | hmem
  · exact absurd hsep (by decide)
  · exact hslash hmem
  · exact hslash' hmem

/-- **The relative specifier of a target** says how the directory of the file and the target
part. -/
theorem relativeSpecifier_relative {file target : Path} (hfile : file.isAbsolute = true)
    (htarget : target.isAbsolute = true)
    (hslashes : ∀ name ∈ target.place, '\\' ∉ name.toList) :
    ∃ place above names, (directoryOf file).place = place ++ above ∧
      target.place = place ++ names ∧
      relativeSpecifier ((directoryOf file).relative target.normalize).slashed =
        dotted above.length names := by
  have hplain := plain_place htarget
  obtain ⟨place, above, names, hdir, hplace, hrelative⟩ :=
    relative_eq (isAbsolute_directoryOf hfile) (isAbsolute_ofPlace target.place)
  rw [place_ofPlace hplain] at hplace
  refine ⟨place, above, names, hdir, hplace, ?_⟩
  rw [hplace] at hplain hslashes
  have hchars := toList_ofComponents_steps above.length names
  have hslash : '\\' ∉
      (ofComponents (List.replicate above.length .up ++ names.map .name)).text.toList := by
    rw [hchars]
    intro hmem
    rcases mem_intercalate hmem with hsep | ⟨piece, hpiece, hmem⟩
    · exact absurd hsep (by decide)
    · obtain ⟨name, hname, rfl⟩ := List.mem_map.1 hpiece
      rcases List.mem_append.1 hname with hname | hname
      · rw [List.eq_of_mem_replicate hname] at hmem
        exact absurd hmem (by decide)
      · exact hslashes name (List.mem_append_right _ hname) hmem
  rw [normalize_eq_ofPlace htarget, hrelative, slashed_eq_self hslash,
    relativeSpecifier_steps hplain.right hchars]

/-- **What is written for a target**, without aliases and packages, says how the directory of the
file and the target part. -/
theorem specifierFor_eq_dotted (known : Extensions) {file target : Path}
    (hfile : file.isAbsolute = true) (htarget : target.isAbsolute = true)
    (hslashes : ∀ name ∈ target.place, '\\' ∉ name.toList) :
    ∃ place above names, (directoryOf file).place = place ++ above ∧
      target.place = place ++ names ∧
      (ofExtensions known).specifierFor file target = dotted above.length names := by
  have hwritten : (ofExtensions known).specifierFor file target =
      relativeSpecifier ((directoryOf file).relative target.normalize).slashed := by
    have hpackages : ∀ target, (ofExtensions known).packages.specifier? file target = none :=
      fun _ => rfl
    simp only [specifierFor, nearestTable?_ofExtensions, hpackages]
    rfl
  rw [hwritten]
  exact relativeSpecifier_relative hfile htarget hslashes

theorem startsWith_dotted (up : Nat) (names : Location) :
    Text.startsWith "." (dotted up names) = true := by
  obtain ⟨rest, htext⟩ := exists_toList_dotted up names
  rw [Text.startsWith, List.isPrefixOf_iff_prefix, htext]
  exact ⟨rest, rfl⟩

/-- **What a relative specifier means**: it leaves `above` and goes down by `names`. -/
theorem resolvePath?_dotted (r : Resolver) (disk : Disk) {file : Path}
    {place above names : Location} (hfile : file.isAbsolute = true)
    (hdir : (directoryOf file).place = place ++ above) (hnames : Plain names) :
    r.resolvePath? disk file (dotted above.length names) = some (ofPlace (place ++ names)) := by
  have habsolute := isAbsolute_directoryOf hfile
  rw [resolvePath?, startsWith_dotted, if_pos rfl,
    normalize_eq_ofPlace (isAbsolute_join habsolute _), place_join_dotted hdir hnames]

/-- **Reading undoes writing.** -/
theorem resolvePath?_specifierFor (known : Extensions) (disk : Disk) {file target : Path}
    (hfile : file.isAbsolute = true) (htarget : target.isAbsolute = true)
    (hslashes : ∀ name ∈ target.place, '\\' ∉ name.toList) :
    (ofExtensions known).resolvePath? disk file
      ((ofExtensions known).specifierFor file target) = some target.normalize := by
  obtain ⟨place, above, names, hdir, hplace, hwritten⟩ :=
    specifierFor_eq_dotted known hfile htarget hslashes
  have hplain := plain_place htarget
  rw [hplace] at hplain
  rw [hwritten, resolvePath?_dotted _ disk hfile hdir hplain.right, normalize_eq_ofPlace htarget,
    hplace]

end Resolver

end Relocate
