import Relocate.Proofs.Specifiers

/-! # Normal forms and relative paths

A path is read from a place, one component after the other (`Path.readFrom`), and what is joined to
it is read from where it leads.  The normal form of a path keeps two things: whether the path starts
at the root, and where it leads from there (`Path.normalize_eq_iff`).  Everything else, such as the
`.` that stands for an empty result or a `..` that cannot be followed, is the same for paths that
agree in these.  So an equation of normal forms is one of places.

* `normal_form_commutes_with_join`: a path can be put in normal form before or after joining.
* `relative_path_leads_to_target`: the path from a directory to a target, joined to the directory,
  leads to the target; it goes up exactly if the target does not lie in the directory.
-/

namespace Relocate

open Text

/-- The component does not start at the root, and if it is a name, an entry can have it. -/
def Component.IsLocal : Component → Prop
  | .root => False
  | .here => True
  | .up => True
  | .name text => IsName text

namespace Path

/-! ## Components that come back -/

section Local

variable {parts : List Component}

theorem isLocal_names {names : Location} (h : Plain names) :
    ∀ part ∈ names.map Component.name, part.IsLocal := by
  intro part hpart
  obtain ⟨name, hname, rfl⟩ := List.mem_map.1 hpart
  exact h name hname

theorem toList_ofComponents (h : ∀ part ∈ parts, part.IsLocal) :
    (ofComponents parts).text.toList =
      ['/'].intercalate (parts.map fun part => part.text.toList) := by
  have htext : ofComponents parts = ⟨"/".intercalate (parts.map Component.text)⟩ := by
    unfold ofComponents
    split
    · exact (h .root List.mem_cons_self).elim
    · rfl
  rw [htext, String.toList_intercalate, List.map_map]
  rfl

theorem splitAt_ofComponents (h : ∀ part ∈ parts, part.IsLocal) (hne : parts ≠ []) :
    splitAt '/' (ofComponents parts).text.toList = parts.map fun part => part.text.toList := by
  rw [toList_ofComponents h]
  refine splitAt_intercalate (by simpa using hne) ?_
  intro piece hpiece
  obtain ⟨part, hpart, rfl⟩ := List.mem_map.1 hpiece
  cases part with
  | root => exact (h .root hpart).elim
  | here => decide
  | up => decide
  | name text => exact (h _ hpart : IsName text).no_separator

/-- Written and read again, a component is itself, but for a `.`. -/
theorem ofPiece?_text {part : Component} (h : part.IsLocal) :
    Component.ofPiece? part.text.toList = Option.guard (· ≠ .here) part := by
  cases part with
  | root => exact h.elim
  | here => rfl
  | up => rfl
  | name text => exact Component.ofPiece?_toList h

theorem text_eq_here_iff {part : Component} (h : part.IsLocal) :
    part.text.toList = ['.'] ↔ part = .here := by
  cases part with
  | root => exact h.elim
  | here => exact iff_of_true rfl rfl
  | up => exact iff_of_false (by decide) (by simp)
  | name text =>
    exact iff_of_false (fun heq => IsName.ne_here h (String.toList_inj.1 heq)) (by simp)

theorem head?_ofComponents (h : ∀ part ∈ parts, part.IsLocal) :
    (ofComponents parts).text.toList.head? ≠ some '/' := by
  cases parts with
  | nil => decide
  | cons part parts =>
    refine head?_ne_separator (splitAt_ofComponents h (by simp)) ?_
    have hpart := h part List.mem_cons_self
    cases part with
    | root => exact hpart.elim
    | here => decide
    | up => decide
    | name text => exact fun heq => IsName.ne_empty hpart (String.toList_inj.1 heq)

theorem isAbsolute_ofComponents (h : ∀ part ∈ parts, part.IsLocal) :
    (ofComponents parts).isAbsolute = false := by
  simpa [isAbsolute] using head?_ofComponents h

/-- What comes back of components that do not start at the root: all but a `.` inside. -/
theorem components_ofComponents (h : ∀ part ∈ parts, part.IsLocal) :
    (ofComponents parts).components =
      (if parts.head? = some .here then [.here] else []) ++ parts.filter (· ≠ .here) := by
  cases parts with
  | nil => rfl
  | cons part parts =>
    have hsplit := splitAt_ofComponents h (by simp)
    have hsteps : stepsIn (ofComponents (part :: parts)).text.toList =
        (part :: parts).filter (· ≠ .here) := by
      rw [stepsIn, hsplit, List.filterMap_map, ← List.filterMap_eq_filter]
      exact List.filterMap_congr fun part hpart => ofPiece?_text (h part hpart)
    have hhead := text_eq_here_iff (h part List.mem_cons_self)
    rw [components, componentsOf_relative (head?_ofComponents h), hsteps, hsplit]
    simp [hhead]

/-- Steps up and down come back as they are. -/
theorem components_ofComponents_steps (h : ∀ part ∈ parts, part.IsLocal) (hhere : .here ∉ parts) :
    (ofComponents parts).components = parts := by
  have hhead : parts.head? ≠ some .here := fun heq => hhere (List.mem_of_head? heq)
  have hkeep : parts.filter (· ≠ .here) = parts :=
    List.filter_eq_self.2 fun part hpart => decide_eq_true fun heq : part = .here =>
      hhere (heq ▸ hpart)
  rw [components_ofComponents h, if_neg hhead, List.nil_append, hkeep]

/-- Reading a path that was written with components is following these. -/
theorem readFrom_ofComponents (h : ∀ part ∈ parts, part.IsLocal) (start : Location) :
    (ofComponents parts).readFrom start = parts.foldl Disk.stepFrom start := by
  have hstay : ∀ place part, (if part ≠ Component.here then Disk.stepFrom place part else place) =
      Disk.stepFrom place part := by
    intro place part
    cases part with
    | here => rfl
    | root => rfl
    | up => rfl
    | name text => rfl
  have hfilter : (parts.filter (· ≠ .here)).foldl Disk.stepFrom start =
      parts.foldl Disk.stepFrom start := by
    rw [List.foldl_filter]
    simp only [decide_eq_true_eq, hstay]
  rw [readFrom, components_ofComponents h, List.foldl_append, ← hfilter]
  split
  · rfl
  · rfl

end Local

/-! ## Normal forms -/

/-- The components of the normal form of a path. -/
def normalParts (p : Path) : List Component :=
  if p.isAbsolute then .root :: p.place.map .name
  else if p.place = [] then [.here]
  else p.place.map .name

theorem normalize_eq_ofComponents (p : Path) : p.normalize = ofComponents p.normalParts := by
  rw [normalize, collapse_components, ← place_eq_readFrom, normalParts]
  by_cases h : p.isAbsolute = true
  · rw [if_pos h, if_pos h]
    rfl
  · rw [if_neg h, if_neg h, List.nil_append]
    cases p.place with
    | nil => rfl
    | cons name names => rfl

theorem isLocal_normalParts {p : Path} (h : p.isAbsolute = false) :
    ∀ part ∈ p.normalParts, part.IsLocal := by
  rw [normalParts, if_neg (by simp [h])]
  split
  · exact List.forall_mem_singleton.2 trivial
  · exact isLocal_names p.place_isPlain

theorem components_normalize (p : Path) : p.normalize.components = p.normalParts := by
  by_cases h : p.isAbsolute = true
  · rw [normalize_eq_ofPlace h, components_ofPlace (plain_place h), normalParts, if_pos h]
  · rw [normalize_eq_ofComponents, normalParts, if_neg h]
    split
    · rfl
    · exact components_ofComponents_steps (isLocal_names p.place_isPlain) (by simp)

theorem normalParts_ne_nil (p : Path) : p.normalParts ≠ [] := by
  unfold normalParts
  split
  · simp
  · split
    · simp
    · simpa

/-- A normal form is written with its components. -/
theorem ofComponents_components_normalize (p : Path) :
    ofComponents p.normalize.components = p.normalize := by
  rw [components_normalize, normalize_eq_ofComponents]

/-- A path starts at the root if that is its first component. -/
theorem isAbsolute_iff_head? {p : Path} :
    p.isAbsolute = true ↔ p.components.head? = some .root := by
  constructor
  · intro h
    obtain ⟨parts, hparts, -⟩ := components_of_isAbsolute h
    rw [hparts, List.head?_cons]
  · intro h
    by_contra hnot
    exact root_not_mem_components (Bool.eq_false_iff.2 hnot) (List.mem_of_head? h)

theorem isAbsolute_normalize_eq (p : Path) : p.normalize.isAbsolute = p.isAbsolute := by
  cases h : p.isAbsolute with
  | true => rw [normalize_eq_ofPlace h, isAbsolute_ofPlace]
  | false => rw [normalize_eq_ofComponents, isAbsolute_ofComponents (isLocal_normalParts h)]

theorem foldl_normalParts (p : Path) : p.normalParts.foldl Disk.stepFrom [] = p.place := by
  have hnames := foldl_stepFrom_names [] p.place
  rw [normalParts]
  split
  · exact hnames
  · split
    · rename_i hplace
      rw [hplace]
      rfl
    · exact hnames

/-- The normal form leads where the path leads, from the root. -/
theorem readFrom_normalize (p : Path) : p.normalize.readFrom [] = p.readFrom [] := by
  rw [readFrom, components_normalize, foldl_normalParts, place_eq_readFrom]

/-- **Paths have the same normal form** if both or neither of them start at the root and they lead
to the same place from there. -/
theorem normalize_eq_iff {p q : Path} :
    p.normalize = q.normalize ↔
      p.isAbsolute = q.isAbsolute ∧ p.readFrom [] = q.readFrom [] := by
  constructor
  · intro h
    refine ⟨?_, ?_⟩
    · rw [← isAbsolute_normalize_eq, h, isAbsolute_normalize_eq]
    · rw [← readFrom_normalize, h, readFrom_normalize]
  · rintro ⟨habsolute, hplace⟩
    rw [← place_eq_readFrom, ← place_eq_readFrom] at hplace
    have hparts : p.normalParts = q.normalParts := by
      rw [normalParts, normalParts, habsolute, hplace]
    rw [normalize_eq_ofComponents, normalize_eq_ofComponents, hparts]

/-- **The normal form of a path is in normal form.** -/
@[simp] theorem normalize_normalize (p : Path) : p.normalize.normalize = p.normalize :=
  normalize_eq_iff.2 ⟨p.isAbsolute_normalize_eq, p.readFrom_normalize⟩

/-- A normal form is a `.` alone, or has neither `.` nor `..`. -/
theorem normalize_eq_here_or (p : Path) :
    p.normalize = ⟨"."⟩ ∨
      .here ∉ p.normalize.components ∧ .up ∉ p.normalize.components := by
  rw [components_normalize, normalize_eq_ofComponents, normalParts]
  split
  · exact .inr ⟨by simp, by simp⟩
  · split
    · exact .inl rfl
    · exact .inr ⟨by simp, by simp⟩

theorem isAbsolute_join_eq (base tail : Path) :
    (base.join tail).isAbsolute = (base.isAbsolute || tail.isAbsolute) := by
  cases htail : tail.isAbsolute with
  | true => rw [join_of_isAbsolute htail, htail, Bool.or_true]
  | false =>
    rw [Bool.or_false]
    by_cases hempty : base.text = ""
    · have hbase : base.isAbsolute = false := by rw [isAbsolute, hempty]; rfl
      rw [join_of_empty hempty, htail, hbase]
    · cases hbase : base.isAbsolute with
      | true => exact isAbsolute_join hbase tail
      | false =>
        rw [Bool.eq_false_iff]
        intro h
        have hroot := List.mem_of_head? (isAbsolute_iff_head?.1 h)
        rw [components_join hempty htail, List.mem_append] at hroot
        rcases hroot with hroot | hroot
        · exact root_not_mem_components hbase hroot
        · rcases eq_of_mem_stepsIn hroot with hup | ⟨name, hname, -⟩
          · simp at hup
          · simp at hname

/-- A path can be put in normal form before something is joined to it. -/
theorem normalize_join_normalize (p q : Path) :
    (p.normalize.join q).normalize = (p.join q).normalize := by
  refine normalize_eq_iff.2 ⟨?_, ?_⟩
  · rw [isAbsolute_join_eq, isAbsolute_join_eq, isAbsolute_normalize_eq]
  · rw [readFrom_join, readFrom_join, readFrom_normalize]

/-! ## Paths below a directory -/

theorem toList_intercalate_names (names : Location) :
    ("/".intercalate names).toList = ['/'].intercalate (names.map String.toList) := by
  rw [String.toList_intercalate]
  rfl

theorem ofComponents_names (names : Location) :
    ofComponents (names.map .name) = ⟨"/".intercalate names⟩ := by
  cases names with
  | nil => rfl
  | cons name names => simp [ofComponents, Function.comp_def, Component.text]

/-- Names one below the other are the components of the path they make up. -/
theorem components_names {names : Location} (h : Plain names) :
    components ⟨"/".intercalate names⟩ = names.map .name := by
  rw [← ofComponents_names]
  exact components_ofComponents_steps (isLocal_names h) (by simp)

theorem isInDir_iff {dir path : Path} :
    dir.isInDir path = true ↔ dir.normalize.components <+: path.normalize.components := by
  rw [isInDir, startsWith, List.isPrefixOf_iff_prefix]

/-- Only a directory at an absolute path holds what is at one. -/
theorem isAbsolute_of_isInDir {dir target : Path} (htarget : target.isAbsolute = true)
    (h : dir.isInDir target = true) : dir.isAbsolute = true := by
  obtain ⟨rest, hrest⟩ := isInDir_iff.1 h
  have hne : dir.normalize.components ≠ [] := dir.components_normalize ▸ dir.normalParts_ne_nil
  rw [← isAbsolute_normalize_eq, isAbsolute_iff_head?] at htarget ⊢
  rw [← hrest, List.head?_append_of_ne_nil _ hne] at htarget
  exact htarget

/-- What lies in a directory is reached from it by names. -/
theorem exists_place_append {dir target : Path} (htarget : target.isAbsolute = true)
    (h : dir.isInDir target = true) : ∃ names, target.place = dir.place ++ names := by
  have hdir := isAbsolute_of_isInDir htarget h
  rw [isInDir, normalize_eq_ofPlace htarget, normalize_eq_ofPlace hdir,
    startsWith_ofPlace (plain_place htarget) (plain_place hdir)] at h
  obtain ⟨names, hnames⟩ := h
  exact ⟨names, hnames.symm⟩

theorem stepsBetween_below (source names : Location) :
    stepsBetween (source.map .name) ((source ++ names).map .name) = some (names.map .name) := by
  induction source with
  | nil =>
    cases names with
    | nil => rfl
    | cons name names => rfl
  | cons first source ih =>
    rw [List.cons_append, List.map_cons, List.map_cons, stepsBetween, if_pos rfl, ih]

/-- The path from a directory to what lies below it. -/
theorem relative_below {dir target : Path} {names : Location} (hdir : dir.isAbsolute = true)
    (htarget : target.isAbsolute = true) (hnames : target.place = dir.place ++ names) :
    dir.relative target = ofComponents (names.map .name) := by
  have hsteps : stepsBetween (ofPlace dir.place).components (ofPlace target.place).components =
      some (names.map .name) := by
    rw [components_ofPlace (plain_place hdir), components_ofPlace (plain_place htarget),
      stepsBetween, if_pos rfl, hnames, stepsBetween_below]
  rw [relative, normalize_eq_ofPlace hdir, normalize_eq_ofPlace htarget]
  simp [isAbsolute_ofPlace, hsteps]

theorem slashed_relative_below {dir target : Path} {names : Location}
    (hdir : dir.isAbsolute = true) (htarget : target.isAbsolute = true)
    (hnames : target.place = dir.place ++ names) (hslashes : ∀ name ∈ names, '\\' ∉ name.toList) :
    (dir.relative target).slashed = "/".intercalate names := by
  have hslash : '\\' ∉ ("/".intercalate names).toList := by
    rw [toList_intercalate_names]
    intro hmem
    rcases mem_intercalate hmem with hsep | ⟨piece, hpiece, hmem⟩
    · exact absurd hsep (by decide)
    · obtain ⟨name, hname, rfl⟩ := List.mem_map.1 hpiece
      exact hslashes name hname hmem
  rw [relative_below hdir htarget hnames, ofComponents_names]
  exact slashed_eq_self hslash

/-- Names that are joined to a directory lead down from it. -/
theorem normalize_join_names {dir : Path} {names : Location} (hdir : dir.isAbsolute = true)
    (hnames : Plain names) :
    (dir.join ⟨"/".intercalate names⟩).normalize = ofPlace (dir.place ++ names) := by
  rw [normalize_eq_ofPlace (isAbsolute_join hdir _), place_eq_readFrom, readFrom_join,
    ← ofComponents_names, readFrom_ofComponents (isLocal_names hnames), foldl_stepFrom_names,
    ← place_eq_readFrom]

/-! ## Steps from one normal form to another -/

/-- The steps lead from one place to another, and are those of the target but for steps up. -/
structure Bridges (steps target : List Component) (source goal : Location) : Prop where
  reaches : steps.foldl Disk.stepFrom source = goal
  steps_of : ∀ part ∈ steps, part = .up ∨ part ∈ target

theorem Bridges.cons {steps target : List Component} {source goal : Location}
    (h : Bridges steps target source goal) (part : Component) :
    Bridges steps (part :: target) source goal :=
  ⟨h.reaches, fun step hstep => (h.steps_of step hstep).imp_right (List.mem_cons_of_mem part)⟩

theorem Bridges.isLocal {steps target : List Component} {source goal : Location}
    (h : Bridges steps target source goal) (htarget : ∀ part ∈ target, part.IsLocal) :
    ∀ part ∈ steps, part.IsLocal := by
  intro part hpart
  rcases h.steps_of part hpart with rfl | hmem
  · trivial
  · exact htarget part hmem

/-- Once a first difference has been met, all of the source is left and all of the target
followed. -/
theorem exists_stepsApart (place source : Location) (target : List Component) :
    ∃ steps, stepsApart (source.map .name) target = some steps ∧
      Bridges steps target (place ++ source) (target.foldl Disk.stepFrom place) := by
  have hclimb : (climb (source.map .name)).foldl Disk.stepFrom (place ++ source) = place := by
    rw [climb_names, foldl_stepFrom_up]
  have hup : ∀ part ∈ climb (source.map .name), part = .up := by
    intro part hpart
    rw [climb_names] at hpart
    exact List.eq_of_mem_replicate hpart
  cases target with
  | nil =>
    refine ⟨climb (source.map .name), ?_, hclimb, fun part hpart => .inl (hup part hpart)⟩
    cases source with
    | nil => rfl
    | cons name source => rfl
  | cons part target =>
    cases source with
    | nil => exact ⟨part :: target, rfl, by simp, fun part hpart => .inr hpart⟩
    | cons name source =>
      refine ⟨climb ((name :: source).map .name) ++ part :: target, rfl, ?_, ?_⟩
      · rw [List.foldl_append, hclimb]
      · intro step hstep
        exact (List.mem_append.1 hstep).imp_left (hup step)

/-- What the two have in common is neither left nor followed. -/
theorem exists_stepsBetween_names (place source : Location) (target : List Component) :
    ∃ steps, stepsBetween (source.map .name) target = some steps ∧
      Bridges steps target (place ++ source) (target.foldl Disk.stepFrom place) := by
  induction source generalizing place target with
  | nil =>
    have hapart := exists_stepsApart place [] target
    cases target with
    | nil => exact hapart
    | cons part target => exact hapart
  | cons name source ih =>
    cases target with
    | nil => exact exists_stepsApart place (name :: source) []
    | cons part target =>
      by_cases heq : .name name = part
      · subst heq
        obtain ⟨steps, hsteps, hbridges⟩ := ih (place ++ [name]) target
        rw [List.append_assoc] at hbridges
        refine ⟨steps, ?_, hbridges.cons (.name name)⟩
        rw [List.map_cons, stepsBetween, if_pos rfl, hsteps]
      · rw [List.map_cons, stepsBetween, if_neg heq]
        exact exists_stepsApart place (name :: source) (part :: target)

/-- From a lone `.` the target is followed as it is. -/
theorem exists_stepsBetween_here (target : List Component) :
    ∃ steps, stepsBetween [.here] target = some steps ∧
      Bridges steps target [] (target.foldl Disk.stepFrom []) := by
  cases target with
  | nil => exact ⟨[.up], rfl, rfl, by simp⟩
  | cons part target =>
    by_cases heq : .here = part
    · subst heq
      obtain ⟨steps, hsteps, hbridges⟩ := exists_stepsBetween_names [] [] target
      refine ⟨steps, ?_, hbridges.cons .here⟩
      rw [stepsBetween, if_pos rfl]
      exact hsteps
    · obtain ⟨steps, hsteps, hbridges⟩ := exists_stepsApart (Disk.stepFrom [] part) [] target
      rw [List.append_nil] at hbridges
      refine ⟨part :: steps, ?_, hbridges.reaches, ?_⟩
      · rw [stepsBetween, if_neg heq, stepsApart]
        exact congrArg (Option.map (part :: ·)) hsteps
      · intro step hstep
        rcases List.mem_cons.1 hstep with rfl | hstep
        · exact .inr List.mem_cons_self
        · exact (hbridges.cons part).steps_of step hstep

/-- Between normal forms of one kind there are always steps, and they lead to the target. -/
theorem exists_stepsBetween {source target : Path} (h : source.isAbsolute = target.isAbsolute) :
    ∃ steps, stepsBetween source.normalParts target.normalParts = some steps ∧
      steps.foldl Disk.stepFrom source.place = target.place ∧ ∀ part ∈ steps, part.IsLocal := by
  by_cases habsolute : source.isAbsolute = true
  · -- the root is common to both
    have htarget : target.isAbsolute = true := h ▸ habsolute
    obtain ⟨steps, hsteps, hbridges⟩ :=
      exists_stepsBetween_names [] source.place (target.place.map .name)
    rw [foldl_stepFrom_names] at hbridges
    refine ⟨steps, ?_, hbridges.reaches, hbridges.isLocal (isLocal_names target.place_isPlain)⟩
    rw [normalParts, if_pos habsolute, normalParts, if_pos htarget, stepsBetween, if_pos rfl,
      hsteps]
  · have htarget : target.isAbsolute = false := h ▸ Bool.eq_false_iff.2 habsolute
    obtain ⟨steps, hsteps, hbridges⟩ : ∃ steps,
        stepsBetween source.normalParts target.normalParts = some steps ∧
          Bridges steps target.normalParts source.place target.place := by
      rw [← foldl_normalParts target]
      by_cases hplace : source.place = []
      · rw [normalParts, if_neg habsolute, if_pos hplace, hplace]
        exact exists_stepsBetween_here target.normalParts
      · rw [normalParts, if_neg habsolute, if_neg hplace]
        exact exists_stepsBetween_names [] source.place target.normalParts
    exact ⟨steps, hsteps, hbridges.reaches, hbridges.isLocal (isLocal_normalParts htarget)⟩

/-! ## Relative paths -/

/-- **The path from a directory to a target** is read from the directory and leads to the target. -/
theorem readFrom_relative {source target : Path} (h : source.isAbsolute = target.isAbsolute) :
    (source.relative target).isAbsolute = false ∧
      (source.relative target).readFrom source.place = target.place := by
  obtain ⟨steps, hsteps, hreach, hlocal⟩ := exists_stepsBetween h
  have hrelative : source.relative target = ofComponents steps := by
    simp [relative, isAbsolute_normalize_eq, h, components_normalize, hsteps]
  rw [hrelative]
  exact ⟨isAbsolute_ofComponents hlocal, (readFrom_ofComponents hlocal _).trans hreach⟩

/-- The path from a directory to a target, joined to the directory, is the target. -/
theorem absolutize_relative {source target : Path}
    (h : source.isAbsolute = true → target.isAbsolute = true) :
    source.absolutize (source.relative target) = target.normalize := by
  by_cases hkind : source.isAbsolute = target.isAbsolute
  · obtain ⟨hlocal, hread⟩ := readFrom_relative hkind
    refine normalize_eq_iff.2 ⟨?_, ?_⟩
    · rw [isAbsolute_join_eq, hlocal, hkind, Bool.or_false]
    · rw [readFrom_join, ← place_eq_readFrom, hread, place_eq_readFrom]
  · -- only the target starts at the root, and stands for itself
    have htarget : target.isAbsolute = true := by
      by_contra hnot
      exact hkind (Bool.eq_iff_iff.2 ⟨h, fun habsolute => absurd habsolute hnot⟩)
    have hrelative : source.relative target = target.normalize := by
      simp [relative, isAbsolute_normalize_eq, hkind]
    rw [absolutize, hrelative, join_of_isAbsolute (target.isAbsolute_normalize_eq.trans htarget),
      normalize_normalize]

/-- The components of the path between two places: those that leave the source, and those that
lead down to the target. -/
theorem components_relative {dir target : Path} (hdir : dir.isAbsolute = true)
    (htarget : target.isAbsolute = true) :
    ∃ place above names, dir.place = place ++ above ∧ target.place = place ++ names ∧
      (dir.relative target).components = List.replicate above.length .up ++ names.map .name := by
  obtain ⟨place, above, names, hsource, hplace, hrelative⟩ := relative_eq hdir htarget
  have hplain : Plain names := (hplace ▸ plain_place htarget : Plain (place ++ names)).right
  refine ⟨place, above, names, hsource, hplace, ?_⟩
  rw [hrelative]
  refine components_ofComponents_steps ?_ (by simp)
  intro part hpart
  rcases List.mem_append.1 hpart with hup | hname
  · rw [List.eq_of_mem_replicate hup]
    trivial
  · exact isLocal_names hplain part hname

/-- What lies in a directory is reached without going up, by what its components have more. -/
theorem components_normalize_of_isInDir {dir path : Path} (hpath : path.isAbsolute = true)
    (h : dir.isInDir path = true) :
    path.normalize.components = dir.normalize.components ++ (dir.relative path).components ∧
      .up ∉ (dir.relative path).components := by
  have hdir := isAbsolute_of_isInDir hpath h
  obtain ⟨names, hnames⟩ := exists_place_append hpath h
  have hplain : Plain names := (hnames ▸ plain_place hpath : Plain (dir.place ++ names)).right
  rw [relative_below hdir hpath hnames, ofComponents_names, components_names hplain,
    normalize_eq_ofPlace hpath, normalize_eq_ofPlace hdir, components_ofPlace (plain_place hpath),
    components_ofPlace (plain_place hdir), hnames, List.map_append, List.cons_append]
  exact ⟨rfl, by simp⟩

theorem isInDir_iff_up_not_mem {dir path : Path} (hdir : dir.isAbsolute = true)
    (hpath : path.isAbsolute = true) :
    dir.isInDir path = true ↔ .up ∉ (dir.relative path).components := by
  refine ⟨fun h => (components_normalize_of_isInDir hpath h).2, fun hup => ?_⟩
  obtain ⟨place, above, names, hsource, hplace, hcomponents⟩ := components_relative hdir hpath
  have habove : above = [] := by
    cases above with
    | nil => rfl
    | cons name above => simp [hcomponents] at hup
  rw [isInDir, normalize_eq_ofPlace hdir, normalize_eq_ofPlace hpath,
    startsWith_ofPlace (plain_place hpath) (plain_place hdir), hsource, hplace, habove,
    List.append_nil]
  exact List.prefix_append place names

end Path

/-- **A path can be put in normal form before or after joining.**  A normal form is its own, starts
at the root exactly if the path does, leads where the path leads, and has no `.` or `..` unless it
is the single `.` of an empty result. -/
theorem normal_form_commutes_with_join (p q : Path) :
    p.normalize.normalize = p.normalize ∧
    p.normalize.isAbsolute = p.isAbsolute ∧
    p.normalize.readFrom [] = p.readFrom [] ∧
    (p.normalize = ⟨"."⟩ ∨ .here ∉ p.normalize.components ∧ .up ∉ p.normalize.components) ∧
    (p.normalize.join q).normalize = (p.join q).normalize :=
  ⟨p.normalize_normalize, p.isAbsolute_normalize_eq, p.readFrom_normalize,
    p.normalize_eq_here_or, p.normalize_join_normalize q⟩

/-- **The relative path to a target leads there from the directory**, unless only the directory
starts at the root.  Between absolute paths it goes up exactly if the target does not lie in the
directory, and otherwise is what the target's components have more. -/
theorem relative_path_leads_to_target :
    (∀ source target : Path, ¬(source.isAbsolute = true ∧ target.isAbsolute = false) →
      source.absolutize (source.relative target) = target.normalize) ∧
    ∀ dir path : Path, dir.isAbsolute = true → path.isAbsolute = true →
      (dir.isInDir path = true ↔ .up ∉ (dir.relative path).components) ∧
      (dir.isInDir path = true →
        path.normalize.components =
          dir.normalize.components ++ (dir.relative path).components) := by
  refine ⟨fun source target h => Path.absolutize_relative fun hsource => ?_,
    fun dir path hdir hpath => ⟨Path.isInDir_iff_up_not_mem hdir hpath, fun hin => ?_⟩⟩
  · by_contra htarget
    exact h ⟨hsource, Bool.eq_false_iff.2 htarget⟩
  · exact (Path.components_normalize_of_isInDir hpath hin).1

/-- A target that comes to nothing, from a directory whose first step up is not followed; and a
target in a directory, though neither text starts with the other. -/
theorem relative_path_leads_to_target_here :
    (¬(Path.isAbsolute ⟨"../a/./b"⟩ = true ∧ Path.isAbsolute ⟨"c/.."⟩ = false) ∧
      Path.relative ⟨"../a/./b"⟩ ⟨"c/.."⟩ = ⟨"../../."⟩ ∧
      Path.absolutize ⟨"../a/./b"⟩ (Path.relative ⟨"../a/./b"⟩ ⟨"c/.."⟩) = ⟨"."⟩) ∧
    (Path.isAbsolute ⟨"/x/../src/"⟩ = true ∧ Path.isAbsolute ⟨"//src/./y/..z"⟩ = true ∧
      Path.isInDir ⟨"/x/../src/"⟩ ⟨"//src/./y/..z"⟩ = true ∧
      Path.relative ⟨"/x/../src/"⟩ ⟨"//src/./y/..z"⟩ = ⟨"y/..z"⟩ ∧
      .up ∉ (Path.relative ⟨"/x/../src/"⟩ ⟨"//src/./y/..z"⟩).components ∧
      Path.components (Path.normalize ⟨"//src/./y/..z"⟩) =
        Path.components (Path.normalize ⟨"/x/../src/"⟩) ++
          (Path.relative ⟨"/x/../src/"⟩ ⟨"//src/./y/..z"⟩).components) := by
  have hkind : ¬(Path.isAbsolute ⟨"../a/./b"⟩ = true ∧ Path.isAbsolute ⟨"c/.."⟩ = false) := by
    decide
  have hdir : Path.isAbsolute ⟨"/x/../src/"⟩ = true := by decide
  have hpath : Path.isAbsolute ⟨"//src/./y/..z"⟩ = true := by decide
  have hin : Path.isInDir ⟨"/x/../src/"⟩ ⟨"//src/./y/..z"⟩ = true := by decide +kernel
  obtain ⟨hleads, hbetween⟩ := relative_path_leads_to_target
  obtain ⟨hup, hcomponents⟩ := hbetween ⟨"/x/../src/"⟩ ⟨"//src/./y/..z"⟩ hdir hpath
  refine ⟨⟨hkind, by decide +kernel, ?_⟩, hdir, hpath, hin, by decide +kernel, hup.1 hin,
    hcomponents hin⟩
  rw [hleads ⟨"../a/./b"⟩ ⟨"c/.."⟩ hkind]
  decide +kernel

end Relocate
