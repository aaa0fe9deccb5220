import Relocate.Proofs.Overriding

/-! # The files on record

The index counts the files that it keeps a list of modules for.  That list comes with the
first import in a file and goes when the file is forgotten; when a module is forgotten, the files
that imported it lose an item of their lists, but not the lists.  So a file whose last import goes
that way stays on record and is counted, although nothing in the index stands in it any more.

`Index.filesAfter` keeps the files on record on their own, and `Index.keys_after` says that they are
those the index has.  Among them are all contributors, the files with an import on record, and the
count is theirs exactly if there are no others (`Index.fileCount_eq_iff`).  This is so as long as no
module is forgotten that some other file has its only imports from (`Index.Sparing`).
-/

namespace Relocate

section

variable {α : Type} [BEq α] [EquivBEq α]

/-- Of two lists of distinct items, one of which has all items of the other, both are of one length
if and only if they have the same items. -/
theorem Distinct.length_eq_iff {items others : List α} (h : Distinct items) (h' : Distinct others)
    (hsub : ∀ item, items.contains item = true → others.contains item = true) :
    others.length = items.length ↔
      ∀ item, others.contains item = true → items.contains item = true := by
  constructor
  · intro hlength item hitem
    -- an item that only the longer list has could be added to the other one
    refine Decidable.byContradiction fun hmissing => ?_
    have hmore : Distinct (Relocate.insertNew items item) := h.insertNew item
    have hle : (Relocate.insertNew items item).length ≤ others.length := by
      refine hmore.length_le fun other hother => ?_
      rw [contains_insertNew_eq, Bool.or_eq_true] at hother
      rcases hother with hother | hother
      · exact hsub other hother
      · rw [List.contains_congr hother]
        exact hitem
    rw [Relocate.insertNew, if_neg hmissing, List.length_append, List.length_singleton] at hle
    omega
  · intro hback
    exact Nat.le_antisymm (h'.length_le hback) (h.length_le hsub)

end

namespace Index

variable {ix : Index} {imports : List Import}

/-! ## The imports on record -/

/-- The imports on record, module by module. -/
def entries (ix : Index) : List Import :=
  ix.byTarget.flatMap fun item => item.2.map (Import.mk item.1)

/-- The files with an import on record, each once. -/
def contributors (ix : Index) : List Path := (ix.entries.map fun i => i.site.file).eraseDups

theorem mem_entries {i : Import} :
    i ∈ ix.entries ↔ ∃ item ∈ ix.byTarget, item.1 = i.target ∧ i.site ∈ item.2 := by
  constructor
  · intro h
    obtain ⟨item, hitem, hi⟩ := List.mem_flatMap.1 h
    obtain ⟨site, hsite, rfl⟩ := List.mem_map.1 hi
    exact ⟨item, hitem, rfl, hsite⟩
  · rintro ⟨item, hitem, htarget, hsite⟩
    exact List.mem_flatMap.2 ⟨item, hitem, List.mem_map.2 ⟨i.site, hsite, by rw [htarget]⟩⟩

/-- A module is imported where an import of it is on record. -/
theorem mem_sites_iff (h : Distinct ix.byTarget.keys) {target : Identity} {site : Site} :
    site ∈ ix.sites target ↔ ∃ i ∈ ix.entries, (i.target == target) = true ∧ i.site = site := by
  constructor
  · intro hsite
    rw [sites] at hsite
    cases hget : ix.byTarget.get? target with
    | none => simp [hget] at hsite
    | some known =>
      rw [hget, Option.getD_some] at hsite
      obtain ⟨item, hfind, rfl⟩ := Option.map_eq_some_iff.1 hget
      have htarget := List.find?_some hfind
      have hentry : Import.mk item.1 site ∈ ix.entries :=
        mem_entries.2 ⟨item, List.mem_of_find?_eq_some hfind, rfl, hsite⟩
      exact ⟨_, hentry, htarget, rfl⟩
  · rintro ⟨i, hi, htarget, rfl⟩
    obtain ⟨⟨known, known'⟩, hitem, rfl, hsite⟩ := mem_entries.1 hi
    rw [sites_congr ix (BEq.symm htarget), sites, Ordered.get?_of_mem h hitem]
    exact hsite

theorem contains_contributors (h : Distinct ix.byTarget.keys) (file : Path) :
    ix.contributors.contains file = true ↔
      ∃ target, ∃ site ∈ ix.sites target, (site.file == file) = true := by
  rw [contributors, contains_eraseDups, List.contains_iff_exists_mem_beq]
  constructor
  · rintro ⟨_, hmem, hfile⟩
    obtain ⟨i, hi, rfl⟩ := List.mem_map.1 hmem
    exact ⟨i.target, i.site, (mem_sites_iff h).2 ⟨i, hi, BEq.rfl, rfl⟩, BEq.symm hfile⟩
  · rintro ⟨target, site, hsite, hfile⟩
    obtain ⟨i, hi, -, rfl⟩ := (mem_sites_iff h).1 hsite
    exact ⟨_, List.mem_map_of_mem hi, BEq.symm hfile⟩

/-- The contributors are the files that the list of imports mentions. -/
theorem Refines.contains_contributors (h : Refines ix imports) (file : Path) :
    ix.contributors.contains file = (imports.map fun i => i.site.file).contains file := by
  rw [Bool.eq_iff_iff, Index.contains_contributors h.distinct, List.contains_iff_exists_mem_beq]
  constructor
  · rintro ⟨target, site, hsite, hfile⟩
    rw [h.sites] at hsite
    obtain ⟨i, hi, rfl⟩ := List.mem_map.1 hsite
    exact ⟨_, List.mem_map_of_mem (List.mem_filter.1 hi).1, BEq.symm hfile⟩
  · rintro ⟨_, hmem, hfile⟩
    obtain ⟨i, hi, rfl⟩ := List.mem_map.1 hmem
    refine ⟨i.target, i.site, ?_, BEq.symm hfile⟩
    rw [h.sites]
    exact List.mem_map_of_mem (List.mem_filter.2 ⟨hi, BEq.rfl⟩)

/-! ## The files on record -/

/-- The files on record after a change: an import puts its file on record, and only to forget the
file itself takes it off. -/
def Change.inFiles (files : List Path) : Change → List Path
  | .add _ site => insertNew files site.file
  | .dropFile file => files.filter fun known => !(known == file)
  | .dropModule file _ => files.filter fun known => !(known == file)

/-- The files on record after changes, beginning with none. -/
def filesAfter (changes : List Change) : List Path := changes.foldl Change.inFiles []

theorem keys_dropFile (ix : Index) (file : Path) :
    (ix.dropFile file).byFile.keys = ix.byFile.keys.filter fun known => !(known == file) := by
  unfold dropFile
  split
  · rename_i hget
    symm
    refine List.filter_eq_self.2 fun known hknown => ?_
    have hmissing : ix.byFile.keys.contains file = false := by
      rw [Ordered.contains_keys, hget, Option.isSome_none]
    rw [Bool.not_eq_true', Bool.eq_false_iff]
    intro hfile
    rw [List.contains_iff_exists_mem_beq.2 ⟨known, hknown, BEq.symm hfile⟩] at hmissing
    cases hmissing
  · rw [Ordered.keys, Ordered.keys, List.filter_map]
    rfl

/-- To take a module from the lists of files takes no file off the record. -/
theorem keys_foldl_dropTarget (target : Identity) (dropped : List Site)
    (byFile : Ordered Path (List Identity)) :
    Ordered.keys (dropped.foldl (dropTarget target) byFile) = byFile.keys := by
  induction dropped generalizing byFile with
  | nil => rfl
  | cons first dropped ih =>
    rw [List.foldl_cons, ih]
    unfold dropTarget
    split
    · rfl
    · rename_i targets hget
      have hknown : byFile.keys.contains first.file = true := by
        rw [Ordered.contains_keys, hget, Option.isSome_some]
      rw [Ordered.keys_put, insertNew, if_pos hknown]

theorem keys_dropModule (ix : Index) (file : Path) (target : Identity) :
    (ix.dropModule file target).byFile.keys = (ix.dropFile file).byFile.keys := by
  unfold dropModule
  dsimp only
  split
  · rfl
  · exact keys_foldl_dropTarget target _ _

/-- One change does to the files of the index what it does to the files on record. -/
theorem keys_change (ix : Index) (c : Change) :
    (ix.change c).byFile.keys = c.inFiles ix.byFile.keys := by
  cases c with
  | add target site => exact Ordered.keys_put _ _ _
  | dropFile file => exact ix.keys_dropFile file
  | dropModule file target => exact (ix.keys_dropModule file target).trans (ix.keys_dropFile file)

/-- **However it came about, the index has lists for the files on record.** -/
theorem keys_after (changes : List Change) : (after changes).byFile.keys = filesAfter changes := by
  suffices hrun : ∀ ix : Index,
      (changes.foldl change ix).byFile.keys = changes.foldl Change.inFiles ix.byFile.keys from
    hrun empty
  induction changes with
  | nil => exact fun _ => rfl
  | cons c changes ih =>
    intro ix
    rw [List.foldl_cons, List.foldl_cons, ih, keys_change]

theorem fileCount_after (changes : List Change) :
    (after changes).fileCount = (filesAfter changes).length := by
  rw [← keys_after]
  exact (List.length_map _).symm

theorem distinct_filesAfter (changes : List Change) : Distinct (filesAfter changes) := by
  suffices hrun : ∀ files, Distinct files → Distinct (changes.foldl Change.inFiles files) from
    hrun [] .nil
  induction changes with
  | nil => exact fun _ h => h
  | cons c changes ih =>
    intro files h
    refine ih _ ?_
    cases c with
    | add target site => exact h.insertNew _
    | dropFile file => exact List.Pairwise.filter _ h
    | dropModule file target => exact List.Pairwise.filter _ h

/-- A contributor is on record, because the two directions of the index are linked. -/
theorem contains_filesAfter (changes : List Change) (file : Path)
    (h : (after changes).contributors.contains file = true) :
    (filesAfter changes).contains file = true := by
  have hrefines := refines_after changes
  obtain ⟨target, site, hsite, hfile⟩ := (contains_contributors hrefines.distinct file).1 h
  obtain ⟨targets, hget, -⟩ := hrefines.linked target site hsite
  rw [← keys_after, Ordered.contains_keys, ← Ordered.get?_congr _ hfile, hget]
  rfl

theorem fileCount_eq_iff (changes : List Change) :
    (after changes).fileCount = (after changes).contributors.length ↔
      ∀ file, (filesAfter changes).contains file = true →
        (after changes).contributors.contains file = true := by
  rw [fileCount_after]
  exact (distinct_eraseDups _).length_eq_iff (distinct_filesAfter changes)
    (contains_filesAfter changes)

theorem contributors_eq_nil_iff (h : Refines ix imports) :
    ix.contributors.length = 0 ↔ ix.isEmpty = true := by
  rw [h.isEmpty_iff, List.length_eq_zero_iff]
  have hcontains := h.contains_contributors
  constructor
  · intro hnone
    cases imports with
    | nil => rfl
    | cons i imports =>
      have hfirst := hcontains i.site.file
      rw [hnone] at hfirst
      simp at hfirst
  · rintro rfl
    refine List.eq_nil_iff_forall_not_mem.2 fun file hfile => ?_
    have hnone := hcontains file
    rw [List.contains_iff_exists_mem_beq.2 ⟨file, hfile, BEq.rfl⟩] at hnone
    cases hnone

/-! ## Changes that spare the other files -/

/-- The change takes no file its last import, other than a file that is forgotten as a whole: where
a module is forgotten, each of the other files that import it imports another one too. -/
def Change.Spares (imports : List Import) : Change → Prop
  | .dropModule file target => ∀ i ∈ imports, (i.target == target) = true →
      (i.site.file == file) = false →
        ∃ j ∈ imports, (j.site.file == i.site.file) = true ∧ (j.target == target) = false
  | _ => True

/-- Each of the changes spares the other files at its time. -/
def Sparing : List Import → List Change → Prop
  | _, [] => True
  | imports, c :: changes => c.Spares imports ∧ Sparing (c.inList imports) changes

/-- Every file on record has an import. -/
def Occupied (files : List Path) (imports : List Import) : Prop :=
  ∀ file, files.contains file = true → ∃ i ∈ imports, (i.site.file == file) = true

theorem Occupied.filter {files : List Path} (h : Occupied files imports) {file : Path}
    {keep : Import → Bool}
    (hkeep : ∀ i ∈ imports, (i.site.file == file) = false →
      ∃ j ∈ imports, (j.site.file == i.site.file) = true ∧ keep j = true) :
    Occupied (files.filter fun known => !(known == file)) (imports.filter keep) := by
  intro other hother
  obtain ⟨known, hknown, hsame⟩ := List.contains_iff_exists_mem_beq.1 hother
  obtain ⟨hknown, hne⟩ := List.mem_filter.1 hknown
  obtain ⟨i, hi, hfile⟩ := h other (List.contains_iff_exists_mem_beq.2 ⟨known, hknown, hsame⟩)
  have hi' : (i.site.file == file) = false := by
    rw [BEq.congr_left hfile, BEq.congr_left hsame]
    simpa using hne
  obtain ⟨j, hj, hjfile, hjkeep⟩ := hkeep i hi hi'
  exact ⟨j, List.mem_filter.2 ⟨hj, hjkeep⟩, BEq.trans hjfile hfile⟩

/-- A change that spares the other files leaves every file on record with an import. -/
theorem Occupied.change {files : List Path} (h : Occupied files imports) {c : Change}
    (hc : c.Spares imports) : Occupied (c.inFiles files) (c.inList imports) := by
  cases c with
  | add target site =>
    intro file hfile
    have hnew : ∃ i ∈ (Change.add target site).inList imports,
        (i.site.file == site.file) = true := by
      rw [Change.inList]
      split
      · rename_i hknown
        obtain ⟨i, hi, hsame⟩ := List.any_eq_true.1 hknown
        have hsite : (i.site == site) = true := (Bool.and_eq_true_iff.1 hsame).2
        exact ⟨i, hi, (Site.beq_iff.1 hsite).1⟩
      · exact ⟨⟨target, site⟩, List.mem_append_right _ List.mem_cons_self, BEq.rfl⟩
    have hsub : ∀ i ∈ imports, i ∈ (Change.add target site).inList imports := by
      intro i hi
      rw [Change.inList]
      split
      · exact hi
      · exact List.mem_append_left _ hi
    rw [Change.inFiles, contains_insertNew_eq, Bool.or_eq_true] at hfile
    rcases hfile with hfile | hfile
    · obtain ⟨i, hi, hsame⟩ := h file hfile
      exact ⟨i, hsub i hi, hsame⟩
    · obtain ⟨i, hi, hsame⟩ := hnew
      exact ⟨i, hi, BEq.trans hsame (BEq.symm hfile)⟩
  | dropFile file =>
    exact h.filter fun i hi hfile => ⟨i, hi, BEq.rfl, by rw [hfile]; rfl⟩
  | dropModule file target =>
    refine h.filter fun i hi hfile => ?_
    by_cases htarget : (i.target == target) = true
    · obtain ⟨j, hj, hjfile, hjtarget⟩ := hc i hi htarget hfile
      refine ⟨j, hj, hjfile, ?_⟩
      rw [BEq.congr_left hjfile, hfile, hjtarget]
      rfl
    · refine ⟨i, hi, BEq.rfl, ?_⟩
      rw [hfile, Bool.eq_false_iff.2 htarget]
      rfl

theorem occupied_after {changes : List Change} (h : Sparing [] changes) :
    Occupied (filesAfter changes) (importsAfter changes) := by
  suffices hrun : ∀ files imports, Occupied files imports → Sparing imports changes →
      Occupied (changes.foldl Change.inFiles files) (changes.foldl Change.inList imports) from
    hrun [] [] (fun _ hfile => by cases hfile) h
  clear h
  induction changes with
  | nil => exact fun _ _ h _ => h
  | cons c changes ih =>
    intro files imports hoccupied hsparing
    exact ih _ _ (hoccupied.change hsparing.1) hsparing.2

end Index

/-- **The count of files is that of the files on record.**  Whatever was added and forgotten, in
whatever order, a file counts from its first import until it is itself forgotten.  Every contributor
counts, and the count is that of the contributors exactly if every file on record is one.  So it is,
and the count is zero only for the empty index and always for it, if no module was ever forgotten
that another file had its last import from. -/
theorem file_count_is_of_files_on_record (changes : List Index.Change) :
    (∀ file, (Index.after changes).contributors.contains file = true ↔
        ∃ target, ∃ site ∈ (Index.after changes).sites target, (site.file == file) = true) ∧
      Distinct (Index.after changes).contributors ∧
      (Index.after changes).fileCount = (Index.filesAfter changes).length ∧
      (Index.after changes).contributors.length ≤ (Index.after changes).fileCount ∧
      ((Index.after changes).fileCount = (Index.after changes).contributors.length ↔
        ∀ file, (Index.filesAfter changes).contains file = true →
          (Index.after changes).contributors.contains file = true) ∧
      ((Index.after changes).fileCount = 0 → (Index.after changes).isEmpty = true) ∧
      (Index.Sparing [] changes →
        (Index.after changes).fileCount = (Index.after changes).contributors.length ∧
          ((Index.after changes).fileCount = 0 ↔ (Index.after changes).isEmpty = true)) := by
  have hrefines := Index.refines_after changes
  have hempty := Index.contributors_eq_nil_iff hrefines
  have hle : (Index.after changes).contributors.length ≤ (Index.after changes).fileCount := by
    rw [Index.fileCount_after]
    exact (distinct_eraseDups _).length_le (Index.contains_filesAfter changes)
  refine ⟨Index.contains_contributors hrefines.distinct, distinct_eraseDups _,
    Index.fileCount_after changes, hle, Index.fileCount_eq_iff changes,
    fun hzero => hempty.1 (by omega), fun hsparing => ?_⟩
  have hcount : (Index.after changes).fileCount = (Index.after changes).contributors.length := by
    refine (Index.fileCount_eq_iff changes).2 fun file hfile => ?_
    obtain ⟨i, hi, hsame⟩ := Index.occupied_after hsparing file hfile
    rw [hrefines.contains_contributors]
    exact List.contains_iff_exists_mem_beq.2 ⟨_, List.mem_map_of_mem hi, BEq.symm hsame⟩
  exact ⟨hcount, hcount ▸ hempty⟩

namespace Index

/-- The file `/a.ts` imports `/b`. -/
def toForget : Import := ⟨⟨⟨"/b"⟩⟩, ⟨⟨"/a.ts"⟩, ⟨8, 11⟩⟩⟩

/-- The file `/a.ts` imports `/c`. -/
def toKeep : Import := ⟨⟨⟨"/c"⟩⟩, ⟨⟨"/a.ts"⟩, ⟨22, 25⟩⟩⟩

/-- The module `/b` is forgotten, from which `/a.ts` has its only import. -/
def forgotten : List Change :=
  [.add toForget.target toForget.site, .dropModule ⟨"/b.ts"⟩ toForget.target]

/-- The module `/b` is forgotten, from which `/a.ts` has one of its imports. -/
def spared : List Change := .add toKeep.target toKeep.site :: forgotten

theorem sparing_spared : Sparing [] spared := by
  have himports : (Change.add toForget.target toForget.site).inList [toKeep] =
      [toKeep, toForget] := rfl
  refine ⟨trivial, trivial, ?_, trivial⟩
  have hfirst : (Change.add toKeep.target toKeep.site).inList [] = [toKeep] := rfl
  rw [hfirst, himports]
  intro i hi _ _
  refine ⟨toKeep, List.mem_cons_self, ?_, by decide +kernel⟩
  rcases List.mem_cons.1 hi with rfl | hi
  · exact BEq.rfl
  · rw [List.mem_singleton.1 hi]
    exact BEq.rfl

end Index

/-- A file that imports another module too is still a contributor. -/
theorem file_count_is_of_files_on_record_spared :
    Index.Sparing [] Index.spared ∧
      (Index.after Index.spared).fileCount = (Index.after Index.spared).contributors.length ∧
      (Index.after Index.spared).fileCount = 1 :=
  ⟨Index.sparing_spared,
    ((file_count_is_of_files_on_record Index.spared).2.2.2.2.2.2 Index.sparing_spared).1,
    by decide +kernel⟩

/-- A file whose last import went with a forgotten module is counted, though the index is empty. -/
theorem forgotten_module_leaves_file_on_record :
    (Index.after Index.forgotten).fileCount = 1 ∧
      (Index.after Index.forgotten).contributors.length = 0 ∧
      (∀ target, (Index.after Index.forgotten).sites target = []) ∧
      (Index.after Index.forgotten).isEmpty = true := by
  have hempty : (Index.after Index.forgotten).isEmpty = true := by decide +kernel
  refine ⟨by decide +kernel, by decide +kernel, fun target => ?_, hempty⟩
  rw [Index.sites, List.isEmpty_iff.1 hempty]
  rfl

end Relocate
