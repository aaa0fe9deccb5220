import Relocate.Move.Run
import Relocate.Proofs.FlatIndex
import Relocate.Proofs.Redirection

/-! # Moving one file

A file is moved in one piece: the files that import it are rewritten, directories are made, the file
is renamed, and then its own imports are rewritten.  `Move.FileMoved` says what this does to the
disk and the report: the file stands at its new place, every other file where it was, and whatever
holds something else than before is named in the report.

The sites in the moved file outlive it from the rename until the index forgets its old place; no
failure in between can leave them behind (`Move.moveFile_ensures`).
-/

namespace Relocate

open Relocate.Path Work

/-! ## What a report names -/

namespace Report

variable {r : Report} {place q : Location} {file : Path}

/-- The report names the file at a place: as updated, or as one that could not be. -/
def Names (r : Report) (place : Location) : Prop :=
  r.updated.contains (ofPlace place) = true ∨ ∃ f ∈ r.failed, (f.file == ofPlace place) = true

theorem Names.addUpdated (h : r.Names q) (file : Path) : (r.addUpdated file).Names q :=
  h.imp contains_insertNew_of_contains id

theorem names_addUpdated (r : Report) (place : Location) :
    (r.addUpdated (ofPlace place)).Names place :=
  .inl (contains_insertNew _ _)

theorem Names.addFailure (h : r.Names q) (file : Path) (error : Error) :
    (r.addFailure file error).Names q := by
  refine h.imp id ?_
  rintro ⟨f, hf, heq⟩
  exact ⟨f, List.mem_append_left _ hf, heq⟩

theorem names_addFailure (r : Report) (place : Location) (error : Error) :
    (r.addFailure (ofPlace place) error).Names place :=
  .inr ⟨⟨ofPlace place, error⟩, by simp [Report.addFailure], BEq.rfl⟩

theorem mem_foldl_insertNew (items : List Path) :
    ∀ {start : List Path}, file ∈ items.foldl insertNew start → file ∈ start ∨ file ∈ items := by
  induction items with
  | nil => exact fun h => .inl h
  | cons item items ih =>
    intro start h
    rcases ih h with h | h
    · rcases mem_insertNew h with h | rfl
      · exact .inl h
      · exact .inr List.mem_cons_self
    · exact .inr (List.mem_cons_of_mem _ h)

/-- The report follows a file that moves. -/
theorem Names.addMoved (h : r.Names q) (hq : Plain q) {source : Location} (hsource : Plain source)
    (target : Location) :
    (r.addMoved (ofPlace source) (ofPlace target)).Names (if q = source then target else q) := by
  -- An entry for the file goes on to name the place the file went to.
  have hfollow : ∀ f : Path, (f == ofPlace q) = true →
      (relocated (ofPlace source) (ofPlace target) f ==
        ofPlace (if q = source then target else q)) = true := by
    intro f hf
    unfold relocated
    by_cases heq : q = source
    · subst heq
      rw [if_pos hf, if_pos rfl]
      exact BEq.rfl
    · rw [if_neg heq, if_neg]
      · exact hf
      · intro hf'
        exact heq ((ofPlace_beq hq hsource).1 (BEq.trans (BEq.symm hf) hf'))
  rcases h with h | ⟨f, hf, heq⟩
  · rw [List.contains_eq_any_beq, List.any_eq_true] at h
    obtain ⟨f, hf, heq⟩ := h
    refine .inl ((contains_foldl_insertNew _ _ _).trans (Bool.or_eq_true_iff.2 (.inr ?_)))
    rw [List.contains_eq_any_beq, List.any_eq_true]
    exact ⟨_, List.mem_map.2 ⟨f, hf, rfl⟩, BEq.symm (hfollow f (BEq.symm heq))⟩
  · exact .inr ⟨_, List.mem_map.2 ⟨f, hf, rfl⟩, hfollow f.file heq⟩

theorem Names.foldl_addUpdated (files : List Path) {r : Report}
    (h : r.Names q ∨ ofPlace q ∈ files) : (files.foldl Report.addUpdated r).Names q := by
  induction files generalizing r with
  | nil => simpa using h
  | cons file files ih =>
    rw [List.foldl_cons]
    rcases h with h | h
    · exact ih (.inl (h.addUpdated file))
    · rcases List.mem_cons.1 h with rfl | h
      · exact ih (.inl (names_addUpdated r q))
      · exact ih (.inr h)

theorem Names.foldl_addFailure (failed : List (Path × Error)) {r : Report}
    (h : r.Names q ∨ ∃ error, (ofPlace q, error) ∈ failed) :
    (failed.foldl (fun r (file, error) => r.addFailure file error) r).Names q := by
  induction failed generalizing r with
  | nil => simpa using h
  | cons first failed ih =>
    obtain ⟨file, error⟩ := first
    rw [List.foldl_cons]
    rcases h with h | ⟨error', h⟩
    · exact ih (.inl (h.addFailure file error))
    · rcases List.mem_cons.1 h with heq | h
      · cases heq
        exact ih (.inl (names_addFailure r q error))
      · exact ih (.inr ⟨error', h⟩)

theorem moved_foldl_addUpdated (files : List Path) (r : Report) :
    (files.foldl Report.addUpdated r).moved = r.moved := by
  induction files generalizing r with
  | nil => rfl
  | cons file files ih => exact ih (r.addUpdated file)

theorem moved_foldl_addFailure (failed : List (Path × Error)) (r : Report) :
    (failed.foldl (fun r (file, error) => r.addFailure file error) r).moved = r.moved := by
  induction failed generalizing r with
  | nil => rfl
  | cons first failed ih => exact ih (r.addFailure first.1 first.2)

theorem failed_foldl_addUpdated (files : List Path) (r : Report) :
    (files.foldl Report.addUpdated r).failed = r.failed := by
  induction files generalizing r with
  | nil => rfl
  | cons file files ih => exact ih (r.addUpdated file)

theorem failed_foldl_addFailure (failed : List (Path × Error)) (r : Report) :
    (failed.foldl (fun r (file, error) => r.addFailure file error) r).failed =
      r.failed ++ failed.map fun f => ⟨f.1, f.2⟩ := by
  induction failed generalizing r with
  | nil => simp
  | cons first failed ih =>
    rw [List.foldl_cons, ih]
    simp [Report.addFailure]

/-- Every file that the report speaks of, as updated or as one that could not be, is on the disk. -/
structure OnDisk (r : Report) (d : Disk) : Prop where
  updated : ∀ file ∈ r.updated, ∃ q content, file = ofPlace q ∧ d.entry? q = some (.file content)
  failed : ∀ f ∈ r.failed, ∃ q content, f.file = ofPlace q ∧ d.entry? q = some (.file content)

namespace OnDisk

variable {d d' : Disk}

theorem of_sameFiles (h : r.OnDisk d) (hsame : Disk.SameFiles d d') : r.OnDisk d' := by
  constructor
  · intro file hfile
    obtain ⟨q, content, heq, hq⟩ := h.updated file hfile
    exact ⟨q, content, heq, (hsame q content).2 hq⟩
  · intro f hf
    obtain ⟨q, content, heq, hq⟩ := h.failed f hf
    exact ⟨q, content, heq, (hsame q content).2 hq⟩

theorem addUpdated (h : r.OnDisk d) {q : Location} {content : Content}
    (hq : d.entry? q = some (.file content)) : (r.addUpdated (ofPlace q)).OnDisk d := by
  refine ⟨fun file hfile => ?_, h.failed⟩
  rcases mem_insertNew hfile with hfile | rfl
  · exact h.updated file hfile
  · exact ⟨q, content, rfl, hq⟩

theorem addFailure (h : r.OnDisk d) {q : Location} {content : Content}
    (hq : d.entry? q = some (.file content)) (error : Error) :
    (r.addFailure (ofPlace q) error).OnDisk d := by
  refine ⟨h.updated, fun f hf => ?_⟩
  rcases List.mem_append.1 hf with hf | hf
  · exact h.failed f hf
  · rw [List.mem_singleton.1 hf]
    exact ⟨q, content, rfl, hq⟩

theorem foldl_addUpdated (files : List Path) {r : Report} (h : r.OnDisk d)
    (hfiles : ∀ file ∈ files, ∃ q content, file = ofPlace q ∧ d.entry? q = some (.file content)) :
    (files.foldl Report.addUpdated r).OnDisk d := by
  induction files generalizing r with
  | nil => exact h
  | cons file files ih =>
    obtain ⟨q, content, rfl, hq⟩ := hfiles file List.mem_cons_self
    exact ih (h.addUpdated hq) fun file hfile => hfiles file (List.mem_cons_of_mem _ hfile)

theorem foldl_addFailure (failed : List (Path × Error)) {r : Report} (h : r.OnDisk d)
    (hfailed : ∀ f ∈ failed, ∃ q content, f.1 = ofPlace q ∧ d.entry? q = some (.file content)) :
    (failed.foldl (fun r (file, error) => r.addFailure file error) r).OnDisk d := by
  induction failed generalizing r with
  | nil => exact h
  | cons first failed ih =>
    obtain ⟨q, content, heq, hq⟩ := hfailed first List.mem_cons_self
    obtain ⟨file, error⟩ := first
    cases heq
    exact ih (h.addFailure hq error) fun f hf => hfailed f (List.mem_cons_of_mem _ hf)

/-- The files may be elsewhere on another disk if the report follows them. -/
theorem addMoved (h : r.OnDisk d) (htree : d.IsTree) {source target : Location}
    (hsource : Plain source)
    (hfiles : ∀ q content, d.entry? q = some (.file content) →
      ∃ content', d'.entry? (if q = source then target else q) = some (.file content')) :
    (r.addMoved (ofPlace source) (ofPlace target)).OnDisk d' := by
  have hfollow : ∀ q content, d.entry? q = some (.file content) → ∃ q' content',
      relocated (ofPlace source) (ofPlace target) (ofPlace q) = ofPlace q' ∧
        d'.entry? q' = some (.file content') := by
    intro q content hq
    obtain ⟨content', hq'⟩ := hfiles q content hq
    refine ⟨_, content', ?_, hq'⟩
    simp only [relocated, ofPlace_beq (htree.plain hq) hsource]
    split
    · rfl
    · rfl
  constructor
  · intro file hfile
    have hfile := (mem_foldl_insertNew _ hfile).resolve_left (by simp)
    obtain ⟨file₀, hfile₀, rfl⟩ := List.mem_map.1 hfile
    obtain ⟨q, content, rfl, hq⟩ := h.updated file₀ hfile₀
    exact hfollow q content hq
  · intro f hf
    obtain ⟨f₀, hf₀, rfl⟩ := List.mem_map.1 hf
    obtain ⟨q, content, heq, hq⟩ := h.failed f₀ hf₀
    rw [heq]
    exact hfollow q content hq

end OnDisk

end Report

/-! ## Making a directory and renaming -/

namespace Session

open Disk

variable {tools : Tools} {stale : Location → Prop} {s : Session} {source target place : Location}

theorem ensureDir_ensures (hfiles : tools.files.Faithful) (hsound : Sound tools stale s)
    (hplain : Plain place) :
    Ensures (ensureDir tools (ofPlace place)) s
      (fun _ s' => Sound tools stale s' ∧ Grown place s.disk s'.disk ∧
        s'.disk.entry? place = some .directory ∧ Writable place)
      fun _ => Sound tools stale := by
  have hmirrors := hfiles.ensureDir s.clock s.disk place hsound.tree hplain
  refine ensures_perform ?_ ?_
  · intro d hmake
    rw [hmake] at hmirrors
    have heq := hmirrors.ok rfl
    have hmade := hsound.tree.ensureDir_made hplain
    rw [← heq] at hmade
    exact ⟨hsound.withSameFiles _ hmade.grown.tree hmade.grown.sameFiles, hmade.grown,
      hmade.directory rfl, writable_of_ensureDir hplain (congrArg Prod.fst heq).symm⟩
  · intro cause d hmake
    rw [hmake] at hmirrors
    obtain ⟨htree, hsame⟩ := hmirrors.error cause rfl
    exact hsound.withSameFiles _ htree hsame

/-- Renaming a file to a place without a file makes its old place stale. -/
theorem rename_ensures (hfiles : tools.files.Faithful) (hsound : Sound tools stale s)
    {content : Content} (hsource : s.disk.entry? source = some (.file content))
    (htarget : Plain target)
    (hfree : Writable target → ∀ content, s.disk.entry? target ≠ some (.file content)) :
    Ensures (rename tools (ofPlace source) (ofPlace target)) s
      (fun _ s' => Sound tools (fun q => stale q ∨ q = source) s' ∧ Writable target ∧
        ∀ q, s'.disk.entry? q =
          if q = target then some (.file content) else if q = source then none
          else s.disk.entry? q)
      fun _ => Sound tools stale := by
  have hplain := hsound.tree.plain hsource
  have hmirrors := hfiles.rename s.clock s.disk source target hsound.tree hplain htarget
  refine ensures_perform ?_ ?_
  · intro d hrename
    rw [hrename] at hmirrors
    have heq := hmirrors.ok rfl
    have hok : (s.disk.rename (ofPlace source) (ofPlace target)).1 = .ok () :=
      (congrArg Prod.fst heq).symm
    obtain ⟨hwritable, hnone⟩ := hsound.tree.rename_free hsource htarget hfree hok
    obtain ⟨htree, hentries⟩ := hsound.tree.rename_file hsource htarget hnone hok
    rw [← heq] at htree hentries
    refine ⟨hsound.withDisk _ htree ?_, hwritable, hentries⟩
    intro q text hq hstale hread
    obtain ⟨hwritable', he⟩ := (hsound.tree.readText_ofPlace hq).1 hread
    refine (htree.readText_ofPlace hq).2 ⟨hwritable', ?_⟩
    have hqt : q ≠ target := by
      rintro rfl
      simp [hnone] at he
    rw [hentries, if_neg hqt, if_neg hstale, he]
  · intro cause d hrename
    rw [hrename] at hmirrors
    obtain ⟨htree, hsame⟩ := hmirrors.error cause rfl
    exact hsound.withSameFiles _ htree hsame

end Session

/-! ## Moving a file -/

namespace Move

open Disk Session

variable {tools : Tools} {stale : Location → Prop} {s : Session} {source target : Location}

/-- A file went from one place to another, and what happened is in the report: where the file went,
and every file that holds something else than before.  What the report named before it names where
it is now, and it names nothing that is not there.  On a steady file system only the directories
above the new place were added. -/
structure FileMoved (fs : FileSystem) (source target : Location) (report report' : Report)
    (d d' : Disk) : Prop where
  tree : d'.IsTree
  file : ∃ content, d.entry? source = some (.file content)
  writable : Writable target
  free : d.entry? target = none
  kept : ∀ q content, d.entry? q = some (.file content) →
    ∃ content', d'.entry? (shift source target q) = some (.file content') ∧
      (content' = content ∨ report'.Names (shift source target q))
  old : ∀ q content, d'.entry? q = some (.file content) →
    ∃ p content', d.entry? p = some (.file content') ∧ q = shift source target p
  directories : fs.Steady → ∀ q, d'.entry? q = some .directory ↔
    d.entry? q = some .directory ∨ q <+: target.dropLast
  named : ∀ q content, d.entry? q = some (.file content) → report.Names q →
    report'.Names (shift source target q)
  moved : report'.moved = Report.extendMoved (ofPlace source) (ofPlace target) report.moved
  onDisk : report.OnDisk d → report'.OnDisk d'

/-- Only the file itself goes: nothing lies below it. -/
theorem shift_of_file {d : Disk} (h : d.IsTree) {content : Content} {entry : Entry}
    (hsource : d.entry? source = some (.file content)) {q : Location}
    (he : d.entry? q = some entry) :
    shift source target q = if q = source then target else q := by
  by_cases heq : q = source
  · rw [if_pos heq, heq, shift_source]
  · rw [if_neg heq]
    exact shift_outside (fun hpre => heq (h.eq_of_file_prefix hsource he hpre).symm) target

theorem recordUpdated_ensures (hfiles : tools.files.Faithful) (hsound : Sound tools stale s)
    {place : Location} (hplain : Plain place) (source : Path) (report : Report) :
    Ensures (recordUpdated tools source report (ofPlace place)) s
      (fun report' s' => report' = report.addUpdated (ofPlace place) ∧ Reindexed tools stale s s')
      fun _ _ => False := by
  unfold recordUpdated
  split
  · refine ensures_bind (ensures_tryCatch (ensures_bind
      ((refresh_ensures hfiles hplain hsound).mono ?_ ?_)))
    · exact fun _ _ h => ensures_pure (ensures_pure ⟨rfl, h⟩)
    · exact fun _ _ h => ensures_pure (ensures_pure ⟨rfl, h⟩)
  · exact ensures_pure ⟨rfl, hsound, rfl⟩

/-- The files that were updated are recorded one by one, and indexed again where they are. -/
theorem recordAll_ensures (hfiles : tools.files.Faithful) (hsound : Sound tools stale s)
    {files : List Path} {stale' : Location → Prop} {d : Disk}
    (hplaces : ∀ file ∈ files, Known stale' d file) (source : Path) (report : Report) :
    Ensures (files.foldlM (recordUpdated tools source) report) s
      (fun report' s' => report' = files.foldl Report.addUpdated report ∧
        Reindexed tools stale s s')
      fun _ _ => False := by
  refine ensures_foldlM (fun done report' s' =>
    report' = done.foldl Report.addUpdated report ∧ Reindexed tools stale s s')
    ⟨rfl, hsound, rfl⟩ ?_
  rintro done file hfile report' s₁ ⟨rfl, hsound₁, hdisk₁⟩
  obtain ⟨place, hplain, rfl, -⟩ := hplaces file hfile
  refine (recordUpdated_ensures hfiles hsound₁ hplain source _).mono ?_ fun _ _ h => h
  rintro _ s₂ ⟨rfl, hsound₂, hdisk₂⟩
  exact ⟨by rw [List.foldl_append]; rfl, hsound₂, hdisk₂.trans hdisk₁⟩

/-- The last part of moving a file: its own imports, and what the report says of them. -/
theorem updateMoved_report_ensures (hfiles : tools.files.Faithful)
    (hsound : Sound tools (fun q => stale q ∨ q = source) s) (hplain : Plain target)
    (report : Report) :
    Ensures
      (tryCatch
        (do
          if ← Session.updateMoved tools (ofPlace source) (ofPlace target) then
            return report.addUpdated (ofPlace target)
          else return report)
        fun error => return report.addFailure (ofPlace target) error) s
      (fun report' s' => Sound tools stale s' ∧
        Rewritten tools.files (fun q => q = target ∧ report'.Names target) s.disk s'.disk ∧
        (∀ q, report.Names q → report'.Names q) ∧ report'.moved = report.moved ∧
        ∀ (d : Disk) content, d.entry? target = some (.file content) → report.OnDisk d →
          report'.OnDisk d)
      fun _ _ => False := by
  refine ensures_tryCatch (ensures_bind ((updateMoved_ensures hfiles hsound hplain).mono ?_ ?_))
  · rintro changed s₁ ⟨⟨hsound₁, hrewritten₁⟩, hsame⟩
    cases changed with
    | true =>
      refine ensures_pure ⟨hsound₁, hrewritten₁.mono ?_, fun q hq => hq.addUpdated _, rfl,
        fun d content htarget h => h.addUpdated htarget⟩
      rintro q rfl
      exact ⟨rfl, report.names_addUpdated q⟩
    | false =>
      refine ensures_pure ⟨hsound₁, ?_, fun q hq => hq, rfl, fun _ _ _ h => h⟩
      rw [hsame rfl]
      exact .refl hsound.tree
  · rintro error s₁ ⟨hsound₁, hrewritten₁⟩
    refine ensures_pure ⟨hsound₁, hrewritten₁.mono ?_, fun q hq => hq.addFailure _ _, rfl,
      fun d content htarget h => h.addFailure htarget error⟩
    rintro q rfl
    exact ⟨rfl, report.names_addFailure q error⟩

/-- The four parts of moving a file, put together: importing files are rewritten (`d₁`),
directories are made (`d₂`), the file is renamed (`d₃`) and rewritten (`d₄`). -/
theorem FileMoved.of_parts {fs : FileSystem} {report report' : Report} {d d₁ d₂ d₃ d₄ : Disk}
    {updated : Location → Prop} {content content₂ : Content} (h : d.IsTree)
    (hsource : d.entry? source = some (.file content)) (hfree : d.entry? target = none)
    (hwritable : Writable target) (h₁ : Rewritten fs updated d d₁)
    (h₂ : Grown target.dropLast d₁ d₂) (hdir : d₂.entry? target.dropLast = some .directory)
    (hsource₂ : d₂.entry? source = some (.file content₂))
    (h₃ : ∀ q, d₃.entry? q =
      if q = target then some (.file content₂) else if q = source then none else d₂.entry? q)
    (h₄ : Rewritten fs (fun q => q = target ∧ report'.Names target) d₃ d₄)
    (hnames : ∀ q, Plain q → updated q ∨ report.Names q →
      report'.Names (if q = source then target else q))
    (hmoved : report'.moved = Report.extendMoved (ofPlace source) (ofPlace target) report.moved)
    (honDisk : report.OnDisk d → ∀ d' : Disk, (∀ q content, d.entry? q = some (.file content) →
      ∃ content', d'.entry? (if q = source then target else q) = some (.file content')) →
        report'.OnDisk d') :
    FileMoved fs source target report report' d d₄ := by
  have hshift : ∀ q entry, d.entry? q = some entry →
      shift source target q = if q = source then target else q :=
    fun q entry he => shift_of_file h hsource he
  -- A file that is elsewhere before the rename is where it was.
  have hfile₂ : ∀ q c, d₂.entry? q = some (.file c) ↔ d₁.entry? q = some (.file c) :=
    h₂.sameFiles
  have hkept : ∀ q c, d.entry? q = some (.file c) →
      ∃ c', d₄.entry? (if q = source then target else q) = some (.file c') ∧
        (c' = c ∨ report'.Names (if q = source then target else q)) := by
    intro q c hq
    obtain ⟨c₁, hq₁, hsame₁⟩ := h₁.kept q c hq
    have hq₂ := (hfile₂ q c₁).2 hq₁
    have hq₃ : d₃.entry? (if q = source then target else q) = some (.file c₁) := by
      by_cases heq : q = source
      · subst heq
        rw [hsource₂] at hq₂
        simp only [h₃, if_pos]
        exact hq₂
      · have hqt : q ≠ target := by
          rintro rfl
          simp [hfree] at hq
        rw [if_neg heq, h₃, if_neg hqt, if_neg heq, hq₂]
    obtain ⟨c₄, hq₄, hsame₄⟩ := h₄.kept _ _ hq₃
    refine ⟨c₄, hq₄, ?_⟩
    rcases hsame₄ with rfl | ⟨htarget, hnamed⟩
    · exact hsame₁.imp id fun hupdated => hnames q (h.plain hq) (.inl hupdated)
    · rw [htarget]
      exact .inr hnamed
  refine ⟨h₄.tree, ⟨content, hsource⟩, hwritable, hfree, ?_, ?_, ?_, ?_, hmoved, ?_⟩
  · intro q c hq
    rw [hshift q _ hq]
    exact hkept q c hq
  · intro q c hq
    obtain ⟨c₃, hq₃⟩ := h₄.old q c hq
    rw [h₃] at hq₃
    split at hq₃
    · rename_i heq
      refine ⟨source, content, hsource, ?_⟩
      rw [hshift source _ hsource, if_pos rfl, heq]
    · split at hq₃
      · simp at hq₃
      · rename_i heq
        obtain ⟨c₀, hq₀⟩ := h₁.old q c₃ ((hfile₂ q c₃).1 hq₃)
        refine ⟨q, c₀, hq₀, ?_⟩
        rw [hshift q _ hq₀, if_neg heq]
  · intro hsteady q
    rw [h₄.directories hsteady, h₃, ← h₁.directories hsteady]
    have hgrown := h₂.entry_eq hdir
    by_cases heq : q = target
    · subst heq
      have hno : ¬ q <+: q.dropLast := by
        intro hpre
        have hlength := hpre.length_le
        have hne : q ≠ [] := by
          rintro rfl
          simp at hfree
        have hpos := List.length_pos_iff.2 hne
        rw [List.length_dropLast] at hlength
        omega
      have hfree₁ : ¬ d₁.entry? q = some .directory := by
        rw [h₁.directories hsteady, hfree]
        simp
      simp [hno, hfree₁]
    · rw [if_neg heq]
      by_cases heq' : q = source
      · subst heq'
        have hno : ¬ q <+: target.dropLast := by
          intro hpre
          have hq := hgrown q
          rw [if_pos hpre, hsource₂] at hq
          simp at hq
        have hq₁ : ¬ d₁.entry? q = some .directory := by
          rw [h₁.directories hsteady, hsource]
          simp
        simp [hno, hq₁]
      · rw [if_neg heq', hgrown q]
        by_cases hpre : q <+: target.dropLast
        · simp [hpre]
        · simp [hpre]
  · intro q c hq hnamed
    rw [hshift q _ hq]
    exact hnames q (h.plain hq) (.inr hnamed)
  · intro hold
    refine honDisk hold d₄ fun q c hq => ?_
    obtain ⟨c', hq', -⟩ := hkept q c hq
    exact ⟨c', hq'⟩

/-- **Moving a file** to a free place keeps the session sound, whether it succeeds or fails; if it
succeeds, the file has moved. -/
theorem moveFile_ensures (hfiles : tools.files.Faithful) (hsound : Sound tools nowhere s)
    {content : Content} (hsource : s.disk.entry? source = some (.file content))
    (htarget : Plain target) (hne : target ≠ [])
    (hfree : Writable target → s.disk.entry? target = none) (report : Report) :
    Ensures (moveFile tools (ofPlace source) (ofPlace target) report) s
      (fun report' s' => Sound tools nowhere s' ∧
        FileMoved tools.files source target report report' s.disk s'.disk)
      fun _ => Sound tools nowhere := by
  have hplain := hsound.tree.plain hsource
  refine ensures_bind ((redirect_ensures hfiles hsound _ _).mono ?_ fun _ _ h => h.elim)
  intro updated s₁ hredirected
  -- The target has a parent: it is not the root.
  have hparent : (ofPlace target).parent? = some (ofPlace target.dropLast) := by
    obtain ⟨above, name, rfl⟩ := (List.eq_nil_or_concat' target).resolve_left hne
    rw [parent?_ofPlace_concat htarget, List.dropLast_concat]
  have hplain' : Plain target.dropLast := htarget.of_prefix (List.dropLast_prefix target)
  simp only [hparent]
  refine ensures_bind
    ((ensureDir_ensures hfiles hredirected.sound hplain').mono ?_ fun _ _ h => h)
  rintro _ s₂ ⟨hsound₂, hgrown, hdir, -⟩
  obtain ⟨content₁, hsource₁, -⟩ := hredirected.rewritten.kept source content hsource
  have hsource₂ := (hgrown.sameFiles source content₁).2 hsource₁
  have hfree₂ : Writable target → ∀ c, s₂.disk.entry? target ≠ some (.file c) := by
    intro hwritable c hc
    obtain ⟨c', hc'⟩ := hredirected.rewritten.old target c ((hgrown.sameFiles target c).1 hc)
    simp [hfree hwritable] at hc'
  refine ensures_bind
    ((rename_ensures hfiles hsound₂ hsource₂ htarget hfree₂).mono ?_ fun _ _ h => h)
  rintro _ s₃ ⟨hsound₃, hwritable, hentries⟩
  refine ensures_bind
    ((recordAll_ensures hfiles hsound₃ hredirected.files _ _).mono ?_ fun _ _ h => h.elim)
  rintro report₁ s₄ ⟨rfl, hsound₄, hdisk₄⟩
  refine (updateMoved_report_ensures hfiles hsound₄ htarget _).mono ?_ fun _ _ h => h.elim
  rintro report' s₅ ⟨hsound₅, hrewritten₅, hnamed₅, hmoved₅, honDisk₅⟩
  rw [hdisk₄] at hrewritten₅
  refine ⟨hsound₅, .of_parts hsound.tree hsource (hfree hwritable) hwritable
    hredirected.rewritten hgrown hdir hsource₂ hentries hrewritten₅ ?_ ?_ ?_⟩
  · intro q hq hnames
    refine hnamed₅ _ (Report.Names.addMoved ?_ hq hplain target)
    refine Report.Names.foldl_addUpdated _ ?_
    rcases hnames with (hupdated | hfailed) | hnames
    · exact .inr hupdated
    · exact .inl (Report.Names.foldl_addFailure _ (.inr hfailed))
    · exact .inl (Report.Names.foldl_addFailure _ (.inl hnames))
  · rw [hmoved₅, Report.addMoved, Report.moved_foldl_addUpdated, Report.moved_foldl_addFailure]
  · intro hold d' hfiles'
    -- what is known is there, since no place is stale when the file is to be moved
    have hthere : ∀ file, Known nowhere s.disk file →
        ∃ q content, file = ofPlace q ∧ s.disk.entry? q = some (.file content) := by
      rintro _ ⟨q, -, rfl, hq⟩
      obtain ⟨content, hq⟩ := hq.resolve_left id
      exact ⟨q, content, rfl, hq⟩
    have hrecorded := (hold.foldl_addFailure _ fun f hf =>
      hthere f.1 (hredirected.failed f hf)).foldl_addUpdated _ fun file hfile =>
        hthere file (hredirected.files file hfile)
    obtain ⟨content', htarget'⟩ := hfiles' source content hsource
    rw [if_pos rfl] at htarget'
    exact honDisk₅ d' content' htarget' (hrecorded.addMoved hsound.tree hplain hfiles')

end Move

end Relocate
