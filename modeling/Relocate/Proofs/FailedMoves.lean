import Relocate.Proofs.Refusals

/-! # Failed moves of a file

To move a file is to rewrite the files that import it, to make the directories above its new place,
to rename it, and to rewrite its own imports.  Only the two steps in the middle can fail, and
nothing is taken back then: the importing files have been rewritten.  So a move that fails moves no
file, and leaves every other file as it is (`failed_file_move_moves_nothing`), but those that import
the file may speak of a place where it never came to be.
-/

namespace Relocate

open Relocate.Path Work Disk

theorem Disk.SameFiles.trans {d d' d'' : Disk} (h : SameFiles d d') (h' : SameFiles d' d'') :
    SameFiles d d'' :=
  fun place content => (h' place content).trans (h place content)

namespace Work

/-- Work that always comes to an end without an error. -/
def Succeeds {α : Type} (work : Work α) : Prop :=
  ∀ s, Ensures work s (fun _ _ => True) fun _ _ => False

variable {α β : Type} {work : Work α}

theorem succeeds_pure (value : α) : Succeeds (pure value) := fun _ => ensures_pure trivial

theorem Succeeds.bind {rest : α → Work β} (h : Succeeds work) (hrest : ∀ a, Succeeds (rest a)) :
    Succeeds (work >>= rest) := by
  intro s
  refine ensures_bind ((h s).mono ?_ fun _ _ h => h)
  exact fun a s' _ => hrest a s'

/-- Whatever goes wrong is dealt with. -/
theorem succeeds_tryCatch {handle : Error → Work α} (h : ∀ e, Succeeds (handle e)) :
    Succeeds (tryCatch work handle) := by
  intro s
  refine ensures_tryCatch (ensures_run.mono ?_ ?_)
  · exact fun _ _ _ => trivial
  · exact fun e s' _ => h e s'

theorem succeeds_foldlM {step : β → α → Work β} (h : ∀ b a, Succeeds (step b a)) (items : List α)
    (start : β) : Succeeds (items.foldlM step start) := by
  induction items generalizing start with
  | nil => exact succeeds_pure start
  | cons item items ih =>
    rw [List.foldlM_cons]
    exact (h start item).bind ih

end Work

namespace Move

open Session

variable {tools : Tools} {s s' : Session} {a b : Location}

theorem recordUpdated_succeeds (tools : Tools) (source : Path) (report : Report) (file : Path) :
    Succeeds (recordUpdated tools source report file) := by
  unfold recordUpdated
  split
  · exact (succeeds_tryCatch fun _ => succeeds_pure _).bind fun _ => succeeds_pure _
  · exact succeeds_pure _

/-- The move stopped with an error: it was refused, and nothing was done, or the file system failed,
and the files are as they were once the imports of the source had been redirected. -/
def Stopped (tools : Tools) (source target : Path) (s : Session) (e : Error) (s' : Session) :
    Prop :=
  e.isRefusal = true ∧ s' = s ∨
    e.isIo = true ∧ ∃ updated s₁, (Session.redirect tools source target).run.run s =
      (.ok updated, s₁) ∧ SameFiles s₁.disk s'.disk

/-- **Moving a file fails before it is renamed, or when it is.** -/
theorem moveFile_stopped (hfiles : tools.files.Faithful) (htruthful : tools.files.Truthful)
    (hsteady : tools.files.Steady) (htree : s.disk.IsTree) (ha : Plain a) (hb : Plain b)
    (hne : b ≠ []) (report : Report) :
    Ensures (moveFile tools (ofPlace a) (ofPlace b) report) s (fun _ _ => True)
      (Stopped tools (ofPlace a) (ofPlace b) s) := by
  refine ensures_bind ((ensures_run.and
    (Session.redirect_retexts htruthful hsteady _ _ htree)).mono ?_ fun _ _ h => h.2.elim)
  rintro updated s₁ ⟨hredirect, hretexted⟩
  obtain ⟨above, name, rfl⟩ := (List.eq_nil_or_concat' b).resolve_left hne
  simp only [parent?_ofPlace_concat hb]
  have hmakes := hfiles.ensureDir s₁.clock s₁.disk above hretexted.tree hb.left
  refine ensures_bind (ensures_perform ?_ ?_)
  · intro d₂ hmake
    rw [hmake] at hmakes
    have hmade := hretexted.tree.ensureDir_made hb.left
    rw [← hmakes.ok rfl] at hmade
    have hrenames := hfiles.rename (s₁.clock + 1) d₂ a (above ++ [name]) hmade.grown.tree ha hb
    refine ensures_bind (ensures_perform ?_ ?_)
    · -- from here on every error is caught
      intro d₃ _
      refine ensures_bind ((succeeds_foldlM (recordUpdated_succeeds tools _) updated.files _ _).mono
        ?_ fun _ _ h => h.elim)
      intro report' s₄ _
      exact (succeeds_tryCatch (fun _ => succeeds_pure _) s₄).mono (fun _ _ h => h)
        fun _ _ h => h.elim
    · intro cause d₃ hrename
      rw [hrename] at hrenames
      refine .inr ⟨rfl, updated, s₁, hredirect, ?_⟩
      exact hmade.grown.sameFiles.trans (hrenames.error cause rfl).2
  · intro cause d₂ hmake
    rw [hmake] at hmakes
    exact .inr ⟨rfl, updated, s₁, hredirect, (hmakes.error cause rfl).2⟩

/-- The one task of moving a file adds no other, and stops as moving the file does. -/
theorem step_file_stopped (hfiles : tools.files.Faithful) (htruthful : tools.files.Truthful)
    (hsteady : tools.files.Steady) (htree : s.disk.IsTree) (ha : Plain a) (hb : Plain b)
    (hsource : s.disk.isFile (ofPlace a) = true) (p : Progress) :
    Ensures (step tools (.move (ofPlace a) (ofPlace b)) p) s (fun p' _ => p'.tasks = p.tasks)
      (Stopped tools (ofPlace a) (ofPlace b) s) := by
  unfold step
  dsimp only
  split
  · exact ensures_pure rfl
  refine ensures_bind (ensures_bind (ensures_get (ensures_pure ?_)))
  rw [hfiles.contains]
  split
  · exact ensures_throw (.inl ⟨rfl, rfl⟩)
  rename_i hfree
  refine ensures_bind (ensures_bind (ensures_get (ensures_pure ?_)))
  rw [hfiles.contains]
  split
  · exact ensures_throw (.inl ⟨rfl, rfl⟩)
  refine ensures_bind (ensures_bind (ensures_get (ensures_pure ?_)))
  rw [hfiles.isDir]
  have hnodir : s.disk.isDir (ofPlace a) = false := by
    unfold Disk.isFile at hsource
    unfold Disk.isDir
    split at hsource
    · rename_i content hfind
      rw [hfind]
    · simp at hsource
  have hne : b ≠ [] := by
    rintro rfl
    exact hfree rfl
  rw [hnodir]
  refine ensures_bind ((moveFile_stopped hfiles htruthful hsteady htree ha hb hne p.report).mono ?_
    fun _ _ h => h)
  exact fun _ _ _ => ensures_pure rfl

end Move

/-- **A failed move of a file moves nothing.**  If the move of a file ends in an error, every file
is still at its path, and a file that does not import the module of the source, as far as the index
knows, holds what it held.  A move that was refused has changed nothing at all; otherwise the file
system failed, and the files are exactly as redirecting the imports of the source has left them.
This holds of every session on a tree of files. -/
theorem failed_file_move_moves_nothing {tools : Tools} {s s' : Session}
    (hfiles : tools.files.Faithful) (htruthful : tools.files.Truthful)
    (hsteady : tools.files.Steady) (htree : s.disk.IsTree) (hroot : s.root.isAbsolute = true)
    {source target : Path} (hsource : s.disk.isFile (s.root.absolutize source) = true) {e : Error}
    (hrun : (Move.move tools source target).run.run s = (.error e, s')) :
    (∀ q, (∃ content, s'.disk.entry? q = some (.file content)) ↔
      ∃ content, s.disk.entry? q = some (.file content)) ∧
    (∀ q content, ¬ s.ImportsModuleOf (s.root.absolutize source) q →
      (s'.disk.entry? q = some (.file content) ↔ s.disk.entry? q = some (.file content))) ∧
    Move.Stopped tools (s.root.absolutize source) (s.root.absolutize target) s e s' := by
  obtain ⟨hplace, ha⟩ := absolutize_eq_ofPlace hroot source
  obtain ⟨hplace', hb⟩ := absolutize_eq_ofPlace hroot target
  have hmove : Ensures (Move.move tools source target) s (fun _ _ => True)
      (Move.Stopped tools (s.root.absolutize source) (s.root.absolutize target) s) := by
    refine ensures_bind (ensures_get ?_)
    obtain ⟨fuel, hfuel⟩ : ∃ fuel, Move.taskBound s.disk = fuel + 1 := ⟨_, rfl⟩
    rw [hfuel, Move.run, hplace, hplace']
    rw [hplace] at hsource
    refine ensures_bind
      ((Move.step_file_stopped hfiles htruthful hsteady htree ha hb hsource _).mono ?_
        fun _ _ h => h)
    exact fun p' s₁ htasks => Move.ensures_run_nil fuel htasks trivial
  have hstopped := hmove.of_error hrun
  refine ⟨fun q => ?_, fun q content hq => ?_, hstopped⟩
  · rcases hstopped with ⟨-, rfl⟩ | ⟨-, updated, s₁, hredirect, hsame⟩
    · exact Iff.rfl
    · have hretexted := (Session.redirect_retexts htruthful hsteady _ _ htree).of_ok hredirect
      rw [← hretexted.exists_file_iff]
      exact exists_congr (hsame q)
  · rcases hstopped with ⟨-, rfl⟩ | ⟨-, updated, s₁, hredirect, hsame⟩
    · exact Iff.rfl
    · have hretexted := (Session.redirect_retexts htruthful hsteady _ _ htree).of_ok hredirect
      rw [hsame q content, hretexted.same q hq]

/-- A file cannot go below itself: it stays where it is. -/
theorem failed_file_move_moves_nothing_below_itself :
    ∃ e s', (Move.move SelfImport.standard ⟨"src/a.ts"⟩ ⟨"src/a.ts/b.ts"⟩).run.run
        (SelfImport.prepared SelfImport.standard) = (.error e, s') ∧
      (∃ content, s'.disk.entry? ["p", "src", "a.ts"] = some (.file content)) ∧
      ¬ ∃ content, s'.disk.entry? ["p", "src", "a.ts", "b.ts"] = some (.file content) := by
  have hstart : Session.Reached SelfImport.standard (Session.start SelfImport.disk ⟨"."⟩ {}) :=
    .start _ _ (by decide +kernel)
  have hdisk : (SelfImport.prepared SelfImport.standard).disk = SelfImport.disk :=
    (Session.prepare_ensures FileSystem.plain_faithful
      (hstart.sound FileSystem.plain_faithful SelfImport.hasPlainNames_standard)).session.2
  have htree : (SelfImport.prepared SelfImport.standard).disk.IsTree := by
    rw [hdisk]
    decide +kernel
  have hsource : (SelfImport.prepared SelfImport.standard).disk.isFile
      ((SelfImport.prepared SelfImport.standard).root.absolutize ⟨"src/a.ts"⟩) = true := by
    decide +kernel
  have hfails : ((Move.move SelfImport.standard ⟨"src/a.ts"⟩ ⟨"src/a.ts/b.ts"⟩).run.run
      (SelfImport.prepared SelfImport.standard)).1.isOk = false := by decide +kernel
  cases hrun : (Move.move SelfImport.standard ⟨"src/a.ts"⟩ ⟨"src/a.ts/b.ts"⟩).run.run
      (SelfImport.prepared SelfImport.standard) with
  | mk outcome s' =>
    rw [hrun] at hfails
    cases outcome with
    | ok report => simp [Except.isOk, Except.toBool] at hfails
    | error e =>
      obtain ⟨hplaces, -⟩ := failed_file_move_moves_nothing FileSystem.plain_faithful
        FileSystem.plain_truthful FileSystem.plain_steady htree (by decide +kernel) hsource hrun
      refine ⟨e, s', rfl, (hplaces _).2 ?_, fun hbelow => ?_⟩
      · rw [hdisk]
        exact ⟨.text "import './a';\n", by decide⟩
      · obtain ⟨content, hcontent⟩ := (hplaces _).1 hbelow
        have hnone : SelfImport.disk.entry? ["p", "src", "a.ts", "b.ts"] = none := by decide
        rw [hdisk, hnone] at hcontent
        simp at hcontent

/-- A file that imports itself cannot go below itself, and still, it now imports the place below. -/
theorem failed_file_move_leaves_imports_redirected :
    SelfImport.disk.readText ⟨"/p/src/a.ts"⟩ = .ok "import './a';\n" ∧
      ((Move.move SelfImport.standard ⟨"src/a.ts"⟩ ⟨"src/a.ts/b.ts"⟩).run.run
        (SelfImport.prepared SelfImport.standard)).1.map (fun _ => ()) =
          .error (.io (some ⟨"/p/src/a.ts"⟩) .alreadyThere) ∧
      ((Move.move SelfImport.standard ⟨"src/a.ts"⟩ ⟨"src/a.ts/b.ts"⟩).run.run
        (SelfImport.prepared SelfImport.standard)).2.disk.readText ⟨"/p/src/a.ts"⟩ =
          .ok "import './a.ts/b';\n" := by
  decide +kernel

end Relocate
