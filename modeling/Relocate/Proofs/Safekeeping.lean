import Relocate.Proofs.Guarantees
import Relocate.Proofs.Histories
import Relocate.Proofs.Loops
import Relocate.Proofs.Shapes

/-! # Moves destroy no file

Each piece of work in a move is gentle: whether it succeeds or fails, what it asks of the file
system spares the files.  Imports are replaced only in a file that was read just before; a file is
renamed only to a place that was found free; and a directory is removed only when nothing is left to
move in it, which is what the courses of the loop say.  So the loop is told by events that spare the
files, from its start to any of its points (`Move.Turns.chronicle`), and no file is ever lost
(`move_destroys_no_file`).
-/

namespace Relocate

open Relocate.Path Disk

namespace Session

open Work

variable {tools : Tools} {s : Session}

/-! ## The imports of files -/

theorem inquire_disk {α : Type} (path : Path) (inquiry : Nat → Disk → Except IoCause α)
    (s : Session) :
    Ensures (inquire path inquiry) s (fun _ s' => s'.disk = s.disk) fun _ s' => s'.disk = s.disk :=
  ensures_inquire (fun _ _ => rfl) fun _ _ => rfl

theorem readText_gentle (path : Path) : Gentle tools (fun tools => readText tools path) s := by
  refine gentle_quiet (fun fs hagrees => ?_) (inquire_disk _ _ s)
  simp only [readText, Tools.withFiles, hagrees.readText]

theorem importsOf_gentle (path : Path) (text : String) :
    Gentle tools (fun tools => importsOf tools path text) s := by
  refine gentle_quiet (fun _ _ => rfl) ((importsOf_ensures tools path text).mono ?_ ?_)
  · rintro _ _ ⟨rfl, -⟩
    rfl
  · rintro _ _ rfl
    rfl

theorem indexText_gentle (text : String) (path : Path) (afresh : Bool) :
    Gentle tools (fun tools => indexText tools text path afresh) s :=
  gentle_quiet (fun _ _ => rfl) (indexText_disk tools text path afresh s)

variable {place : Location}

/-- Replacing imports writes at most the file that was read. -/
theorem replaceImports_gentle (hfiles : tools.files.Faithful) (htree : s.disk.IsTree)
    (hplain : Plain place) (replacements : List Replacement) (readAs : Path) :
    Gentle tools (fun tools => replaceImports tools (ofPlace place) replacements readAs) s := by
  refine gentle_bind (readText_gentle _) (readText_ensures hfiles _) ?_
  rintro text _ ⟨rfl, hread⟩
  refine gentle_bind (importsOf_gentle _ _) (importsOf_ensures tools _ _) ?_
  rintro references _ ⟨rfl, -⟩
  refine gentle_get ?_
  dsimp only
  cases s.resolver.editsFor s.disk readAs references replacements with
  | nil => exact gentle_pure false
  | cons edit edits =>
    dsimp only
    cases TextEdit.applyAll text (edit :: edits) with
    | error problem => exact gentle_throw _
    | ok newText =>
      obtain ⟨-, hfile⟩ := (htree.readText_ofPlace hplain).1 hread
      dsimp only
      refine gentle_bind (perform_gentle _ (.write place newText) ⟨_, hfile⟩) ensures_run ?_
      intro _ s₃ _
      exact gentle_bind (indexText_gentle _ _ _) ensures_run fun _ _ _ => gentle_pure true

theorem redirectIn_gentle (hfiles : tools.files.Faithful) (htree : s.disk.IsTree)
    (hplain : Plain place) (source target : Path) (done : Updated) :
    Gentle tools (fun tools => redirectIn tools source target done (ofPlace place)) s := by
  refine gentle_tryCatch (gentle_get ?_) ensures_run fun _ _ _ => gentle_pure _
  refine gentle_bind (replaceImports_gentle hfiles htree hplain _ _) ensures_run ?_
  intro changed _ _
  cases changed with
  | true => exact gentle_pure _
  | false => exact gentle_pure _

/-- Redirecting the imports of a module writes only files that are there. -/
theorem redirect_gentle (hfiles : tools.files.Faithful) {stale : Location → Prop}
    (hsound : Sound tools stale s) (source target : Path) :
    Gentle tools (fun tools => redirect tools source target) s := by
  refine gentle_get (gentle_foldlM (Redirected tools stale s) ?_ ?_ ?_)
  · exact ⟨hsound, .refl hsound.tree, by simp, by simp⟩
  · intro file hfile done s₁ h₁
    exact redirectIn_ensures hfiles (hsound.known hfile) h₁
  · intro file hfile done s₁ h₁
    obtain ⟨place, hplain, rfl, -⟩ := hsound.known hfile
    exact redirectIn_gentle hfiles h₁.sound.tree hplain source target done

/-- Adjusting the imports of a file that has moved writes at most that file. -/
theorem adjustMoved_gentle (hfiles : tools.files.Faithful) (htree : s.disk.IsTree)
    (hplain : Plain place) (source : Path) :
    Gentle tools (fun tools => adjustMoved tools source (ofPlace place)) s := by
  refine gentle_bind (readText_gentle _) (readText_ensures hfiles _) ?_
  rintro text _ ⟨rfl, -⟩
  refine gentle_bind (importsOf_gentle _ _) (importsOf_ensures tools _ _) ?_
  rintro references _ ⟨rfl, -⟩
  have hreplace := replaceImports_gentle (s := { s with clock := s.clock + 1 }) hfiles htree hplain
    (movedReplacements s.resolver s.disk source (ofPlace place) references) source
  refine gentle_get (gentle_bind hreplace ensures_run ?_)
  intro changed s₁ _
  cases changed with
  | true => exact gentle_pure true
  | false => exact gentle_bind (indexText_gentle _ _ _) ensures_run fun _ _ _ => gentle_pure false

theorem forgetMoved_gentle (source target : Path) :
    Gentle tools (fun _ => forgetMoved source target) s := by
  refine gentle_quiet (fun _ _ => rfl) (ensures_modify ?_)
  dsimp only
  split
  · rfl
  · rfl

theorem updateMoved_gentle (hfiles : tools.files.Faithful) (htree : s.disk.IsTree)
    (hplain : Plain place) (source : Path) :
    Gentle tools (fun tools => updateMoved tools source (ofPlace place)) s := by
  refine gentle_get ?_
  by_cases hsource : s.resolver.known.isSource (ofPlace place) = true
  · simp only [hsource, if_true]
    refine gentle_bind (gentle_tryCatch (adjustMoved_gentle hfiles htree hplain source) ensures_run
      fun cause _ _ => ?_) ensures_run fun changed _ _ => ?_
    · exact gentle_bind (forgetMoved_gentle _ _) ensures_run fun _ _ _ => gentle_throw cause
    · exact gentle_bind (forgetMoved_gentle _ _) ensures_run fun _ _ _ => gentle_pure changed
  · simp only [hsource]
    exact gentle_bind (forgetMoved_gentle _ _) ensures_run fun _ _ _ => gentle_pure false

end Session

/-! ## The loop of a move -/

namespace Move

open Work Session

variable {tools : Tools} {s : Session} {source target : Location}

theorem recordUpdated_withFiles {fs : FileSystem} (h : tools.files.Agrees fs []) (source : Path) :
    recordUpdated (tools.withFiles fs) source = recordUpdated tools source := by
  funext report file
  have hread : Session.readText (tools.withFiles fs) file = Session.readText tools file := by
    simp only [Session.readText, Tools.withFiles, h.readText]
  have hrefresh : refresh (tools.withFiles fs) file = refresh tools file := by
    rw [refresh, hread]
    rfl
  rw [recordUpdated, hrefresh]
  rfl

/-- **Moving a file to a free place** destroys no file, whether it succeeds or fails. -/
theorem moveFile_gentle (hfiles : tools.files.Faithful) (hsound : Sound tools nowhere s)
    {content : Content} (hsource : s.disk.entry? source = some (.file content))
    (htarget : Plain target) (hne : target ≠ [])
    (hfree : Writable target → s.disk.entry? target = none) (report : Report) :
    Gentle tools (fun tools => moveFile tools (ofPlace source) (ofPlace target) report) s := by
  have hplain := hsound.tree.plain hsource
  refine gentle_bind (redirect_gentle hfiles hsound _ _) (redirect_ensures hfiles hsound _ _) ?_
  intro updated s₁ hredirected
  have hparent : (ofPlace target).parent? = some (ofPlace target.dropLast) := by
    obtain ⟨above, name, rfl⟩ := (List.eq_nil_or_concat' target).resolve_left hne
    rw [parent?_ofPlace_concat htarget, List.dropLast_concat]
  have hplain' : Plain target.dropLast := htarget.of_prefix (List.dropLast_prefix target)
  simp only [hparent]
  refine gentle_bind (perform_gentle _ (.make target.dropLast) hplain')
    (ensureDir_ensures hfiles hredirected.sound hplain') ?_
  rintro _ s₂ ⟨hsound₂, hgrown, hdir, -⟩
  obtain ⟨content₁, hsource₁, -⟩ := hredirected.rewritten.kept source content hsource
  have hsource₂ := (hgrown.sameFiles source content₁).2 hsource₁
  have hfree₂ : Writable target → ∀ c, s₂.disk.entry? target ≠ some (.file c) := by
    intro hwritable c hc
    obtain ⟨c', hc'⟩ := hredirected.rewritten.old target c ((hgrown.sameFiles target c).1 hc)
    simp [hfree hwritable] at hc'
  have hspares : (Event.ofDeed tools.files s₂.clock s₂.disk (.rename source target)).Spares := by
    refine ⟨⟨_, hsource₂⟩, htarget, fun hsucceeded => ?_⟩
    have hmirrors := hfiles.rename s₂.clock s₂.disk source target hsound₂.tree hplain htarget
    cases hresult : (tools.files.rename s₂.clock s₂.disk (ofPlace source) (ofPlace target)).1 with
    | error cause =>
      simp [Event.ofDeed, Deed.on, hresult, Except.isOk, Except.toBool] at hsucceeded
    | ok value =>
      have hok := (congrArg Prod.fst (hmirrors.ok hresult)).symm.trans hresult
      exact hfree₂ (hsound₂.tree.rename_ofPlace hsource₂ htarget hok).1
  refine gentle_bind (perform_gentle _ (.rename source target) hspares)
    (rename_ensures hfiles hsound₂ hsource₂ htarget hfree₂) ?_
  rintro _ s₃ ⟨hsound₃, -, -⟩
  have hrecord := recordAll_ensures hfiles hsound₃ hredirected.files (ofPlace source)
  refine gentle_bind (gentle_quiet (fun fs hagrees => ?_) ?_) (hrecord _) ?_
  · rw [recordUpdated_withFiles hagrees]
  · exact (hrecord _).mono (fun _ _ h => h.2.2) fun _ _ h => h.elim
  · rintro report₁ s₄ ⟨-, hsound₄, -⟩
    refine gentle_tryCatch ?_ ensures_run fun _ _ _ => gentle_pure _
    refine gentle_bind (updateMoved_gentle hfiles hsound₄.tree htarget _) ensures_run ?_
    intro changed _ _
    cases changed with
    | true => exact gentle_pure _
    | false => exact gentle_pure _

theorem contains_withFiles {fs : FileSystem} (h : tools.files.Agrees fs []) (path : Path) :
    Session.contains (tools.withFiles fs) path = Session.contains tools path := by
  simp only [Session.contains, Tools.withFiles, h.contains]

theorem temporaryPlace_withFiles {fs : FileSystem} (h : tools.files.Agrees fs []) (dir : Path)
    (taken : List Path) (tries : Nat) :
    temporaryPlace (tools.withFiles fs) dir taken tries = temporaryPlace tools dir taken tries := by
  induction tries with
  | zero => rfl
  | succ tries ih =>
    simp only [temporaryPlace, ih, contains_withFiles h]
    rfl

theorem contains_gentle {β : Type} {path : Path} {rest : Tools → Bool → Work β}
    (hrest : Gentle tools (fun tools' => rest tools' (tools.files.contains s.disk path)) s) :
    Gentle tools (fun tools => Session.contains tools path >>= rest tools) s := by
  have hensures : Ensures (Session.contains tools path) s
      (fun found s' => found = tools.files.contains s.disk path ∧ s' = s) fun _ _ => False :=
    ensures_bind (ensures_get (ensures_pure ⟨rfl, rfl⟩))
  refine gentle_bind (gentle_quiet (fun _ hagrees => contains_withFiles hagrees path)
    (ensures_bind (ensures_get (ensures_pure rfl)))) hensures ?_
  rintro _ _ ⟨rfl, rfl⟩
  exact hrest

theorem isDir_gentle {β : Type} {path : Path} {rest : Tools → Bool → Work β}
    (hrest : Gentle tools (fun tools' => rest tools' (tools.files.isDir s.disk path)) s) :
    Gentle tools (fun tools => Session.isDir tools path >>= rest tools) s := by
  have hensures : Ensures (Session.isDir tools path) s
      (fun found s' => found = tools.files.isDir s.disk path ∧ s' = s) fun _ _ => False :=
    ensures_bind (ensures_get (ensures_pure ⟨rfl, rfl⟩))
  refine gentle_bind (gentle_quiet (fun fs hagrees => ?_)
    (ensures_bind (ensures_get (ensures_pure rfl)))) hensures ?_
  · simp only [Session.isDir, Tools.withFiles, hagrees.isDir]
  · rintro _ _ ⟨rfl, rfl⟩
    exact hrest

theorem readDir_gentle (path : Path) :
    Gentle tools (fun tools => Session.readDir tools path) s := by
  refine gentle_quiet (fun fs hagrees => ?_) (inquire_disk _ _ s)
  simp only [Session.readDir, Tools.withFiles, hagrees.readDir]

/-- Work that has failed is gentle, whatever would have come next. -/
theorem fail_gentle {α β : Type} (cause : Error) (rest : Tools → α → Work β) :
    Gentle tools (fun tools => (throw cause : Work α) >>= rest tools) s :=
  gentle_quiet (fun _ _ => rfl) (ensures_bind (ensures_throw rfl))

theorem step_move_gentle (hfiles : tools.files.Faithful) (hnames : tools.HasPlainNames)
    (hsound : Sound tools nowhere s) {a b : Location} (ha : Plain a) (hb : Plain b)
    (p : Progress) :
    Gentle tools (fun tools => step tools (.move (ofPlace a) (ofPlace b)) p) s := by
  unfold step
  dsimp only
  by_cases hsame : (ofPlace a == ofPlace b) = true
  · simp only [hsame, if_true]
    exact gentle_pure p
  simp only [hsame]
  refine contains_gentle ?_
  cases htaken : tools.files.contains s.disk (ofPlace b) with
  | true => exact fail_gentle _ _
  | false =>
  refine contains_gentle ?_
  cases hthere : tools.files.contains s.disk (ofPlace a) with
  | false => exact fail_gentle _ _
  | true =>
  rw [hfiles.contains] at htaken
  have hfree : Writable b → s.disk.entry? b = none :=
    hsound.tree.free_of_not_contains hb (Bool.eq_false_iff.1 htaken)
  rw [hfiles.contains] at hthere
  obtain ⟨hwritable, entry, hentry⟩ := (hsound.tree.contains_ofPlace ha).1 hthere
  refine isDir_gentle ?_
  rw [hfiles.isDir]
  cases entry with
  | file content =>
    have hfile : s.disk.isDir (ofPlace a) = false := by
      rw [Bool.eq_false_iff, ne_eq, hsound.tree.isDir_ofPlace ha, hentry]
      simp
    rw [hfile]
    have hroot : b ≠ [] := by
      rintro rfl
      simpa using hfree rfl
    exact gentle_bind (moveFile_gentle hfiles hsound hentry hb hroot hfree _) ensures_run
      fun _ _ _ => gentle_pure _
  | directory =>
    rw [(hsound.tree.isDir_ofPlace ha).2 ⟨hwritable, hentry⟩]
    cases (ofPlace a).isInDir (ofPlace b) with
    | true =>
      have hdir : Plain a.dropLast := ha.of_prefix (List.dropLast_prefix a)
      have hdisk : ∀ taken tries, Ensures (temporaryPlace tools (ofPlace a.dropLast) taken tries) s
          (fun _ s' => s'.disk = s.disk) fun _ s' => s'.disk = s.disk := by
        intro taken tries
        refine (temporaryPlace_fresh hnames hdir taken tries).mono ?_ ?_
        · rintro _ _ ⟨⟨k, rfl⟩, -⟩
          rfl
        · rintro _ _ ⟨⟨k, rfl⟩, -⟩
          rfl
      rw [parent?_getD_ofPlace ha]
      exact gentle_bind (gentle_quiet (fun _ hagrees => temporaryPlace_withFiles hagrees _ _ _)
        (hdisk _ _)) ensures_run fun _ _ _ => gentle_pure _
    | false =>
      refine gentle_bind (perform_gentle _ (.make b) hb) ensures_run fun _ _ _ => ?_
      exact gentle_bind (readDir_gentle _) ensures_run fun _ _ _ => gentle_pure _

/-- **One step of a move** destroys no file, whether it succeeds or fails. -/
theorem step_gentle (hfiles : tools.files.Faithful) (hnames : tools.HasPlainNames)
    (hsound : Sound tools nowhere s) {task : Task} (hdue : Due s.disk task) (p : Progress) :
    Gentle tools (fun tools => step tools task p) s := by
  cases hdue with
  | move ha hb => exact step_move_gentle hfiles hnames hsound ha hb p
  | @remove a ha hne hempty =>
    exact gentle_bind (perform_gentle _ (.remove a) ⟨ha, hne, hempty⟩) ensures_run
      fun _ _ _ => gentle_pure p

/-- **The loop of a move as a history**: from its start to any of its points there are events that
lead there, they are all that it asked of the file system, and each of them spares the files. -/
theorem Turns.chronicle (hfiles : tools.files.Faithful) (hnames : tools.HasPlainNames)
    (hsound : Sound tools nowhere s) {S T : Location} (hS : Plain S) (hT : Plain T) {n : Nat}
    {outcome : Except Error Progress} {t : Session}
    (h : Turns tools (.move (ofPlace S) (ofPlace T)) s n outcome t) :
    ∃ events, Played tools.files s.disk events t.disk ∧
      (∀ fs, tools.files.Agrees fs events →
        Turns (tools.withFiles fs) (.move (ofPlace S) (ofPlace T)) s n outcome t) ∧
      ∀ e ∈ events, e.Spares := by
  induction h with
  | start => exact ⟨[], .nil _, fun _ _ => .start, by simp⟩
  | @turn n p t t' task tasks outcome h htasks hstep ih =>
    obtain ⟨events, hplayed, hcomplete, hspares⟩ := ih
    obtain ⟨hsound₁, hcourse⟩ := h.course hfiles hnames hsound hS hT
    have hcourse := hcourse p rfl
    rw [htasks] at hcourse
    obtain ⟨events', ⟨hplayed', hcomplete'⟩, hspares'⟩ :=
      step_gentle hfiles hnames hsound₁ (hcourse.due hT) { p with tasks := tasks }
    rw [hstep] at hplayed'
    refine ⟨events ++ events', hplayed.append hplayed', fun fs hagrees => ?_, ?_⟩
    · have hbefore := hcomplete fs (hagrees.mono fun e he => List.mem_append_left _ he)
      have hturn := hcomplete' fs (hagrees.mono fun e he => List.mem_append_right _ he)
      exact hbefore.turn htasks (hturn.trans hstep)
    · intro e he
      exact (List.mem_append.1 he).elim (hspares e) (hspares' e)

end Move

open Session

/-- **No move ever destroys a file**, also if it fails half-way.  At every point of its loop: a
directory whose removal comes next holds no file.  There are events, those that the loop has asked
of the file system so far, each of which spares the files: so no file was renamed to where there was
one, and no removal met one.  After any number of them the files that there were correspond to the
files that there are, and a file that was not rewritten holds what it held.  The file system need
only be faithful. -/
theorem move_destroys_no_file {tools : Tools} (hfiles : tools.files.Faithful)
    (hnames : tools.HasPlainNames) {s : Session} (hs : Reached tools s) (source target : Path)
    {n : Nat} {outcome : Except Error Progress} {t : Session}
    (hturns : Move.Turns tools (.move (s.root.absolutize source) (s.root.absolutize target)) s n
      outcome t) :
    (∀ p dir tasks, outcome = .ok p → p.tasks = .remove dir :: tasks →
      ∀ q content, dir.place <+: q → t.disk.entry? q ≠ some (.file content)) ∧
    ∃ events, Played tools.files s.disk events t.disk ∧
      (∀ fs, tools.files.Agrees fs events →
        Move.Turns (tools.withFiles fs)
          (.move (s.root.absolutize source) (s.root.absolutize target)) s n outcome t) ∧
      (∀ e ∈ events, e.Spares) ∧
      ∀ done d, done <+: events → Played tools.files s.disk done d →
        Set.BijOn (whereabouts done) s.disk.files d.files ∧
        ∀ q ∈ s.disk.files, ¬ RewrittenIn done q →
          d.entry? (whereabouts done q) = s.disk.entry? q := by
  have hsound := hs.sound hfiles hnames
  obtain ⟨S, hS, hsource⟩ := hsound.absolutize source
  obtain ⟨T, hT, htarget⟩ := hsound.absolutize target
  rw [hsource, htarget] at hturns ⊢
  constructor
  · rintro p dir tasks rfl htasks
    obtain ⟨-, hcourse⟩ := hturns.course hfiles hnames hsound hS hT
    have hcourse := hcourse p rfl
    rw [htasks] at hcourse
    exact (hcourse.due hT).of_remove.2
  · obtain ⟨events, hplayed, hcomplete, hspares⟩ :=
      hturns.chronicle hfiles hnames hsound hS hT
    refine ⟨events, hplayed, hcomplete, hspares, fun done d hpre hdone => ?_⟩
    have hkept := hdone.kept hfiles hsound.tree fun e he => hspares e (hpre.subset he)
    exact ⟨hkept.bijective, hkept.content⟩

/-- The move of a directory into itself fails half-way, after its file went to a temporary place.
No file is lost in what was done until then. -/
theorem move_destroys_no_file_in_failure :
    (SelfImport.moved SelfImport.failing).1.isOk = false ∧
    ∃ n outcome,
      Move.Turns SelfImport.failing (.move ⟨"/p/src"⟩ ⟨"/p/src/lib"⟩)
        (SelfImport.prepared SelfImport.failing) n outcome
        (SelfImport.moved SelfImport.failing).2 ∧
      ∃ events,
        Played SelfImport.failing.files (SelfImport.prepared SelfImport.failing).disk events
          (SelfImport.moved SelfImport.failing).2.disk ∧
        (∀ e ∈ events, e.Spares) ∧
        Set.BijOn (whereabouts events) (SelfImport.prepared SelfImport.failing).disk.files
          (SelfImport.moved SelfImport.failing).2.disk.files := by
  have hreached : Reached SelfImport.failing (SelfImport.prepared SelfImport.failing) :=
    .prepare (.start _ _ (by decide +kernel))
  have hsource : (SelfImport.prepared SelfImport.failing).root.absolutize ⟨"src"⟩ =
      ⟨"/p/src"⟩ := by decide +kernel
  have htarget : (SelfImport.prepared SelfImport.failing).root.absolutize ⟨"src/lib"⟩ =
      ⟨"/p/src/lib"⟩ := by decide +kernel
  obtain ⟨n, outcome, hturns⟩ := Move.move_turns SelfImport.failing ⟨"src"⟩ ⟨"src/lib"⟩
    (SelfImport.prepared SelfImport.failing)
  refine ⟨by decide +kernel, n, outcome, by rwa [hsource, htarget] at hturns, ?_⟩
  obtain ⟨-, events, hplayed, -, hspares, hkept⟩ := move_destroys_no_file
    (FileSystem.withFaults_faithful rfl) SelfImport.hasPlainNames_failing hreached _ _ hturns
  exact ⟨events, hplayed, hspares, (hkept events _ (List.prefix_refl _) hplayed).1⟩

end Relocate
