import Relocate.Proofs.Fate

/-! # Moves as a whole

A move runs its tasks one step at a time.  `Move.step_ensures` says of one step that it keeps the
session sound, whether it succeeds or fails, and that a step which succeeds is one of those that
`Move.Advance` lists; `Move.run_ensures` carries this through the run, and `Move.move_ensures` says
what a whole move does.
-/

namespace Relocate

/-- Fresh names hold no separator, so each of them is one name in a directory. -/
def Tools.HasPlainNames (tools : Tools) : Prop := ∀ k, '/' ∉ (tools.freshName k).toList

namespace Move

open Relocate.Path Work Disk Session

variable {tools : Tools} {s : Session}

/-! ## Temporary places -/

/-- The directory that a temporary place beside a place is in. -/
theorem parent?_getD_ofPlace {a : Location} (ha : Plain a) :
    (ofPlace a).parent?.getD Path.top = ofPlace a.dropLast := by
  obtain rfl | ⟨above, name, rfl⟩ := List.eq_nil_or_concat' a
  · decide
  · rw [parent?_ofPlace_concat ha, List.dropLast_concat, Option.getD_some]

theorem isName_temporary {name : String} (h : '/' ∉ name.toList) :
    IsName (FileSystem.temporaryMark ++ name) := by
  have hlist : (FileSystem.temporaryMark ++ name).toList = ".tsmove-".toList ++ name.toList :=
    String.toList_append
  have hlength : 8 ≤ (FileSystem.temporaryMark ++ name).toList.length := by
    rw [hlist, List.length_append]
    have hmark : ".tsmove-".toList.length = 8 := by decide
    omega
  have hne : ∀ text : String, text.toList.length < 8 → FileSystem.temporaryMark ++ name ≠ text := by
    rintro text htext heq
    rw [heq] at hlength
    omega
  refine ⟨hne "" (by decide), ?_, hne "." (by decide), hne ".." (by decide)⟩
  rw [hlist, List.mem_append]
  rintro (hmem | hmem)
  · exact absurd hmem (by decide)
  · exact h hmem

theorem drawName_ensures (tools : Tools) :
    Ensures (drawName tools) s
      (fun name s' => s' = { s with drawn := s.drawn + 1 } ∧ name = tools.freshName s.drawn)
      fun _ _ => False :=
  ensures_bind (ensures_get (ensures_bind (ensures_set (ensures_pure ⟨rfl, rfl⟩))))

/-- A temporary place is a name in its directory under which nothing is found.  To look for one
changes nothing but how many names were drawn. -/
theorem temporaryPlace_fresh (hnames : tools.HasPlainNames) {dir : Location} (hdir : Plain dir)
    (taken : List Path) (tries : Nat) :
    Ensures (temporaryPlace tools (ofPlace dir) taken tries) s
      (fun place s' => (∃ k, s' = { s with drawn := k }) ∧ ∃ name, IsName name ∧
        place = ofPlace (dir ++ [name]) ∧ tools.files.contains s.disk place = false)
      fun e s' => (∃ k, s' = { s with drawn := k }) ∧
        e = .internal (.noTemporaryName (ofPlace dir)) := by
  induction tries generalizing s with
  | zero => exact ensures_throw ⟨⟨s.drawn, rfl⟩, rfl⟩
  | succ tries ih =>
    refine ensures_bind ((drawName_ensures tools).mono ?_ fun _ _ h => h.elim)
    rintro _ _ ⟨rfl, rfl⟩
    have hname := isName_temporary (hnames s.drawn)
    rw [join_ofPlace hdir hname]
    dsimp only
    split
    · exact ih
    · refine ensures_bind (ensures_bind (ensures_get (ensures_pure ?_)))
      split
      · exact ih
      · rename_i hfree
        refine ensures_pure ⟨⟨s.drawn + 1, rfl⟩, _, hname, rfl, ?_⟩
        simpa using hfree

/-- A temporary place is a new name in its directory. -/
theorem temporaryPlace_ensures (hfiles : tools.files.Faithful) (hnames : tools.HasPlainNames)
    {dir : Location} (hdir : Plain dir) (taken : List Path) (tries : Nat)
    (hsound : Sound tools nowhere s) :
    Ensures (temporaryPlace tools (ofPlace dir) taken tries) s
      (fun place s' => Reindexed tools nowhere s s' ∧
        ∃ name, IsName name ∧ place = ofPlace (dir ++ [name]) ∧
          (Writable (dir ++ [name]) → s.disk.entry? (dir ++ [name]) = none))
      fun _ => Sound tools nowhere := by
  refine (temporaryPlace_fresh hnames hdir taken tries).mono ?_ ?_
  · rintro _ _ ⟨⟨k, rfl⟩, name, hname, rfl, hfree⟩
    rw [hfiles.contains] at hfree
    exact ⟨⟨hsound.of_eq rfl rfl rfl, rfl⟩, name, hname, rfl,
      hsound.tree.free_of_not_contains (hdir.concat hname) (Bool.eq_false_iff.1 hfree)⟩
  · rintro _ _ ⟨⟨k, rfl⟩, -⟩
    exact hsound.of_eq rfl rfl rfl

/-! ## One step -/

/-- The task can be done: a directory that is to be removed is not the root, and holds no file. -/
inductive Due (d : Disk) : Task → Prop
  | move {a b : Location} (ha : Plain a) (hb : Plain b) : Due d (.move (ofPlace a) (ofPlace b))
  | remove {a : Location} (ha : Plain a) (hne : a ≠ [])
    (hempty : ∀ p content, a <+: p → d.entry? p ≠ some (.file content)) :
    Due d (.remove (ofPlace a))

theorem Due.of_remove {d : Disk} {dir : Path} (h : Due d (.remove dir)) :
    dir.place ≠ [] ∧ ∀ p content, dir.place <+: p → d.entry? p ≠ some (.file content) := by
  generalize htask : Task.remove dir = task at h
  cases h with
  | move ha hb => simp at htask
  | remove ha hne hempty =>
    rw [Task.remove.inj htask, place_ofPlace ha]
    exact ⟨hne, hempty⟩

/-- What a step ensures if it succeeds. -/
def Advanced (tools : Tools) (task : Task) (p : Progress) (s : Session) (p' : Progress)
    (s' : Session) : Prop :=
  Sound tools nowhere s' ∧ ∃ added, p'.tasks = added ++ p.tasks ∧
    Advance tools.files task s.disk p.report added s'.disk p'.report

theorem step_remove_ensures (hfiles : tools.files.Faithful) (hsound : Sound tools nowhere s)
    {a : Location} (ha : Plain a) (hne : a ≠ [])
    (hempty : ∀ p content, a <+: p → s.disk.entry? p ≠ some (.file content)) (p : Progress) :
    Ensures (step tools (.remove (ofPlace a)) p) s (Advanced tools (.remove (ofPlace a)) p s)
      fun _ => Sound tools nowhere := by
  have hmirrors := hfiles.removeTree s.clock s.disk a hsound.tree ha hne
  refine ensures_bind (ensures_perform ?_ ?_)
  · intro d hremove
    rw [hremove] at hmirrors
    have heq := hmirrors.ok rfl
    have hd : d = s.disk.eraseTree a := by
      rcases hsound.tree.removeTree_ofPlace ha hne with ⟨cause, hplain⟩ | hplain
      · rw [hplain] at heq
        simp at heq
      · rw [hplain] at heq
        exact congrArg Prod.snd heq
    subst hd
    refine ensures_pure ⟨?_, [], rfl, .remove ha⟩
    exact hsound.withSameFiles _ (hsound.tree.eraseTree a) (sameFiles_eraseTree hne hempty)
  · intro cause d hremove
    rw [hremove] at hmirrors
    obtain ⟨htree, hsame⟩ := hmirrors.error cause rfl
    exact hsound.withSameFiles _ htree hsame

/-- A directory is made at the target and taken apart. -/
theorem step_expand_ensures (hfiles : tools.files.Faithful) (hsound : Sound tools nowhere s)
    {a b : Location} (ha : Plain a) (hb : Plain b) (hpre : ¬ a <+: b)
    (hdir : s.disk.entry? a = some .directory) (hfree : Writable b → s.disk.entry? b = none)
    (p : Progress) :
    Ensures
      (do
        Session.ensureDir tools (ofPlace b)
        let children ← Session.readDir tools (ofPlace a)
        return { p with tasks := Task.ofDirectory (ofPlace a) (ofPlace b) children ++ p.tasks }) s
      (Advanced tools (.move (ofPlace a) (ofPlace b)) p s) fun _ => Sound tools nowhere := by
  refine ensures_bind ((ensureDir_ensures hfiles hsound hb).mono ?_ fun _ _ h => h)
  rintro _ s₁ ⟨hsound₁, hgrown, hmade, hwritable⟩
  refine ensures_bind (ensures_inquire ?_ ?_)
  · intro children hread
    obtain ⟨-, hchildren⟩ :=
      hsound₁.tree.readDir_ofPlace ha (hfiles.readDir _ _ _ _ hread)
    refine ensures_pure ⟨hsound₁.of_eq rfl rfl rfl, _, ?_,
      .expand ha hb hpre hdir hwritable (hfree hwritable) hgrown hmade⟩
    rw [hchildren, ofDirectory_ofPlace ha hb fun _ hname =>
      hsound₁.tree.isName_of_mem_namesIn hname]
  · exact fun _ _ => hsound₁.of_eq rfl rfl rfl

theorem step_move_ensures (hfiles : tools.files.Faithful) (hnames : tools.HasPlainNames)
    (hsound : Sound tools nowhere s) {a b : Location} (ha : Plain a) (hb : Plain b)
    (p : Progress) :
    Ensures (step tools (.move (ofPlace a) (ofPlace b)) p) s
      (Advanced tools (.move (ofPlace a) (ofPlace b)) p s) fun _ => Sound tools nowhere := by
  unfold step
  dsimp only
  split
  · rename_i hsame
    have heq := (ofPlace_beq ha hb).1 hsame
    subst heq
    exact ensures_pure ⟨hsound, [], rfl, .skip ha⟩
  rename_i hdiffer
  have hne : a ≠ b := fun heq => hdiffer (heq ▸ BEq.rfl)
  refine ensures_bind (ensures_bind (ensures_get (ensures_pure ?_)))
  split
  · exact ensures_throw hsound
  rename_i hfree
  -- a path that cannot be looked up at all looks free, hence the condition
  rw [hfiles.contains] at hfree
  have hfree' : Writable b → s.disk.entry? b = none := hsound.tree.free_of_not_contains hb hfree
  refine ensures_bind (ensures_bind (ensures_get (ensures_pure ?_)))
  split
  · exact ensures_throw hsound
  rename_i hthere
  have hcontains : s.disk.contains (ofPlace a) = true := by
    simpa [hfiles.contains] using hthere
  obtain ⟨hwritable, entry, hentry⟩ := (hsound.tree.contains_ofPlace ha).1 hcontains
  refine ensures_bind (ensures_bind (ensures_get (ensures_pure ?_)))
  rw [hfiles.isDir]
  cases entry with
  | file content =>
    have hfile : s.disk.isDir (ofPlace a) = false := by
      rw [Bool.eq_false_iff, ne_eq, hsound.tree.isDir_ofPlace ha, hentry]
      simp
    rw [hfile]
    have hroot : b ≠ [] := by
      rintro rfl
      simpa using hfree' rfl
    refine ensures_bind ((moveFile_ensures hfiles hsound hentry hb hroot hfree' _).mono ?_
      fun _ _ h => h)
    rintro report' s₁ ⟨hsound₁, hmoved⟩
    exact ensures_pure ⟨hsound₁, [], rfl, .file ha hb hmoved⟩
  | directory =>
    rw [(hsound.tree.isDir_ofPlace ha).2 ⟨hwritable, hentry⟩]
    -- a directory cannot be taken apart into itself, so it first goes aside
    by_cases hpre : a <+: b
    · have hinside : (ofPlace a).isInDir (ofPlace b) = true := (isInDir_ofPlace ha hb).2 hpre
      rw [hinside, parent?_getD_ofPlace ha]
      refine ensures_bind ((temporaryPlace_ensures hfiles hnames
        (ha.of_prefix (List.dropLast_prefix a)) _ _ hsound).mono ?_ fun _ _ h => h)
      rintro _ s₁ ⟨⟨hsound₁, hdisk₁⟩, name, hname, rfl, hfree₁⟩
      refine ensures_pure ⟨hsound₁, _, rfl, ?_⟩
      rw [hdisk₁]
      exact .detour ha hb hne hpre hentry hwritable hname hfree₁
    · have houtside : (ofPlace a).isInDir (ofPlace b) = false := by
        rw [Bool.eq_false_iff, ne_eq, isInDir_ofPlace ha hb]
        exact hpre
      rw [houtside]
      exact step_expand_ensures hfiles hsound ha hb hpre hentry hfree' p

/-- **One step of a move** keeps the session sound, whether it succeeds or fails, and if it
succeeds it is one of the steps a move can take. -/
theorem step_ensures (hfiles : tools.files.Faithful) (hnames : tools.HasPlainNames)
    (hsound : Sound tools nowhere s) {task : Task} (hdue : Due s.disk task) (p : Progress) :
    Ensures (step tools task p) s (Advanced tools task p s) fun _ => Sound tools nowhere := by
  cases hdue with
  | move ha hb => exact step_move_ensures hfiles hnames hsound ha hb p
  | remove ha hne hempty => exact step_remove_ensures hfiles hsound ha hne hempty p

/-! ## A whole run -/

variable {fs : FileSystem} {d₀ d : Disk} {S T : Location} {report : Report}

theorem Within.due {A B : Location} (hapart : Apart A B) {task : Task} {tasks : List Task}
    (h : Within fs d A B task) (haccounted : Accounted fs d₀ S T d (task :: tasks) report) :
    Due d task := by
  cases h with
  | move rest ha hb hdir => exact .move ha hb
  | remove rest ha =>
    refine .remove ha ?_ fun p content hpre => haccounted.no_file_below ha hpre content
    intro hnil
    have hA : A = [] := (List.append_eq_nil_iff.1 hnil).1
    exact hapart.1 (hA ▸ List.nil_prefix)

/-- The next task of a move that goes on can be done. -/
theorem Live.due {task : Task} {tasks : List Task} (hT : Plain T)
    (h : Live fs d₀ S T d (task :: tasks) report) : Due d task := by
  obtain ⟨⟨B, hB, -, -, hall⟩ | hstage, haccounted⟩ := h
  · obtain ⟨rfl, -⟩ := List.cons.inj hall
    exact .move hB hT
  · rcases hstage.head with ⟨B, hB, -, -, rfl, -⟩ | ⟨A, B, inner, later, hleg, -, rfl⟩
    · exact .move hB hT
    · exact (hleg.within task List.mem_cons_self).due hleg.apart haccounted

/-- With nothing left to do, a run returns the report. -/
theorem ensures_run_nil (fuel : Nat) {p : Progress} {ok : Report → Session → Prop}
    {error : Error → Session → Prop} (htasks : p.tasks = []) (h : ok p.report s) :
    Ensures (run tools fuel p) s ok error := by
  cases fuel with
  | zero =>
    rw [run, htasks]
    exact ensures_pure h
  | succ fuel =>
    rw [run, htasks]
    exact ensures_pure h

/-- A run keeps the session sound, and if it succeeds the move has come to its end. -/
theorem run_ensures (hfiles : tools.files.Faithful) (hnames : tools.HasPlainNames)
    (hT : Plain T) (fuel : Nat) {p : Progress} (hsound : Sound tools nowhere s)
    (h : Live tools.files d₀ S T s.disk p.tasks p.report ∨ Doomed s.disk p.tasks) :
    Ensures (run tools fuel p) s
      (fun report s' => Sound tools nowhere s' ∧ Live tools.files d₀ S T s'.disk [] report)
      fun _ => Sound tools nowhere := by
  induction fuel generalizing p s with
  | zero =>
    cases htasks : p.tasks with
    | nil =>
      rw [htasks] at h
      exact ensures_run_nil 0 htasks ⟨hsound, h.resolve_right not_doomed_nil⟩
    | cons task tasks =>
      rw [run, htasks]
      exact ensures_throw hsound
  | succ fuel ih =>
    cases htasks : p.tasks with
    | nil =>
      rw [htasks] at h
      exact ensures_run_nil (fuel + 1) htasks ⟨hsound, h.resolve_right not_doomed_nil⟩
    | cons task tasks =>
      rw [htasks] at h
      rw [run, htasks]
      have hdue : Due s.disk task := by
        rcases h with h | ⟨a, b, rest, ha, hb, heq, -⟩
        · exact h.due hT
        · obtain ⟨rfl, -⟩ := List.cons.inj heq
          exact .move ha hb
      refine ensures_bind ((step_ensures hfiles hnames hsound hdue _).mono ?_ fun _ _ h => h)
      rintro p' s' ⟨hsound', added, hadded, hadvance⟩
      refine ih hsound' ?_
      rw [hadded]
      rcases h with h | h
      · exact h.advance hT hsound.tree hadvance
      · exact .inr (h.advance hadvance)

/-- The first step of a move finds its target free, or inside its source. -/
theorem Advance.free {a b : Location} {added : List Task} {d' : Disk} {report' : Report}
    (ha : Plain a) (hb : Plain b) (hne : a ≠ b)
    (h : Advance fs (.move (ofPlace a) (ofPlace b)) d report added d' report') :
    a <+: b ∨ d.entry? b = none := by
  generalize htask : Task.move (ofPlace a) (ofPlace b) = task at h
  cases h with
  | skip ha' =>
    obtain ⟨rfl, rfl⟩ := places_of_eq ha hb ha' ha' htask
    exact absurd rfl hne
  | file ha' hb' hmoved =>
    obtain ⟨rfl, rfl⟩ := places_of_eq ha hb ha' hb' htask
    exact .inr hmoved.free
  | detour ha' hb' hne' hpre hdir hwritable hname hfree =>
    obtain ⟨rfl, rfl⟩ := places_of_eq ha hb ha' hb' htask
    exact .inl hpre
  | expand ha' hb' hpre hdir hwritable hfree hgrown hmade =>
    obtain ⟨rfl, rfl⟩ := places_of_eq ha hb ha' hb' htask
    exact .inr hfree
  | remove ha' => simp at htask

/-- **A whole move** keeps the session sound, whatever it returns.  If it returns a report, the
balance is even with nothing left to do, and the target was free or lies inside the source. -/
theorem move_ensures (hfiles : tools.files.Faithful) (hnames : tools.HasPlainNames)
    (hsound : Sound tools nowhere s) {source target : Path} (hS : Plain S) (hT : Plain T)
    (hsource : s.root.absolutize source = ofPlace S)
    (htarget : s.root.absolutize target = ofPlace T) :
    Ensures (move tools source target) s
      (fun report s' => Sound tools nowhere s' ∧
        Accounted tools.files s.disk S T s'.disk [] report ∧
          (S <+: T ∨ s.disk.entry? T = none))
      fun _ => Sound tools nowhere := by
  refine ensures_bind (ensures_get ?_)
  rw [hsource, htarget]
  obtain ⟨fuel, hfuel⟩ : ∃ fuel, taskBound s.disk = fuel + 1 := ⟨_, rfl⟩
  rw [hfuel, run]
  dsimp only
  by_cases hne : S = T
  · subst hne
    refine ensures_bind ?_
    rw [step, if_pos BEq.rfl]
    refine ensures_pure (ensures_run_nil fuel rfl ?_)
    refine ⟨hsound, ?_, .inl (List.prefix_refl S)⟩
    exact (Accounted.start hS hS s.disk _).of_fate fun p _ _ => by
      rw [fate_move hS hS, shift_self]
  · refine ensures_bind ((step_ensures hfiles hnames hsound (.move hS hT) _).mono ?_
      fun _ _ h => h)
    rintro p₁ s₁ ⟨hsound₁, added, hadded, hadvance⟩
    have hfree := hadvance.free hS hT hne
    have hfirst : Live tools.files s.disk S T s₁.disk p₁.tasks p₁.report ∨
        Doomed s₁.disk p₁.tasks := by
      rw [hadded]
      by_cases hroot : S = []
      · -- the root has no place beside it to go by
        subst hroot
        refine .inr (Doomed.advance ?_ hadvance)
        exact ⟨[], T, [], hS, hT, rfl, hne, .inl rfl⟩
      · exact Live.advance hT hsound.tree
          ⟨.inl ⟨S, hS, hroot, hne, rfl⟩, .start hS hT s.disk _⟩ hadvance
    refine (run_ensures hfiles hnames hT fuel hsound₁ hfirst).mono ?_ fun _ _ h => h
    rintro report s' ⟨hsound', hlive⟩
    exact ⟨hsound', hlive.accounted, hfree⟩

end Move

/-! ## Sessions that can come about -/

namespace Session

open Relocate.Path Work

/-- The sessions that come about by reading a project, building its index again and moving files
and directories in it, however often and whatever each of these returns. -/
inductive Reached (tools : Tools) : Session → Prop
  | start {disk : Disk} (root : Path) (scan : ScanSettings) (htree : disk.IsTree) :
    Reached tools (Session.start disk root scan)
  | prepare {s : Session} (h : Reached tools s) : Reached tools ((prepare tools).run.run s).2
  | rescan {s : Session} (h : Reached tools s) : Reached tools ((rescan tools).run.run s).2
  | move {s : Session} (source target : Path) (h : Reached tools s) :
    Reached tools ((Move.move tools source target).run.run s).2

variable {tools : Tools} {s : Session}

/-- What an end of a move is, read from the root of a sound session. -/
theorem Sound.absolutize (h : Sound tools nowhere s) (path : Path) :
    ∃ place, Plain place ∧ s.root.absolutize path = ofPlace place := by
  obtain ⟨root, hroot, heq⟩ := h.rooted
  have habsolute : s.root.isAbsolute = true := heq ▸ isAbsolute_ofPlace root
  obtain ⟨hpath, hplain⟩ := absolutize_eq_ofPlace habsolute path
  exact ⟨_, hplain, hpath⟩

theorem start_sound {disk : Disk} (root : Path) (scan : ScanSettings) (htree : disk.IsTree) :
    Sound tools nowhere (Session.start disk root scan) where
  tree := htree
  rooted := by
    obtain ⟨hpath, hplain⟩ := absolutize_eq_ofPlace (isAbsolute_ofPlace disk.workingDir) root
    exact ⟨_, hplain, hpath⟩
  linked := Index.linked_empty
  placed target site hsite := by
    simp [Session.start, Index.sites, Index.empty, Ordered.get?] at hsite

/-- **Every session that can come about is sound.** -/
theorem Reached.sound (hfiles : tools.files.Faithful) (hnames : tools.HasPlainNames)
    (h : Reached tools s) : Sound tools nowhere s := by
  induction h with
  | start root scan htree => exact start_sound root scan htree
  | prepare _ ih =>
    exact ((prepare_ensures hfiles ih).mono (fun _ _ h => h.1) fun _ _ h => h.1).session
  | rescan _ ih =>
    exact ((rescan_ensures hfiles ih).mono (fun _ _ h => h.1) fun _ _ h => h.1).session
  | move source target _ ih =>
    obtain ⟨S, hS, hsource⟩ := ih.absolutize source
    obtain ⟨T, hT, htarget⟩ := ih.absolutize target
    exact ((Move.move_ensures hfiles hnames ih hS hT hsource htarget).mono
      (fun _ _ h => h.1) fun _ _ h => h).session

end Session

end Relocate
