import Relocate.Proofs.Guarantees
import Relocate.Proofs.Loops

/-! # What a report says

The report of a move is kept while the move runs, and names files by where they are just then.  A
file that goes by way of a temporary place is renamed twice, so its entry must follow it.
`Move.Listed` says that the entries do: each stands for one file that has gone, names the place it
came from and the place it is at, and every file without an entry is where it was in the beginning.
Each step of a move keeps this (`Move.Listed.advance`), and with nothing left to do it means that
the report is accurate (`report_is_accurate`).
-/

namespace Relocate

open Relocate.Path Disk

/-! ## The list of moved files -/

/-- To record a move is to extend the first entry that ends where the move begins, or else to add
one. -/
theorem Report.extendMoved_cases (source target : Path) (moved : List MovedFile) :
    (∃ before m after, moved = before ++ m :: after ∧ (m.target == source) = true ∧
      extendMoved source target moved = before ++ ⟨m.source, target⟩ :: after) ∨
    (∀ m ∈ moved, (m.target == source) = false) ∧
      extendMoved source target moved = moved ++ [⟨source, target⟩] := by
  induction moved with
  | nil => exact .inr ⟨by simp, rfl⟩
  | cons first moved ih =>
    rw [extendMoved]
    cases hfirst : first.target == source with
    | true => exact .inl ⟨[], first, moved, rfl, hfirst, rfl⟩
    | false =>
      rcases ih with ⟨before, m, after, rfl, hm, heq⟩ | ⟨hnone, heq⟩
      · exact .inl ⟨first :: before, m, after, rfl, hm, by simp [heq]⟩
      · refine .inr ⟨fun m hm => ?_, by simp [heq]⟩
        rcases List.mem_cons.1 hm with rfl | hm
        · exact hfirst
        · exact hnone m hm

namespace Move

/-- The place where a task begins. -/
def origin : Task → Location
  | .move source _ => source.place
  | .remove dir => dir.place

/-- No task has anything to do with the place. -/
def Untouched (tasks : List Task) (p : Location) : Prop := ∀ task ∈ tasks, ¬ origin task <+: p

/-- The entry names a file of the first disk in `S`, by its place there, and by the place where it
is now and from where the tasks take it to where it belongs. -/
def Followed (d₀ : Disk) (S T : Location) (d : Disk) (tasks : List Task) (m : MovedFile) : Prop :=
  ∃ p₀ content₀ p content, d₀.entry? p₀ = some (.file content₀) ∧ S <+: p₀ ∧
    d.entry? p = some (.file content) ∧ fate tasks p = some (shift S T p₀) ∧
    m = ⟨ofPlace p₀, ofPlace p⟩

/-- The file at the place has been there from the beginning; it is yet to go, or will stay. -/
def Unmoved (d₀ : Disk) (S T : Location) (tasks : List Task) (p : Location) : Prop :=
  (∃ content, d₀.entry? p = some (.file content)) ∧
    (S <+: p ∧ fate tasks p = some (shift S T p) ∨ ¬ S <+: p ∧ Untouched tasks p)

/-- The entries stand for the files that have gone, one for each, and follow them; a file without an
entry has not gone, and its place is no other file's old one. -/
structure Listed (d₀ : Disk) (S T : Location) (d : Disk) (tasks : List Task)
    (moved : List MovedFile) : Prop where
  sources : (moved.map MovedFile.source).Nodup
  targets : (moved.map MovedFile.target).Nodup
  followed : ∀ m ∈ moved, Followed d₀ S T d tasks m
  unlisted : ∀ p content, d.entry? p = some (.file content) →
    (∃ m ∈ moved, m.target = ofPlace p) ∨
      (∀ m ∈ moved, m.source ≠ ofPlace p) ∧ Unmoved d₀ S T tasks p

namespace Listed

variable {fs : FileSystem} {d₀ d d' : Disk} {S T a b : Location} {tasks : List Task}
  {moved : List MovedFile} {report report' : Report}

/-- In the beginning nothing has gone. -/
theorem start (hS : Plain S) (hT : Plain T) (d₀ : Disk) :
    Listed d₀ S T d₀ [.move (ofPlace S) (ofPlace T)] [] where
  sources := .nil
  targets := .nil
  followed := by simp
  unlisted p content hp := by
    refine .inr ⟨by simp, ⟨content, hp⟩, ?_⟩
    by_cases hpre : S <+: p
    · exact .inl ⟨hpre, fate_move hS hT [] p⟩
    · exact .inr ⟨hpre, by simpa [Untouched, origin, hS] using hpre⟩

/-- Tasks may be exchanged for others that do the same to each file, on a disk with the same
files. -/
theorem of_fate (h : Listed d₀ S T d tasks moved) {tasks' : List Task} (hsame : SameFiles d d')
    (hfate : ∀ p content, d.entry? p = some (.file content) → fate tasks' p = fate tasks p)
    (huntouched : ∀ p content, d.entry? p = some (.file content) → Untouched tasks p →
      Untouched tasks' p) : Listed d₀ S T d' tasks' moved where
  sources := h.sources
  targets := h.targets
  followed m hm := by
    obtain ⟨p₀, content₀, p, content, hp₀, hpre, hp, hfate₀, rfl⟩ := h.followed m hm
    exact ⟨p₀, content₀, p, content, hp₀, hpre, (hsame p content).2 hp,
      (hfate p content hp).trans hfate₀, rfl⟩
  unlisted p content hp := by
    have hp := (hsame p content).1 hp
    refine (h.unlisted p content hp).imp id ?_
    rintro ⟨hsources, hthere, hunmoved⟩
    refine ⟨hsources, hthere, hunmoved.imp ?_ ?_⟩
    · exact fun hinside => ⟨hinside.1, (hfate p content hp).trans hinside.2⟩
    · exact fun houtside => ⟨houtside.1, huntouched p content hp houtside.2⟩

/-- When a file goes on to a place, the list is that of the other files and one entry for this file,
which names the place where it was in the beginning. -/
theorem singled_out (h : Listed d₀ S T d (.move (ofPlace a) (ofPlace b) :: tasks) moved)
    (htree : d.IsTree) {content : Content} (hfile : d.entry? a = some (.file content))
    (target : Path) :
    ∃ p₀ content₀ others,
      (Report.extendMoved (ofPlace a) target moved).Perm (⟨ofPlace p₀, target⟩ :: others) ∧
      (ofPlace p₀ :: others.map MovedFile.source).Nodup ∧
      (others.map MovedFile.target).Nodup ∧
      d₀.entry? p₀ = some (.file content₀) ∧ S <+: p₀ ∧
      fate (.move (ofPlace a) (ofPlace b) :: tasks) a = some (shift S T p₀) ∧
      (∀ m, m ∈ others ↔ m ∈ moved ∧ m.target ≠ ofPlace a) ∧
      (p₀ = a ∨ ∃ m ∈ moved, m.source = ofPlace p₀) := by
  have ha := htree.plain hfile
  rcases Report.extendMoved_cases (ofPlace a) target moved with
    ⟨before, m, after, rfl, hm, heq⟩ | ⟨hnone, heq⟩
  · -- the file has gone before
    obtain ⟨p₀, content₀, p, content', hp₀, hpre, hp, hfate, rfl⟩ := h.followed m (by simp)
    obtain rfl := (ofPlace_beq (htree.plain hp) ha).1 hm
    have hsources := (List.perm_middle.map MovedFile.source).nodup_iff.1 h.sources
    obtain ⟨hother, htargets⟩ := List.nodup_cons.1
      ((List.perm_middle.map MovedFile.target).nodup_iff.1 h.targets)
    refine ⟨p₀, content₀, before ++ after, heq ▸ List.perm_middle, hsources, htargets, hp₀, hpre,
      hfate, fun m => ?_, .inr ⟨⟨ofPlace p₀, ofPlace p⟩, by simp, rfl⟩⟩
    rw [List.perm_middle.mem_iff, List.mem_cons]
    constructor
    · exact fun hm => ⟨.inr hm, fun heq => hother (List.mem_map.2 ⟨m, hm, heq⟩)⟩
    · rintro ⟨rfl | hm, hne⟩
      · exact absurd rfl hne
      · exact hm
  · -- it has not, so that it is at its first place
    have hne : ∀ m ∈ moved, m.target ≠ ofPlace a := by
      intro m hm htarget
      have hfalse := hnone m hm
      rw [htarget, BEq.rfl] at hfalse
      cases hfalse
    rcases h.unlisted a content hfile with ⟨m, hm, htarget⟩ | ⟨hnew, ⟨content₀, hthere⟩, hunmoved⟩
    · exact absurd htarget (hne m hm)
    · rcases hunmoved with ⟨hpre, hfate⟩ | ⟨-, huntouched⟩
      · refine ⟨a, content₀, moved, heq ▸ List.perm_append_singleton _ _, ?_, h.targets, hthere,
          hpre, hfate, fun m => ⟨fun hm => ⟨hm, hne m hm⟩, And.left⟩, .inl rfl⟩
        refine List.nodup_cons.2 ⟨fun hmem => ?_, h.sources⟩
        obtain ⟨m, hm, hsource⟩ := List.mem_map.1 hmem
        exact hnew m hm hsource
      · have hself : ¬ a <+: a := by simpa [origin, ha] using huntouched _ List.mem_cons_self
        exact absurd (List.prefix_refl a) hself

/-- Moving a file extends its entry, or adds one if it has none. -/
theorem fileMoved (h : Listed d₀ S T d (.move (ofPlace a) (ofPlace b) :: tasks) report.moved)
    (htree : d.IsTree) (ha : Plain a) (hb : Plain b)
    (hmoved : FileMoved fs a b report report' d d') :
    Listed d₀ S T d' tasks report'.moved := by
  obtain ⟨content, hfile⟩ := hmoved.file
  obtain ⟨content', hthere, -⟩ := hmoved.kept a content hfile
  obtain ⟨p₀, content₀, others, hperm, hsources, htargets, hp₀, hpre, hfate₀, hothers, horigin⟩ :=
    h.singled_out htree hfile (ofPlace b)
  rw [← hmoved.moved] at hperm
  have hfate : ∀ p, fate (.move (ofPlace a) (ofPlace b) :: tasks) p = fate tasks (shift a b p) :=
    fun p => fate_move ha hb tasks p
  rw [hfate, shift_source] at hfate₀
  rw [shift_source] at hthere
  -- The other files stay, so their entries are as good as before.
  have hstays : ∀ p c, d.entry? p = some (.file c) → p ≠ a → shift a b p = p := by
    intro p c hp hne
    rw [shift_of_file htree hfile hp, if_neg hne]
  have hfollowed : ∀ m ∈ others, Followed d₀ S T d' tasks m ∧ m.target ≠ ofPlace b := by
    intro m hm
    obtain ⟨hm, hne⟩ := (hothers m).1 hm
    obtain ⟨p₀, c₀, p, c, hp₀, hpre, hp, hfate₀, rfl⟩ := h.followed m hm
    have hpa : p ≠ a := fun heq => hne (heq ▸ rfl)
    obtain ⟨c', hp', -⟩ := hmoved.kept p c hp
    rw [hfate] at hfate₀
    rw [hstays p c hp hpa] at hp' hfate₀
    refine ⟨⟨p₀, c₀, p, c', hp₀, hpre, hp', hfate₀, rfl⟩, fun heq => ?_⟩
    rw [(ofPlace_inj (htree.plain hp) hb).1 heq, hmoved.free] at hp
    simp at hp
  refine ⟨?_, ?_, fun m hm => ?_, fun q c hq => ?_⟩
  · exact (hperm.map MovedFile.source).nodup_iff.2 hsources
  · refine (hperm.map MovedFile.target).nodup_iff.2 (List.nodup_cons.2 ⟨fun hmem => ?_, htargets⟩)
    obtain ⟨m, hm, heq⟩ := List.mem_map.1 hmem
    exact (hfollowed m hm).2 heq
  · rcases List.mem_cons.1 (hperm.mem_iff.1 hm) with rfl | hm
    · exact ⟨p₀, content₀, b, content', hp₀, hpre, hthere, hfate₀, rfl⟩
    · exact (hfollowed m hm).1
  · obtain ⟨p, c', hp, rfl⟩ := hmoved.old q c hq
    by_cases hpa : p = a
    · subst hpa
      exact .inl ⟨_, hperm.mem_iff.2 List.mem_cons_self, by rw [shift_source]⟩
    · have hplain := htree.plain hp
      have hfate' := hfate p
      rw [hstays p c' hp hpa] at hfate' ⊢
      rcases h.unlisted p c' hp with ⟨m, hm, heq⟩ | ⟨hnew, hfirst, hunmoved⟩
      · have hne : m.target ≠ ofPlace a := fun h => hpa ((ofPlace_inj hplain ha).1 (heq ▸ h))
        have hm' := List.mem_cons_of_mem ⟨ofPlace p₀, ofPlace b⟩ ((hothers m).2 ⟨hm, hne⟩)
        exact .inl ⟨m, hperm.mem_iff.2 hm', heq⟩
      · refine .inr ⟨fun m hm heq => ?_, hfirst, hunmoved.imp ?_ ?_⟩
        · rcases List.mem_cons.1 (hperm.mem_iff.1 hm) with rfl | hm
          · rcases horigin with rfl | ⟨m, hm, hsource⟩
            · exact hpa ((ofPlace_inj hplain ha).1 heq.symm)
            · exact hnew m hm (hsource.trans heq)
          · exact hnew m ((hothers m).1 hm).1 heq
        · exact fun hinside => ⟨hinside.1, hfate'.symm.trans hinside.2⟩
        · exact fun houtside => ⟨houtside.1, fun task htask =>
            houtside.2 task (List.mem_cons_of_mem _ htask)⟩

/-- **Every step of a move keeps the list**, unless the move is doomed from then on. -/
theorem advance (htree : d.IsTree) {task : Task} {added : List Task}
    (h : Listed d₀ S T d (task :: tasks) report.moved) (hdue : Due d task)
    (hadvance : Advance fs task d report added d' report') :
    Listed d₀ S T d' (added ++ tasks) report'.moved ∨ Doomed d' (added ++ tasks) := by
  cases hadvance with
  | skip ha =>
    left
    refine h.of_fate (.refl _) (fun p _ _ => ?_) fun p _ _ huntouched task htask =>
      huntouched task (List.mem_cons_of_mem _ htask)
    rw [fate_move ha ha, shift_self, List.nil_append]
  | file ha hb hmoved => exact .inl (h.fileMoved htree ha hb hmoved)
  | @detour a b name _ _ ha hb hne hpre hdir hwritable hname hfree =>
    have hbeside := (ha.of_prefix (List.dropLast_prefix a)).concat hname
    by_cases hwritable' : Writable (a.dropLast ++ [name])
    · left
      have hnone := hfree hwritable'
      refine h.of_fate (.refl _)
        (fun p _ hp => fate_byWayOf htree ha hb hbeside hnone hp tasks) ?_
      intro p content hp huntouched task htask
      rcases List.mem_cons.1 htask with rfl | htask
      · exact huntouched (.move (ofPlace a) (ofPlace b)) List.mem_cons_self
      · rcases List.mem_cons.1 htask with rfl | htask
        · rw [origin, place_ofPlace hbeside]
          intro hpre
          simp [htree.none_of_prefix hnone hpre] at hp
        · exact huntouched task (List.mem_cons_of_mem _ htask)
    · exact .inr (doomed_beside ha hname hdir hwritable hwritable' _)
  | @expand a b _ _ _ ha hb hpre hdir hwritable hfree hgrown hmade =>
    left
    have hapart := apart_of_free htree hdir hfree hpre
    refine h.of_fate hgrown.sameFiles (fun p content hp => ?_) ?_
    · have hp' := (hgrown.sameFiles p content).2 hp
      refine fate_expand hgrown.tree ha hb hapart hp' ?_ tasks
      rintro rfl
      simp [hdir] at hp
    · intro p content hp huntouched task htask
      have hself : ¬ a <+: p := by simpa [origin, ha] using huntouched _ List.mem_cons_self
      rw [List.append_assoc, List.mem_append, List.mem_append, List.mem_singleton] at htask
      rcases htask with htask | rfl | htask
      · obtain ⟨name, hname, rfl⟩ := List.mem_map.1 htask
        rw [origin, place_ofPlace (ha.concat (hgrown.tree.isName_of_mem_namesIn hname))]
        exact fun hpre => hself ((List.prefix_append a [name]).trans hpre)
      · rwa [origin, place_ofPlace ha]
      · exact huntouched task (List.mem_cons_of_mem _ htask)
  | @remove a _ _ ha =>
    left
    obtain ⟨hne, hempty⟩ := hdue.of_remove
    rw [place_ofPlace ha] at hne hempty
    refine h.of_fate (sameFiles_eraseTree hne hempty) (fun p content hp => ?_)
      fun p _ _ huntouched task htask => huntouched task (List.mem_cons_of_mem _ htask)
    rw [fate_remove ha, if_neg fun hpre => hempty p content hpre hp, List.nil_append]

end Listed

/-- What a report speaks of stays on the disk. -/
theorem Advance.onDisk {fs : FileSystem} {d d' : Disk} {report report' : Report} {task : Task}
    {added : List Task} (hdue : Due d task)
    (hadvance : Advance fs task d report added d' report') (h : report.OnDisk d) :
    report'.OnDisk d' := by
  cases hadvance with
  | skip ha => exact h
  | file ha hb hmoved => exact hmoved.onDisk h
  | detour ha hb hne hpre hdir hwritable hname hfree => exact h
  | expand ha hb hpre hdir hwritable hfree hgrown hmade => exact h.of_sameFiles hgrown.sameFiles
  | remove ha =>
    obtain ⟨hne, hempty⟩ := hdue.of_remove
    rw [place_ofPlace ha] at hne hempty
    exact h.of_sameFiles (sameFiles_eraseTree hne hempty)

/-- **At every point of the loop** the report lists what has gone and speaks of files that are
there, unless the move is doomed. -/
theorem Turns.listed {tools : Tools} (hfiles : tools.files.Faithful)
    (hnames : tools.HasPlainNames) {s t : Session} (hsound : Session.Sound tools Session.nowhere s)
    {S T : Location} (hS : Plain S) (hT : Plain T) {n : Nat} {outcome : Except Error Progress}
    (h : Turns tools (.move (ofPlace S) (ofPlace T)) s n outcome t) (p : Progress)
    (hp : outcome = .ok p) :
    Listed s.disk S T t.disk p.tasks p.report.moved ∧ p.report.OnDisk t.disk ∨
      Doomed t.disk p.tasks := by
  induction h generalizing p with
  | start =>
    cases hp
    exact .inl ⟨.start hS hT s.disk, by simp, by simp⟩
  | turn h htasks hstep ih =>
    subst hp
    obtain ⟨htree, hcourse, added, hadded, hadvance⟩ :=
      h.advanced hfiles hnames hsound hS hT htasks hstep
    have ih := ih _ rfl
    rw [htasks] at ih
    rw [hadded]
    rcases ih with ⟨hlisted, honDisk⟩ | hdoomed
    · exact (hlisted.advance htree (hcourse.due hT) hadvance).imp_left fun hlisted =>
        ⟨hlisted, hadvance.onDisk (hcourse.due hT) honDisk⟩
    · exact .inr (hdoomed.advance hadvance)

end Move

/-! ## Accurate reports -/

/-- The report says what became of the first disk when what was at `S` went to `T`.  It lists each
file that was there once, by the place where it was and the place where it is; what else it speaks
of is on the second disk; and a file that holds something else than before is spoken of. -/
structure Report.Accurate (S T : Location) (report : Report) (d d' : Disk) : Prop where
  once : (report.moved.map MovedFile.source).Nodup
  moved : ∀ m, m ∈ report.moved ↔ ∃ p content, d.entry? p = some (.file content) ∧ S <+: p ∧
    m = ⟨ofPlace p, ofPlace (shift S T p)⟩
  arrived : ∀ p content, d.entry? p = some (.file content) →
    ∃ content', d'.entry? (shift S T p) = some (.file content')
  onDisk : report.OnDisk d'
  changed : ∀ p content content', d.entry? p = some (.file content) →
    d'.entry? (shift S T p) = some (.file content') → content' ≠ content →
    ofPlace (shift S T p) ∈ report.updated ∨
      ∃ f ∈ report.failed, f.file = ofPlace (shift S T p)

/-- What the report names is spoken of by just that path. -/
theorem Report.Names.spoken {r : Report} {d : Disk} {q : Location} (h : r.Names q)
    (htree : d.IsTree) (hq : Plain q) (honDisk : r.OnDisk d) :
    ofPlace q ∈ r.updated ∨ ∃ f ∈ r.failed, f.file = ofPlace q := by
  rcases h with h | ⟨f, hf, heq⟩
  · rw [List.contains_eq_any_beq, List.any_eq_true] at h
    obtain ⟨file, hfile, heq⟩ := h
    obtain ⟨p, content, rfl, hp⟩ := honDisk.updated file hfile
    rw [(ofPlace_beq hq (htree.plain hp)).1 heq]
    exact .inl hfile
  · obtain ⟨p, content, hfile, hp⟩ := honDisk.failed f hf
    rw [hfile] at heq
    rw [← (ofPlace_beq (htree.plain hp) hq).1 heq]
    exact .inr ⟨f, hf, hfile⟩

/-- No file that goes comes to a place whose file has not gone. -/
theorem not_unmoved_shift {d : Disk} {S T p : Location} {content : Content} (htree : d.IsTree)
    (hne : S ≠ T) (hfree : S <+: T ∨ d.entry? T = none) (hp : d.entry? p = some (.file content))
    (hpre : S <+: p) : ¬ Move.Unmoved d S T [] (shift S T p) := by
  rintro ⟨⟨content', hthere⟩, ⟨hinside, hfate⟩ | ⟨houtside, -⟩⟩
  · obtain ⟨rest, heq⟩ := hinside
    have hstays : shift S T p = shift S T (shift S T p) := Option.some.inj hfate
    rw [← heq, shift_append] at hstays
    exact hne (List.append_cancel_right hstays)
  · have hstays := shift_outside houtside T
    have heq := shift_distinct htree hfree hthere hp hstays
    rw [heq] at houtside
    exact houtside hpre

/-- A list that is kept until nothing is left to do makes the report accurate, if the target was
free or lies inside the source and is not the source. -/
theorem Move.Listed.accurate {fs : FileSystem} {d d' : Disk} {S T : Location} {report : Report}
    (h : Listed d S T d' [] report.moved) (htree : d.IsTree) (htree' : d'.IsTree)
    (hne : S ≠ T) (hfree : S <+: T ∨ d.entry? T = none) (honDisk : report.OnDisk d')
    (hbalance : Accounted fs d S T d' [] report) : report.Accurate S T d d' where
  once := h.sources
  moved m := by
    constructor
    · intro hm
      obtain ⟨p, content, q, _, hp, hpre, _, hfate, rfl⟩ := h.followed m hm
      exact ⟨p, content, hp, hpre, by rw [← Option.some.inj hfate]⟩
    · rintro ⟨p, content, hp, hpre, rfl⟩
      obtain ⟨q, content', hq, hfate⟩ := hbalance.allFiles p content hp
      obtain rfl := Option.some.inj hfate
      rcases h.unlisted _ content' hq with ⟨m, hm, htarget⟩ | ⟨-, hunmoved⟩
      · -- the entry for the file that came there is the one for this file
        obtain ⟨p', _, q', _, hp', -, hq', hfate', rfl⟩ := h.followed m hm
        obtain rfl := (ofPlace_inj (htree'.plain hq') (htree'.plain hq)).1 htarget
        obtain rfl := shift_distinct htree hfree hp hp' (Option.some.inj hfate')
        exact hm
      · exact absurd hunmoved (not_unmoved_shift htree hne hfree hp hpre)
  arrived p content hp := by
    obtain ⟨q, content', hq, hfate⟩ := hbalance.allFiles p content hp
    exact ⟨content', Option.some.inj hfate ▸ hq⟩
  onDisk := honDisk
  changed p content content' hp hq hchanged := by
    obtain ⟨p', content₀, hp', heq, hsame⟩ := hbalance.file_origin hq
    obtain rfl := shift_distinct htree hfree hp hp' heq
    obtain rfl : content = content₀ := by simpa [hp] using hp'
    exact (hsame.resolve_left hchanged).spoken htree' (htree'.plain hq) honDisk

/-- **The report of a move is accurate.**  Whatever the project, the ends of the move and the
temporary names drawn for it, if the move succeeds and its ends differ, the report lists each file
at or below the source once, with the path it had and the path it has, and so no temporary one;
every other path in it is that of a file that is there; and each file whose content changed is in
it. -/
theorem report_is_accurate {tools : Tools} (hfiles : tools.files.Faithful)
    (hnames : tools.HasPlainNames) {s s' : Session} (hs : Session.Reached tools s)
    (source target : Path) (hdiffer : s.root.absolutize source ≠ s.root.absolutize target)
    {report : Report}
    (hmove : (Move.move tools source target).run.run s = (.ok report, s')) :
    report.Accurate (s.root.absolutize source).place (s.root.absolutize target).place s.disk
      s'.disk := by
  have hsound := hs.sound hfiles hnames
  obtain ⟨S, hS, hsource⟩ := hsound.absolutize source
  obtain ⟨T, hT, htarget⟩ := hsound.absolutize target
  rw [hsource, htarget] at hdiffer
  obtain ⟨hsound', hbalance, hfree⟩ :=
    (Move.move_ensures hfiles hnames hsound hS hT hsource htarget).of_ok hmove
  obtain ⟨n, p, hturns, hdone, rfl⟩ := (Move.move_ends tools source target s).of_ok hmove
  rw [hsource, htarget] at hturns
  rw [hsource, htarget, place_ofPlace hS, place_ofPlace hT]
  have hlisted := hturns.listed hfiles hnames hsound hS hT p rfl
  rw [hdone] at hlisted
  obtain ⟨hlisted, honDisk⟩ := hlisted.resolve_right Move.not_doomed_nil
  exact hlisted.accurate hsound.tree hsound'.tree (fun heq => hdiffer (heq ▸ rfl)) hfree honDisk
    hbalance

/-- The file that goes into a directory inside its own is listed once, without the temporary place
by which it went. -/
theorem report_is_accurate_into_itself :
    ∃ report, (SelfImport.moved SelfImport.standard).1 = .ok report ∧
      report.Accurate ["p", "src"] ["p", "src", "lib"] SelfImport.disk
        (SelfImport.moved SelfImport.standard).2.disk := by
  have hsource : (SelfImport.prepared SelfImport.standard).root.absolutize ⟨"src"⟩ =
      ofPlace ["p", "src"] := by decide +kernel
  have htarget : (SelfImport.prepared SelfImport.standard).root.absolutize ⟨"src/lib"⟩ =
      ofPlace ["p", "src", "lib"] := by decide +kernel
  have hplaces : (ofPlace ["p", "src"]).place = ["p", "src"] ∧
      (ofPlace ["p", "src", "lib"]).place = ["p", "src", "lib"] := by decide +kernel
  have hdiffer : (SelfImport.prepared SelfImport.standard).root.absolutize ⟨"src"⟩ ≠
      (SelfImport.prepared SelfImport.standard).root.absolutize ⟨"src/lib"⟩ := by
    rw [hsource, htarget]
    decide +kernel
  obtain ⟨report, s', hmoved⟩ := SelfImport.exists_moved_standard
  rw [hmoved]
  refine ⟨report, rfl, ?_⟩
  rw [← SelfImport.disk_standard, ← hplaces.1, ← hplaces.2, ← hsource, ← htarget]
  exact report_is_accurate FileSystem.plain_faithful SelfImport.hasPlainNames_standard
    SelfImport.reached_standard _ _ hdiffer hmoved

end Relocate
