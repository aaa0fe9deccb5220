import Relocate.Proofs.Moves

/-! # The loop of a move

A move does one task after the other until none is left or one fails.  `Move.Turns` is that loop
itself, without the fuel that `Move.run` carries: where it stands after any number of turns, a turn
that failed included.  At each of these points the session is sound and the move on one of its
courses (`Move.Turns.course`), so that a turn which succeeds is one of those that `Move.Advance`
lists (`Move.Turns.advanced`).  What is kept by these is kept by the loop.

A run with fuel is the loop as far as the fuel goes (`Move.run_turns`).
-/

namespace Relocate.Move

open Relocate.Path Work Disk Session

/-- After `n` turns of the loop that begins with one task in the session `s`, it stands like this:
with progress, or with the error of the last turn. -/
inductive Turns (tools : Tools) (first : Task) (s : Session) :
    Nat → Except Error Progress → Session → Prop
  | start : Turns tools first s 0 (.ok { tasks := [first] }) s
  | turn {n : Nat} {p : Progress} {t t' : Session} {task : Task} {tasks : List Task}
    {outcome : Except Error Progress} (h : Turns tools first s n (.ok p) t)
    (htasks : p.tasks = task :: tasks)
    (hstep : (step tools task { p with tasks := tasks }).run.run t = (outcome, t')) :
    Turns tools first s (n + 1) outcome t'

/-- What stays in place is left alone. -/
theorem Advance.of_same {fs : FileSystem} {a : Location} {d d' : Disk} {report report' : Report}
    {added : List Task} (ha : Plain a)
    (h : Advance fs (.move (ofPlace a) (ofPlace a)) d report added d' report') :
    added = [] ∧ d' = d ∧ report' = report := by
  generalize htask : Task.move (ofPlace a) (ofPlace a) = task at h
  cases h with
  | skip ha' => exact ⟨rfl, rfl, rfl⟩
  | file ha' hb' hmoved =>
    obtain ⟨rfl, rfl⟩ := places_of_eq ha ha ha' hb' htask
    obtain ⟨content, hfile⟩ := hmoved.file
    simp [hmoved.free] at hfile
  | detour ha' hb' hne hpre hdir hwritable hname hfree =>
    obtain ⟨rfl, rfl⟩ := places_of_eq ha ha ha' hb' htask
    exact absurd rfl hne
  | expand ha' hb' hpre hdir hwritable hfree hgrown hmade =>
    obtain ⟨rfl, rfl⟩ := places_of_eq ha ha ha' hb' htask
    exact absurd (List.prefix_refl _) hpre
  | remove ha' => simp at htask

/-- The ways a move from `S` to `T` can go: on; to no good end; or nowhere, since both ends are one
place. -/
inductive Course (fs : FileSystem) (d₀ : Disk) (S T : Location) (d : Disk) :
    List Task → Report → Prop
  | live {tasks : List Task} {report : Report} (h : Live fs d₀ S T d tasks report) :
    Course fs d₀ S T d tasks report
  | doomed {tasks : List Task} {report : Report} (h : Doomed d tasks) :
    Course fs d₀ S T d tasks report
  | idle {tasks : List Task} {report : Report} (hsame : S = T) (hS : Plain S)
    (htasks : ∀ task ∈ tasks, task = .move (ofPlace S) (ofPlace S)) :
    Course fs d₀ S T d tasks report

namespace Course

variable {fs : FileSystem} {d₀ d d' : Disk} {S T : Location} {tasks : List Task}
  {report report' : Report} {task : Task}

/-- A move begins on one of its courses. -/
theorem start (hS : Plain S) (hT : Plain T) (d₀ : Disk) (report : Report) :
    Course fs d₀ S T d₀ [.move (ofPlace S) (ofPlace T)] report := by
  by_cases hsame : S = T
  · subst hsame
    exact .idle rfl hS (by simp)
  · by_cases hroot : S = []
    · exact .doomed ⟨S, T, [], hS, hT, rfl, hsame, .inl hroot⟩
    · exact .live ⟨.inl ⟨S, hS, hroot, hsame, rfl⟩, .start hS hT d₀ report⟩

/-- The next task can be done on any course. -/
theorem due (hT : Plain T) (h : Course fs d₀ S T d (task :: tasks) report) : Due d task := by
  cases h with
  | live h => exact h.due hT
  | doomed h =>
    obtain ⟨a, b, rest, ha, hb, heq, -⟩ := h
    obtain ⟨rfl, -⟩ := List.cons.inj heq
    exact .move ha hb
  | idle hsame hS htasks =>
    rw [htasks task List.mem_cons_self]
    exact .move hS hS

/-- Each step leaves a move on one of its courses. -/
theorem advance {added : List Task} (hT : Plain T) (htree : d.IsTree)
    (h : Course fs d₀ S T d (task :: tasks) report)
    (hadvance : Advance fs task d report added d' report') :
    Course fs d₀ S T d' (added ++ tasks) report' := by
  cases h with
  | live h => exact (h.advance hT htree hadvance).elim .live .doomed
  | doomed h => exact .doomed (h.advance hadvance)
  | idle hsame hS htasks =>
    have hfirst := htasks task List.mem_cons_self
    subst hfirst
    rw [(hadvance.of_same hS).1, List.nil_append]
    exact .idle hsame hS fun task htask => htasks task (List.mem_cons_of_mem _ htask)

end Course

variable {tools : Tools} {s t t' : Session} {S T : Location} {n : Nat}
  {outcome : Except Error Progress} {p p' : Progress}

/-- **At every point of the loop** the session is sound, also after a turn that failed, and the
move is on one of its courses. -/
theorem Turns.course (hfiles : tools.files.Faithful) (hnames : tools.HasPlainNames)
    (hsound : Sound tools nowhere s) (hS : Plain S) (hT : Plain T)
    (h : Turns tools (.move (ofPlace S) (ofPlace T)) s n outcome t) :
    Sound tools nowhere t ∧ ∀ p, outcome = .ok p →
      Course tools.files s.disk S T t.disk p.tasks p.report := by
  induction h with
  | start =>
    refine ⟨hsound, fun p heq => ?_⟩
    cases heq
    exact .start hS hT s.disk _
  | @turn _ p₁ _ _ _ tasks outcome h htasks hstep ih =>
    obtain ⟨hsound₁, hcourse⟩ := ih
    have hcourse := hcourse _ rfl
    rw [htasks] at hcourse
    have hensures :=
      step_ensures hfiles hnames hsound₁ (hcourse.due hT) { p₁ with tasks := tasks }
    cases outcome with
    | error cause => exact ⟨hensures.of_error hstep, fun p heq => nomatch heq⟩
    | ok p =>
      obtain ⟨hsound₂, added, hadded, hadvance⟩ := hensures.of_ok hstep
      refine ⟨hsound₂, fun p heq => ?_⟩
      cases heq
      rw [hadded]
      exact hcourse.advance hT hsound₁.tree hadvance

/-- **A turn of the loop** is a step that a move can take. -/
theorem Turns.advanced (hfiles : tools.files.Faithful) (hnames : tools.HasPlainNames)
    (hsound : Sound tools nowhere s) (hS : Plain S) (hT : Plain T)
    (h : Turns tools (.move (ofPlace S) (ofPlace T)) s n (.ok p) t) {task : Task}
    {tasks : List Task} (htasks : p.tasks = task :: tasks)
    (hstep : (step tools task { p with tasks := tasks }).run.run t = (.ok p', t')) :
    t.disk.IsTree ∧ Course tools.files s.disk S T t.disk (task :: tasks) p.report ∧
      ∃ added, p'.tasks = added ++ tasks ∧
        Advance tools.files task t.disk p.report added t'.disk p'.report := by
  obtain ⟨hsound₁, hcourse⟩ := h.course hfiles hnames hsound hS hT
  have hcourse := hcourse p rfl
  rw [htasks] at hcourse
  obtain ⟨-, hadvanced⟩ := (step_ensures hfiles hnames hsound₁ (hcourse.due hT) _).of_ok hstep
  exact ⟨hsound₁.tree, hcourse, hadvanced⟩

/-- **What a run with fuel is**: it returns the report with which the loop ends, or the error with
which it ends, or it has used its fuel before the end of the loop. -/
theorem run_turns {first : Task} (fuel : Nat) (h : Turns tools first s n (.ok p) t) :
    Ensures (run tools fuel p) t
      (fun report t' => ∃ m p', Turns tools first s m (.ok p') t' ∧ p'.tasks = [] ∧
        p'.report = report)
      fun cause t' => (∃ m, Turns tools first s m (.error cause) t') ∨
        cause = .internal .unfinishedMove ∧
          ∃ p', Turns tools first s (n + fuel) (.ok p') t' ∧ p'.tasks ≠ [] := by
  induction fuel generalizing n p t with
  | zero =>
    cases htasks : p.tasks with
    | nil => exact ensures_run_nil 0 htasks ⟨n, p, h, htasks, rfl⟩
    | cons task tasks =>
      rw [run, htasks]
      exact ensures_throw (.inr ⟨rfl, p, h, by simp [htasks]⟩)
  | succ fuel ih =>
    cases htasks : p.tasks with
    | nil => exact ensures_run_nil (fuel + 1) htasks ⟨n, p, h, htasks, rfl⟩
    | cons task tasks =>
      rw [run, htasks]
      refine ensures_bind (ensures_run.mono ?_ fun cause t' hstep =>
        .inl ⟨n + 1, h.turn htasks hstep⟩)
      intro p' t' hstep
      refine (ih (h.turn htasks hstep)).mono (fun _ _ h => h) fun cause t'' hend => ?_
      rwa [Nat.add_right_comm] at hend

/-- **What a move is**: it returns the report or the error with which its loop ends, or its fuel was
not enough for the loop. -/
theorem move_ends (tools : Tools) (source target : Path) (s : Session) :
    Ensures (move tools source target) s
      (fun report t => ∃ n p, Turns tools
        (.move (s.root.absolutize source) (s.root.absolutize target)) s n (.ok p) t ∧
          p.tasks = [] ∧ p.report = report)
      fun cause t => (∃ n, Turns tools
        (.move (s.root.absolutize source) (s.root.absolutize target)) s n (.error cause) t) ∨
          ∃ p, Turns tools (.move (s.root.absolutize source) (s.root.absolutize target)) s
            (taskBound s.disk) (.ok p) t := by
  refine ensures_bind (ensures_get ((run_turns _ .start).mono (fun _ _ h => h) ?_))
  intro cause t hend
  refine hend.imp id ?_
  rintro ⟨-, p, hturns, -⟩
  exact ⟨p, by rwa [Nat.zero_add] at hturns⟩

/-- However a move ends, it ends at a point of its loop. -/
theorem move_turns (tools : Tools) (source target : Path) (s : Session) :
    ∃ n outcome, Turns tools (.move (s.root.absolutize source) (s.root.absolutize target)) s n
      outcome ((move tools source target).run.run s).2 := by
  have hends : Ensures (move tools source target) s
      (fun _ t => ∃ n outcome, Turns tools
        (.move (s.root.absolutize source) (s.root.absolutize target)) s n outcome t)
      fun _ t => ∃ n outcome, Turns tools
        (.move (s.root.absolutize source) (s.root.absolutize target)) s n outcome t := by
    refine (move_ends tools source target s).mono ?_ ?_
    · rintro _ _ ⟨n, p, hturns, -, -⟩
      exact ⟨n, .ok p, hturns⟩
    · rintro cause _ (⟨n, hturns⟩ | ⟨p, hturns⟩)
      · exact ⟨n, .error cause, hturns⟩
      · exact ⟨_, .ok p, hturns⟩
  exact hends.session

end Relocate.Move
