import Mathlib.Data.Set.Function
import Relocate.Proofs.Sessions

/-! # The history of a move

Four operations change a disk: to write a file, to rename one, to remove a directory and to make
one.  `Event` is such an operation as it was asked of a file system, with the disk it found.  One
that `Event.Spares` the files destroys none: a write finds a file, a rename finds none where it puts
one, and a removal finds none to remove.  Then the files before and after correspond, and all but
what is written keep what they hold (`Played.kept`).

`Work.Records` says that events are all that a piece of work asks of the file system, and
`Work.Gentle` that each of them spares the files.  There is one rule for each way of putting gentle
work together.
-/

namespace Relocate

open Relocate.Path Disk

/-! ## Events -/

/-- An operation that changes a disk, with the places it is about. -/
inductive Deed where
  | write (place : Location) (text : String)
  | rename (source target : Location)
  | remove (dir : Location)
  | make (dir : Location)

namespace Deed

/-- What a file system makes of a deed. -/
def on (fs : FileSystem) (clock : Nat) (d : Disk) : Deed → Outcome
  | .write place text => fs.writeText clock d (ofPlace place) text
  | .rename source target => fs.rename clock d (ofPlace source) (ofPlace target)
  | .remove dir => fs.removeTree clock d (ofPlace dir)
  | .make dir => fs.ensureDir clock d (ofPlace dir)

/-- On this disk the deed destroys no file.  What is written is a file already; what is renamed is
one, and if that succeeds there was none at its new place; and nowhere in a directory that is
removed is there a file. -/
def Spares (d : Disk) (succeeded : Bool) : Deed → Prop
  | .write place _ => ∃ content, d.entry? place = some (.file content)
  | .rename source target => (∃ content, d.entry? source = some (.file content)) ∧ Plain target ∧
    (succeeded = true → ∀ content, d.entry? target ≠ some (.file content))
  | .remove dir => Plain dir ∧ dir ≠ [] ∧
    ∀ p content, dir <+: p → d.entry? p ≠ some (.file content)
  | .make dir => Plain dir

/-- Where a deed that succeeds puts the file at a place. -/
def carry : Deed → Location → Location
  | .rename source target, q => if q = source then target else q
  | .write _ _, q => q
  | .remove _, q => q
  | .make _, q => q

end Deed

/-- A deed as it was asked of a file system: when, on which disk, and whether it succeeded. -/
structure Event where
  deed : Deed
  clock : Nat
  disk : Disk
  succeeded : Bool

namespace Event

/-- The event that a deed is on a file system. -/
def ofDeed (fs : FileSystem) (clock : Nat) (d : Disk) (deed : Deed) : Event :=
  ⟨deed, clock, d, (deed.on fs clock d).1.isOk⟩

def Spares (e : Event) : Prop := e.deed.Spares e.disk e.succeeded

/-- Where the file at a place is after the event. -/
def carry (e : Event) (q : Location) : Location := if e.succeeded then e.deed.carry q else q

/-- The file at the place was written. -/
def Rewrites (e : Event) (q : Location) : Prop :=
  e.succeeded = true ∧ ∃ text, e.deed = .write q text

end Event

/-- Where the file at a place is after the events. -/
def whereabouts : List Event → Location → Location
  | [], q => q
  | e :: events, q => whereabouts events (e.carry q)

/-- The file that was at the place before the events was written in one of them. -/
def RewrittenIn : List Event → Location → Prop
  | [], _ => False
  | e :: events, q => e.Rewrites q ∨ RewrittenIn events (e.carry q)

/-- One after the other, the events lead from one disk to another. -/
inductive Played (fs : FileSystem) : Disk → List Event → Disk → Prop
  | nil (d : Disk) : Played fs d [] d
  | cons {d d' : Disk} {events : List Event} (deed : Deed) (clock : Nat)
    (h : Played fs (deed.on fs clock d).2 events d') :
    Played fs d (.ofDeed fs clock d deed :: events) d'

theorem Played.append {fs : FileSystem} {d d' d'' : Disk} {events events' : List Event}
    (h : Played fs d events d') (h' : Played fs d' events' d'') :
    Played fs d (events ++ events') d'' := by
  induction h with
  | nil d => exact h'
  | cons deed clock _ ih => exact .cons deed clock (ih h')

/-! ## Files that are kept -/

/-- The places of the files on a disk. -/
def Disk.files (d : Disk) : Set Location := {q | ∃ content, d.entry? q = some (.file content)}

/-- The files of the first disk are those of the second, at the places that `f` leads to, and hold
what they held unless they were touched. -/
structure Disk.Kept (f : Location → Location) (touched : Location → Prop) (d d' : Disk) : Prop where
  tree : d'.IsTree
  bijective : Set.BijOn f d.files d'.files
  content : ∀ q ∈ d.files, ¬ touched q → d'.entry? (f q) = d.entry? q

namespace Disk.Kept

variable {d d' d'' : Disk} {f g : Location → Location} {touched touched' : Location → Prop}

theorem trans (h : Kept f touched d d') (h' : Kept g touched' d' d'') :
    Kept (g ∘ f) (fun q => touched q ∨ touched' (f q)) d d'' where
  tree := h'.tree
  bijective := h'.bijective.comp h.bijective
  content q hq huntouched := by
    rw [not_or] at huntouched
    rw [Function.comp_apply, h'.content _ (h.bijective.mapsTo hq) huntouched.2,
      h.content q hq huntouched.1]

/-- Files that stay where they are correspond to themselves. -/
theorem of_id (htree : d'.IsTree) (hf : ∀ q, f q = q) (hfiles : d'.files = d.files)
    (hcontent : ∀ q ∈ d.files, ¬ touched q → d'.entry? q = d.entry? q) : Kept f touched d d' where
  tree := htree
  bijective := by
    rw [hfiles, funext hf]
    exact Set.bijOn_id _
  content q hq huntouched := by
    rw [hf, hcontent q hq huntouched]

theorem of_sameFiles (htree : d'.IsTree) (hf : ∀ q, f q = q) (hsame : SameFiles d d') :
    Kept f touched d d' := by
  refine of_id htree hf ?_ ?_
  · ext q
    exact exists_congr fun content => hsame q content
  · rintro q ⟨content, hq⟩ _
    rw [hq, (hsame q content).2 hq]

/-- A file that is renamed to a free place corresponds to what is there then. -/
theorem of_rename {source target : Location} {content : Content} (htree : d'.IsTree)
    (hsource : d.entry? source = some (.file content)) (hfree : d.entry? target = none)
    (hentries : ∀ q, d'.entry? q =
      if q = target then some (.file content) else if q = source then none else d.entry? q) :
    Kept (fun q => if q = source then target else q) touched d d' := by
  have hother : ∀ q ∈ d.files, q ≠ target := by
    rintro _ ⟨content', hq⟩ rfl
    simp [hfree] at hq
  have hentry : ∀ q ∈ d.files, d'.entry? (if q = source then target else q) = d.entry? q := by
    intro q hq
    by_cases heq : q = source
    · rw [if_pos heq, hentries, if_pos rfl, heq, hsource]
    · rw [if_neg heq, hentries, if_neg (hother q hq), if_neg heq]
  refine ⟨htree, ⟨?_, ?_, ?_⟩, fun q hq _ => hentry q hq⟩
  · rintro q ⟨content', hq⟩
    exact ⟨content', (hentry q ⟨content', hq⟩).trans hq⟩
  · intro p hp q hq heq
    dsimp only at heq
    split at heq
    · split at heq
      · rename_i hps hqs
        rw [hps, hqs]
      · exact absurd heq.symm (hother q hq)
    · split at heq
      · exact absurd heq (hother p hp)
      · exact heq
  · rintro q ⟨content', hq⟩
    rw [hentries] at hq
    split at hq
    · rename_i heq
      exact ⟨source, ⟨content, hsource⟩, by simp [heq]⟩
    · split at hq
      · simp at hq
      · rename_i hne
        exact ⟨q, ⟨content', hq⟩, by simp [hne]⟩

end Disk.Kept

namespace Deed

variable {fs : FileSystem} {d : Disk} {clock : Nat} {deed : Deed}

/-- A faithful file system does what is asked of it, or fails and leaves the files alone. -/
theorem mirrors (hfiles : fs.Faithful) (htree : d.IsTree) {succeeded : Bool}
    (hspares : deed.Spares d succeeded) :
    Mirrors d (deed.on .plain clock d) (deed.on fs clock d) := by
  cases deed with
  | write place text =>
    obtain ⟨content, hfile⟩ := hspares
    exact hfiles.writeText clock d place text htree (htree.plain hfile)
  | rename source target =>
    obtain ⟨⟨content, hfile⟩, htarget, -⟩ := hspares
    exact hfiles.rename clock d source target htree (htree.plain hfile) htarget
  | remove dir =>
    obtain ⟨hdir, hne, -⟩ := hspares
    exact hfiles.removeTree clock d dir htree hdir hne
  | make dir => exact hfiles.ensureDir clock d dir htree hspares

/-- **A deed that spares the files keeps them**, whether it succeeds or fails. -/
theorem kept (hfiles : fs.Faithful) (htree : d.IsTree)
    (hspares : (Event.ofDeed fs clock d deed).Spares) :
    Kept (Event.ofDeed fs clock d deed).carry (Event.ofDeed fs clock d deed).Rewrites d
      (deed.on fs clock d).2 := by
  have hmirrors : Mirrors d (deed.on .plain clock d) (deed.on fs clock d) :=
    mirrors hfiles htree hspares
  cases hresult : (deed.on fs clock d).1 with
  | error cause =>
    obtain ⟨htree', hsame⟩ := hmirrors.error cause hresult
    refine .of_sameFiles htree' (fun q => ?_) hsame
    simp [Event.carry, Event.ofDeed, hresult, Except.isOk, Except.toBool]
  | ok value =>
    have hplain := hmirrors.ok hresult
    have hsucceeded : (Event.ofDeed fs clock d deed).succeeded = true := by
      simp [Event.ofDeed, hresult, Except.isOk, Except.toBool]
    have hok : (deed.on .plain clock d).1 = .ok () := by rw [← hplain, hresult]
    have hcarry : (Event.ofDeed fs clock d deed).carry = deed.carry := by
      funext q
      rw [Event.carry, if_pos hsucceeded]
      rfl
    rw [hcarry, hplain]
    cases deed with
    | write place text =>
      obtain ⟨content, hfile⟩ : ∃ content, d.entry? place = some (.file content) := hspares
      have hne : place ≠ [] := by
        rintro rfl
        simp at hfile
      have hput : (Deed.on .plain clock d (.write place text)).2 =
          d.put place (.file (.text text)) :=
        htree.writeText_ofPlace hfile hok
      rw [hput]
      refine .of_id (htree.put_file _ hfile) (fun q => rfl) ?_ ?_
      · ext q
        by_cases hq : q = place
        · simp [Disk.files, entry_put hne, hq, hfile]
        · simp [Disk.files, entry_put hne, hq]
      · intro q _ huntouched
        rw [entry_put hne, if_neg]
        rintro rfl
        exact huntouched ⟨hsucceeded, text, rfl⟩
    | rename source target =>
      obtain ⟨⟨content, hfile⟩, htarget, hfree⟩ := hspares
      obtain ⟨-, hnone⟩ := htree.rename_free hfile htarget (fun _ => hfree hsucceeded) hok
      obtain ⟨htree', hentries⟩ := htree.rename_file hfile htarget hnone hok
      exact .of_rename htree' hfile hnone hentries
    | remove dir =>
      obtain ⟨hdir, hne, hempty⟩ := hspares
      have herased : (Deed.on .plain clock d (.remove dir)).2 = d.eraseTree dir := by
        rcases htree.removeTree_ofPlace hdir hne with ⟨cause, herror⟩ | herased
        · exact absurd ((congrArg Prod.fst herror).symm.trans hok) (by simp)
        · exact congrArg Prod.snd herased
      rw [herased]
      exact .of_sameFiles (htree.eraseTree dir) (fun q => rfl) (sameFiles_eraseTree hne hempty)
    | make dir =>
      have hgrown : Grown dir d (Deed.on .plain clock d (.make dir)).2 :=
        (htree.ensureDir_made hspares).grown
      exact .of_sameFiles hgrown.tree (fun q => rfl) hgrown.sameFiles

end Deed

/-- **Events that spare the files keep them.** -/
theorem Played.kept {fs : FileSystem} (hfiles : fs.Faithful) {d d' : Disk} {events : List Event}
    (h : Played fs d events d') (htree : d.IsTree) (hspares : ∀ e ∈ events, e.Spares) :
    Kept (whereabouts events) (RewrittenIn events) d d' := by
  induction h with
  | nil d => exact .of_sameFiles htree (fun q => rfl) (.refl d)
  | cons deed clock _ ih =>
    have hfirst := deed.kept hfiles htree (hspares _ List.mem_cons_self)
    exact hfirst.trans (ih hfirst.tree fun e he => hspares e (List.mem_cons_of_mem _ he))

/-! ## What work asks of a file system -/

/-- The tools with another file system. -/
def Tools.withFiles (tools : Tools) (fs : FileSystem) : Tools := { tools with files := fs }

/-- The second file system answers every question as the first does, and makes the same of the
events. -/
structure FileSystem.Agrees (fs fs' : FileSystem) (events : List Event) : Prop where
  contains : fs'.contains = fs.contains
  isDir : fs'.isDir = fs.isDir
  readText : fs'.readText = fs.readText
  readDir : fs'.readDir = fs.readDir
  deeds : ∀ e ∈ events, e.deed.on fs' e.clock e.disk = e.deed.on fs e.clock e.disk

theorem FileSystem.Agrees.mono {fs fs' : FileSystem} {events events' : List Event}
    (h : fs.Agrees fs' events) (hsub : ∀ e ∈ events', e ∈ events) : fs.Agrees fs' events' :=
  ⟨h.contains, h.isDir, h.readText, h.readDir, fun e he => h.deeds e (hsub e he)⟩

namespace Work

variable {α β : Type} {tools : Tools} {s : Session}

/-- The events are all that the work asks of the file system to change: they lead from the disk
before to the one after, and the work is the same with every file system that agrees on them. -/
structure Records (tools : Tools) (work : Tools → Work α) (s : Session) (events : List Event) :
    Prop where
  played : Played tools.files s.disk events ((work tools).run.run s).2.disk
  complete : ∀ fs, tools.files.Agrees fs events →
    (work (tools.withFiles fs)).run.run s = (work tools).run.run s

/-- All that the work asks of the file system spares the files. -/
def Gentle (tools : Tools) (work : Tools → Work α) (s : Session) : Prop :=
  ∃ events, Records tools work s events ∧ ∀ e ∈ events, e.Spares

variable {work : Tools → Work α} {ok : α → Session → Prop} {error : Error → Session → Prop}

/-- Work that asks questions only is gentle. -/
theorem gentle_quiet
    (hsame : ∀ fs, tools.files.Agrees fs [] → work (tools.withFiles fs) = work tools)
    (hdisk : Ensures (work tools) s (fun _ s' => s'.disk = s.disk) fun _ s' => s'.disk = s.disk) :
    Gentle tools work s := by
  refine ⟨[], ⟨?_, fun fs hagrees => by rw [hsame fs hagrees]⟩, by simp⟩
  rw [hdisk.session]
  exact .nil _

theorem gentle_pure (value : α) : Gentle tools (fun _ => pure value) s :=
  gentle_quiet (fun _ _ => rfl) (ensures_pure rfl)

theorem gentle_throw (cause : Error) : Gentle tools (fun _ => (throw cause : Work α)) s :=
  gentle_quiet (fun _ _ => rfl) (ensures_throw rfl)

theorem gentle_bind {rest : Tools → α → Work β} (h : Gentle tools work s)
    (hensures : Ensures (work tools) s ok error)
    (hrest : ∀ value s', ok value s' → Gentle tools (fun tools => rest tools value) s') :
    Gentle tools (fun tools => work tools >>= rest tools) s := by
  obtain ⟨events, ⟨hplayed, hcomplete⟩, hspares⟩ := h
  rcases hrun : (work tools).run.run s with ⟨cause | value, s'⟩
  · rw [hrun] at hplayed
    refine ⟨events, ⟨by rwa [run_bind_error hrun], fun fs hagrees => ?_⟩, hspares⟩
    rw [run_bind_error hrun, run_bind_error ((hcomplete fs hagrees).trans hrun)]
  · rw [hrun] at hplayed
    obtain ⟨events', ⟨hplayed', hcomplete'⟩, hspares'⟩ := hrest value s' (hensures.of_ok hrun)
    refine ⟨events ++ events', ⟨?_, fun fs hagrees => ?_⟩, ?_⟩
    · rw [run_bind_ok hrun]
      exact hplayed.append hplayed'
    · have hfirst := hcomplete fs (hagrees.mono fun e he => List.mem_append_left _ he)
      have hthen := hcomplete' fs (hagrees.mono fun e he => List.mem_append_right _ he)
      rw [run_bind_ok hrun, run_bind_ok (hfirst.trans hrun), hthen]
    · intro e he
      exact (List.mem_append.1 he).elim (hspares e) (hspares' e)

/-- Work that looks at the session first is gentle if it is so for this session. -/
theorem gentle_get {rest : Tools → Session → Work β}
    (hrest : Gentle tools (fun tools => rest tools s) s) :
    Gentle tools (fun tools => (get : Work Session) >>= rest tools) s := by
  have hget : Ensures (get : Work Session) s (fun value s' => value = s ∧ s' = s)
      fun _ _ => False :=
    ensures_get ⟨rfl, rfl⟩
  refine gentle_bind (gentle_quiet (fun _ _ => rfl) (ensures_get rfl)) hget ?_
  rintro _ _ ⟨rfl, rfl⟩
  exact hrest

theorem gentle_tryCatch {handle : Tools → Error → Work α} (h : Gentle tools work s)
    (hensures : Ensures (work tools) s ok error)
    (hhandle : ∀ cause s', error cause s' → Gentle tools (fun tools => handle tools cause) s') :
    Gentle tools (fun tools => tryCatch (work tools) (handle tools)) s := by
  obtain ⟨events, ⟨hplayed, hcomplete⟩, hspares⟩ := h
  rcases hrun : (work tools).run.run s with ⟨cause | value, s'⟩
  · rw [hrun] at hplayed
    obtain ⟨events', ⟨hplayed', hcomplete'⟩, hspares'⟩ :=
      hhandle cause s' (hensures.of_error hrun)
    refine ⟨events ++ events', ⟨?_, fun fs hagrees => ?_⟩, ?_⟩
    · rw [run_tryCatch_error hrun]
      exact hplayed.append hplayed'
    · have hfirst := hcomplete fs (hagrees.mono fun e he => List.mem_append_left _ he)
      have hthen := hcomplete' fs (hagrees.mono fun e he => List.mem_append_right _ he)
      rw [run_tryCatch_error hrun, run_tryCatch_error (hfirst.trans hrun), hthen]
    · intro e he
      exact (List.mem_append.1 he).elim (hspares e) (hspares' e)
  · rw [hrun] at hplayed
    refine ⟨events, ⟨by rwa [run_tryCatch_ok hrun], fun fs hagrees => ?_⟩, hspares⟩
    rw [run_tryCatch_ok hrun, run_tryCatch_ok ((hcomplete fs hagrees).trans hrun)]

/-- A fold is gentle if each step is, as long as something holds that each step preserves. -/
theorem gentle_foldlM (invariant : β → Session → Prop) {step : Tools → β → α → Work β}
    {items : List α} {start : β} (hstart : invariant start s)
    (hensures : ∀ item ∈ items, ∀ value s, invariant value s →
      Ensures (step tools value item) s invariant fun _ _ => False)
    (hstep : ∀ item ∈ items, ∀ value s, invariant value s →
      Gentle tools (fun tools => step tools value item) s) :
    Gentle tools (fun tools => items.foldlM (step tools) start) s := by
  induction items generalizing start s with
  | nil => exact gentle_pure start
  | cons item items ih =>
    simp only [List.foldlM_cons]
    refine gentle_bind (hstep item List.mem_cons_self start s hstart)
      (hensures item List.mem_cons_self start s hstart) fun value s' hvalue => ?_
    exact ih hvalue (fun item hitem => hensures item (List.mem_cons_of_mem _ hitem))
      fun item hitem => hstep item (List.mem_cons_of_mem _ hitem)

end Work

namespace Session

open Work

variable {tools : Tools} {s : Session}

theorem perform_run (path : Path) (operation : Nat → Disk → Outcome) (s : Session) :
    (perform path operation).run.run s =
      ((operation s.clock s.disk).1.mapError (Error.io (some path)),
        { s with clock := s.clock + 1, disk := (operation s.clock s.disk).2 }) := by
  have htick : tick.run.run s = (.ok (s.clock, s.disk), { s with clock := s.clock + 1 }) := rfl
  rw [perform, run_bind_ok htick]
  dsimp only
  cases (operation s.clock s.disk).1 with
  | error cause => rfl
  | ok value => rfl

/-- A deed that spares the files is gentle work. -/
theorem perform_gentle (path : Path) (deed : Deed)
    (hspares : (Event.ofDeed tools.files s.clock s.disk deed).Spares) :
    Gentle tools (fun tools => perform path fun clock disk => deed.on tools.files clock disk)
      s := by
  refine ⟨[.ofDeed tools.files s.clock s.disk deed], ⟨?_, fun fs hagrees => ?_⟩,
    by simpa using hspares⟩
  · rw [perform_run]
    exact .cons deed s.clock (.nil _)
  · have hdeed := hagrees.deeds _ List.mem_cons_self
    have hdeed' : deed.on fs s.clock s.disk = deed.on tools.files s.clock s.disk := hdeed
    rw [perform_run, perform_run]
    exact congrArg (fun outcome : Outcome => (outcome.1.mapError (Error.io (some path)),
      { s with clock := s.clock + 1, disk := outcome.2 })) hdeed'

end Session

end Relocate
