import Relocate.Move.Run
import Relocate.Proofs.Redirection

/-! # The shape of a disk

The shape of a disk is where it has files and where directories, whatever the files hold.  All work
on imports keeps it: a file is written only after it was read, so nothing comes into being and
nothing is lost.  This holds of any session, also of one whose index names files that are gone or
are written in an odd way; the disk has to be a tree, and the file system truthful and steady.

`Disk.Retexted` says besides which files may hold something else, and `Session.redirect_retexts`
that redirecting touches no files but those that import the module.  `Work.Keeps` says that work
keeps the shape and which errors it may end in.  What moving a file does to the shape, and that it
fails with errors of the file system only, is `Move.moveFile_shape`.
-/

namespace Relocate

open Relocate.Path Work

/-! ## Disks of one shape -/

/-- The entry is a directory. -/
def Entry.isDirectory : Entry → Bool
  | .file _ => false
  | .directory => true

namespace Disk

variable {d d' d'' : Disk} {q : Location}

/-- There is something at the place. -/
def Holds (d : Disk) (q : Location) : Prop := ∃ entry, d.entry? q = some entry

theorem not_holds_iff : ¬ d.Holds q ↔ d.entry? q = none := by
  rw [Holds, ← Option.isSome_iff_exists, Option.not_isSome_iff_eq_none]

theorem concat_not_below (place : Location) (name : String) : ¬ place ++ [name] <+: place := by
  intro hpre
  have hlength := hpre.length_le
  rw [List.length_append, List.length_singleton] at hlength
  omega

/-- Above what there is there is something, too. -/
theorem IsTree.holds_of_prefix (h : d.IsTree) {p : Location} (hq : d.Holds q) (hpre : p <+: q) :
    d.Holds p := by
  by_contra hp
  exact not_holds_iff.2 (h.none_of_prefix (not_holds_iff.1 hp) hpre) hq

theorem exists_file_iff : (∃ content, d.entry? q = some (.file content)) ↔
    (d.entry? q).map Entry.isDirectory = some false := by
  constructor
  · rintro ⟨content, hq⟩
    rw [hq]
    rfl
  · intro hkind
    obtain ⟨entry, hq, hfile⟩ := Option.map_eq_some_iff.1 hkind
    cases entry with
    | file content => exact ⟨content, hq⟩
    | directory => simp [Entry.isDirectory] at hfile

/-- The second disk is a tree, and has files and directories where the first has them. -/
structure Alike (d d' : Disk) : Prop where
  tree : d'.IsTree
  kinds : ∀ q, (d'.entry? q).map Entry.isDirectory = (d.entry? q).map Entry.isDirectory

namespace Alike

theorem refl (h : d.IsTree) : Alike d d := ⟨h, fun _ => rfl⟩

theorem trans (h : Alike d d') (h' : Alike d' d'') : Alike d d'' :=
  ⟨h'.tree, fun q => (h'.kinds q).trans (h.kinds q)⟩

theorem holds_iff (h : Alike d d') (q : Location) : d'.Holds q ↔ d.Holds q := by
  have hkinds := congrArg Option.isSome (h.kinds q)
  rw [Option.isSome_map, Option.isSome_map] at hkinds
  rw [Holds, Holds, ← Option.isSome_iff_exists, ← Option.isSome_iff_exists, hkinds]

theorem exists_file_iff (h : Alike d d') (q : Location) :
    (∃ content, d'.entry? q = some (.file content)) ↔
      ∃ content, d.entry? q = some (.file content) := by
  rw [Disk.exists_file_iff, Disk.exists_file_iff, h.kinds q]

/-- There are files where there were. -/
theorem isFile_ofPlace (h : Alike d d') (htree : d.IsTree) (hq : Plain q) :
    d'.isFile (ofPlace q) = d.isFile (ofPlace q) := by
  rw [Bool.eq_iff_iff, h.tree.isFile_ofPlace hq, htree.isFile_ofPlace hq, h.exists_file_iff]

/-- A path leads to the same place on a disk of the same shape. -/
theorem follow_eq (h : Alike d d') (place : Location) (parts : List Component) :
    d'.follow place parts = d.follow place parts := by
  induction parts generalizing place with
  | nil => rfl
  | cons part parts ih =>
    have hkind := h.kinds place
    unfold follow
    cases hplace : d.entry? place with
    | none =>
      rw [hplace, Option.map_none, Option.map_eq_none_iff] at hkind
      rw [hkind]
    | some entry =>
      rw [hplace] at hkind
      obtain ⟨entry', hplace', hsame⟩ := Option.map_eq_some_iff.1 hkind
      rw [hplace']
      cases entry with
      | file content =>
        cases entry' with
        | file content' => rfl
        | directory => simp [Entry.isDirectory] at hsame
      | directory =>
        cases entry' with
        | file content' => simp [Entry.isDirectory] at hsame
        | directory => simp only [ih]

end Alike

/-- The second disk has the shape of the first, and only files that were touched may hold something
else. -/
structure Retexted (touched : Location → Prop) (d d' : Disk) : Prop extends Alike d d' where
  workingDir : d'.workingDir = d.workingDir
  same : ∀ q, ¬ touched q → d'.entry? q = d.entry? q

namespace Retexted

variable {touched touched' : Location → Prop}

theorem refl (h : d.IsTree) : Retexted touched d d := ⟨.refl h, rfl, fun _ _ => rfl⟩

theorem trans (h : Retexted touched d d') (h' : Retexted touched d' d'') :
    Retexted touched d d'' where
  toAlike := h.toAlike.trans h'.toAlike
  workingDir := h'.workingDir.trans h.workingDir
  same q hq := (h'.same q hq).trans (h.same q hq)

theorem mono (h : Retexted touched d d') (htouched : ∀ q, touched q → touched' q) :
    Retexted touched' d d' where
  toAlike := h.toAlike
  workingDir := h.workingDir
  same q hq := h.same q fun hq' => hq (htouched q hq')

theorem put_file {content : Content} (h : d.IsTree) (hq : d.entry? q = some (.file content))
    (content' : Content) : Retexted (· = q) d (d.put q (.file content')) := by
  have hne : q ≠ [] := by
    rintro rfl
    simp at hq
  refine ⟨⟨h.put_file content' hq, fun p => ?_⟩, ?_, fun p hp => ?_⟩
  · rw [entry_put hne]
    by_cases hp : p = q
    · subst hp
      simp [hq, Entry.isDirectory]
    · rw [if_neg hp]
  · unfold put
    split <;> rfl
  · rw [entry_put hne, if_neg hp]

theorem locate_eq (h : Retexted touched d d') (path : Path) : d'.locate path = d.locate path := by
  have hstart : d'.startOf path = d.startOf path := by rw [startOf, startOf, h.workingDir]
  unfold locate
  rw [hstart]
  simp only [h.toAlike.follow_eq]

/-- A file that was not touched is read as before. -/
theorem readText_eq (h : Retexted touched d d') (hplain : Plain q) (hq : ¬ touched q) :
    d'.readText (ofPlace q) = d.readText (ofPlace q) := by
  have hfind : d'.find (ofPlace q) = d.find (ofPlace q) := by
    unfold find
    rw [h.locate_eq]
    cases hlocate : d.locate (ofPlace q) with
    | error cause => rfl
    | ok place =>
      obtain rfl := eq_of_locate_ofPlace hplain hlocate
      simp only [Except.bind, h.same place hq]
  rw [readText, readText, hfind]

end Retexted

/-- A path from which a text can be read leads to a file. -/
theorem file_of_readText {path : Path} {text : String} (h : d.readText path = .ok text) :
    ∃ place, d.locate path = .ok place ∧ d.entry? place = some (.file (.text text)) := by
  have hfind : d.find path = .ok (.file (.text text)) := by
    unfold readText at h
    split at h
    · rename_i found hfound
      rw [hfound, Except.ok.inj h]
    · simp at h
    · simp at h
    · simp at h
  unfold find at hfind
  cases hlocate : d.locate path with
  | error cause => simp [hlocate, Except.bind] at hfind
  | ok place =>
    refine ⟨place, rfl, ?_⟩
    cases hentry : d.entry? place with
    | none => simp [hlocate, Except.bind, hentry] at hfind
    | some entry => simpa [hlocate, Except.bind, hentry] using hfind

/-- Writing where a text was read changes what a file holds and no more. -/
theorem IsTree.writeText_retexted (h : d.IsTree) {path : Path} {old text : String}
    (hread : d.readText path = .ok old) :
    Retexted (fun q => d.locate path = .ok q) d (d.writeText path text).2 := by
  obtain ⟨place, hlocate, hentry⟩ := file_of_readText hread
  unfold writeText
  split
  · exact .refl h
  · rename_i found hplace
    have hfound : found = place := by
      unfold placeToWrite at hplace
      split at hplace
      · simp only [Except.bind] at hplace
        split at hplace
        · simp at hplace
        · simp at hplace
      · exact Except.ok.inj (hplace.symm.trans hlocate)
    subst hfound
    split
    · exact .refl h
    · refine (Retexted.put_file h hentry _).mono ?_
      rintro q rfl
      exact hlocate

end Disk

/-! ## Work that keeps the shape -/

namespace Work

open Disk

variable {α β : Type} {work : Work α} {fails : Error → Prop}

/-- The work leaves the disk with the shape it had, and fails with such errors only. -/
def Keeps (work : Work α) (fails : Error → Prop) : Prop :=
  ∀ s : Session, s.disk.IsTree →
    Ensures work s (fun _ s' => Alike s.disk s'.disk) fun e s' => fails e ∧ Alike s.disk s'.disk

/-- Any error. -/
def anyError : Error → Prop := fun _ => True

/-- No error. -/
def noError : Error → Prop := fun _ => False

theorem keeps_pure (value : α) : Keeps (pure value) fails :=
  fun _ hs => ensures_pure (.refl hs)

theorem keeps_throw {cause : Error} (h : fails cause) : Keeps (throw cause : Work α) fails :=
  fun _ hs => ensures_throw ⟨h, .refl hs⟩

theorem keeps_get : Keeps (get : Work Session) fails := fun _ hs => ensures_get (.refl hs)

theorem keeps_modify {change : Session → Session} (h : ∀ s, (change s).disk = s.disk) :
    Keeps (modify change : Work PUnit) fails :=
  fun s hs => ensures_modify ((h s).symm ▸ .refl hs)

theorem Keeps.bind {rest : α → Work β} (h : Keeps work fails) (hrest : ∀ a, Keeps (rest a) fails) :
    Keeps (work >>= rest) fails := by
  intro s hs
  refine ensures_bind ((h s hs).mono ?_ fun _ _ h => h)
  intro a s₁ halike
  refine (hrest a s₁ halike.tree).mono ?_ ?_
  · exact fun _ _ halike' => halike.trans halike'
  · exact fun _ _ hfail => ⟨hfail.1, halike.trans hfail.2⟩

theorem Keeps.tryCatch {handle : Error → Work α} (h : Keeps work anyError)
    (hhandle : ∀ e, Keeps (handle e) fails) : Keeps (tryCatch work handle) fails := by
  intro s hs
  refine ensures_tryCatch ((h s hs).mono (fun _ _ h => h) ?_)
  rintro e s₁ ⟨-, halike⟩
  refine (hhandle e s₁ halike.tree).mono ?_ ?_
  · exact fun _ _ halike' => halike.trans halike'
  · exact fun _ _ hfail => ⟨hfail.1, halike.trans hfail.2⟩

theorem keeps_foldlM {step : β → α → Work β} (h : ∀ b a, Keeps (step b a) fails) (items : List α)
    (start : β) : Keeps (items.foldlM step start) fails := by
  induction items generalizing start with
  | nil => exact keeps_pure start
  | cons item items ih =>
    rw [List.foldlM_cons]
    exact (h start item).bind ih

end Work

/-! ## The imports of files -/

namespace Session

open Disk

variable {tools : Tools}

theorem inquire_keeps {α : Type} (path : Path) (inquiry : Nat → Disk → Except IoCause α) :
    Keeps (inquire path inquiry) anyError := by
  intro s hs
  exact ensures_inquire (fun _ _ => .refl hs) fun _ _ => ⟨trivial, .refl hs⟩

theorem importsOf_keeps (tools : Tools) (path : Path) (text : String) :
    Keeps (importsOf tools path text) anyError := by
  unfold importsOf
  split
  · exact keeps_pure _
  · exact keeps_throw trivial

/-- Indexing does not touch the disk. -/
theorem indexText_disk (tools : Tools) (text : String) (path : Path) (afresh : Bool) (s : Session) :
    Ensures (indexText tools text path afresh) s (fun _ s' => s'.disk = s.disk)
      fun _ s' => s'.disk = s.disk := by
  have hrest : ∀ s₁ : Session, s₁.disk = s.disk → Ensures (do
      let references ← importsOf tools path text
      let s ← get
      let indexed := references.foldl (addReference s.resolver s.disk path) (s.index, 0)
      set { s with index := indexed.1 }
      return indexed.2) s₁ (fun _ s' => s'.disk = s.disk) fun _ s' => s'.disk = s.disk := by
    intro s₁ hdisk
    refine ensures_bind ((importsOf_ensures tools _ _).mono ?_ ?_)
    · rintro references _ ⟨rfl, -⟩
      exact ensures_bind (ensures_get (ensures_bind (ensures_set (ensures_pure hdisk))))
    · rintro _ _ rfl
      exact hdisk
  unfold indexText
  cases afresh with
  | false => exact hrest s rfl
  | true => exact ensures_bind (ensures_modify (hrest _ rfl))

theorem indexText_keeps (tools : Tools) (text : String) (path : Path) (afresh : Bool) :
    Keeps (indexText tools text path afresh) anyError := by
  intro s hs
  have halike : ∀ s' : Session, s'.disk = s.disk → Alike s.disk s'.disk := by
    intro s' hdisk
    rw [hdisk]
    exact .refl hs
  refine (indexText_disk tools text path afresh s).mono ?_ ?_
  · exact fun _ s' hdisk => halike s' hdisk
  · exact fun _ s' hdisk => ⟨trivial, halike s' hdisk⟩

theorem refresh_keeps (tools : Tools) (file : Path) : Keeps (refresh tools file) anyError :=
  (inquire_keeps _ _).bind fun _ => indexText_keeps tools _ _ _

/-- Replacing imports writes at most the file that was read. -/
theorem replaceImports_retexts (hfiles : tools.files.Truthful) (hsteady : tools.files.Steady)
    (file : Path) (replacements : List Replacement) (readAs : Path) {s : Session}
    (hs : s.disk.IsTree) :
    Ensures (replaceImports tools file replacements readAs) s
      (fun _ s' => Retexted (fun q => s.disk.locate file = .ok q) s.disk s'.disk)
      fun _ s' => Retexted (fun q => s.disk.locate file = .ok q) s.disk s'.disk := by
  refine ensures_bind (ensures_inquire ?_ fun _ _ => .refl hs)
  intro text hread
  have hread' := hfiles.readText _ _ _ _ hread
  refine ensures_bind ((importsOf_ensures tools _ _).mono ?_ ?_)
  · rintro references _ ⟨rfl, -⟩
    refine ensures_bind (ensures_get ?_)
    split
    · exact ensures_pure (.refl hs)
    · split
      · exact ensures_throw (.refl hs)
      · rename_i newText _
        refine ensures_bind (ensures_perform ?_ ?_)
        · intro d hwrite
          have hwritten : Retexted (fun q => s.disk.locate file = .ok q) s.disk
              (s.disk.writeText file newText).2 := hs.writeText_retexted hread'
          rw [hfiles.writeText _ _ _ _ _ hwrite] at hwritten
          refine ensures_bind ((indexText_disk tools newText file true _).mono ?_ ?_)
          · exact fun _ _ hdisk => ensures_pure (hdisk ▸ hwritten)
          · exact fun _ _ hdisk => hdisk ▸ hwritten
        · intro cause d hwrite
          obtain rfl : d = s.disk := hsteady _ _ _ _ _ _ hwrite
          exact .refl hs
  · rintro _ _ rfl
    exact .refl hs

theorem replaceImports_keeps (hfiles : tools.files.Truthful) (hsteady : tools.files.Steady)
    (file : Path) (replacements : List Replacement) (readAs : Path) :
    Keeps (replaceImports tools file replacements readAs) anyError :=
  fun _ hs => (replaceImports_retexts hfiles hsteady file replacements readAs hs).mono
    (fun _ _ h => h.toAlike) fun _ _ h => ⟨trivial, h.toAlike⟩

/-- The place is that of a file which imports the module of a file, as far as the index knows. -/
def ImportsModuleOf (s : Session) (source : Path) (q : Location) : Prop :=
  ∃ file ∈ s.index.files (s.resolver.identityOf source), s.disk.locate file = .ok q

/-- **Redirecting imports** does not fail, and rewrites nothing but files that import the module. -/
theorem redirect_retexts (hfiles : tools.files.Truthful) (hsteady : tools.files.Steady)
    (source target : Path) {s : Session} (hs : s.disk.IsTree) :
    Ensures (redirect tools source target) s
      (fun _ s' => Retexted (s.ImportsModuleOf source) s.disk s'.disk) fun _ _ => False := by
  refine ensures_bind (ensures_get ?_)
  refine ensures_foldlM (fun _ _ s₁ => Retexted (s.ImportsModuleOf source) s.disk s₁.disk)
    (.refl hs) ?_
  intro _ file hfile done s₁ h₁
  -- a path leads where it led before the first file was rewritten
  have hstep : ∀ {d}, Retexted (fun q => s₁.disk.locate file = .ok q) s₁.disk d →
      Retexted (s.ImportsModuleOf source) s.disk d := by
    intro d h₂
    refine h₁.trans (h₂.mono fun q hq => ⟨file, hfile, ?_⟩)
    rw [← h₁.locate_eq]
    exact hq
  refine ensures_tryCatch (ensures_bind (ensures_get (ensures_bind
    ((replaceImports_retexts hfiles hsteady _ _ _ h₁.tree).mono ?_ ?_))))
  · intro changed s₂ h₂
    cases changed with
    | true => exact ensures_pure (hstep h₂)
    | false => exact ensures_pure (hstep h₂)
  · exact fun _ _ h₂ => ensures_pure (hstep h₂)

/-- Redirecting imports keeps the shape of the disk and does not fail. -/
theorem redirect_keeps (hfiles : tools.files.Truthful) (hsteady : tools.files.Steady)
    (source target : Path) : Keeps (redirect tools source target) noError :=
  fun _ hs => (redirect_retexts hfiles hsteady source target hs).mono
    (fun _ _ h => h.toAlike) fun _ _ h => h.elim

theorem adjustMoved_keeps (hfiles : tools.files.Truthful) (hsteady : tools.files.Steady)
    (source target : Path) : Keeps (adjustMoved tools source target) anyError := by
  refine (inquire_keeps _ _).bind fun text => (importsOf_keeps tools _ _).bind fun references => ?_
  refine keeps_get.bind fun s => (replaceImports_keeps hfiles hsteady _ _ _).bind fun changed => ?_
  cases changed with
  | true => exact keeps_pure _
  | false => exact (indexText_keeps tools _ _ _).bind fun _ => keeps_pure _

theorem forgetMoved_keeps (source target : Path) {fails : Error → Prop} :
    Keeps (forgetMoved source target) fails := by
  refine keeps_modify fun s => ?_
  dsimp only
  split <;> rfl

theorem updateMoved_keeps (hfiles : tools.files.Truthful) (hsteady : tools.files.Steady)
    (source target : Path) : Keeps (updateMoved tools source target) anyError := by
  refine keeps_get.bind fun s => ?_
  split
  · refine ((adjustMoved_keeps hfiles hsteady source target).tryCatch fun e => ?_).bind fun _ => ?_
    · exact (forgetMoved_keeps source target).bind fun _ => keeps_throw trivial
    · exact (forgetMoved_keeps source target).bind fun _ => keeps_pure _
  · exact (forgetMoved_keeps source target).bind fun _ => keeps_pure _

end Session

/-! ## Moving a file -/

namespace Move

open Disk Session

variable {tools : Tools} {s : Session} {a b : Location}

theorem recordUpdated_keeps (tools : Tools) (source : Path) (report : Report) (file : Path) :
    Keeps (recordUpdated tools source report file) noError := by
  unfold recordUpdated
  split
  · refine Keeps.bind (Keeps.tryCatch ?_ fun _ => keeps_pure _)
      fun _ => keeps_pure _
    exact (refresh_keeps tools file).bind fun _ => keeps_pure _
  · exact keeps_pure _

/-- The last part of moving a file does not fail either. -/
theorem reportMoved_keeps (hfiles : tools.files.Truthful) (hsteady : tools.files.Steady)
    (source target : Path) (report : Report) :
    Keeps
      (tryCatch
        (do
          if ← Session.updateMoved tools source target then return report.addUpdated target
          else return report)
        fun error => return report.addFailure target error) noError := by
  refine Keeps.tryCatch ?_ fun _ => keeps_pure _
  refine (updateMoved_keeps hfiles hsteady source target).bind fun changed => ?_
  cases changed with
  | true => exact keeps_pure _
  | false => exact keeps_pure _

/-- **Moving a file to a free place** takes away what was at its place and adds what was missing on
the way to the new one.  It fails with errors of the file system only. -/
theorem moveFile_shape (hfiles : tools.files.Truthful) (hsteady : tools.files.Steady)
    (htree : s.disk.IsTree) {content : Content} (hsource : s.disk.entry? a = some (.file content))
    (hb : Plain b) (hne : b ≠ []) (hfree : ¬ s.disk.Holds b) (report : Report) :
    Ensures (moveFile tools (ofPlace a) (ofPlace b) report) s
      (fun _ s' => s'.disk.IsTree ∧ Writable b ∧ ¬ a <+: b ∧
        ∀ q, s'.disk.Holds q ↔ q <+: b ∨ q ≠ a ∧ s.disk.Holds q)
      fun e _ => e.isIo = true := by
  refine ensures_bind ((redirect_keeps hfiles hsteady _ _ s htree).mono ?_ fun _ _ h => h.1.elim)
  intro updated s₁ halike₁
  obtain ⟨above, name, rfl⟩ := (List.eq_nil_or_concat' b).resolve_left hne
  have habove : Plain above := hb.left
  simp only [parent?_ofPlace_concat hb]
  refine ensures_bind (ensures_perform ?_ fun _ _ _ => rfl)
  intro d₂ hmake
  have hmade := halike₁.tree.ensureDir_made habove
  rw [hfiles.ensureDir _ _ _ _ hmake] at hmade
  have hdir := hmade.directory rfl
  have hentries := hmade.grown.entry_eq hdir
  -- making directories changes neither the file nor the free place
  obtain ⟨content₁, hsource₁⟩ := (halike₁.exists_file_iff a).2 ⟨content, hsource⟩
  have hsource₂ : d₂.entry? a = some (.file content₁) :=
    (hmade.grown.sameFiles a content₁).2 hsource₁
  have hfree₂ : d₂.entry? (above ++ [name]) = none := by
    rw [hentries, if_neg (concat_not_below _ _)]
    exact not_holds_iff.1 fun hholds => hfree ((halike₁.holds_iff _).1 hholds)
  refine ensures_bind (ensures_perform ?_ fun _ _ _ => rfl)
  intro d₃ hrename
  have hrename' := hfiles.rename _ _ _ _ _ hrename
  have hok : (d₂.rename (ofPlace a) (ofPlace (above ++ [name]))).1 = .ok () := by rw [hrename']
  obtain ⟨hwritable, -⟩ := hmade.grown.tree.rename_ofPlace hsource₂ hb hok
  obtain ⟨htree₃, hentries₃⟩ := hmade.grown.tree.rename_file hsource₂ hb hfree₂ hok
  rw [hrename'] at htree₃ hentries₃
  refine ensures_bind ((keeps_foldlM (recordUpdated_keeps tools (ofPlace a)) updated.files _ _
    htree₃).mono ?_ fun _ _ h => h.1.elim)
  intro report₄ s₄ halike₄
  refine (reportMoved_keeps hfiles hsteady _ _ _ s₄ halike₄.tree).mono ?_ fun _ _ h => h.1.elim
  intro report₅ s₅ halike₅
  -- the file is not on the way to the place it goes to
  have haway : a ≠ above ++ [name] ∧ ¬ a <+: above := by
    refine ⟨fun heq => ?_, fun hpre => ?_⟩
    · rw [heq, hfree₂] at hsource₂
      simp at hsource₂
    · rw [hentries, if_pos hpre] at hsource₂
      simp at hsource₂
  refine ⟨halike₅.tree, hwritable, ?_, fun q => ?_⟩
  · rw [List.prefix_concat_iff, not_or]
    exact haway
  rw [(halike₄.trans halike₅).holds_iff]
  change (∃ entry, d₃.entry? q = some entry) ↔ _
  rw [List.prefix_concat_iff, ← halike₁.holds_iff, Holds, hentries₃, hentries]
  by_cases hq : q = above ++ [name]
  · simp [hq]
  · by_cases hqa : q = a
    · subst hqa
      simp [haway.1, haway.2]
    · by_cases hpre : q <+: above
      · simp [hq, hqa, hpre]
      · simp [hq, hqa, hpre]

end Move

end Relocate
