import Relocate.Proofs.ImportGraph

/-! # What lasts through all work

Work changes the disk, and it changes the index by additions and by forgetting; the resolver is set
when a project is read and never again.  So a property of the resolver and the index that lasts
through changes of the index lasts through everything that is done in a session (`Session.Lasting`).
There is one lemma for each piece of work, up to `Session.Lasting.move`.
-/

namespace Relocate

open Work

/-! ## Properties that work preserves -/

namespace Work

variable {α β : Type} {P : Session → Prop}

/-- If the property holds before the work it holds afterwards, however the work ends. -/
def Preserves (P : Session → Prop) (work : Work α) : Prop :=
  ∀ s, P s → Ensures work s (fun _ => P) fun _ => P

theorem preserves_pure (value : α) : Preserves P (pure value) := fun _ h => ensures_pure h

theorem preserves_throw (cause : Error) : Preserves P (throw cause : Work α) :=
  fun _ h => ensures_throw h

theorem preserves_get : Preserves P (get : Work Session) := fun _ h => ensures_get h

theorem preserves_modify {change : Session → Session} (h : ∀ s, P s → P (change s)) :
    Preserves P (modify change : Work PUnit) :=
  fun s hs => ensures_modify (h s hs)

theorem Preserves.bind {work : Work α} {rest : α → Work β} (h : Preserves P work)
    (hrest : ∀ value, Preserves P (rest value)) : Preserves P (work >>= rest) := fun s hs =>
  ensures_bind ((h s hs).mono (fun value _ hs' => hrest value _ hs') fun _ _ hs' => hs')

theorem Preserves.tryCatch {work : Work α} {handle : Error → Work α} (h : Preserves P work)
    (hhandle : ∀ cause, Preserves P (handle cause)) :
    Preserves P (tryCatch work handle) := fun s hs =>
  ensures_tryCatch ((h s hs).mono (fun _ _ hs' => hs') fun cause _ hs' => hhandle cause _ hs')

theorem preserves_foldlM {step : β → α → Work β} (h : ∀ value item, Preserves P (step value item))
    (items : List α) (start : β) : Preserves P (items.foldlM step start) := by
  induction items generalizing start with
  | nil => exact preserves_pure start
  | cons item items ih => exact (h start item).bind ih

theorem preserves_forM {step : α → Work PUnit} (h : ∀ item, Preserves P (step item))
    (items : List α) : Preserves P (items.forM step) := fun _ hs =>
  ensures_forM hs fun item _ s hs => h item s hs

theorem preserves_importsOf (tools : Tools) (path : Path) (text : String) :
    Preserves P (Session.importsOf tools path text) := by
  unfold Session.importsOf
  split
  · exact preserves_pure _
  · exact preserves_throw _

theorem preserves_discover : Preserves P Session.discover := by
  refine preserves_get.bind fun s => ?_
  split
  · exact preserves_pure _
  · exact preserves_throw _

end Work

/-! ## The work of a session -/

namespace Session

/-- The property is one of the resolver and the index, and changes of the index do not end it. -/
structure Lasting (P : Session → Prop) : Prop where
  of_eq : ∀ {s s' : Session}, P s → s'.resolver = s.resolver → s'.index = s.index → P s'
  change : ∀ {s : Session} (c : Index.Change), P s → P { s with index := s.index.change c }

/-- Which resolver it is lasts. -/
theorem lasting_resolver (r : Resolver) : Lasting fun s => s.resolver = r where
  of_eq h hresolver _ := hresolver.trans h
  change _ h := h

/-- To index a text afresh is to forget its file first. -/
theorem indexText_afresh (tools : Tools) (text : String) (file : Path) :
    indexText tools text file true =
      modify (fun s => { s with index := s.index.dropFile file }) >>= fun _ =>
        indexText tools text file false :=
  rfl

namespace Lasting

variable {α : Type} {P : Session → Prop} {tools : Tools}

theorem addAll (hP : Lasting P) {s : Session} (h : P s) (imports : List Import) :
    P { s with index := s.index.addAll imports } := by
  induction imports generalizing s with
  | nil => exact h
  | cons i imports ih => exact ih (hP.change (.add i.target i.site) h)

theorem inquire (hP : Lasting P) (path : Path) (inquiry : Nat → Disk → Except IoCause α) :
    Preserves P (Session.inquire path inquiry) := fun _ h =>
  ensures_inquire (fun _ _ => hP.of_eq h rfl rfl) fun _ _ => hP.of_eq h rfl rfl

theorem perform (hP : Lasting P) (path : Path) (operation : Nat → Disk → Disk.Outcome) :
    Preserves P (Session.perform path operation) := fun _ h =>
  ensures_perform (fun _ _ => hP.of_eq h rfl rfl) fun _ _ _ => hP.of_eq h rfl rfl

theorem indexText (hP : Lasting P) (text : String) (file : Path) (afresh : Bool) :
    Preserves P (Session.indexText tools text file afresh) := by
  have hadds : Preserves P (Session.indexText tools text file false) := by
    intro s hs
    refine (indexText_adds tools s text file).mono ?_ ?_
    · rintro _ _ ⟨references, -, rfl⟩
      exact hP.of_eq (hP.addAll hs (importsAmong s.resolver s.disk file references)) rfl rfl
    · rintro _ _ ⟨-, rfl⟩
      exact hs
  cases afresh with
  | false => exact hadds
  | true =>
    rw [indexText_afresh]
    exact (preserves_modify fun s hs => hP.change (.dropFile file) hs).bind fun _ => hadds

theorem refresh (hP : Lasting P) (file : Path) : Preserves P (Session.refresh tools file) :=
  (hP.inquire _ _).bind fun _ => hP.indexText _ _ _

theorem indexFiles (hP : Lasting P) (files : List Path) :
    Preserves P (Session.indexFiles tools files) := by
  refine preserves_get.bind fun s =>
    preserves_forM (fun batch => preserves_forM (fun file => ?_) batch) _
  refine Preserves.tryCatch ?_ fun _ => preserves_pure _
  exact (hP.inquire _ _).bind fun _ => (hP.indexText _ _ _).bind fun _ => preserves_pure _

theorem replaceImports (hP : Lasting P) (file : Path) (replacements : List Replacement)
    (readAs : Path) : Preserves P (Session.replaceImports tools file replacements readAs) := by
  refine (hP.inquire _ _).bind fun text =>
    (preserves_importsOf tools _ _).bind fun references => preserves_get.bind fun s => ?_
  split
  · exact preserves_pure _
  · split
    · exact preserves_throw _
    · exact (hP.perform _ _).bind fun _ => (hP.indexText _ _ _).bind fun _ => preserves_pure _

theorem redirect (hP : Lasting P) (source target : Path) :
    Preserves P (Session.redirect tools source target) := by
  refine preserves_get.bind fun s => preserves_foldlM (fun done file => ?_) _ _
  refine Preserves.tryCatch (preserves_get.bind fun s => ?_) fun _ => preserves_pure _
  refine (hP.replaceImports _ _ _).bind fun written => ?_
  split
  · exact preserves_pure _
  · exact preserves_pure _

theorem forgetMoved (hP : Lasting P) (source target : Path) :
    Preserves P (Session.forgetMoved source target) := by
  refine preserves_modify fun s h => ?_
  dsimp only
  split
  · exact hP.change (.dropFile source) h
  · exact hP.change (.dropModule source _) h

theorem adjustMoved (hP : Lasting P) (source target : Path) :
    Preserves P (Session.adjustMoved tools source target) := by
  refine (hP.inquire _ _).bind fun text =>
    (preserves_importsOf tools _ _).bind fun references => preserves_get.bind fun s =>
      (hP.replaceImports _ _ _).bind fun written => ?_
  split
  · exact preserves_pure _
  · exact (hP.indexText _ _ _).bind fun _ => preserves_pure _

theorem updateMoved (hP : Lasting P) (source target : Path) :
    Preserves P (Session.updateMoved tools source target) := by
  refine preserves_get.bind fun s => ?_
  split
  · refine Preserves.bind
      (Preserves.tryCatch (hP.adjustMoved source target) fun cause => ?_) fun _ => ?_
    · exact (hP.forgetMoved source target).bind fun _ => preserves_throw cause
    · exact (hP.forgetMoved source target).bind fun _ => preserves_pure _
  · exact (hP.forgetMoved source target).bind fun _ => preserves_pure _

/-! ## A move -/

theorem recordUpdated (hP : Lasting P) (source : Path) (report : Report) (file : Path) :
    Preserves P (Move.recordUpdated tools source report file) := by
  have hrefresh :
      Preserves P (tryCatch (do let _ ← Session.refresh tools file) fun _ => pure ()) :=
    Preserves.tryCatch ((hP.refresh file).bind fun _ => preserves_pure _) fun _ => preserves_pure _
  unfold Move.recordUpdated
  split
  · exact hrefresh.bind fun _ => preserves_pure _
  · exact preserves_pure _

theorem moveFile (hP : Lasting P) (source target : Path) (report : Report) :
    Preserves P (Move.moveFile tools source target report) := by
  have hrest : ∀ (updated : Updated) (report : Report), Preserves P (do
      Session.rename tools source target
      let report ← updated.files.foldlM (Move.recordUpdated tools source) report
      let report := report.addMoved source target
      tryCatch
        (do
          if ← Session.updateMoved tools source target then return report.addUpdated target
          else return report)
        fun error => return report.addFailure target error) := by
    intro updated report
    refine (hP.perform _ _).bind fun _ =>
      (preserves_foldlM (hP.recordUpdated source) _ _).bind fun report => ?_
    refine Preserves.tryCatch ((hP.updateMoved source target).bind fun changed => ?_)
      fun _ => preserves_pure _
    split
    · exact preserves_pure _
    · exact preserves_pure _
  refine (hP.redirect source target).bind fun updated => ?_
  dsimp only
  split
  · exact (hP.perform _ _).bind fun _ => hrest updated _
  · exact hrest updated _

theorem temporaryPlace (hP : Lasting P) (dir : Path) (taken : List Path) (tries : Nat) :
    Preserves P (Move.temporaryPlace tools dir taken tries) := by
  induction tries with
  | zero => exact preserves_throw _
  | succ tries ih =>
    have hdraw : Preserves P (drawName tools) := fun s hs =>
      ensures_bind (ensures_get (ensures_bind (ensures_set (ensures_pure (hP.of_eq hs rfl rfl)))))
    refine hdraw.bind fun name => ?_
    dsimp only
    split
    · exact ih
    · refine (preserves_get.bind fun s => preserves_pure _).bind fun taken => ?_
      split
      · exact ih
      · exact preserves_pure _

theorem step (hP : Lasting P) (task : Task) (p : Progress) :
    Preserves P (Move.step tools task p) := by
  have hask : ∀ path, Preserves P (Session.contains tools path) := fun path =>
    preserves_get.bind fun s => preserves_pure _
  cases task with
  | remove dir => exact (hP.perform _ _).bind fun _ => preserves_pure _
  | move source target =>
    unfold Move.step
    dsimp only
    split
    · exact preserves_pure _
    · refine (hask target).bind fun taken => ?_
      split
      · exact preserves_throw _
      · refine (hask source).bind fun there => ?_
        split
        · exact preserves_throw _
        · refine (preserves_get.bind fun s => preserves_pure _).bind fun isDir => ?_
          split
          · exact (hP.moveFile source target p.report).bind fun _ => preserves_pure _
          · split
            · exact (hP.temporaryPlace _ _ _).bind fun _ => preserves_pure _
            · exact (hP.perform _ _).bind fun _ => (hP.inquire _ _).bind fun _ => preserves_pure _

/-- The run of a move, by induction on the tasks it may still do. -/
theorem run (hP : Lasting P) (fuel : Nat) (p : Progress) : Preserves P (Move.run tools fuel p) := by
  induction fuel generalizing p with
  | zero =>
    unfold Move.run
    split
    · exact preserves_pure _
    · exact preserves_throw _
  | succ fuel ih =>
    unfold Move.run
    split
    · exact preserves_pure _
    · exact (hP.step _ _).bind fun p => ih p

theorem move (hP : Lasting P) (source target : Path) :
    Preserves P (Move.move tools source target) :=
  preserves_get.bind fun _ => hP.run _ _

end Lasting

end Session

end Relocate
