import Relocate.Proofs.FoundFiles
import Relocate.Proofs.Lasting
import Relocate.Proofs.Shapes

/-! # The texts that a move leaves

Moving a file rewrites texts in two places.  The files that import it are rewritten one by one, each
once, before it goes, and the edits for each depend on where there are files but not on what the
files hold; so all of them are the edits for the disk as it was (`Session.redirect_rewrites`).  The
file itself is rewritten when it is there (`Session.updateMoved_rewrites`).

`Move.moveFile_rewrites` says what each file holds afterwards if nothing failed.
-/

namespace Relocate

open Relocate.Path Work

namespace TextEdit

theorem applyAll_nil (text : String) : applyAll text [] = .ok text := by
  simp [applyAll, sorted, clash?, Draft.replaceAll, Except.map]

end TextEdit

namespace Session

open Disk

variable {tools : Tools} {s : Session} {c : Location}

/-! ## The text of one file -/

/-- The text is rewritten by replacements of its imports, which are those of the file and are read
as those of `readAs`. -/
def Becomes (tools : Tools) (r : Resolver) (d : Disk) (file readAs : Path)
    (replacements : List Reference → List Replacement) (text new : String) : Prop :=
  ∃ references, tools.importsOf file text = some references ∧
    TextEdit.applyAll text (r.editsFor d readAs references (replacements references)) = .ok new

/-- The file has the text on the first disk that is rewritten to the text it has on the second. -/
def RewritesAt (tools : Tools) (r : Resolver) (d₀ : Disk) (file readAs : Path)
    (replacements : List Reference → List Replacement) (d d' : Disk) : Prop :=
  ∃ text new, d.readText file = .ok text ∧
    Becomes tools r d₀ file readAs replacements text new ∧ d'.readText file = .ok new

/-- If replacing imports succeeds, the text was rewritten. -/
theorem replaceImports_rewrites (hfiles : tools.files.Truthful) (hs : s.disk.IsTree)
    (hplain : Plain c) (replacements : List Replacement) (readAs : Path) :
    Ensures (replaceImports tools (ofPlace c) replacements readAs) s
      (fun _ s' => RewritesAt tools s.resolver s.disk (ofPlace c) readAs (fun _ => replacements)
        s.disk s'.disk)
      fun _ _ => True := by
  refine ensures_bind (ensures_inquire ?_ fun _ _ => trivial)
  intro text hread
  have hread' := hfiles.readText _ _ _ _ hread
  refine ensures_bind ((importsOf_ensures tools _ _).mono ?_ fun _ _ _ => trivial)
  rintro references _ ⟨rfl, himports⟩
  refine ensures_bind (ensures_get ?_)
  dsimp only
  cases hedits : s.resolver.editsFor s.disk readAs references replacements with
  | nil =>
    refine ensures_pure ⟨text, text, hread', ⟨references, himports, ?_⟩, hread'⟩
    rw [hedits, TextEdit.applyAll_nil]
  | cons e edits =>
    dsimp only
    split
    · exact ensures_throw trivial
    · rename_i new happly
      rw [← hedits] at happly
      refine ensures_bind (ensures_perform ?_ fun _ _ _ => trivial)
      intro d hwrite
      have hwrite' := hfiles.writeText _ _ _ _ _ hwrite
      obtain ⟨-, he⟩ := (hs.readText_ofPlace hplain).1 hread'
      have hput := hs.writeText_ofPlace he (congrArg Prod.fst hwrite')
      rw [hwrite'] at hput
      have hread₂ : d.readText (ofPlace c) = .ok new := by
        rw [show d = _ from hput]
        exact hs.readText_put hplain hread' new
      refine ensures_bind
        ((indexText_disk tools new (ofPlace c) true _).mono ?_ fun _ _ _ => trivial)
      intro _ s₃ hdisk
      refine ensures_pure ⟨text, new, hread', ⟨references, himports, happly⟩, ?_⟩
      rw [hdisk]
      exact hread₂

/-! ## The files that import a module -/

/-- Without aliases and packages, it matters only where there are files. -/
theorem Becomes.of_isFile {known : Extensions} (hknown : known.Dotless) {d d' : Disk}
    (hfiles : ∀ q, Plain q → d'.isFile (ofPlace q) = d.isFile (ofPlace q)) {file readAs : Path}
    (hreadAs : readAs.isAbsolute = true) {replacements : List Reference → List Replacement}
    {text new : String}
    (h : Becomes tools (.ofExtensions known) d file readAs replacements text new) :
    Becomes tools (.ofExtensions known) d' file readAs replacements text new := by
  obtain ⟨references, himports, happly⟩ := h
  refine ⟨references, himports, ?_⟩
  rwa [Resolver.editsFor_congr hknown hfiles hreadAs]

/-- Redirecting has got so far: the files that are done are rewritten, unless one failed, and no
others. -/
structure Redirecting (tools : Tools) (s : Session) (source target : Path) (done : List Path)
    (updated : Updated) (s' : Session) : Prop where
  resolver : s'.resolver = s.resolver
  retexted : Retexted (fun q => ofPlace q ∈ done) s.disk s'.disk
  rewrites : updated.failed = [] → ∀ file ∈ done,
    RewritesAt tools s.resolver s.disk file file
      (fun _ => [replacementFor s.resolver file source target]) s.disk s'.disk

theorem redirectIn_rewrites (hfiles : tools.files.Truthful) (hsteady : tools.files.Steady)
    {known : Extensions} (hknown : known.Dotless) (hresolver : s.resolver = .ofExtensions known)
    (hs : s.disk.IsTree) (hplain : Plain c) {source target : Path} {done : List Path}
    (hdone : ∀ file ∈ done, ∃ q, Plain q ∧ file = ofPlace q) (hnew : ofPlace c ∉ done)
    {updated : Updated} {s₁ : Session} (h : Redirecting tools s source target done updated s₁) :
    Ensures (redirectIn tools source target updated (ofPlace c)) s₁
      (Redirecting tools s source target (done ++ [ofPlace c])) fun _ _ => False := by
  have htree₁ := h.retexted.tree
  -- the file was not touched before, and the others that are done are not touched now
  have hretexted : ∀ {d}, Retexted (fun q => s₁.disk.locate (ofPlace c) = .ok q) s₁.disk d →
      Retexted (fun q => ofPlace q ∈ done ++ [ofPlace c]) s.disk d := by
    intro d h₂
    refine (h.retexted.mono fun q hq => List.mem_append_left _ hq).trans (h₂.mono fun q hq => ?_)
    rw [eq_of_locate_ofPlace hplain hq]
    simp
  refine ensures_tryCatch (ensures_bind (ensures_get (ensures_bind
    (((replaceImports_retexts hfiles hsteady _ _ _ htree₁).and
      ((replaceImports_rewrites hfiles htree₁ hplain _ _).and
        ((lasting_resolver s.resolver).replaceImports _ _ _ s₁ h.resolver))).mono ?_ ?_))))
  · rintro changed s₂ ⟨h₂, hrewrites₂, hresolver₂⟩
    have hall : updated.failed = [] → ∀ file ∈ done ++ [ofPlace c],
        RewritesAt tools s.resolver s.disk file file
          (fun _ => [replacementFor s.resolver file source target]) s.disk s₂.disk := by
      intro hclean file hfile
      rcases List.mem_append.1 hfile with hfile | hfile
      · obtain ⟨q, hq, rfl⟩ := hdone file hfile
        obtain ⟨text, new, hread, hbecomes, hread'⟩ := h.rewrites hclean _ hfile
        refine ⟨text, new, hread, hbecomes, ?_⟩
        rw [h₂.readText_eq hq, hread']
        intro hlocate
        rw [eq_of_locate_ofPlace hplain hlocate] at hfile
        exact hnew hfile
      · obtain rfl := List.mem_singleton.1 hfile
        obtain ⟨text, new, hread, hbecomes, hread'⟩ := hrewrites₂
        rw [h.retexted.readText_eq hplain hnew] at hread
        rw [h.resolver, hresolver] at hbecomes
        rw [hresolver]
        exact ⟨text, new, hread, hbecomes.of_isFile hknown
          (fun q hq => (h.retexted.isFile_ofPlace hs hq).symm) (isAbsolute_ofPlace c), hread'⟩
    cases changed with
    | true => exact ensures_pure ⟨hresolver₂, hretexted h₂, hall⟩
    | false => exact ensures_pure ⟨hresolver₂, hretexted h₂, hall⟩
  · rintro cause s₂ ⟨h₂, -, hresolver₂⟩
    exact ensures_pure ⟨hresolver₂, hretexted h₂, by simp⟩

/-- **Redirecting rewrites the files that import the module**, each once, as they were before the
first of them was rewritten. -/
theorem redirect_rewrites (hfiles : tools.files.Truthful) (hsteady : tools.files.Steady)
    {known : Extensions} (hknown : known.Dotless) (hresolver : s.resolver = .ofExtensions known)
    (hsound : Sound tools nowhere s) (source target : Path) :
    Ensures (redirect tools source target) s
      (Redirecting tools s source target (s.index.files (s.resolver.identityOf source)))
      fun _ _ => False := by
  refine ensures_bind (ensures_get (ensures_foldlM_split (Redirecting tools s source target) ?_ ?_))
  · exact ⟨rfl, .refl hsound.tree, fun _ _ hfile => (nomatch hfile)⟩
  · intro done file rest hsplit updated s₁ h
    have hplace : ∀ file ∈ s.index.files (s.resolver.identityOf source),
        ∃ q, Plain q ∧ file = ofPlace q := by
      intro file hfile
      obtain ⟨q, hq, heq, -⟩ := hsound.known hfile
      exact ⟨q, hq, heq⟩
    obtain ⟨c, hplain, rfl⟩ := hplace file (by rw [hsplit]; simp)
    refine redirectIn_rewrites hfiles hsteady hknown hresolver hsound.tree hplain
      (fun file hfile => hplace file (by rw [hsplit]; exact List.mem_append_left _ hfile)) ?_ h
    -- no file is named twice
    intro hagain
    have hdistinct := distinct_eraseDups
      ((s.index.sites (s.resolver.identityOf source)).map Site.file)
    rw [← Index.files_eq_eraseDups, hsplit] at hdistinct
    have hne := (List.pairwise_append.1 hdistinct).2.2 _ hagain _ List.mem_cons_self
    simp at hne

/-! ## The file that has moved -/

/-- Without aliases and packages, the replacements do not depend on the disk. -/
theorem movedReplacements_disk (known : Extensions) (d d' : Disk) (source target : Path) :
    movedReplacements (.ofExtensions known) d' source target =
      movedReplacements (.ofExtensions known) d source target := by
  funext references
  simp only [movedReplacements, Resolver.resolvePath?_disk known d d']

/-- If adjusting a file that has moved succeeds, its text was rewritten. -/
theorem adjustMoved_rewrites (hfiles : tools.files.Truthful) (hs : s.disk.IsTree)
    (hplain : Plain c) (source : Path) :
    Ensures (adjustMoved tools source (ofPlace c)) s
      (fun _ s' => RewritesAt tools s.resolver s.disk (ofPlace c) source
        (movedReplacements s.resolver s.disk source (ofPlace c)) s.disk s'.disk)
      fun _ _ => True := by
  refine ensures_bind (ensures_inquire ?_ fun _ _ => trivial)
  intro text hread
  have hread' := hfiles.readText _ _ _ _ hread
  refine ensures_bind ((importsOf_ensures tools _ _).mono ?_ fun _ _ _ => trivial)
  rintro references _ ⟨rfl, himports⟩
  have hs₁ : ({ s with clock := s.clock + 1 } : Session).disk.IsTree := hs
  refine ensures_bind (ensures_get (ensures_bind
    ((replaceImports_rewrites hfiles hs₁ hplain _ _).mono ?_ fun _ _ _ => trivial)))
  rintro changed s₂ ⟨text', new, hread₂, ⟨references', himports', happly⟩, hnew⟩
  obtain rfl : text = text' := Except.ok.inj (hread'.symm.trans hread₂)
  obtain rfl : references = references' := Option.some.inj (himports.symm.trans himports')
  have hrewrites : RewritesAt tools s.resolver s.disk (ofPlace c) source
      (movedReplacements s.resolver s.disk source (ofPlace c)) s.disk s₂.disk :=
    ⟨text, new, hread', ⟨references, himports, happly⟩, hnew⟩
  cases changed with
  | true => exact ensures_pure hrewrites
  | false =>
    refine ensures_bind
      ((indexText_disk tools text (ofPlace c) true s₂).mono ?_ fun _ _ _ => trivial)
    intro _ s₃ hdisk
    refine ensures_pure ?_
    rw [hdisk]
    exact hrewrites

theorem updateMoved_rewrites (hfiles : tools.files.Truthful) (hs : s.disk.IsTree)
    (hplain : Plain c) (hsource : s.resolver.known.isSource (ofPlace c) = true) (source : Path) :
    Ensures (updateMoved tools source (ofPlace c)) s
      (fun _ s' => RewritesAt tools s.resolver s.disk (ofPlace c) source
        (movedReplacements s.resolver s.disk source (ofPlace c)) s.disk s'.disk)
      fun _ _ => True := by
  refine ensures_bind (ensures_get ?_)
  rw [if_pos hsource]
  refine ensures_bind (ensures_tryCatch ((adjustMoved_rewrites hfiles hs hplain source).mono ?_ ?_))
  · intro changed s₁ h
    refine ensures_bind (ensures_modify (ensures_pure ?_))
    dsimp only
    split
    · exact h
    · exact h
  · exact fun _ _ _ => ensures_bind (ensures_modify (ensures_throw trivial))

end Session

/-! ## Moving a file -/

namespace Move

open Disk Session

variable {tools : Tools} {s : Session} {a b : Location}

/-- The last part of moving a file, if nothing failed. -/
theorem reportMoved_rewrites (hfiles : tools.files.Truthful) (hs : s.disk.IsTree)
    (hplain : Plain b) (hsource : s.resolver.known.isSource (ofPlace b) = true) (source : Path)
    (report : Report) :
    Ensures
      (tryCatch
        (do
          if ← Session.updateMoved tools source (ofPlace b) then
            return report.addUpdated (ofPlace b)
          else return report)
        fun error => return report.addFailure (ofPlace b) error) s
      (fun report' s' => report'.failed = [] → report.failed = [] ∧
        RewritesAt tools s.resolver s.disk (ofPlace b) source
          (movedReplacements s.resolver s.disk source (ofPlace b)) s.disk s'.disk)
      fun _ _ => False := by
  refine ensures_tryCatch (ensures_bind
    ((updateMoved_rewrites hfiles hs hplain hsource source).mono ?_ ?_))
  · intro changed s₁ h
    cases changed with
    | true => exact ensures_pure fun hclean => ⟨hclean, h⟩
    | false => exact ensures_pure fun hclean => ⟨hclean, h⟩
  · exact fun error s₁ _ => ensures_pure fun hclean => by simp [Report.addFailure] at hclean

/-- What the files hold after one of them went from `a` to `b`: those that import it are redirected,
its own imports are expressed anew, and the others are as they were. -/
structure TextsMoved (tools : Tools) (s : Session) (a b : Location) (d' : Disk) : Prop where
  importing : ∀ c, Plain c → c ≠ a →
    ofPlace c ∈ s.index.files (s.resolver.identityOf (ofPlace a)) →
    RewritesAt tools s.resolver s.disk (ofPlace c) (ofPlace c)
      (fun _ => [replacementFor s.resolver (ofPlace c) (ofPlace a) (ofPlace b)]) s.disk d'
  others : ∀ c, Plain c → c ≠ a →
    ofPlace c ∉ s.index.files (s.resolver.identityOf (ofPlace a)) →
    ∀ text, s.disk.readText (ofPlace c) = .ok text → d'.readText (ofPlace c) = .ok text
  own : ofPlace a ∉ s.index.files (s.resolver.identityOf (ofPlace a)) →
    ∀ text, s.disk.readText (ofPlace a) = .ok text →
      ∃ new, Becomes tools s.resolver d' (ofPlace b) (ofPlace a)
          (movedReplacements s.resolver d' (ofPlace a) (ofPlace b)) text new ∧
        d'.readText (ofPlace b) = .ok new

/-- The texts are those left by redirecting, except that of the file itself. -/
theorem TextsMoved.of_redirecting {s₁ : Session} {updated : Updated} {d' : Disk} (hplain : Plain a)
    (h : Redirecting tools s (ofPlace a) (ofPlace b)
      (s.index.files (s.resolver.identityOf (ofPlace a))) updated s₁)
    (hclean : updated.failed = [])
    (helsewhere : ∀ c text, Plain c → c ≠ a → s₁.disk.readText (ofPlace c) = .ok text →
      d'.readText (ofPlace c) = .ok text)
    (hown : ∀ text, s₁.disk.readText (ofPlace a) = .ok text →
      ∃ new, Becomes tools s.resolver d' (ofPlace b) (ofPlace a)
          (movedReplacements s.resolver d' (ofPlace a) (ofPlace b)) text new ∧
        d'.readText (ofPlace b) = .ok new) :
    TextsMoved tools s a b d' := by
  constructor
  · intro c hc hca hmem
    obtain ⟨text, new, hread, hbecomes, hread'⟩ := h.rewrites hclean _ hmem
    exact ⟨text, new, hread, hbecomes, helsewhere c new hc hca hread'⟩
  · intro c hc hca hmem text hread
    rw [← h.retexted.readText_eq hc hmem] at hread
    exact helsewhere c text hc hca hread
  · intro hmem text hread
    rw [← h.retexted.readText_eq hplain hmem] at hread
    exact hown text hread

/-- A file elsewhere keeps its text when one goes from `a` to `b`, where there was none, and is
rewritten there. -/
theorem readText_elsewhere {fs : FileSystem} {d₁ d₂ d₃ d₄ : Disk} {above : Location}
    {content : Content} {named : Prop} (htree : d₁.IsTree) (hgrown : Grown above d₁ d₂)
    (hentries : ∀ q, d₃.entry? q =
      if q = b then some (.file content) else if q = a then none else d₂.entry? q)
    (hrewritten : Rewritten fs (fun q => q = b ∧ named) d₃ d₄)
    (hfree : ∀ content, d₁.entry? b ≠ some (.file content)) {c : Location} {text : String}
    (hc : Plain c) (hca : c ≠ a) (hread : d₁.readText (ofPlace c) = .ok text) :
    d₄.readText (ofPlace c) = .ok text := by
  obtain ⟨hwritable, he⟩ := (htree.readText_ofPlace hc).1 hread
  have hcb : c ≠ b := by
    rintro rfl
    exact hfree _ he
  have he₃ : d₃.entry? c = some (.file (.text text)) := by
    rw [hentries, if_neg hcb, if_neg hca]
    exact (hgrown.sameFiles c _).2 he
  obtain ⟨content', he₄, rfl | ⟨rfl, -⟩⟩ := hrewritten.kept c _ he₃
  · exact (hrewritten.tree.readText_ofPlace hc).2 ⟨hwritable, he₄⟩
  · exact absurd rfl hcb

/-- **The texts that moving a file leaves**, if nothing failed.  There are no aliases and packages,
and the file goes to a source. -/
theorem moveFile_rewrites (hfaithful : tools.files.Faithful) (hfiles : tools.files.Truthful)
    (hsteady : tools.files.Steady) {known : Extensions} (hknown : known.Dotless)
    (hresolver : s.resolver = .ofExtensions known) (hsound : Sound tools nowhere s)
    {content : Content} (hsource : s.disk.entry? a = some (.file content)) (hb : Plain b)
    (hfree : s.disk.entry? b = none) (htarget : known.isSource (ofPlace b) = true)
    (report : Report) :
    Ensures (moveFile tools (ofPlace a) (ofPlace b) report) s
      (fun report' s' => report'.failed = [] → TextsMoved tools s a b s'.disk)
      fun _ _ => True := by
  have hplain := hsound.tree.plain hsource
  refine ensures_bind (((redirect_ensures hfaithful hsound _ _).and
    (redirect_rewrites hfiles hsteady hknown hresolver hsound _ _)).mono ?_ fun _ _ h => h.1.elim)
  rintro updated s₁ ⟨hredirected, hredirecting⟩
  have hne : b ≠ [] := by
    rintro rfl
    simp at hfree
  have hparent : (ofPlace b).parent? = some (ofPlace b.dropLast) := by
    obtain ⟨above, name, rfl⟩ := (List.eq_nil_or_concat' b).resolve_left hne
    rw [parent?_ofPlace_concat hb, List.dropLast_concat]
  simp only [hparent]
  refine ensures_bind (((ensureDir_ensures hfaithful hredirected.sound
    (hb.of_prefix (List.dropLast_prefix b))).and
      ((lasting_resolver s.resolver).perform _ _ s₁ hredirecting.resolver)).mono ?_
        fun _ _ _ => trivial)
  rintro _ s₂ ⟨⟨hsound₂, hgrown, -, -⟩, hresolver₂⟩
  obtain ⟨content₁, hsource₁⟩ := (hredirecting.retexted.exists_file_iff a).2 ⟨content, hsource⟩
  have hfree₁ : ∀ c, s₁.disk.entry? b ≠ some (.file c) := by
    intro c hc
    obtain ⟨c', hc'⟩ := (hredirecting.retexted.exists_file_iff b).1 ⟨c, hc⟩
    simp [hfree] at hc'
  have hsource₂ := (hgrown.sameFiles a content₁).2 hsource₁
  refine ensures_bind (((rename_ensures hfaithful hsound₂ hsource₂ hb fun _ c hc =>
    hfree₁ c ((hgrown.sameFiles b c).1 hc)).and
      ((lasting_resolver s.resolver).perform _ _ s₂ hresolver₂)).mono ?_ fun _ _ _ => trivial)
  rintro _ s₃ ⟨⟨hsound₃, -, hentries⟩, hresolver₃⟩
  refine ensures_bind (((recordAll_ensures hfaithful hsound₃ hredirected.files _ _).and
    (preserves_foldlM ((lasting_resolver s.resolver).recordUpdated (ofPlace a)) _ _ s₃
      hresolver₃)).mono ?_ fun _ _ h => h.1.elim)
  rintro report₁ s₄ ⟨⟨rfl, hsound₄, hdisk₄⟩, hresolver₄⟩
  have htarget₄ : s₄.resolver.known.isSource (ofPlace b) = true := by
    rw [hresolver₄, hresolver]
    exact htarget
  refine ((updateMoved_report_ensures hfaithful hsound₄ hb _).and
    ((reportMoved_keeps hfiles hsteady _ _ _ s₄ hsound₄.tree).and
      (reportMoved_rewrites hfiles hsound₄.tree hb htarget₄ (ofPlace a) _))).mono ?_
        fun _ _ h => h.1.elim
  rintro report₅ s₅ ⟨⟨hsound₅, hrewritten₅, -⟩, halike₅, hclean₅⟩ hclean
  obtain ⟨hclean₄, hown⟩ := hclean₅ hclean
  obtain ⟨-, hclean₁⟩ : report.failed = [] ∧ updated.failed = [] := by
    simpa [Report.addMoved, Report.failed_foldl_addUpdated, Report.failed_foldl_addFailure]
      using hclean₄
  refine .of_redirecting hplain hredirecting hclean₁ ?_ ?_
  · intro c text hc hca hread
    rw [← hdisk₄] at hentries
    exact readText_elsewhere hredirected.sound.tree hgrown hentries hrewritten₅ hfree₁ hc hca hread
  · intro text hread
    obtain ⟨-, he⟩ := (hredirected.sound.tree.readText_ofPlace hplain).1 hread
    obtain ⟨text₄, new, hread₄, hbecomes, hread'⟩ := hown
    obtain ⟨-, he₄⟩ := (hsound₄.tree.readText_ofPlace hb).1 hread₄
    obtain rfl : text = text₄ := by
      rw [hdisk₄, hentries, if_pos rfl, ← hsource₁, he] at he₄
      simpa using he₄
    rw [hresolver₄, hresolver, movedReplacements_disk known s₅.disk] at hbecomes
    rw [hresolver]
    exact ⟨new, hbecomes.of_isFile hknown (fun q hq => halike₅.isFile_ofPlace hsound₄.tree hq)
      (isAbsolute_ofPlace a), hread'⟩

/-- Where there are files after one of them moved. -/
theorem FileMoved.fileWent {fs : FileSystem} {report report' : Report} {d d' : Disk}
    (h : FileMoved fs a b report report' d d') (htree : d.IsTree) : d.FileWent a b d' := by
  intro q hq
  obtain ⟨content, ha⟩ := h.file
  rw [h.tree.isFile_ofPlace hq, htree.isFile_ofPlace hq]
  constructor
  · rintro ⟨hwritable, content', he⟩
    obtain ⟨p, content₀, hp, rfl⟩ := h.old q content' he
    rw [shift_of_file htree ha hp] at hwritable ⊢
    by_cases hpa : p = a
    · rw [if_pos hpa]
      exact .inl rfl
    · rw [if_neg hpa] at hwritable ⊢
      exact .inr ⟨hpa, hwritable, content₀, hp⟩
  · rintro (rfl | ⟨hqa, hwritable, content', he⟩)
    · obtain ⟨content', he', -⟩ := h.kept a content ha
      rw [shift_source] at he'
      exact ⟨h.writable, content', he'⟩
    · obtain ⟨content'', he', -⟩ := h.kept q content' he
      rw [shift_of_file htree ha he, if_neg hqa] at he'
      exact ⟨hwritable, content'', he'⟩

end Move

end Relocate
