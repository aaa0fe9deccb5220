import Relocate.Proofs.Sessions

/-! # Redirecting imports

Redirecting rewrites texts in place.  `Disk.Rewritten` says what that may do to a disk: files stay
where they are, and only those touched change what they hold.  Each piece of work on the imports of
a file keeps the session sound and rewrites nothing but that file; `redirect`, which goes through
all files that import a module, rewrites nothing but the files it then names as updated or failed.
-/

namespace Relocate

open Relocate.Path Work

/-- A write that fails changes nothing at all, not even directories. -/
def FileSystem.Steady (fs : FileSystem) : Prop :=
  ∀ clock d path text cause d', fs.writeText clock d path text = (.error cause, d') → d' = d

theorem FileSystem.plain_steady : plain.Steady := by
  intro clock d path text cause d' hwrite
  have hwrite' : d.writeText path text = (.error cause, d') := hwrite
  have hsame := Disk.writeText_error (congrArg Prod.fst hwrite')
  rw [hwrite'] at hsame
  exact hsame

namespace Disk

variable {fs : FileSystem} {touched touched' : Location → Prop} {d d' d'' : Disk}

/-- The second disk has the files of the first, where they were, and only files that were touched
may hold something else.  On a steady file system the directories are the same as well. -/
structure Rewritten (fs : FileSystem) (touched : Location → Prop) (d d' : Disk) : Prop where
  tree : d'.IsTree
  kept : ∀ q content, d.entry? q = some (.file content) →
    ∃ content', d'.entry? q = some (.file content') ∧ (content' = content ∨ touched q)
  old : ∀ q content, d'.entry? q = some (.file content) →
    ∃ content', d.entry? q = some (.file content')
  directories : fs.Steady → ∀ q, d'.entry? q = some .directory ↔ d.entry? q = some .directory

namespace Rewritten

theorem refl (h : d.IsTree) : Rewritten fs touched d d where
  tree := h
  kept _ content he := ⟨content, he, .inl rfl⟩
  old _ content he := ⟨content, he⟩
  directories _ _ := Iff.rfl

theorem trans (h : Rewritten fs touched d d') (h' : Rewritten fs touched d' d'') :
    Rewritten fs touched d d'' where
  tree := h'.tree
  kept q content he := by
    obtain ⟨content', he', hsame⟩ := h.kept q content he
    obtain ⟨content'', he'', hsame'⟩ := h'.kept q content' he'
    refine ⟨content'', he'', ?_⟩
    rcases hsame with rfl | htouched
    · exact hsame'
    · exact .inr htouched
  old q content he := by
    obtain ⟨content', he'⟩ := h'.old q content he
    exact h.old q content' he'
  directories hsteady q := (h'.directories hsteady q).trans (h.directories hsteady q)

theorem mono (h : Rewritten fs touched d d') (htouched : ∀ q, touched q → touched' q) :
    Rewritten fs touched' d d' where
  tree := h.tree
  kept q content he := by
    obtain ⟨content', he', hsame⟩ := h.kept q content he
    exact ⟨content', he', hsame.imp id (htouched q)⟩
  old := h.old
  directories := h.directories

theorem put {place : Location} {content : Content} (h : d.IsTree)
    (he : d.entry? place = some (.file content)) (content' : Content) :
    Rewritten fs (· = place) d (d.put place (.file content')) := by
  have hne : place ≠ [] := by
    rintro rfl
    simp at he
  refine ⟨h.put_file content' he, ?_, ?_, ?_⟩
  · intro q old hq
    rw [entry_put hne]
    by_cases heq : q = place
    · exact ⟨content', by simp [heq], .inr heq⟩
    · exact ⟨old, by simp [heq, hq], .inl rfl⟩
  · intro q new hq
    rw [entry_put hne] at hq
    by_cases heq : q = place
    · exact ⟨content, heq ▸ he⟩
    · exact ⟨new, by simpa [heq] using hq⟩
  · intro _ q
    rw [entry_put hne]
    by_cases heq : q = place
    · simp [heq, he]
    · simp [heq]

/-- What was not touched reads as before. -/
theorem readText (h : Rewritten fs touched d d') (htree : d.IsTree) {place : Location}
    (hplain : Plain place) (hplace : ¬ touched place) {text : String}
    (hread : d.readText (ofPlace place) = .ok text) : d'.readText (ofPlace place) = .ok text := by
  obtain ⟨hwritable, he⟩ := (htree.readText_ofPlace hplain).1 hread
  obtain ⟨content, he', hsame⟩ := h.kept place _ he
  rcases hsame with rfl | htouched
  · exact (h.tree.readText_ofPlace hplain).2 ⟨hwritable, he'⟩
  · exact absurd htouched hplace

end Rewritten

end Disk

namespace Session

open Disk

variable {tools : Tools} {stale touched : Location → Prop} {s : Session} {place : Location}

/-- Sites in files that were not touched stay current. -/
theorem Sound.rewritten (h : Sound tools stale s) {d : Disk} (clock : Nat)
    (hd : Rewritten tools.files touched s.disk d) :
    Sound tools (fun q => stale q ∨ touched q) { s with clock := clock, disk := d } :=
  h.withDisk clock hd.tree fun _ _ hplain htouched => hd.readText h.tree hplain htouched

/-- Writing a file that is there makes its place stale; a write that fails makes nothing stale. -/
theorem writeText_ensures (hfiles : tools.files.Faithful) (hsound : Sound tools stale s)
    (hplain : Plain place) {old text : String}
    (hread : s.disk.readText (ofPlace place) = .ok old) :
    Ensures (writeText tools (ofPlace place) text) s
      (fun _ s' => Sound tools (fun q => stale q ∨ q = place) s' ∧
        Rewritten tools.files (· = place) s.disk s'.disk ∧
        s'.disk.readText (ofPlace place) = .ok text)
      fun _ s' => Sound tools stale s' ∧ Rewritten tools.files (· = place) s.disk s'.disk := by
  obtain ⟨-, he⟩ := (hsound.tree.readText_ofPlace hplain).1 hread
  have hmirrors := hfiles.writeText s.clock s.disk place text hsound.tree hplain
  refine ensures_perform ?_ ?_
  · intro d hwrite
    rw [hwrite] at hmirrors
    have heq := hmirrors.ok rfl
    have hput := hsound.tree.writeText_ofPlace he (congrArg Prod.fst heq).symm
    have hd : d = s.disk.put place (.file (.text text)) := by
      rw [← hput, ← heq]
    have hrewritten : Rewritten tools.files (· = place) s.disk d := hd ▸ .put hsound.tree he _
    refine ⟨hsound.rewritten _ hrewritten, hrewritten, ?_⟩
    rw [hd]
    exact hsound.tree.readText_put hplain hread text
  · intro cause d hwrite
    rw [hwrite] at hmirrors
    obtain ⟨htree, hsame⟩ := hmirrors.error cause rfl
    refine ⟨hsound.withSameFiles _ htree hsame, htree,
      fun q content hq => ⟨content, (hsame q content).2 hq, .inl rfl⟩,
      fun q content hq => ⟨content, (hsame q content).1 hq⟩, fun hsteady q => ?_⟩
    rw [hsteady _ _ _ _ _ _ hwrite]

/-! ## The imports of one file -/

/-- The session is sound, and its disk was rewritten at no other place. -/
def Adjusted (tools : Tools) (stale : Location → Prop) (place : Location) (s s' : Session) : Prop :=
  Sound tools stale s' ∧ Rewritten tools.files (· = place) s.disk s'.disk

theorem Reindexed.adjusted {s' : Session} (h : Reindexed tools stale s s') :
    Adjusted tools stale place s s' := by
  obtain ⟨hsound, hdisk⟩ := h
  exact ⟨hsound, hdisk ▸ .refl hsound.tree⟩

/-- Replacing imports in a file rewrites that file, or nothing if the answer is no. -/
theorem replaceImports_ensures (hfiles : tools.files.Faithful) (hsound : Sound tools stale s)
    (hplain : Plain place) (replacements : List Replacement) (readAs : Path) :
    Ensures (replaceImports tools (ofPlace place) replacements readAs) s
      (fun changed s' => Adjusted tools stale place s s' ∧ (changed = false → s'.disk = s.disk))
      fun _ => Adjusted tools stale place s := by
  have hsame : ∀ s' : Session, s' = { s with clock := s.clock + 1 } →
      Adjusted tools stale place s s' := by
    rintro _ rfl
    exact ⟨hsound.of_eq rfl rfl rfl, .refl hsound.tree⟩
  refine ensures_bind ((readText_ensures hfiles _).mono ?_ fun _ => hsame)
  rintro text s₁ ⟨hs₁, hread⟩
  refine ensures_bind ((importsOf_ensures tools _ _).mono ?_ ?_)
  · rintro references _ ⟨rfl, -⟩
    refine ensures_bind (ensures_get ?_)
    split
    · exact ensures_pure ⟨hsame _ hs₁, fun _ => by rw [hs₁]⟩
    · split
      · exact ensures_throw (hsame _ hs₁)
      · subst hs₁
        rename_i newText _
        have hsound₁ : Sound tools stale { s with clock := s.clock + 1 } :=
          hsound.of_eq rfl rfl rfl
        refine ensures_bind ((writeText_ensures hfiles hsound₁ hplain hread).mono ?_ fun _ _ h => h)
        rintro _ s₂ ⟨hsound₂, hrewritten, hread₂⟩
        -- between the write and the indexing, what is known of this file alone is stale
        have hsound₂' : Sound tools (fun q => stale q ∨ true = true ∧ q = place) s₂ :=
          hsound₂.mono (by simp)
        refine ensures_bind ((indexText_ensures hplain hsound₂' hread₂).mono ?_ ?_)
        · rintro _ s₃ ⟨hsound₃, hdisk₃⟩
          exact ensures_pure ⟨⟨hsound₃, hdisk₃ ▸ hrewritten⟩, by simp⟩
        · rintro _ s₃ ⟨hsound₃, hdisk₃⟩
          exact ⟨hsound₃, hdisk₃ ▸ hrewritten⟩
  · rintro _ _ rfl
    exact hsame _ hs₁

/-! ## The files that import a module -/

/-- The files that were tried are named: as updated or as failed. -/
def Updated.Names (done : Updated) (place : Location) : Prop :=
  ofPlace place ∈ done.files ∨ ∃ error, (ofPlace place, error) ∈ done.failed

/-- The path is that of a place, and a file is there unless the place is stale. -/
def Known (stale : Location → Prop) (d : Disk) (file : Path) : Prop :=
  ∃ place, Plain place ∧ file = ofPlace place ∧
    (stale place ∨ ∃ content, d.entry? place = some (.file content))

/-- What the index knows of are files. -/
theorem Sound.known (h : Sound tools stale s) {target : Identity} {file : Path}
    (hfile : file ∈ s.index.files target) : Known stale s.disk file := by
  obtain ⟨site, hsite, rfl⟩ := Index.mem_of_mem_files hfile
  obtain ⟨place, hplain, hplace, hcurrent⟩ := h.placed _ site hsite
  refine ⟨place, hplain, hplace, hcurrent.imp id ?_⟩
  rintro ⟨text, references, hread, -⟩
  rw [hplace] at hread
  exact ⟨_, ((h.tree.readText_ofPlace hplain).1 hread).2⟩

/-- The session is sound, its disk was rewritten in the files that are named and nowhere else, and
these were known. -/
structure Redirected (tools : Tools) (stale : Location → Prop) (s : Session) (done : Updated)
    (s' : Session) : Prop where
  sound : Sound tools stale s'
  rewritten : Rewritten tools.files done.Names s.disk s'.disk
  files : ∀ file ∈ done.files, Known stale s.disk file
  failed : ∀ f ∈ done.failed, Known stale s.disk f.1

theorem redirectIn_ensures (hfiles : tools.files.Faithful) {file source target : Path}
    {done : Updated} {s' : Session} (hknown : Known stale s.disk file)
    (h : Redirected tools stale s done s') :
    Ensures (redirectIn tools source target done file) s' (Redirected tools stale s)
      fun _ _ => False := by
  obtain ⟨place, hplain, rfl, -⟩ := id hknown
  refine ensures_tryCatch (ensures_bind (ensures_get ?_))
  refine ensures_bind ((replaceImports_ensures hfiles h.sound hplain _ _).mono ?_ ?_)
  · rintro changed s₁ ⟨⟨hsound₁, hrewritten₁⟩, hsame⟩
    cases changed with
    | true =>
      refine ensures_pure ⟨hsound₁, ?_, ?_, h.failed⟩
      · refine (h.rewritten.mono ?_).trans (hrewritten₁.mono ?_)
        · rintro q (hq | hq)
          · exact .inl (List.mem_append_left _ hq)
          · exact .inr hq
        · rintro q rfl
          exact .inl (by simp)
      · intro file hfile
        rcases List.mem_append.1 hfile with hfile | hfile
        · exact h.files file hfile
        · rw [List.mem_singleton.1 hfile]
          exact hknown
    | false =>
      refine ensures_pure ⟨hsound₁, ?_, h.files, h.failed⟩
      rw [hsame rfl]
      exact h.rewritten
  · rintro error s₁ ⟨hsound₁, hrewritten₁⟩
    refine ensures_pure ⟨hsound₁, ?_, h.files, ?_⟩
    · refine (h.rewritten.mono ?_).trans (hrewritten₁.mono ?_)
      · rintro q (hq | ⟨cause, hq⟩)
        · exact .inl hq
        · exact .inr ⟨cause, List.mem_append_left _ hq⟩
      · rintro q rfl
        exact .inr ⟨error, by simp⟩
    · intro f hf
      rcases List.mem_append.1 hf with hf | hf
      · exact h.failed f hf
      · rw [List.mem_singleton.1 hf]
        exact hknown

/-- Redirecting the imports of a module never fails, and rewrites the files that it names. -/
theorem redirect_ensures (hfiles : tools.files.Faithful) (hsound : Sound tools stale s)
    (source target : Path) :
    Ensures (redirect tools source target) s (Redirected tools stale s) fun _ _ => False := by
  refine ensures_bind (ensures_get (ensures_foldlM (fun _ => Redirected tools stale s) ?_ ?_))
  · exact ⟨hsound, .refl hsound.tree, by simp, by simp⟩
  · intro _ file hfile done s' h
    exact redirectIn_ensures hfiles (hsound.known hfile) h

/-! ## A file that has moved -/

/-- The imports of a file that has moved are adjusted in that file only. -/
theorem adjustMoved_ensures (hfiles : tools.files.Faithful) (hsound : Sound tools stale s)
    (hplain : Plain place) (source : Path) :
    Ensures (adjustMoved tools source (ofPlace place)) s
      (fun changed s' => Adjusted tools stale place s s' ∧ (changed = false → s'.disk = s.disk))
      fun _ => Adjusted tools stale place s := by
  have hsame : ∀ s' : Session, s' = { s with clock := s.clock + 1 } →
      Adjusted tools stale place s s' := by
    rintro _ rfl
    exact ⟨hsound.of_eq rfl rfl rfl, .refl hsound.tree⟩
  refine ensures_bind ((readText_ensures hfiles _).mono ?_ fun _ => hsame)
  rintro text s₁ ⟨hs₁, hread⟩
  refine ensures_bind ((importsOf_ensures tools _ _).mono ?_ ?_)
  · rintro references _ ⟨rfl, -⟩
    subst hs₁
    have hsound₁ : Sound tools stale { s with clock := s.clock + 1 } := hsound.of_eq rfl rfl rfl
    refine ensures_bind (ensures_get (ensures_bind
      ((replaceImports_ensures hfiles hsound₁ hplain _ _).mono ?_ fun _ _ h => h)))
    rintro changed s₂ ⟨hadjusted, hunchanged⟩
    cases changed with
    | true => exact ensures_pure ⟨hadjusted, by simp⟩
    | false =>
      have hdisk : s₂.disk = s.disk := hunchanged rfl
      have hread₂ : s₂.disk.readText (ofPlace place) = .ok text := by rw [hdisk, hread]
      have hsound₂ : Sound tools (fun q => stale q ∨ true = true ∧ q = place) s₂ :=
        hadjusted.1.mono fun _ => Or.inl
      refine ensures_bind ((indexText_ensures hplain hsound₂ hread₂).mono ?_ ?_)
      · rintro _ s₃ ⟨hsound₃, hdisk₃⟩
        have hreindexed : Reindexed tools stale s s₃ := ⟨hsound₃, hdisk₃.trans hdisk⟩
        exact ensures_pure ⟨hreindexed.adjusted, fun _ => hreindexed.2⟩
      · rintro _ s₃ ⟨hsound₃, hdisk₃⟩
        exact Reindexed.adjusted ⟨hsound₃, hdisk₃.trans hdisk⟩
  · rintro _ _ rfl
    exact hsame _ hs₁

/-- Forgetting the file that was at a place ends the staleness of the place. -/
theorem forgetMoved_ensures (hsound : Sound tools (fun q => stale q ∨ q = place) s)
    (target : Path) {error : Error → Session → Prop} :
    Ensures (forgetMoved (ofPlace place) target) s (fun _ => Reindexed tools stale s) error := by
  refine ensures_modify ?_
  dsimp only
  split
  · exact ⟨hsound.dropFile, rfl⟩
  · exact ⟨hsound.dropModule _, rfl⟩

/-- **Bringing a file that has moved up to date** rewrites at most that file, and in the end nothing
is known any more of the place it came from, whether its imports could be adjusted or not. -/
theorem updateMoved_ensures (hfiles : tools.files.Faithful) {source target : Location}
    (hsound : Sound tools (fun q => stale q ∨ q = source) s) (hplain : Plain target) :
    Ensures (updateMoved tools (ofPlace source) (ofPlace target)) s
      (fun changed s' => Adjusted tools stale target s s' ∧ (changed = false → s'.disk = s.disk))
      fun _ => Adjusted tools stale target s := by
  refine ensures_bind (ensures_get ?_)
  split
  · refine ensures_bind (ensures_tryCatch
      ((adjustMoved_ensures hfiles hsound hplain _).mono ?_ ?_))
    · rintro changed s₁ ⟨⟨hsound₁, hrewritten₁⟩, hunchanged⟩
      refine ensures_bind ((forgetMoved_ensures hsound₁ _).mono ?_ fun _ _ h => h)
      rintro _ s₂ ⟨hsound₂, hdisk₂⟩
      refine ensures_pure ⟨⟨hsound₂, hdisk₂ ▸ hrewritten₁⟩, fun hchanged => ?_⟩
      rw [hdisk₂, hunchanged hchanged]
    · rintro error s₁ ⟨hsound₁, hrewritten₁⟩
      refine ensures_bind ((forgetMoved_ensures hsound₁ _).mono ?_ fun _ _ h => h)
      rintro _ s₂ ⟨hsound₂, hdisk₂⟩
      exact ensures_throw ⟨hsound₂, hdisk₂ ▸ hrewritten₁⟩
  · refine ensures_bind ((forgetMoved_ensures hsound _).mono ?_ fun _ _ h => h)
    rintro _ s₁ hreindexed
    exact ensures_pure ⟨hreindexed.adjusted, fun _ => hreindexed.2⟩

end Session

end Relocate
