import Relocate.Proofs.Index
import Relocate.Proofs.Operations
import Relocate.Proofs.Work
import Relocate.Session.Redirection

/-! # Sound sessions

A session is sound if its disk is a tree, its root is the path of a place, its index is linked, and
every site of the index is current: the file is there, its text is a source, and one of the imports
in it has the span of the site.  `Session.Sound` allows for places that are stale just now, because
a file's sites outlive its text for a moment when it is written or moved.

This module says of each piece of work on a session that it keeps the session sound, whether it
succeeds or fails, and what it does to the disk meanwhile.  The file system is only asked to be
faithful (`FileSystem.Faithful`), and the reader of imports can be any function.
-/

namespace Relocate

open Relocate.Path Work

namespace Session

variable {tools : Tools} {stale : Location → Prop} {s : Session} {place : Location}

/-! ## Soundness -/

/-- The disk has an import where the site says so. -/
def Current (tools : Tools) (d : Disk) (site : Site) : Prop :=
  ∃ text references, d.readText site.file = .ok text ∧
    tools.importsOf site.file text = some references ∧
    ∃ reference ∈ references, reference.span = site.span

/-- The file of the site is written as the path of a place, and the site is current unless the
place is stale. -/
def Placed (tools : Tools) (stale : Location → Prop) (d : Disk) (site : Site) : Prop :=
  ∃ place, Plain place ∧ site.file = ofPlace place ∧ (stale place ∨ Current tools d site)

/-- The session is sound, apart from sites in stale places. -/
structure Sound (tools : Tools) (stale : Location → Prop) (s : Session) : Prop where
  tree : s.disk.IsTree
  rooted : ∃ place, Plain place ∧ s.root = ofPlace place
  linked : s.index.Linked
  placed : ∀ target, ∀ site ∈ s.index.sites target, Placed tools stale s.disk site

/-- No place is stale. -/
def nowhere : Location → Prop := fun _ => False

/-- Soundness is about the disk, the root and the index only. -/
theorem Sound.of_eq (h : Sound tools stale s) {s' : Session} (hdisk : s'.disk = s.disk)
    (hroot : s'.root = s.root) (hindex : s'.index = s.index) : Sound tools stale s' where
  tree := hdisk ▸ h.tree
  rooted := hroot ▸ h.rooted
  linked := hindex ▸ h.linked
  placed := by
    rw [hindex, hdisk]
    exact h.placed

theorem Placed.mono {stale' : Location → Prop} {d : Disk} {site : Site}
    (h : Placed tools stale d site) (hstale : ∀ q, stale q → stale' q) :
    Placed tools stale' d site := by
  obtain ⟨place, hplain, hfile, hcurrent⟩ := h
  exact ⟨place, hplain, hfile, hcurrent.imp (hstale place) id⟩

theorem Sound.mono {stale' : Location → Prop} (h : Sound tools stale s)
    (hstale : ∀ q, stale q → stale' q) : Sound tools stale' s :=
  ⟨h.tree, h.rooted, h.linked, fun target site hsite => (h.placed target site hsite).mono hstale⟩

/-! ## Changes of the index -/

/-- Once the sites of a file are gone, its place is no longer stale. -/
theorem Sound.dropFile (h : Sound tools (fun q => stale q ∨ q = place) s) :
    Sound tools stale { s with index := s.index.dropFile (ofPlace place) } where
  tree := h.tree
  rooted := h.rooted
  linked := h.linked.dropFile _
  placed := by
    intro target site hsite
    obtain ⟨hsite, hfile⟩ := h.linked.mem_sites_dropFile.1 hsite
    obtain ⟨q, hq, heq, hcurrent⟩ := h.placed target site hsite
    refine ⟨q, hq, heq, ?_⟩
    rcases hcurrent with (hstale | rfl) | hcurrent
    · exact .inl hstale
    · rw [heq] at hfile
      simp at hfile
    · exact .inr hcurrent

theorem Sound.dropModule (h : Sound tools (fun q => stale q ∨ q = place) s) (target : Identity) :
    Sound tools stale { s with index := s.index.dropModule (ofPlace place) target } where
  tree := h.tree
  rooted := h.rooted
  linked := h.linked.dropModule _ _
  placed := by
    intro target' site hsite
    obtain ⟨hsite, hfile⟩ := h.linked.mem_sites_dropModule hsite
    obtain ⟨q, hq, heq, hcurrent⟩ := h.placed target' site hsite
    refine ⟨q, hq, heq, ?_⟩
    rcases hcurrent with (hstale | rfl) | hcurrent
    · exact .inl hstale
    · rw [heq] at hfile
      simp at hfile
    · exact .inr hcurrent

/-- Adding the imports of a file adds sites of that file with the spans of those imports. -/
theorem foldl_addReference {P : Site → Prop} (resolver : Resolver) (d : Disk) (path : Path)
    (references : List Reference) (state : Index × Nat) (hlinked : state.1.Linked)
    (hsites : ∀ target, ∀ site ∈ state.1.sites target, P site)
    (hnew : ∀ reference ∈ references, P ⟨path, reference.span⟩) :
    (references.foldl (addReference resolver d path) state).1.Linked ∧
      ∀ target, ∀ site ∈ (references.foldl (addReference resolver d path) state).1.sites target,
        P site := by
  induction references generalizing state with
  | nil => exact ⟨hlinked, hsites⟩
  | cons reference references ih =>
    rw [List.foldl_cons]
    have hrest : ∀ r ∈ references, P ⟨path, r.span⟩ :=
      fun r hr => hnew r (List.mem_cons_of_mem _ hr)
    unfold addReference
    split
    · rename_i target _
      refine ih _ (hlinked.add target _) ?_ hrest
      intro target' site hsite
      rcases Index.mem_sites_add hsite with hsite | rfl
      · exact hsites target' site hsite
      · exact hnew reference List.mem_cons_self
    · exact ih _ hlinked hsites hrest

/-- The imports in the present text of a file can be added. -/
theorem Sound.addReferences (h : Sound tools stale s) (hplain : Plain place) {text : String}
    (hread : s.disk.readText (ofPlace place) = .ok text) {references : List Reference}
    (himports : tools.importsOf (ofPlace place) text = some references) (resolver : Resolver)
    (count : Nat) :
    Sound tools stale { s with
      index := (references.foldl (addReference resolver s.disk (ofPlace place))
        (s.index, count)).1 } := by
  have hnew : ∀ reference ∈ references,
      Placed tools stale s.disk ⟨ofPlace place, reference.span⟩ := fun reference hreference =>
    ⟨place, hplain, rfl, .inr ⟨text, references, hread, himports, reference, hreference, rfl⟩⟩
  obtain ⟨hlinked, hplaced⟩ :=
    foldl_addReference resolver s.disk (ofPlace place) references (s.index, count) h.linked
      h.placed hnew
  exact ⟨h.tree, h.rooted, hlinked, hplaced⟩

/-- The session stays sound on a disk where the files that were not touched read as before. -/
theorem Sound.withDisk {touched : Location → Prop} (h : Sound tools stale s) {d : Disk}
    (clock : Nat) (htree : d.IsTree)
    (hread : ∀ place text, Plain place → ¬ touched place →
      s.disk.readText (ofPlace place) = .ok text → d.readText (ofPlace place) = .ok text) :
    Sound tools (fun q => stale q ∨ touched q) { s with clock := clock, disk := d } where
  tree := htree
  rooted := h.rooted
  linked := h.linked
  placed := by
    intro target site hsite
    obtain ⟨place, hplain, hfile, hcurrent⟩ := h.placed target site hsite
    refine ⟨place, hplain, hfile, ?_⟩
    by_cases htouched : touched place
    · exact .inl (.inr htouched)
    · refine hcurrent.imp Or.inl ?_
      rintro ⟨text, references, htext, himports⟩
      rw [hfile] at htext
      refine ⟨text, references, ?_, himports⟩
      rw [hfile]
      exact hread place text hplain htouched htext

/-- The session stays sound on a disk with the same files. -/
theorem Sound.withSameFiles (h : Sound tools stale s) {d : Disk} (clock : Nat) (htree : d.IsTree)
    (hfiles : Disk.SameFiles s.disk d) :
    Sound tools stale { s with clock := clock, disk := d } := by
  have hsound :
      Sound tools (fun q => stale q ∨ nowhere q) { s with clock := clock, disk := d } := by
    refine h.withDisk clock htree ?_
    intro place text hplain _ hread
    obtain ⟨hwritable, he⟩ := (h.tree.readText_ofPlace hplain).1 hread
    exact (htree.readText_ofPlace hplain).2 ⟨hwritable, (hfiles place _).2 he⟩
  exact hsound.mono fun q hq => hq.resolve_right id

/-! ## Asking and performing -/

theorem ensures_inquire {α : Type} {path : Path} {inquiry : Nat → Disk → Except IoCause α}
    {ok : α → Session → Prop} {error : Error → Session → Prop}
    (hok : ∀ found, inquiry s.clock s.disk = .ok found → ok found { s with clock := s.clock + 1 })
    (herror : ∀ cause, inquiry s.clock s.disk = .error cause →
      error (.io (some path) cause) { s with clock := s.clock + 1 }) :
    Ensures (inquire path inquiry) s ok error := by
  refine ensures_bind (ensures_bind (ensures_get (ensures_bind (ensures_set (ensures_pure ?_)))))
  dsimp only
  split
  · rename_i found hfound
    exact ensures_pure (hok found hfound)
  · rename_i cause hcause
    exact ensures_throw (herror cause hcause)

theorem ensures_perform {path : Path} {operation : Nat → Disk → Disk.Outcome}
    {ok : Unit → Session → Prop} {error : Error → Session → Prop}
    (hok : ∀ d, operation s.clock s.disk = (.ok (), d) →
      ok () { s with clock := s.clock + 1, disk := d })
    (herror : ∀ cause d, operation s.clock s.disk = (.error cause, d) →
      error (.io (some path) cause) { s with clock := s.clock + 1, disk := d }) :
    Ensures (perform path operation) s ok error := by
  refine ensures_bind (ensures_bind (ensures_get (ensures_bind (ensures_set (ensures_pure ?_)))))
  dsimp only
  refine ensures_bind (ensures_modify ?_)
  split
  · rename_i hresult
    exact ensures_pure (hok _ (Prod.ext hresult rfl))
  · rename_i cause hresult
    exact ensures_throw (herror cause _ (Prod.ext hresult rfl))

/-- A text that was read is the one on the disk. -/
theorem readText_ensures (hfiles : tools.files.Faithful) (path : Path) :
    Ensures (readText tools path) s
      (fun text s' => s' = { s with clock := s.clock + 1 } ∧ s.disk.readText path = .ok text)
      fun _ s' => s' = { s with clock := s.clock + 1 } :=
  ensures_inquire (fun _ hread => ⟨rfl, hfiles.readText _ _ _ _ hread⟩) fun _ _ => rfl

theorem importsOf_ensures (tools : Tools) (path : Path) (text : String) :
    Ensures (importsOf tools path text) s
      (fun references s' => s' = s ∧ tools.importsOf path text = some references)
      fun _ s' => s' = s := by
  unfold importsOf
  split
  · exact ensures_pure ⟨rfl, by assumption⟩
  · exact ensures_throw rfl

/-! ## Indexing -/

/-- The session is sound and its disk is the one it was. -/
def Reindexed (tools : Tools) (stale : Location → Prop) (s s' : Session) : Prop :=
  Sound tools stale s' ∧ s'.disk = s.disk

/-- Indexing the present text of a file keeps the session sound, and ends the staleness of the file
if what was known of it is forgotten first. -/
theorem indexText_ensures {afresh : Bool} {text : String} (hplain : Plain place)
    (hsound : Sound tools (fun q => stale q ∨ afresh = true ∧ q = place) s)
    (hread : s.disk.readText (ofPlace place) = .ok text) :
    Ensures (indexText tools text (ofPlace place) afresh) s
      (fun _ => Reindexed tools stale s) fun _ => Reindexed tools stale s := by
  -- Once the file is forgotten, the rest is the same whether it was or not.
  have hrest : ∀ s' : Session, Reindexed tools stale s s' →
      Ensures (do
        let references ← importsOf tools (ofPlace place) text
        let s ← get
        let indexed := references.foldl (addReference s.resolver s.disk (ofPlace place))
          (s.index, 0)
        set { s with index := indexed.1 }
        return indexed.2) s' (fun _ => Reindexed tools stale s)
        fun _ => Reindexed tools stale s := by
    rintro s' ⟨hsound', hdisk⟩
    refine ensures_bind ((importsOf_ensures tools _ _).mono ?_ ?_)
    · rintro references _ ⟨rfl, himports⟩
      refine ensures_bind (ensures_get (ensures_bind (ensures_set (ensures_pure ?_))))
      rw [← hdisk] at hread
      exact ⟨hsound'.addReferences hplain hread himports _ 0, hdisk⟩
    · rintro _ _ rfl
      exact ⟨hsound', hdisk⟩
  unfold indexText
  cases afresh with
  | false =>
    refine hrest s ⟨hsound.mono ?_, rfl⟩
    simp
  | true =>
    refine ensures_bind (ensures_modify (hrest _ ⟨Sound.dropFile (hsound.mono ?_), rfl⟩))
    simp

/-- Reading a file again keeps the session sound. -/
theorem refresh_ensures (hfiles : tools.files.Faithful) (hplain : Plain place)
    (hsound : Sound tools stale s) :
    Ensures (refresh tools (ofPlace place)) s
      (fun _ => Reindexed tools stale s) fun _ => Reindexed tools stale s := by
  refine ensures_bind ((readText_ensures hfiles _).mono ?_ ?_)
  · rintro text _ ⟨rfl, hread⟩
    exact indexText_ensures hplain ((hsound.mono fun _ => Or.inl).of_eq rfl rfl rfl) hread
  · rintro _ _ rfl
    exact ⟨hsound.of_eq rfl rfl rfl, rfl⟩

/-- Indexing a file never fails: one that cannot be read is passed over. -/
theorem indexFile_ensures (hfiles : tools.files.Faithful) (hplain : Plain place)
    (hsound : Sound tools stale s) :
    Ensures (indexFile tools (ofPlace place)) s (fun _ => Reindexed tools stale s)
      fun _ _ => False := by
  refine ensures_tryCatch ?_
  refine ensures_bind ((readText_ensures hfiles _).mono ?_ ?_)
  · rintro text _ ⟨rfl, hread⟩
    have hsound' : Sound tools (fun q => stale q ∨ false = true ∧ q = place)
        { s with clock := s.clock + 1 } := (hsound.mono fun _ => Or.inl).of_eq rfl rfl rfl
    refine ensures_bind ((indexText_ensures hplain hsound' hread).mono ?_ ?_)
    · exact fun _ _ h => ensures_pure h
    · exact fun _ _ h => ensures_pure h
  · rintro _ _ rfl
    exact ensures_pure ⟨hsound.of_eq rfl rfl rfl, rfl⟩

/-- Batches leave nothing out and change no order. -/
theorem flatten_batches {α : Type} (size : Nat) (current items : List α) :
    (batches size current items).flatten = current ++ items := by
  induction items generalizing current with
  | nil => cases current <;> simp [batches]
  | cons item items ih =>
    rw [batches]
    split
    · rw [List.flatten_cons, ih, List.nil_append, List.append_assoc, List.singleton_append]
    · rw [ih, List.append_assoc, List.singleton_append]

theorem indexFiles_ensures (hfiles : tools.files.Faithful) (hsound : Sound tools stale s)
    {files : List Path} (hplaces : ∀ file ∈ files, ∃ place, Plain place ∧ file = ofPlace place) :
    Ensures (indexFiles tools files) s (fun _ => Reindexed tools stale s) fun _ _ => False := by
  refine ensures_bind (ensures_get (ensures_forM ⟨hsound, rfl⟩ ?_))
  intro batch hbatch s₁ hs₁
  refine ensures_forM hs₁ ?_
  rintro file hfile s₂ ⟨hsound₂, hdisk₂⟩
  have hmem : file ∈ files := by
    simpa only [flatten_batches, List.nil_append] using List.mem_flatten_of_mem hbatch hfile
  obtain ⟨place, hplain, rfl⟩ := hplaces file hmem
  refine (indexFile_ensures hfiles hplain hsound₂).mono ?_ fun _ _ h => h
  rintro _ s₃ ⟨hsound₃, hdisk₃⟩
  exact ⟨hsound₃, hdisk₃.trans hdisk₂⟩

/-! ## Reading the project -/

theorem pathBelow_ofPlace {names : List String} (h : Plain (place ++ names)) :
    ProjectFiles.pathBelow (ofPlace place) names = ofPlace (place ++ names) := by
  induction names generalizing place with
  | nil => simp [ProjectFiles.pathBelow]
  | cons name names ih =>
    have h' : Plain ((place ++ [name]) ++ names) := by simpa using h
    have hjoin := join_ofPlace h'.left.left h'.left.last
    have hfold : ProjectFiles.pathBelow (ofPlace place) (name :: names) =
        ProjectFiles.pathBelow ((ofPlace place).join ⟨name⟩) names := rfl
    rw [hfold, hjoin, ih h']
    simp

/-- The names that a walk comes to belong to distinct entries. -/
theorem exists_perm_walk (d : Disk) (place : Location) (excluded : List String) :
    ∃ names, (ProjectFiles.walk d place excluded).Perm names ∧
      (names.map (place ++ ·)).Sublist (d.entries.map Prod.fst) := by
  refine ⟨_, List.mergeSort_perm _ _, ?_⟩
  induction d.entries with
  | nil => simp
  | cons item entries ih =>
    obtain ⟨p, entry⟩ := item
    rw [List.filterMap_cons]
    split
    · exact ih.cons p
    · rename_i names hnames
      have hp : place ++ names = p := by
        cases entry with
        | directory => simp at hnames
        | file content =>
          cases hrest : List.isPrefixOf? place p with
          | none => simp [hrest] at hnames
          | some rest =>
            have heq := List.isPrefixOf?_eq_some_iff_append_eq.1 hrest
            simp only [hrest] at hnames
            split at hnames
            · simp at hnames
            · rw [← Option.some.inj hnames, heq]
      rw [List.map_cons, List.map_cons, hp]
      exact ih.cons_cons p

/-- A walk comes to nothing twice. -/
theorem nodup_walk {d : Disk} (h : d.IsTree) (place : Location) (excluded : List String) :
    (ProjectFiles.walk d place excluded).Nodup := by
  obtain ⟨names, hperm, hsub⟩ := exists_perm_walk d place excluded
  exact hperm.nodup_iff.2 (List.Pairwise.of_map (place ++ ·) (fun _ _ hne heq => hne (heq ▸ rfl))
    (List.Pairwise.sublist hsub h.distinct))

theorem plain_of_mem_walk {d : Disk} (h : d.IsTree) {excluded names : List String}
    (hnames : names ∈ ProjectFiles.walk d place excluded) : Plain (place ++ names) := by
  obtain ⟨found, hperm, hsub⟩ := exists_perm_walk d place excluded
  obtain ⟨⟨p, entry⟩, hmem, heq⟩ :=
    List.mem_map.1 (hsub.mem (List.mem_map_of_mem (hperm.mem_iff.1 hnames)))
  obtain rfl : p = place ++ names := heq
  exact fun name hname => ((h.listed _ entry hmem).2 name hname).toIsName

/-- The sources of a project are found by the paths of their places. -/
theorem sources_of_discover {d : Disk} (h : d.IsTree) (hplain : Plain place)
    {scan : ScanSettings} {files : ProjectFiles}
    (hdiscover : ProjectFiles.discover d (ofPlace place) scan = .ok files) :
    ∀ file ∈ files.sources, ∃ place, Plain place ∧ file = ofPlace place := by
  intro file hfile
  unfold ProjectFiles.discover at hdiscover
  split at hdiscover
  · rename_i found _ hlocate
    obtain rfl := Disk.eq_of_locate_ofPlace hplain hlocate
    obtain rfl := Except.ok.inj hdiscover
    obtain ⟨hpath, -⟩ := List.mem_filter.1 hfile
    obtain ⟨names, hnames, rfl⟩ := List.mem_map.1 hpath
    have hplain' := plain_of_mem_walk h hnames
    exact ⟨found ++ names, hplain', pathBelow_ofPlace hplain'⟩
  · cases hdiscover

/-- No source of a project is found twice. -/
theorem distinct_sources {d : Disk} (h : d.IsTree) (hplain : Plain place)
    {scan : ScanSettings} {files : ProjectFiles}
    (hdiscover : ProjectFiles.discover d (ofPlace place) scan = .ok files) :
    files.sources.Pairwise fun a b => (a == b) = false := by
  unfold ProjectFiles.discover at hdiscover
  split at hdiscover
  · rename_i found _ hlocate
    obtain rfl := Disk.eq_of_locate_ofPlace hplain hlocate
    obtain rfl := Except.ok.inj hdiscover
    refine List.Pairwise.filter _ (List.pairwise_map.2 ((nodup_walk h found _).imp_of_mem ?_))
    intro a b ha hb hne
    have hplain₁ := plain_of_mem_walk h ha
    have hplain₂ := plain_of_mem_walk h hb
    rw [pathBelow_ofPlace hplain₁, pathBelow_ofPlace hplain₂, Bool.eq_false_iff]
    intro hsame
    exact hne (List.append_cancel_left ((ofPlace_beq hplain₁ hplain₂).1 hsame))
  · cases hdiscover

theorem discover_ensures :
    Ensures discover s
      (fun files s' => s' = s ∧ ProjectFiles.discover s.disk s.root s.scan = .ok files)
      fun _ s' => s' = s := by
  refine ensures_bind (ensures_get ?_)
  split
  · exact ensures_pure ⟨rfl, by assumption⟩
  · exact ensures_throw rfl

/-- Reading the project leaves a sound session, and the disk as it was. -/
theorem prepare_ensures (hfiles : tools.files.Faithful) (hsound : Sound tools stale s) :
    Ensures (prepare tools) s (fun _ => Reindexed tools stale s)
      fun _ => Reindexed tools stale s := by
  refine ensures_bind (ensures_get ?_)
  split
  · exact ensures_pure ⟨hsound, rfl⟩
  · refine ensures_bind (discover_ensures.mono ?_ ?_)
    · rintro files _ ⟨rfl, hdiscover⟩
      obtain ⟨root, hroot, heq⟩ := hsound.rooted
      rw [heq] at hdiscover
      have hindex := fun s₁ (hsound₁ : Sound tools stale s₁) =>
        indexFiles_ensures hfiles hsound₁ (sources_of_discover hsound.tree hroot hdiscover)
      refine ensures_bind (ensures_modify (ensures_bind (Ensures.mono (hindex _ ?_) ?_ ?_)))
      · exact hsound.of_eq rfl rfl rfl
      · rintro _ s₁ ⟨hsound₁, hdisk₁⟩
        exact ensures_modify ⟨hsound₁.of_eq rfl rfl rfl, hdisk₁⟩
      · exact fun _ _ h => h.elim
    · rintro _ _ rfl
      exact ⟨hsound, rfl⟩

/-- Building the index again leaves a sound session, and the disk as it was. -/
theorem rescan_ensures (hfiles : tools.files.Faithful) (hsound : Sound tools stale s) :
    Ensures (rescan tools) s (fun _ => Reindexed tools stale s)
      fun _ => Reindexed tools stale s := by
  refine ensures_bind (discover_ensures.mono ?_ ?_)
  · rintro files _ ⟨rfl, hdiscover⟩
    obtain ⟨root, hroot, heq⟩ := hsound.rooted
    rw [heq] at hdiscover
    have hindex := fun s₁ (hsound₁ : Sound tools stale s₁) =>
      indexFiles_ensures hfiles hsound₁ (sources_of_discover hsound.tree hroot hdiscover)
    refine ensures_bind (ensures_modify (Ensures.mono (hindex _ ?_) (fun _ _ h => h)
      fun _ _ h => h.elim))
    refine ⟨hsound.tree, hsound.rooted, Index.linked_empty, ?_⟩
    intro target site hsite
    simp [Index.sites, Index.empty, Ordered.get?] at hsite
  · rintro _ _ rfl
    exact ⟨hsound, rfl⟩

end Session

end Relocate
