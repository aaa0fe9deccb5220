import Relocate.Proofs.FlatIndex
import Relocate.Proofs.Moves
import Relocate.Proofs.Rewriting

/-! # The graph of imports

Reading a project fills the index with the imports of its sources.  `Session.importGraph` says what
these are without an index: file by file, in the order in which the files were found, the references
of each in the order of its text, without those that mean no module and without the files that
cannot be read.  The index is made from that list (`Session.run_prepare_start`).

Files are indexed in batches, but a loop over batches is a loop over the files in them
(`Session.forM_batches`), and what one file adds does not depend on what the others did
(`Session.indexFile_adds`).
-/

namespace Relocate

open Relocate.Path Work

/-! ## Lists of imports -/

section

variable {α : Type} [BEq α] [EquivBEq α]

/-- Where no two items are alike, there are no repetitions to erase. -/
theorem Distinct.eraseDups_eq {items : List α} (h : Distinct items) : items.eraseDups = items := by
  induction items with
  | nil => rfl
  | cons first items ih =>
    obtain ⟨hfirst, hrest⟩ := List.pairwise_cons.1 h
    have hkept : (items.filter fun item => !(item == first)) = items := by
      refine List.filter_eq_self.2 fun item hitem => ?_
      rw [BEq.comm, hfirst item hitem, Bool.not_false]
    rw [List.eraseDups_cons, hkept, ih hrest]

end

namespace Index

/-- The index with the imports of a list. -/
def addAll (ix : Index) (imports : List Import) : Index :=
  imports.foldl (fun ix i => ix.add i.target i.site) ix

theorem addAll_append (ix : Index) (imports more : List Import) :
    ix.addAll (imports ++ more) = (ix.addAll imports).addAll more :=
  List.foldl_append

/-- What is added comes behind what is there, unless it is there already. -/
theorem sites_addAll (ix : Index) (imports : List Import) (target : Identity) :
    (ix.addAll imports).sites target =
      (sitesIn imports target).foldl insertNew (ix.sites target) := by
  induction imports generalizing ix with
  | nil => rfl
  | cons i imports ih =>
    have hstep : (ix.addAll (i :: imports)).sites target =
        ((ix.add i.target i.site).addAll imports).sites target := rfl
    rw [hstep, ih, sites_add]
    by_cases htarget : (i.target == target) = true
    · have hcons : sitesIn (i :: imports) target = i.site :: sitesIn imports target := by
        simp [sitesIn, htarget]
      rw [if_pos htarget, hcons, List.foldl_cons, sites_congr ix htarget]
    · have hsame : sitesIn (i :: imports) target = sitesIn imports target := by
        simp [sitesIn, htarget]
      rw [if_neg htarget, hsame]

theorem sites_addAll_empty (imports : List Import) (target : Identity) :
    (empty.addAll imports).sites target = (sitesIn imports target).eraseDups := by
  rw [sites_addAll, eraseDups_eq_foldl]
  rfl

theorem distinct_sitesIn {imports : List Import}
    (h : imports.Pairwise fun a b => (a.site == b.site) = false) (target : Identity) :
    Distinct (sitesIn imports target) :=
  List.pairwise_map.2 (h.filter _)

end Index

/-- The reader gives the references in a text distinct spans. -/
def Tools.ReadsApart (tools : Tools) : Prop :=
  ∀ file text references, tools.importsOf file text = some references →
    references.Pairwise fun a b => a.span ≠ b.span

namespace Session

/-! ## What one file adds -/

/-- The imports among the references of a file: those that mean a module, in their order. -/
def importsAmong (resolver : Resolver) (disk : Disk) (file : Path) (references : List Reference) :
    List Import :=
  references.filterMap fun reference =>
    (resolver.resolve? disk file reference.specifier).map fun target =>
      ⟨target, ⟨file, reference.span⟩⟩

/-- The imports of a file as it is read at a time; none if it cannot be read or is no source. -/
def importsAt (tools : Tools) (resolver : Resolver) (disk : Disk) (clock : Nat) (file : Path) :
    List Import :=
  match tools.files.readText clock disk file with
  | .error _ => []
  | .ok text =>
    match tools.importsOf file text with
    | none => []
    | some references => importsAmong resolver disk file references

theorem importsAt_of_readText {tools : Tools} {resolver : Resolver} {disk : Disk} {clock : Nat}
    {file : Path} {text : String} (hread : tools.files.readText clock disk file = .ok text) :
    importsAt tools resolver disk clock file =
      ((tools.importsOf file text).map (importsAmong resolver disk file)).getD [] := by
  rw [importsAt, hread]
  dsimp only
  cases tools.importsOf file text with
  | none => rfl
  | some references => rfl

/-- The imports of files that are read one after the other. -/
def importGraph (tools : Tools) (resolver : Resolver) (disk : Disk) :
    (clock : Nat) → List Path → List Import
  | _, [] => []
  | clock, file :: files =>
    importsAt tools resolver disk clock file ++ importGraph tools resolver disk (clock + 1) files

/-- Adding the references of a file one by one adds the imports among them. -/
theorem foldl_addReference_eq (resolver : Resolver) (disk : Disk) (file : Path)
    (references : List Reference) (state : Index × Nat) :
    (references.foldl (addReference resolver disk file) state).1 =
      state.1.addAll (importsAmong resolver disk file references) := by
  induction references generalizing state with
  | nil => rfl
  | cons reference references ih =>
    rw [List.foldl_cons, ih]
    cases hmeans : resolver.resolve? disk file reference.specifier with
    | none =>
      have hnone : importsAmong resolver disk file (reference :: references) =
          importsAmong resolver disk file references :=
        List.filterMap_cons_none (by rw [hmeans]; rfl)
      rw [hnone, addReference, hmeans]
    | some target =>
      have hsome : importsAmong resolver disk file (reference :: references) =
          ⟨target, ⟨file, reference.span⟩⟩ :: importsAmong resolver disk file references :=
        List.filterMap_cons_some (by rw [hmeans]; rfl)
      rw [hsome, addReference, hmeans]
      rfl

/-- A session after files were indexed: so many were read, and these imports were added. -/
def indexed (s : Session) (count : Nat) (imports : List Import) : Session :=
  { s with clock := s.clock + count, index := s.index.addAll imports }

/-- The imports in a text are added, and nothing if it is no source. -/
theorem indexText_adds (tools : Tools) (s : Session) (text : String) (file : Path) :
    Ensures (indexText tools text file false) s
      (fun _ s' => ∃ references, tools.importsOf file text = some references ∧
        s' = s.indexed 0 (importsAmong s.resolver s.disk file references))
      fun _ s' => tools.importsOf file text = none ∧ s' = s := by
  refine ensures_bind ?_
  unfold importsOf
  split
  · rename_i references himports
    refine ensures_pure (ensures_bind (ensures_get (ensures_bind (ensures_set (ensures_pure ?_)))))
    refine ⟨references, himports, ?_⟩
    rw [foldl_addReference_eq]
    rfl
  · rename_i himports
    exact ensures_throw ⟨himports, rfl⟩

/-- **What one file adds.**  Whatever the index holds, the imports of the file are added to it. -/
theorem indexFile_adds (tools : Tools) (s : Session) (file : Path) :
    Ensures (indexFile tools file) s
      (fun _ s' => s' = s.indexed 1 (importsAt tools s.resolver s.disk s.clock file))
      fun _ _ => False := by
  refine ensures_tryCatch (ensures_bind (ensures_inquire ?_ ?_))
  · intro text hread
    refine ensures_bind ((indexText_adds tools _ text file).mono ?_ ?_)
    · rintro _ _ ⟨references, himports, rfl⟩
      refine ensures_pure ?_
      rw [importsAt_of_readText hread, himports]
      rfl
    · rintro _ _ ⟨himports, rfl⟩
      refine ensures_pure ?_
      rw [importsAt_of_readText hread, himports]
      rfl
  · intro cause hread
    refine ensures_pure ?_
    rw [importsAt, hread]
    rfl

/-! ## What all files add -/

/-- A loop over batches is a loop over the items in them. -/
theorem forM_batches {α : Type} (size : Nat) (items : List α) (step : α → Work PUnit) :
    ((batches size [] items).forM fun batch => batch.forM step) = items.forM step := by
  have hflatten : ∀ lists : List (List α),
      (lists.forM fun batch => batch.forM step) = lists.flatten.forM step := by
    intro lists
    induction lists with
    | nil => rfl
    | cons batch lists ih =>
      have happend : (batch ++ lists.flatten).forM step =
          batch.forM step >>= fun _ => lists.flatten.forM step := List.forM_append
      rw [List.flatten_cons, happend, List.forM, ih]
  rw [hflatten, flatten_batches, List.nil_append]

theorem indexed_indexed (s : Session) (count count' : Nat) (imports imports' : List Import) :
    (s.indexed count imports).indexed count' imports' =
      s.indexed (count + count') (imports ++ imports') := by
  simp only [indexed, Index.addAll_append, Nat.add_assoc]

/-- **What all files add.**  One after the other they add their imports, in whatever batches. -/
theorem indexFiles_adds (tools : Tools) (s : Session) (files : List Path) :
    Ensures (indexFiles tools files) s
      (fun _ s' => s' = s.indexed files.length (importGraph tools s.resolver s.disk s.clock files))
      fun _ _ => False := by
  refine ensures_bind (ensures_get ?_)
  rw [forM_batches]
  induction files generalizing s with
  | nil => exact ensures_pure rfl
  | cons file files ih =>
    rw [List.forM]
    refine ensures_bind ((indexFile_adds tools s file).mono ?_ fun _ _ h => h)
    rintro _ _ rfl
    refine (ih _).mono ?_ fun _ _ h => h
    rintro _ _ rfl
    rw [indexed_indexed, List.length_cons, Nat.add_comm]
    rfl

/-! ## Reading the project -/

/-- What specifiers are read with once the files of a project are known. -/
def resolverFor (disk : Disk) (scan : ScanSettings) (files : ProjectFiles) : Resolver :=
  { Resolver.ofExtensions (.ofList scan.extensions) with
    packages := Packages.load disk files.manifests }.loadTables disk files.configs

/-- A session on a project whose files are known, once it has been read. -/
def ready (tools : Tools) (disk : Disk) (root : Path) (scan : ScanSettings)
    (files : ProjectFiles) : Session :=
  { start disk root scan with
    clock := files.sources.length
    resolver := resolverFor disk scan files
    index := Index.empty.addAll
      (importGraph tools (resolverFor disk scan files) disk 0 files.sources)
    isReady := true }

theorem run_prepare_start (tools : Tools) {disk : Disk} {root : Path} {scan : ScanSettings}
    {files : ProjectFiles}
    (hdiscover : ProjectFiles.discover disk (start disk root scan).root scan = .ok files) :
    (prepare tools).run.run (start disk root scan) =
      (.ok (), ready tools disk root scan files) := by
  refine Ensures.run_eq (ensures_bind (ensures_get ?_))
  rw [if_neg (by simp [start])]
  refine ensures_bind (ensures_bind (ensures_get ?_))
  have hfiles : ProjectFiles.discover (start disk root scan).disk (start disk root scan).root
      (start disk root scan).scan = .ok files := hdiscover
  rw [hfiles]
  refine ensures_pure (ensures_bind (ensures_modify (ensures_bind ?_)))
  refine (indexFiles_adds tools _ files.sources).mono ?_ fun _ _ h => h
  rintro _ _ rfl
  refine ensures_modify ?_
  simp only [indexed, ready, start, Nat.zero_add]
  rfl

theorem run_prepare_ready {s : Session} (tools : Tools) (h : s.isReady = true) :
    (prepare tools).run.run s = (.ok (), s) := by
  refine Ensures.run_eq (ensures_bind (ensures_get ?_))
  rw [if_pos h]
  exact ensures_pure rfl

/-! ## Imports at distinct sites -/

variable {tools : Tools} {resolver : Resolver} {disk : Disk}

theorem file_of_mem_importsAmong {file : Path} {references : List Reference} {i : Import}
    (h : i ∈ importsAmong resolver disk file references) : i.site.file = file := by
  obtain ⟨reference, -, hi⟩ := List.mem_filterMap.1 h
  obtain ⟨target, -, rfl⟩ := Option.map_eq_some_iff.1 hi
  rfl

theorem file_of_mem_importsAt {clock : Nat} {file : Path} {i : Import}
    (h : i ∈ importsAt tools resolver disk clock file) : i.site.file = file := by
  rw [importsAt] at h
  split at h
  · cases h
  · split at h
    · cases h
    · exact file_of_mem_importsAmong h

theorem file_of_mem_importGraph {clock : Nat} {files : List Path} {i : Import}
    (h : i ∈ importGraph tools resolver disk clock files) : i.site.file ∈ files := by
  induction files generalizing clock with
  | nil => cases h
  | cons file files ih =>
    rcases List.mem_append.1 h with h | h
    · rw [file_of_mem_importsAt h]
      exact List.mem_cons_self
    · exact List.mem_cons_of_mem _ (ih h)

/-- References with distinct spans make imports at distinct sites. -/
theorem importsAmong_apart (resolver : Resolver) (disk : Disk) (file : Path)
    {references : List Reference} (h : references.Pairwise fun a b => a.span ≠ b.span) :
    (importsAmong resolver disk file references).Pairwise
      fun a b => (a.site == b.site) = false := by
  refine List.Pairwise.filterMap _ ?_ h
  intro a b hne i hi i' hi'
  obtain ⟨target, -, rfl⟩ := Option.map_eq_some_iff.1 hi
  obtain ⟨target', -, rfl⟩ := Option.map_eq_some_iff.1 hi'
  rw [Bool.eq_false_iff]
  intro hsame
  exact hne (eq_of_beq (Site.beq_iff.1 hsame).2)

theorem importsAt_apart (hreader : tools.ReadsApart) (clock : Nat) (file : Path) :
    (importsAt tools resolver disk clock file).Pairwise fun a b => (a.site == b.site) = false := by
  rw [importsAt]
  split
  · exact .nil
  · split
    · exact .nil
    · rename_i references himports
      exact importsAmong_apart resolver disk file (hreader _ _ _ himports)

/-- **No two imports stand at one site**, if no file is read twice. -/
theorem importGraph_apart (hreader : tools.ReadsApart) (resolver : Resolver) (disk : Disk)
    (clock : Nat) {files : List Path} (hfiles : Distinct files) :
    (importGraph tools resolver disk clock files).Pairwise
      fun a b => (a.site == b.site) = false := by
  induction files generalizing clock with
  | nil => exact .nil
  | cons file files ih =>
    obtain ⟨hfirst, hrest⟩ := List.pairwise_cons.1 hfiles
    refine List.pairwise_append.2 ⟨importsAt_apart hreader clock file, ih _ hrest, ?_⟩
    intro a ha b hb
    have hother := hfirst b.site.file (file_of_mem_importGraph hb)
    rw [← file_of_mem_importsAt ha] at hother
    rw [Bool.eq_false_iff]
    intro hsame
    rw [(Site.beq_iff.1 hsame).1] at hother
    cases hother

/-- The sites in a session that has read a project are those of the graph. -/
theorem sites_ready (hreader : tools.ReadsApart) (htree : disk.IsTree) {root : Path}
    {scan : ScanSettings} {files : ProjectFiles}
    (hdiscover : ProjectFiles.discover disk (start disk root scan).root scan = .ok files)
    (target : Identity) :
    (ready tools disk root scan files).index.sites target =
      Index.sitesIn (importGraph tools (resolverFor disk scan files) disk 0 files.sources)
        target := by
  obtain ⟨hroot, hplain⟩ := absolutize_eq_ofPlace (isAbsolute_ofPlace disk.workingDir) root
  rw [show (start disk root scan).root = _ from hroot] at hdiscover
  have hapart := importGraph_apart hreader (resolverFor disk scan files) disk 0
    (distinct_sources htree hplain hdiscover)
  exact (Index.sites_addAll_empty _ target).trans
    (Index.distinct_sitesIn hapart target).eraseDups_eq

end Session

/-- The size of batches plays no part in finding the files. -/
theorem ProjectFiles.discover_batchSize (disk : Disk) (root : Path) (scan : ScanSettings)
    (size : Nat) :
    ProjectFiles.discover disk root { scan with batchSize := size } =
      ProjectFiles.discover disk root scan :=
  rfl

/-- **The index of a project that was read is its graph of imports.**  Where the files of the
project are found, reading it succeeds.  Each module is then imported where the graph says, file by
file in the order in which the sources were found and in each of them in the order of its text; a
file that cannot be read or is no source has no part in the graph.  An import is on record once, and
the graph has each once already if the reader gives distinct references distinct spans.  The index
does not depend on the size of batches, and a project that has been read is not read again. -/
theorem prepared_index_is_import_graph (tools : Tools) {disk : Disk} (htree : disk.IsTree)
    (root : Path) (scan : ScanSettings) {files : ProjectFiles}
    (hdiscover :
      ProjectFiles.discover disk (Session.start disk root scan).root scan = .ok files) :
    ∃ s, (Session.prepare tools).run.run (Session.start disk root scan) = (.ok (), s) ∧
      s.disk = disk ∧ s.resolver = Session.resolverFor disk scan files ∧
      (∀ target, s.index.sites target =
        (Index.sitesIn (Session.importGraph tools s.resolver disk 0 files.sources)
          target).eraseDups) ∧
      (tools.ReadsApart → ∀ target, s.index.sites target =
        Index.sitesIn (Session.importGraph tools s.resolver disk 0 files.sources) target) ∧
      (∀ size, ((Session.prepare tools).run.run
        (Session.start disk root { scan with batchSize := size })).2.index = s.index) ∧
      (Session.prepare tools).run.run s = (.ok (), s) := by
  have hsites := Index.sites_addAll_empty
    (Session.importGraph tools (Session.resolverFor disk scan files) disk 0 files.sources)
  refine ⟨Session.ready tools disk root scan files, Session.run_prepare_start tools hdiscover, rfl,
    rfl, hsites, fun hreader => Session.sites_ready hreader htree hdiscover, fun size => ?_,
    Session.run_prepare_ready tools rfl⟩
  have hrun : (Session.prepare tools).run.run
      (Session.start disk root { scan with batchSize := size }) =
        (.ok (), Session.ready tools disk root { scan with batchSize := size } files) :=
    Session.run_prepare_start tools
      ((ProjectFiles.discover_batchSize disk _ scan size).trans hdiscover)
  rw [hrun]
  rfl

/-- The spans of the imports of a text are distinct. -/
theorem Tools.readsApart_standard (freshName : Nat → String) :
    (Tools.standard freshName).ReadsApart := by
  intro file text references himports
  have hforward := Source.imports_forward himports
  refine (Source.imports_apart himports).imp_of_mem fun {a b} ha _ hab hsame => ?_
  have hle := hforward a ha
  rw [← hsame] at hab
  omega

namespace Session.BrokenFile

/-- A project with a file that is no source. -/
def disk : Disk where
  entries :=
    [(["a.ts"], .file (.text "import './c'")),
      (["b.ts"], .file (.text "import \x7b")),
      (["c.ts"], .file (.text "import './a'; import './b'; import './a'"))]
  workingDir := []

/-- Its last file is in a batch of its own. -/
def scan : ScanSettings where
  batchSize := 2

def files : ProjectFiles where
  sources := [⟨"/a.ts"⟩, ⟨"/b.ts"⟩, ⟨"/c.ts"⟩]

theorem discover_eq :
    ProjectFiles.discover disk (start disk ⟨"."⟩ scan).root scan = .ok files := by
  have hwalk : ProjectFiles.walk disk [] scan.excludedDirs =
      [["a.ts"], ["b.ts"], ["c.ts"]] :=
    List.mergeSort_of_pairwise (by decide +kernel)
  have hdir : disk.isDir (start disk ⟨"."⟩ scan).root = true := by decide +kernel
  have hlocate : disk.locate (start disk ⟨"."⟩ scan).root = .ok [] := by decide +kernel
  rw [ProjectFiles.discover, hdir, hlocate]
  dsimp only
  rw [hwalk]
  rfl

end Session.BrokenFile

/-- A file that is no source does not keep the next one from being read. -/
theorem prepared_index_is_import_graph_past_broken_file :
    ∃ s, (Session.prepare (.standard fun _ => "0")).run.run
        (Session.start Session.BrokenFile.disk ⟨"."⟩ Session.BrokenFile.scan) = (.ok (), s) ∧
      (s.index.sites ⟨⟨"/a"⟩⟩).map (fun site => (site.file.text, site.span)) =
        [("/c.ts", ⟨8, 11⟩), ("/c.ts", ⟨36, 39⟩)] ∧
      (s.index.sites ⟨⟨"/b"⟩⟩).map (fun site => (site.file.text, site.span)) =
        [("/c.ts", ⟨22, 25⟩)] ∧
      (s.index.sites ⟨⟨"/c"⟩⟩).map (fun site => (site.file.text, site.span)) =
        [("/a.ts", ⟨8, 11⟩)] := by
  obtain ⟨s, hrun, -, hresolver, -, hgraph, -⟩ :=
    prepared_index_is_import_graph (.standard fun _ => "0") (by decide +kernel) ⟨"."⟩ _
      Session.BrokenFile.discover_eq
  refine ⟨s, hrun, ?_⟩
  simp only [hgraph (Tools.readsApart_standard _), hresolver]
  decide +kernel

end Relocate
