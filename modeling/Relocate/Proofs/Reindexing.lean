import Relocate.Proofs.FilesOnRecord
import Relocate.Proofs.Lasting

/-! # Indexing a file again

When a text is indexed afresh, what was known of its file is forgotten and the imports in the text
are added.  What is forgotten is found through the list of modules that the file imports, so it is
all that the index has of the file only as long as the two directions of the index are linked.  They
are in every index that came about by additions and by forgetting, and no operation on a session
changes its index in another way (`Session.Used.recorded`).

`Index.Linked.sites_replaced` says what becomes of each module: the sites in other files stay as
they are and where they are, and those in the file come behind them in the order of its text.
-/

namespace Relocate

open Work

instance : EquivBEq Import where
  rfl := Bool.and_eq_true_iff.2 ⟨BEq.rfl, BEq.rfl⟩
  symm h := Bool.and_eq_true_iff.2
    ⟨BEq.symm (Bool.and_eq_true_iff.1 h).1, BEq.symm (Bool.and_eq_true_iff.1 h).2⟩
  trans h h' := Bool.and_eq_true_iff.2
    ⟨BEq.trans (Bool.and_eq_true_iff.1 h).1 (Bool.and_eq_true_iff.1 h').1,
      BEq.trans (Bool.and_eq_true_iff.1 h).2 (Bool.and_eq_true_iff.1 h').2⟩

theorem Import.beq_iff {a b : Import} :
    (a == b) = true ↔ (a.target == b.target) = true ∧ (a.site == b.site) = true :=
  Bool.and_eq_true_iff

theorem Import.beq_eq_false_iff {a b : Import} :
    (a == b) = false ↔ (a.target == b.target) = false ∨ (a.site == b.site) = false :=
  Bool.and_eq_false_iff

namespace Index

variable {ix : Index} {file : Path} {imports : List Import}

/-! ## The sites in one file and in the others -/

/-- Where a module is imported in a file. -/
def sitesAt (ix : Index) (file : Path) (target : Identity) : List Site :=
  (ix.sites target).filter fun site => site.file == file

/-- Where a module is imported in other files. -/
def sitesBeside (ix : Index) (file : Path) (target : Identity) : List Site :=
  (ix.sites target).filter fun site => !(site.file == file)

/-- The imports on record in a file. -/
def entriesAt (ix : Index) (file : Path) : List Import :=
  ix.entries.filter fun i => i.site.file == file

theorem file_of_mem_sitesIn (hfile : ∀ i ∈ imports, i.site.file = file) {target : Identity}
    {site : Site} (h : site ∈ sitesIn imports target) : site.file = file := by
  obtain ⟨i, hi, rfl⟩ := List.mem_map.1 h
  exact hfile i (List.mem_filter.1 hi).1

/-- **What becomes of a module when a file is indexed again.** -/
theorem Linked.sites_replaced (h : ix.Linked) (hfile : ∀ i ∈ imports, i.site.file = file)
    (target : Identity) :
    ((ix.dropFile file).addAll imports).sites target =
      ix.sitesBeside file target ++ (sitesIn imports target).eraseDups := by
  rw [sites_addAll, h.sites_dropFile, foldl_insertNew]
  refine congrArg (_ ++ ·) (congrArg List.eraseDups (List.filter_eq_self.2 fun site hsite => ?_))
  rw [Bool.not_eq_true', Bool.eq_false_iff]
  intro hother
  obtain ⟨other, hmem, hsame⟩ := List.contains_iff_exists_mem_beq.1 hother
  have hne : (other.file == file) = false := by simpa using (List.mem_filter.1 hmem).2
  rw [← file_of_mem_sitesIn hfile hsite, BEq.comm, (Site.beq_iff.1 hsame).1] at hne
  cases hne

theorem file_of_mem_eraseDups (hfile : ∀ i ∈ imports, i.site.file = file) {target : Identity}
    {site : Site} (h : site ∈ (sitesIn imports target).eraseDups) : (site.file == file) = true := by
  have hcontains := List.contains_iff_exists_mem_beq.2 ⟨site, h, BEq.rfl⟩
  rw [contains_eraseDups] at hcontains
  obtain ⟨like, hlike, hsame⟩ := List.contains_iff_exists_mem_beq.1 hcontains
  rw [← file_of_mem_sitesIn hfile hlike]
  exact (Site.beq_iff.1 hsame).1

theorem Linked.sitesAt_replaced (h : ix.Linked) (hfile : ∀ i ∈ imports, i.site.file = file)
    (target : Identity) :
    ((ix.dropFile file).addAll imports).sitesAt file target =
      (sitesIn imports target).eraseDups := by
  have hbeside : (ix.sitesBeside file target).filter (fun site => site.file == file) = [] := by
    refine List.filter_eq_nil_iff.2 fun site hsite => ?_
    simpa using (List.mem_filter.1 hsite).2
  rw [sitesAt, h.sites_replaced hfile, List.filter_append, hbeside, List.nil_append]
  exact List.filter_eq_self.2 fun site hsite => file_of_mem_eraseDups hfile hsite

theorem Linked.sitesBeside_replaced (h : ix.Linked) (hfile : ∀ i ∈ imports, i.site.file = file)
    (target : Identity) :
    ((ix.dropFile file).addAll imports).sitesBeside file target = ix.sitesBeside file target := by
  have hown :
      (sitesIn imports target).eraseDups.filter (fun site => !(site.file == file)) = [] := by
    refine List.filter_eq_nil_iff.2 fun site hsite => ?_
    simp [file_of_mem_eraseDups hfile hsite]
  rw [sitesBeside, h.sites_replaced hfile, List.filter_append, hown, List.append_nil]
  exact List.filter_eq_self.2 fun site hsite => (List.mem_filter.1 hsite).2

/-! ## The imports on record in one file -/

/-- No two imports on record in a file are alike if no module is imported twice at one site. -/
theorem distinct_entriesAt (h : Distinct ix.byTarget.keys)
    (hsites : ∀ target, Distinct (ix.sitesAt file target)) : Distinct (ix.entriesAt file) := by
  rw [entriesAt, entries, List.filter_flatMap]
  refine List.pairwise_flatMap.2 ⟨fun item hitem => ?_, ?_⟩
  · have hget : ix.sites item.1 = item.2 := by
      rw [sites, Ordered.get?_of_mem h hitem, Option.getD_some]
    have hown := hsites item.1
    rw [sitesAt, hget] at hown
    rw [List.filter_map]
    refine List.pairwise_map.2 (hown.imp fun hne => ?_)
    exact Import.beq_eq_false_iff.2 (.inr hne)
  · refine (List.pairwise_map.1 h).imp fun {a b} hne i hi j hj => ?_
    obtain ⟨_, -, rfl⟩ := List.mem_map.1 (List.mem_filter.1 hi).1
    obtain ⟨_, -, rfl⟩ := List.mem_map.1 (List.mem_filter.1 hj).1
    exact Import.beq_eq_false_iff.2 (.inl hne)

/-- There are as many imports on record in a file as there are in a list, if every module has the
sites there that it has in the list. -/
theorem length_entriesAt (h : Distinct ix.byTarget.keys)
    (hapart : imports.Pairwise fun a b => (a.site == b.site) = false)
    (hsites : ∀ target, ix.sitesAt file target = sitesIn imports target) :
    (ix.entriesAt file).length = imports.length := by
  have hentries : Distinct (ix.entriesAt file) :=
    distinct_entriesAt h fun target => by
      rw [hsites]
      exact distinct_sitesIn hapart target
  have himports : Distinct imports :=
    hapart.imp fun hne => Import.beq_eq_false_iff.2 (.inr hne)
  refine Nat.le_antisymm (hentries.length_le fun i hi => ?_) (himports.length_le fun i hi => ?_)
  · obtain ⟨j, hj, hsame⟩ := List.contains_iff_exists_mem_beq.1 hi
    obtain ⟨hj, hjfile⟩ := List.mem_filter.1 hj
    have hsite : j.site ∈ ix.sitesAt file j.target :=
      List.mem_filter.2 ⟨(mem_sites_iff h).2 ⟨j, hj, BEq.rfl, rfl⟩, hjfile⟩
    rw [hsites] at hsite
    obtain ⟨k, hk, hksite⟩ := List.mem_map.1 hsite
    obtain ⟨hk, hktarget⟩ := List.mem_filter.1 hk
    refine List.contains_iff_exists_mem_beq.2 ⟨k, hk, BEq.trans hsame (Import.beq_iff.2 ⟨?_, ?_⟩)⟩
    · exact BEq.symm hktarget
    · rw [hksite]
      exact BEq.rfl
  · obtain ⟨j, hj, hsame⟩ := List.contains_iff_exists_mem_beq.1 hi
    have hsite : j.site ∈ sitesIn imports j.target :=
      List.mem_map_of_mem (List.mem_filter.2 ⟨hj, BEq.rfl⟩)
    rw [← hsites] at hsite
    obtain ⟨hsite, hjfile⟩ := List.mem_filter.1 hsite
    obtain ⟨k, hk, hktarget, hksite⟩ := (mem_sites_iff h).1 hsite
    refine List.contains_iff_exists_mem_beq.2 ⟨k, List.mem_filter.2 ⟨hk, ?_⟩,
      BEq.trans hsame (Import.beq_iff.2 ⟨BEq.symm hktarget, ?_⟩)⟩
    · rw [hksite]
      exact hjfile
    · rw [hksite]
      exact BEq.rfl

end Index

namespace Session

variable {tools : Tools} {s : Session}

/-! ## Every index comes about by changes -/

/-- The index of the session came about by changes. -/
def Recorded (s : Session) : Prop := ∃ changes, s.index = Index.after changes

theorem Recorded.change (h : Recorded s) (c : Index.Change) :
    Recorded { s with index := s.index.change c } := by
  obtain ⟨changes, hindex⟩ := h
  refine ⟨changes ++ [c], ?_⟩
  rw [Index.after, List.foldl_append]
  exact congrArg (Index.change · c) hindex

theorem Recorded.of_index (h : Recorded s) {s' : Session} (hindex : s'.index = s.index) :
    Recorded s' := by
  obtain ⟨changes, hchanges⟩ := h
  exact ⟨changes, hindex.trans hchanges⟩

theorem lasting_recorded : Lasting Recorded where
  of_eq h _ hindex := h.of_index hindex
  change c h := h.change c

theorem preserves_prepare : Preserves Recorded (prepare tools) := by
  refine preserves_get.bind fun s => ?_
  split
  · exact preserves_pure _
  · refine preserves_discover.bind fun files =>
      Preserves.bind ?_ fun _ => (lasting_recorded.indexFiles _).bind fun _ => ?_
    · exact preserves_modify fun _ h => h.of_index rfl
    · exact preserves_modify fun _ h => h.of_index rfl

theorem preserves_rescan : Preserves Recorded (rescan tools) := by
  refine preserves_discover.bind fun files =>
    Preserves.bind ?_ fun _ => lasting_recorded.indexFiles _
  exact preserves_modify fun _ _ => ⟨[], rfl⟩

/-- What a session can be asked to do. -/
inductive Operation where
  | prepare
  | rescan
  | move (source target : Path)
  | redirect (source target : Path)
  | updateMoved (source target : Path)
  | replaceImports (file : Path) (replacements : List Replacement) (readAs : Path)
  | indexText (text : String) (file : Path) (afresh : Bool)
  | refresh (file : Path)

/-- The work that an operation is. -/
def Operation.work (tools : Tools) : Operation → Work Unit
  | .prepare => Session.prepare tools
  | .rescan => Session.rescan tools
  | .move source target => do let _ ← Move.move tools source target
  | .redirect source target => do let _ ← Session.redirect tools source target
  | .updateMoved source target => do let _ ← Session.updateMoved tools source target
  | .replaceImports file replacements readAs => do
    let _ ← Session.replaceImports tools file replacements readAs
  | .indexText text file afresh => do let _ ← Session.indexText tools text file afresh
  | .refresh file => do let _ ← Session.refresh tools file

/-- The sessions that come about by any operations, whatever each of them returns, on a disk that
others may change in between. -/
inductive Used (tools : Tools) : Session → Prop
  | start (disk : Disk) (root : Path) (scan : ScanSettings) :
    Used tools (Session.start disk root scan)
  | elsewhere {s : Session} (disk : Disk) (h : Used tools s) : Used tools { s with disk := disk }
  | operate {s : Session} (operation : Operation) (h : Used tools s) :
    Used tools ((operation.work tools).run.run s).2

theorem Operation.preserves (operation : Operation) :
    Preserves Recorded (operation.work tools) := by
  cases operation with
  | prepare => exact preserves_prepare
  | rescan => exact preserves_rescan
  | move source target =>
    exact (lasting_recorded.move source target).bind fun _ => preserves_pure _
  | redirect source target =>
    exact (lasting_recorded.redirect source target).bind fun _ => preserves_pure _
  | updateMoved source target =>
    exact (lasting_recorded.updateMoved source target).bind fun _ => preserves_pure _
  | replaceImports file replacements readAs =>
    exact (lasting_recorded.replaceImports file replacements readAs).bind fun _ => preserves_pure _
  | indexText text file afresh =>
    exact (lasting_recorded.indexText text file afresh).bind fun _ => preserves_pure _
  | refresh file => exact (lasting_recorded.refresh file).bind fun _ => preserves_pure _

/-- **Whatever was done in a session, its index came about by changes.** -/
theorem Used.recorded (h : Used tools s) : Recorded s := by
  induction h with
  | start disk root scan => exact ⟨[], rfl⟩
  | elsewhere disk _ ih => exact ih.of_index rfl
  | operate operation _ ih => exact (operation.preserves _ ih).session

/-! ## What indexing a text afresh comes to -/

/-- The imports that are added are counted. -/
theorem count_foldl_addReference (resolver : Resolver) (disk : Disk) (file : Path)
    (references : List Reference) (state : Index × Nat) :
    (references.foldl (addReference resolver disk file) state).2 =
      state.2 + (importsAmong resolver disk file references).length := by
  induction references generalizing state with
  | nil => rfl
  | cons reference references ih =>
    rw [List.foldl_cons, ih, importsAmong, importsAmong, addReference]
    cases hmeans : resolver.resolve? disk file reference.specifier with
    | none => rw [List.filterMap_cons_none (by rw [hmeans]; rfl)]
    | some target =>
      rw [List.filterMap_cons_some (by rw [hmeans]; rfl), List.length_cons]
      dsimp only
      omega

/-- The session after what was known of a file was replaced by the imports among references. -/
def reindexed (s : Session) (file : Path) (references : List Reference) : Session :=
  { s with
    index := (s.index.dropFile file).addAll (importsAmong s.resolver s.disk file references) }

/-- What is known of a file is replaced by the imports in the text, or by nothing if it is no
source. -/
theorem indexText_replaces (tools : Tools) (s : Session) (text : String) (file : Path) :
    Ensures (indexText tools text file true) s
      (fun count s' => ∃ references, tools.importsOf file text = some references ∧
        count = (importsAmong s.resolver s.disk file references).length ∧
        s' = s.reindexed file references)
      fun _ s' => tools.importsOf file text = none ∧ s' = s.reindexed file [] := by
  refine ensures_bind (ensures_modify (ensures_bind ?_))
  unfold importsOf
  split
  · rename_i references himports
    refine ensures_pure (ensures_bind (ensures_get (ensures_bind (ensures_set (ensures_pure ?_)))))
    refine ⟨references, himports, ?_, ?_⟩
    · rw [count_foldl_addReference, Nat.zero_add]
    · rw [foldl_addReference_eq]
      rfl
  · rename_i himports
    exact ensures_throw ⟨himports, rfl⟩

theorem Used.reindexed (h : Used tools s) {text : String} {file : Path} {count : Nat}
    {s' : Session} (hrun : (indexText tools text file true).run.run s = (.ok count, s')) :
    Used tools s' := by
  have hused := h.operate (.indexText text file true)
  have hwork : ((Operation.indexText text file true).work tools).run.run s = (.ok (), s') :=
    run_bind_ok hrun
  rwa [hwork] at hused

end Session

/-- **Indexing a file again replaces its imports and touches no others.**  In every session,
whatever was done in it before, a text is indexed afresh exactly if it is a source.  Then what each
module has in the file are the references of the text that mean it, in the order of the text; if the
references have distinct spans, as many imports are on record in the file as the answer says.  If
the text is no source, nothing is on record in the file any more.  Either way, what each module has
in other files is as before, in the order in which it was. -/
theorem reindexing_replaces_own_imports (tools : Tools) {s : Session} (hs : s.Used tools)
    (text : String) (file : Path) :
    ((∃ count s', (Session.indexText tools text file true).run.run s = (.ok count, s')) ↔
        ∃ references, tools.importsOf file text = some references) ∧
      (∀ count s', (Session.indexText tools text file true).run.run s = (.ok count, s') →
        ∃ references, tools.importsOf file text = some references ∧
          (∀ target, s'.index.sitesAt file target =
            (Index.sitesIn (Session.importsAmong s.resolver s.disk file references)
              target).eraseDups) ∧
          ((references.Pairwise fun a b => a.span ≠ b.span) →
            (∀ target, s'.index.sitesAt file target =
              Index.sitesIn (Session.importsAmong s.resolver s.disk file references) target) ∧
            (s'.index.entriesAt file).length = count)) ∧
      (∀ cause s', (Session.indexText tools text file true).run.run s = (.error cause, s') →
        ∀ target, s'.index.sitesAt file target = []) ∧
      ∀ target, ((Session.indexText tools text file true).run.run s).2.index.sitesBeside file
        target = s.index.sitesBeside file target := by
  have hreplaces := Session.indexText_replaces tools s text file
  have hlinked : s.index.Linked := by
    obtain ⟨changes, hindex⟩ := hs.recorded
    exact hindex ▸ (Index.refines_after changes).linked
  have hfile : ∀ references, ∀ i ∈ Session.importsAmong s.resolver s.disk file references,
      i.site.file = file := fun _ _ => Session.file_of_mem_importsAmong
  refine ⟨⟨?_, ?_⟩, ?_, ?_, fun target => ?_⟩
  · rintro ⟨count, s', hrun⟩
    obtain ⟨references, himports, -⟩ := hreplaces.of_ok hrun
    exact ⟨references, himports⟩
  · rintro ⟨references, himports⟩
    rcases hrun : (Session.indexText tools text file true).run.run s with ⟨cause | count, s'⟩
    · rw [(hreplaces.of_error hrun).1] at himports
      cases himports
    · exact ⟨count, s', rfl⟩
  · intro count s' hrun
    obtain ⟨references, himports, rfl, hs'⟩ := hreplaces.of_ok hrun
    have hsites : ∀ target, s'.index.sitesAt file target =
        (Index.sitesIn (Session.importsAmong s.resolver s.disk file references)
          target).eraseDups := by
      rw [hs']
      exact hlinked.sitesAt_replaced (hfile references)
    refine ⟨references, himports, hsites, fun hspans => ?_⟩
    have hapart := Session.importsAmong_apart s.resolver s.disk file hspans
    have hexact : ∀ target, s'.index.sitesAt file target =
        Index.sitesIn (Session.importsAmong s.resolver s.disk file references) target :=
      fun target => (hsites target).trans (Index.distinct_sitesIn hapart target).eraseDups_eq
    obtain ⟨changes, hindex⟩ := (hs.reindexed hrun).recorded
    have hkeys : Distinct s'.index.byTarget.keys := hindex ▸ (Index.refines_after changes).distinct
    exact ⟨hexact, Index.length_entriesAt hkeys hapart hexact⟩
  · intro cause s' hrun target
    obtain ⟨-, rfl⟩ := hreplaces.of_error hrun
    exact hlinked.sitesAt_replaced (hfile []) target
  · rcases hrun : (Session.indexText tools text file true).run.run s with ⟨cause | count, s'⟩
    · obtain ⟨-, rfl⟩ := hreplaces.of_error hrun
      exact hlinked.sitesBeside_replaced (hfile []) target
    · obtain ⟨references, -, -, rfl⟩ := hreplaces.of_ok hrun
      exact hlinked.sitesBeside_replaced (hfile references) target

namespace Session.Shared

def tools : Tools := .standard fun _ => "0"

/-- Two files that import each other, themselves and a third one. -/
def first : Operation := .indexText "import './a'; import './b'" ⟨"/a.ts"⟩ false

def second : Operation := .indexText "import './a'; import './c'" ⟨"/b.ts"⟩ false

def session : Session :=
  ((second.work tools).run.run ((first.work tools).run.run (start default ⟨"/"⟩ {})).2).2

theorem used_session : Used tools session := .operate second (.operate first (.start _ _ _))

/-- The answer when the first file is indexed again, and the session then. -/
def again : Except Error Nat × Session :=
  (indexText tools "import './c'; import './c'" ⟨"/a.ts"⟩ true).run.run session

end Session.Shared

/-- The file comes to import the third one twice, and neither itself nor the other one any more; the
other file still imports both. -/
theorem reindexing_replaces_own_imports_of_shared :
    Session.Used Session.Shared.tools Session.Shared.session ∧
      ∃ s', (Session.indexText Session.Shared.tools "import './c'; import './c'" ⟨"/a.ts"⟩
          true).run.run Session.Shared.session = (.ok 2, s') ∧
        (s'.index.entriesAt ⟨"/a.ts"⟩).length = 2 ∧
        s'.index.sitesBeside ⟨"/a.ts"⟩ ⟨⟨"/a"⟩⟩ =
          Session.Shared.session.index.sitesBeside ⟨"/a.ts"⟩ ⟨⟨"/a"⟩⟩ ∧
        (s'.index.sites ⟨⟨"/a"⟩⟩).length = 1 ∧ (s'.index.sites ⟨⟨"/b"⟩⟩).length = 0 ∧
        (s'.index.sites ⟨⟨"/c"⟩⟩).length = 3 := by
  obtain ⟨-, hok, -, hbeside⟩ := reindexing_replaces_own_imports Session.Shared.tools
    Session.Shared.used_session "import './c'; import './c'" ⟨"/a.ts"⟩
  have hsites := hbeside ⟨⟨"/a"⟩⟩
  have hrun : (Session.Shared.again.1.toOption = some 2) ∧
      (Session.Shared.again.2.index.sites ⟨⟨"/a"⟩⟩).length = 1 ∧
      (Session.Shared.again.2.index.sites ⟨⟨"/b"⟩⟩).length = 0 ∧
      (Session.Shared.again.2.index.sites ⟨⟨"/c"⟩⟩).length = 3 := by decide +kernel
  rw [Session.Shared.again] at hrun
  rcases hans : (Session.indexText Session.Shared.tools "import './c'; import './c'" ⟨"/a.ts"⟩
    true).run.run Session.Shared.session with ⟨cause | count, s'⟩
  · rw [hans] at hrun
    cases hrun.1
  · rw [hans] at hrun hsites
    obtain ⟨hcount, hnumbers⟩ := hrun
    obtain rfl : count = 2 := Option.some.inj hcount
    obtain ⟨references, himports, -, hexact⟩ := hok 2 s' hans
    have hspans := Tools.readsApart_standard _ _ _ _ himports
    exact ⟨Session.Shared.used_session, s', rfl, (hexact hspans).2, hsites, hnumbers⟩

end Relocate
