import Relocate.Index

/-! # The two directions of the index

The index lists the sites of every module and, so that a file can be forgotten without a search,
the modules of every file.  `Index.Linked` says that the second direction misses nothing: the module
of every site is on the list of its file.  As long as it holds, forgetting a file takes away exactly
the sites in that file (`Index.Linked.sites_dropFile`), and every operation keeps it.

Keys are compared by `==`, which is coarser than equality for paths, so the laws of `Ordered` are
stated up to `==` throughout.
-/

namespace Relocate

/-! ## Paths and identities as keys -/

theorem Path.beq_iff_components {p q : Path} :
    (p == q) = true ↔ p.components = q.components := by
  change (p.components == q.components) = true ↔ _
  exact beq_iff_eq

instance : EquivBEq Path where
  rfl := Path.beq_iff_components.2 rfl
  symm h := Path.beq_iff_components.2 (Path.beq_iff_components.1 h).symm
  trans h h' :=
    Path.beq_iff_components.2 ((Path.beq_iff_components.1 h).trans (Path.beq_iff_components.1 h'))

theorem Identity.beq_iff_path {a b : Identity} : (a == b) = true ↔ (a.path == b.path) = true :=
  Iff.rfl

instance : EquivBEq Identity where
  rfl := Identity.beq_iff_path.2 BEq.rfl
  symm h := Identity.beq_iff_path.2 (BEq.symm (Identity.beq_iff_path.1 h))
  trans h h' :=
    Identity.beq_iff_path.2 (BEq.trans (Identity.beq_iff_path.1 h) (Identity.beq_iff_path.1 h'))

namespace Ordered

variable {κ α : Type} [BEq κ]

theorem get?_cons (known key : κ) (value : α) (rest : Ordered κ α) :
    get? ((known, value) :: rest) key = if known == key then some value else get? rest key := by
  by_cases h : (known == key) = true
  · simp [get?, h]
  · simp [get?, h]

variable [EquivBEq κ]

theorem get?_congr (m : Ordered κ α) {key key' : κ} (h : (key == key') = true) :
    m.get? key = m.get? key' := by
  induction m with
  | nil => rfl
  | cons first rest ih =>
    obtain ⟨known, value⟩ := first
    rw [get?_cons, get?_cons, ih, BEq.congr_right h]

theorem get?_put (m : Ordered κ α) (key key' : κ) (value : α) :
    (m.put key value).get? key' = if key == key' then some value else m.get? key' := by
  induction m with
  | nil => simp [put, get?_cons]
  | cons first rest ih =>
    obtain ⟨known, old⟩ := first
    rw [put]
    by_cases hknown : (known == key) = true
    · rw [if_pos hknown, get?_cons, get?_cons, BEq.congr_left hknown]
      split <;> rfl
    · rw [if_neg hknown, get?_cons, get?_cons, ih]
      by_cases hkey : (key == key') = true
      · have hknown' : (known == key') = false := by
          rw [← BEq.congr_right hkey]
          simpa using hknown
        simp [hkey, hknown']
      · simp [hkey]

theorem get?_erase (m : Ordered κ α) (key key' : κ) :
    (m.erase key).get? key' = if key == key' then none else m.get? key' := by
  induction m with
  | nil => simp [erase, get?]
  | cons first rest ih =>
    obtain ⟨known, value⟩ := first
    by_cases hknown : (known == key) = true
    · have herase : erase ((known, value) :: rest) key = erase rest key := by
        simp [erase, hknown]
      rw [herase, ih, get?_cons, BEq.congr_left hknown]
      split <;> rfl
    · have herase : erase ((known, value) :: rest) key = (known, value) :: erase rest key := by
        simp [erase, hknown]
      rw [herase, get?_cons, get?_cons, ih]
      by_cases hkey : (key == key') = true
      · have hknown' : (known == key') = false := by
          rw [← BEq.congr_right hkey]
          simpa using hknown
        simp [hkey, hknown']
      · simp [hkey]

end Ordered

theorem mem_insertNew {α : Type} [BEq α] {items : List α} {item other : α} :
    other ∈ insertNew items item → other ∈ items ∨ other = item := by
  unfold insertNew
  split
  · exact .inl
  · intro h
    simpa using h

theorem contains_insertNew {α : Type} [BEq α] [ReflBEq α] (items : List α) (item : α) :
    (insertNew items item).contains item = true := by
  unfold insertNew
  split
  · assumption
  · simp

theorem contains_insertNew_of_contains {α : Type} [BEq α] {items : List α} {item other : α}
    (h : items.contains other = true) : (insertNew items item).contains other = true := by
  unfold insertNew
  split
  · exact h
  · rw [List.contains_eq_any_beq, List.any_append, ← List.contains_eq_any_beq, h, Bool.true_or]

namespace Index

variable {ix : Index} {target : Identity} {file : Path} {site : Site}

/-- Every site is on record with its file: the file's list of modules has the site's module. -/
def Linked (ix : Index) : Prop :=
  ∀ target, ∀ site ∈ ix.sites target,
    ∃ targets, ix.byFile.get? site.file = some targets ∧ targets.contains target = true

theorem linked_empty : Linked empty := by
  intro target site hsite
  simp [sites, empty, Ordered.get?] at hsite

theorem sites_congr (ix : Index) {target' : Identity} (h : (target == target') = true) :
    ix.sites target = ix.sites target' := by
  rw [sites, sites, Ordered.get?_congr _ h]

/-! ## Adding an import -/

theorem sites_add (ix : Index) (target target' : Identity) (site : Site) :
    (ix.add target site).sites target' =
      if target == target' then insertNew (ix.sites target) site else ix.sites target' := by
  rw [sites, add, Ordered.get?_put]
  split <;> rfl

theorem mem_sites_add {target' : Identity} {other : Site}
    (h : other ∈ (ix.add target site).sites target') : other ∈ ix.sites target' ∨ other = site := by
  rw [sites_add] at h
  split at h
  · rename_i heq
    rw [sites_congr ix heq] at h
    exact mem_insertNew h
  · exact .inl h

theorem Linked.add (h : ix.Linked) (target : Identity) (site : Site) :
    (ix.add target site).Linked := by
  intro target' other hother
  have hfiles : (ix.add target site).byFile.get? other.file =
      if site.file == other.file then
        some (insertNew ((ix.byFile.get? site.file).getD []) target)
      else ix.byFile.get? other.file :=
    Ordered.get?_put _ _ _ _
  rw [hfiles]
  rw [sites_add] at hother
  by_cases hfile : (site.file == other.file) = true
  · rw [if_pos hfile]
    refine ⟨_, rfl, ?_⟩
    by_cases htarget : (target == target') = true
    · rw [← List.contains_congr htarget]
      exact contains_insertNew _ _
    · rw [if_neg htarget] at hother
      obtain ⟨targets, hget, hcontains⟩ := h target' other hother
      rw [Ordered.get?_congr _ hfile, hget]
      exact contains_insertNew_of_contains hcontains
  · rw [if_neg hfile]
    split at hother
    · rename_i htarget
      rcases mem_insertNew hother with hmem | rfl
      · exact h target' other (sites_congr ix htarget ▸ hmem)
      · exact absurd BEq.rfl hfile
    · exact h target' other hother

/-! ## Forgetting a file -/

theorem getD_dropSites (byTarget : Ordered Identity (List Site)) (file : Path)
    (target target' : Identity) :
    ((dropSites file byTarget target).get? target').getD [] =
      if target == target' then
        ((byTarget.get? target').getD []).filter fun site => !(site.file == file)
      else (byTarget.get? target').getD [] := by
  unfold dropSites
  split
  · rename_i hget
    by_cases htarget : (target == target') = true
    · rw [Ordered.get?_congr _ htarget] at hget
      simp [hget]
    · simp [htarget]
  · rename_i sites hget
    by_cases htarget : (target == target') = true
    · rw [Ordered.get?_congr _ htarget] at hget
      split
      · rename_i hleft
        simp [Ordered.get?_erase, htarget, hget, hleft]
      · simp [Ordered.get?_put, htarget, hget]
    · split
      · simp [Ordered.get?_erase, htarget]
      · simp [Ordered.get?_put, htarget]

/-- Taking a file's sites from several modules, one after the other. -/
theorem getD_foldl_dropSites (file : Path) (targets : List Identity)
    (byTarget : Ordered Identity (List Site)) (target : Identity) :
    ((targets.foldl (dropSites file) byTarget).get? target).getD [] =
      if targets.contains target then
        ((byTarget.get? target).getD []).filter fun site => !(site.file == file)
      else (byTarget.get? target).getD [] := by
  induction targets generalizing byTarget with
  | nil => simp
  | cons first targets ih =>
    rw [List.foldl_cons, ih, getD_dropSites, List.contains_cons]
    by_cases hfirst : (first == target) = true
    · have hfirst' : (target == first) = true := BEq.symm hfirst
      simp only [hfirst, hfirst', if_true, Bool.true_or, List.filter_filter, Bool.and_self,
        ite_self]
    · have hfirst' : (target == first) = false := by
        rw [BEq.comm]
        simpa using hfirst
      simp [hfirst, hfirst']

/-- **Forgetting a file takes away its sites and no others.** -/
theorem Linked.sites_dropFile (h : ix.Linked) (file : Path) (target : Identity) :
    (ix.dropFile file).sites target =
      (ix.sites target).filter fun site => !(site.file == file) := by
  -- A module that is not on the file's list has no site in the file.
  have hnone : (∀ targets, ix.byFile.get? file = some targets →
      targets.contains target = false) →
      (ix.sites target).filter (fun site => !(site.file == file)) = ix.sites target := by
    intro hlist
    rw [List.filter_eq_self]
    intro site hsite
    obtain ⟨targets, hget, hcontains⟩ := h target site hsite
    rw [Bool.not_eq_true', Bool.eq_false_iff]
    intro hfile
    rw [Ordered.get?_congr _ hfile] at hget
    rw [hlist targets hget] at hcontains
    simp at hcontains
  unfold dropFile
  split
  · rename_i hget
    rw [hnone (by simp [hget])]
  · rename_i targets hget
    change ((targets.foldl (dropSites file) ix.byTarget).get? target).getD [] = _
    rw [getD_foldl_dropSites]
    split
    · rfl
    · rename_i hcontains
      rw [hnone]
      · rfl
      · intro targets' hget'
        rw [hget, Option.some.injEq] at hget'
        subst hget'
        simpa using hcontains

theorem Linked.mem_sites_dropFile (h : ix.Linked) :
    site ∈ (ix.dropFile file).sites target ↔
      site ∈ ix.sites target ∧ (site.file == file) = false := by
  rw [h.sites_dropFile, List.mem_filter, Bool.not_eq_true']

theorem Linked.dropFile (h : ix.Linked) (file : Path) : (ix.dropFile file).Linked := by
  intro target site hsite
  obtain ⟨hsite, hfile⟩ := h.mem_sites_dropFile.1 hsite
  obtain ⟨targets, hget, hcontains⟩ := h target site hsite
  refine ⟨targets, ?_, hcontains⟩
  unfold Index.dropFile
  split
  · exact hget
  · change (ix.byFile.erase file).get? site.file = _
    rw [Ordered.get?_erase, BEq.comm, hfile]
    exact hget

/-! ## Forgetting a module -/

theorem sites_dropModule (ix : Index) (file : Path) (target target' : Identity) :
    (ix.dropModule file target).sites target' =
      if target == target' then [] else (ix.dropFile file).sites target' := by
  unfold dropModule
  dsimp only
  split
  · rename_i hget
    split
    · rename_i htarget
      rw [Ordered.get?_congr _ htarget] at hget
      simp [sites, hget]
    · rfl
  · change (((ix.dropFile file).byTarget.erase target).get? target').getD [] = _
    rw [Ordered.get?_erase]
    split <;> rfl

/-- Other modules stay on the lists that a module is taken from. -/
theorem get?_foldl_dropTarget {target' : Identity} (htarget : (target == target') = false)
    (dropped : List Site) {byFile : Ordered Path (List Identity)} {targets : List Identity}
    (hget : byFile.get? file = some targets) (hcontains : targets.contains target' = true) :
    ∃ targets', (dropped.foldl (dropTarget target) byFile).get? file = some targets' ∧
      targets'.contains target' = true := by
  induction dropped generalizing byFile targets with
  | nil => exact ⟨targets, hget, hcontains⟩
  | cons first dropped ih =>
    rw [List.foldl_cons]
    unfold dropTarget
    split
    · exact ih hget hcontains
    · rename_i targets' hget'
      by_cases hfile : (first.file == file) = true
      · rw [Ordered.get?_congr _ hfile, hget, Option.some.injEq] at hget'
        subst hget'
        refine ih (by rw [Ordered.get?_put, if_pos hfile]) ?_
        rw [List.contains_eq_any_beq, List.any_eq_true] at hcontains ⊢
        obtain ⟨t, ht, heq⟩ := hcontains
        refine ⟨t, List.mem_filter.2 ⟨ht, ?_⟩, heq⟩
        rw [Bool.not_eq_true', BEq.comm, BEq.congr_right (BEq.symm heq)]
        exact htarget
      · exact ih (by rw [Ordered.get?_put, if_neg hfile, hget]) hcontains

theorem Linked.dropModule (h : ix.Linked) (file : Path) (target : Identity) :
    (ix.dropModule file target).Linked := by
  intro target' site hsite
  rw [sites_dropModule] at hsite
  split at hsite
  · simp at hsite
  · rename_i htarget
    obtain ⟨targets, hget, hcontains⟩ := h.dropFile file target' site hsite
    unfold Index.dropModule
    dsimp only
    split
    · exact ⟨targets, hget, hcontains⟩
    · exact get?_foldl_dropTarget (by simpa using htarget) _ hget hcontains

theorem Linked.mem_sites_dropModule (h : ix.Linked) {target' : Identity}
    (hsite : site ∈ (ix.dropModule file target).sites target') :
    site ∈ ix.sites target' ∧ (site.file == file) = false := by
  rw [sites_dropModule] at hsite
  split at hsite
  · simp at hsite
  · exact h.mem_sites_dropFile.1 hsite

/-! ## The files that import a module -/

theorem mem_of_mem_files (h : file ∈ ix.files target) :
    ∃ site ∈ ix.sites target, site.file = file := by
  have hfold : ∀ (sites : List Site) (files : List Path),
      file ∈ sites.foldl (fun files site => insertNew files site.file) files →
        file ∈ files ∨ ∃ site ∈ sites, site.file = file := by
    intro sites
    induction sites with
    | nil => intro files hfile; exact .inl hfile
    | cons first sites ih =>
      intro files hfile
      rcases ih _ hfile with hmem | ⟨site, hsite, heq⟩
      · rcases mem_insertNew hmem with hmem | heq
        · exact .inl hmem
        · exact .inr ⟨first, List.mem_cons_self, heq.symm⟩
      · exact .inr ⟨site, List.mem_cons_of_mem _ hsite, heq⟩
  rcases hfold _ _ h with hmem | hsite
  · simp at hmem
  · exact hsite

end Index

end Relocate
