import Relocate.Proofs.Index

/-! # The index as a list of imports

The two maps of the index stand for one list: the imports there are, each with its module, its file
and its span, in the order in which they were added.  Here that list is kept on its own: what is
added is appended unless it is there, and to forget a file or a module is to leave out what mentions
it.

`Index.Refines` relates the two, and `Index.Refines.change` proves that every change keeps the
relation.  Besides the sites themselves it has to say that the two directions are linked, that no
module is on record twice, and that none is on record without a site: the last two make the number
of modules on record the number of modules in the list.
-/

namespace Relocate

/-! ## Lists without repetitions

Paths and identities are compared by `==`, so a list is free of repetitions if no two members of it
are alike in that sense. -/

section

variable {α : Type} [BEq α]

/-- Adding items one by one, unless they are there, adds the distinct ones among those that are
new. -/
theorem foldl_insertNew (items start : List α) :
    items.foldl insertNew start =
      start ++ (items.filter fun item => !start.contains item).eraseDups := by
  induction items generalizing start with
  | nil => simp
  | cons item items ih =>
    rw [List.foldl_cons, ih, insertNew]
    by_cases hitem : start.contains item = true
    · rw [if_pos hitem, List.filter_cons_of_neg (by simp [hitem])]
    · -- what is new behind `item` is neither known before nor like `item`
      have hnew : (items.filter fun other => !(start ++ [item]).contains other) =
          (items.filter fun other => !start.contains other).filter
            fun other => !(other == item) := by
        rw [List.filter_filter]
        refine List.filter_congr fun other _ => ?_
        simp [Bool.and_comm]
      rw [if_neg hitem, List.filter_cons_of_pos (by simpa using hitem), List.eraseDups_cons, hnew]
      simp

theorem eraseDups_eq_foldl (items : List α) : items.eraseDups = items.foldl insertNew [] := by
  rw [foldl_insertNew]
  have hall : (items.filter fun item => !([] : List α).contains item) = items :=
    List.filter_eq_self.2 fun _ _ => rfl
  rw [hall, List.nil_append]

variable [EquivBEq α]

theorem contains_insertNew_eq (items : List α) (item other : α) :
    (insertNew items item).contains other = (items.contains other || other == item) := by
  unfold insertNew
  split
  · rename_i hitem
    by_cases hother : (other == item) = true
    · rw [List.contains_congr hother, hitem, Bool.true_or]
    · simp [hother]
  · simp

theorem contains_foldl_insertNew (items start : List α) (item : α) :
    (items.foldl insertNew start).contains item = (start.contains item || items.contains item) := by
  induction items generalizing start with
  | nil => simp
  | cons first items ih =>
    rw [List.foldl_cons, ih, contains_insertNew_eq, List.contains_cons, Bool.or_assoc]

/-- Erasing repetitions leaves every item represented. -/
theorem contains_eraseDups (items : List α) (item : α) :
    items.eraseDups.contains item = items.contains item := by
  rw [eraseDups_eq_foldl, contains_foldl_insertNew]
  rfl

/-- No two items are alike. -/
def Distinct (items : List α) : Prop := items.Pairwise fun a b => (a == b) = false

theorem Distinct.insertNew {items : List α} (h : Distinct items) (item : α) :
    Distinct (insertNew items item) := by
  unfold Relocate.insertNew
  split
  · exact h
  · rename_i hitem
    refine List.pairwise_append.2 ⟨h, List.pairwise_singleton _ _, ?_⟩
    intro known hknown other hother
    rw [List.mem_singleton.1 hother, Bool.eq_false_iff]
    intro heq
    exact hitem (List.contains_iff_exists_mem_beq.2 ⟨known, hknown, BEq.symm heq⟩)

theorem distinct_eraseDups (items : List α) : Distinct items.eraseDups := by
  have hfold : ∀ start : List α, Distinct start → Distinct (items.foldl insertNew start) := by
    induction items with
    | nil => exact fun _ h => h
    | cons first items ih => exact fun start h => ih _ (h.insertNew first)
  rw [eraseDups_eq_foldl]
  exact hfold [] .nil

/-- A list of distinct items is not longer than a list that has all of them. -/
theorem Distinct.length_le {items others : List α} (h : Distinct items)
    (hsub : ∀ item, items.contains item = true → others.contains item = true) :
    items.length ≤ others.length := by
  induction items generalizing others with
  | nil => exact Nat.zero_le _
  | cons first items ih =>
    obtain ⟨hfirst, hrest⟩ := List.pairwise_cons.1 h
    obtain ⟨like, hlike, heq⟩ :=
      List.contains_iff_exists_mem_beq.1 (hsub first (by simp))
    obtain ⟨before, after, rfl⟩ := List.append_of_mem hlike
    -- the other items are represented without the one that stands for `first`
    have hle : items.length ≤ (before ++ after).length := by
      refine ih hrest fun item hitem => ?_
      have hother := hsub item (by simp only [List.contains_cons, hitem, Bool.or_true])
      have hne : (item == like) = false := by
        obtain ⟨same, hsame, hsame'⟩ := List.contains_iff_exists_mem_beq.1 hitem
        rw [BEq.congr_left hsame', ← BEq.congr_right heq, BEq.comm]
        exact hfirst same hsame
      simpa [List.contains_append, hne] using hother
    simp only [List.length_cons, List.length_append] at hle ⊢
    omega

end

/-! ## Maps with distinct keys -/

namespace Ordered

variable {κ α : Type} [BEq κ] {m : Ordered κ α} {key : κ} {value : α}

/-- The keys of a map. -/
def keys (m : Ordered κ α) : List κ := m.map Prod.fst

omit [BEq κ] in
@[simp] theorem keys_cons (item : κ × α) (m : Ordered κ α) :
    keys (item :: m) = item.1 :: keys m :=
  rfl

theorem mem_put {item : κ × α} (h : item ∈ m.put key value) : item.2 = value ∨ item ∈ m := by
  induction m with
  | nil =>
    rw [put, List.mem_singleton] at h
    exact .inl (h ▸ rfl)
  | cons first rest ih =>
    obtain ⟨known, old⟩ := first
    rw [put] at h
    split at h
    · rcases List.mem_cons.1 h with rfl | h
      · exact .inl rfl
      · exact .inr (List.mem_cons_of_mem _ h)
    · rcases List.mem_cons.1 h with rfl | h
      · exact .inr List.mem_cons_self
      · exact (ih h).imp id (List.mem_cons_of_mem _)

variable [EquivBEq κ]

theorem contains_keys (m : Ordered κ α) (key : κ) :
    m.keys.contains key = (m.get? key).isSome := by
  induction m with
  | nil => rfl
  | cons first rest ih =>
    obtain ⟨known, value⟩ := first
    rw [keys_cons, List.contains_cons, ih, get?_cons, BEq.comm]
    by_cases h : (known == key) = true
    · simp [h]
    · simp [h]

theorem keys_put (m : Ordered κ α) (key : κ) (value : α) :
    (m.put key value).keys = insertNew m.keys key := by
  induction m with
  | nil => rfl
  | cons first rest ih =>
    obtain ⟨known, old⟩ := first
    rw [put, keys_cons, insertNew, List.contains_cons, BEq.comm (a := key)]
    by_cases h : (known == key) = true
    · simp [h]
    · rw [if_neg h, keys_cons, ih, insertNew]
      simp only [h, Bool.false_or]
      split <;> rfl

theorem distinct_put (h : Distinct m.keys) (key : κ) (value : α) :
    Distinct (m.put key value).keys := by
  rw [keys_put]
  exact h.insertNew key

omit [EquivBEq κ] in
theorem distinct_erase (h : Distinct m.keys) (key : κ) : Distinct (m.erase key).keys :=
  h.sublist (List.filter_sublist.map Prod.fst)

end Ordered

/-! ## The list of imports -/

theorem Site.beq_iff {a b : Site} :
    (a == b) = true ↔ (a.file == b.file) = true ∧ (a.span == b.span) = true := by
  change (a.file == b.file && a.span == b.span) = true ↔ _
  rw [Bool.and_eq_true]

instance : EquivBEq Site where
  rfl := Site.beq_iff.2 ⟨BEq.rfl, BEq.rfl⟩
  symm h := Site.beq_iff.2 ⟨BEq.symm (Site.beq_iff.1 h).1, BEq.symm (Site.beq_iff.1 h).2⟩
  trans h h' := Site.beq_iff.2
    ⟨BEq.trans (Site.beq_iff.1 h).1 (Site.beq_iff.1 h').1,
      BEq.trans (Site.beq_iff.1 h).2 (Site.beq_iff.1 h').2⟩

/-- An import: the module that is imported, and where. -/
structure Import where
  target : Identity
  site : Site
  deriving Repr, Inhabited

instance : BEq Import := ⟨fun a b => a.target == b.target && a.site == b.site⟩

namespace Index

/-- A change of what is known of imports. -/
inductive Change where
  | add (target : Identity) (site : Site)
  | dropFile (file : Path)
  | dropModule (file : Path) (target : Identity)
  deriving Repr, Inhabited

/-- The index after a change. -/
def change (ix : Index) : Change → Index
  | .add target site => ix.add target site
  | .dropFile file => ix.dropFile file
  | .dropModule file target => ix.dropModule file target

/-- The list of imports after a change. -/
def Change.inList (imports : List Import) : Change → List Import
  | .add target site =>
    if imports.any fun i => i == ⟨target, site⟩ then imports else imports ++ [⟨target, site⟩]
  | .dropFile file => imports.filter fun i => !(i.site.file == file)
  | .dropModule file target => imports.filter fun i => !(i.site.file == file || i.target == target)

/-- The index after changes, beginning with the index of no import. -/
def after (changes : List Change) : Index := changes.foldl change empty

/-- The list of imports after changes, beginning with the empty list. -/
def importsAfter (changes : List Change) : List Import := changes.foldl Change.inList []

/-- The sites of one module, in the order of the list. -/
def sitesIn (imports : List Import) (target : Identity) : List Site :=
  (imports.filter fun i => i.target == target).map Import.site

/-- The index says what the list says. -/
structure Refines (ix : Index) (imports : List Import) : Prop where
  linked : ix.Linked
  sites : ∀ target, ix.sites target = sitesIn imports target
  distinct : Distinct ix.byTarget.keys
  inhabited : ∀ item ∈ ix.byTarget, item.2 ≠ []

variable {ix : Index} {imports : List Import}

theorem sitesIn_append (imports more : List Import) (target : Identity) :
    sitesIn (imports ++ more) target = sitesIn imports target ++ sitesIn more target := by
  simp [sitesIn]

/-- Leaving out imports leaves out their sites. -/
theorem sitesIn_filter {imports : List Import} {keep : Import → Bool} (keepSite : Site → Bool)
    {target : Identity}
    (h : ∀ i ∈ imports, (i.target == target) = true → keep i = keepSite i.site) :
    sitesIn (imports.filter keep) target = (sitesIn imports target).filter keepSite := by
  rw [sitesIn, sitesIn, List.filter_map, List.filter_filter, List.filter_filter]
  refine congrArg _ (List.filter_congr fun i hi => ?_)
  by_cases htarget : (i.target == target) = true
  · simp [htarget, h i hi htarget]
  · simp [htarget]

theorem contains_sitesIn (imports : List Import) (target : Identity) (site : Site) :
    (sitesIn imports target).contains site = imports.any fun i => i == ⟨target, site⟩ := by
  rw [sitesIn, List.contains_eq_any_beq, List.any_map, List.any_filter]
  refine congrArg imports.any (funext fun i => ?_)
  change (i.target == target && site == i.site) = (i.target == target && i.site == site)
  rw [BEq.comm (a := site)]

/-! ## Every change keeps the relation -/

theorem refines_empty : Refines empty [] where
  linked := linked_empty
  sites _ := rfl
  distinct := .nil
  inhabited := by simp [empty]

theorem Refines.add (h : Refines ix imports) (target : Identity) (site : Site) :
    Refines (ix.add target site) ((Change.add target site).inList imports) where
  linked := h.linked.add target site
  sites target' := by
    rw [sites_add, h.sites, h.sites, insertNew, contains_sitesIn, Change.inList]
    by_cases hknown : (imports.any fun i => i == ⟨target, site⟩) = true
    · rw [if_pos hknown, if_pos hknown]
      split
      · rename_i htarget
        rw [← h.sites, ← h.sites, sites_congr ix htarget]
      · rfl
    · rw [if_neg hknown, if_neg hknown, sitesIn_append]
      by_cases htarget : (target == target') = true
      · rw [if_pos htarget, ← h.sites, ← h.sites, sites_congr ix htarget]
        simp [sitesIn, htarget]
      · rw [if_neg htarget]
        simp [sitesIn, htarget]
  distinct := Ordered.distinct_put h.distinct _ _
  inhabited item hitem := by
    rcases Ordered.mem_put hitem with heq | hitem
    · rw [heq, insertNew]
      split
      · rename_i hcontains
        intro hnil
        simp [hnil] at hcontains
      · simp
    · exact h.inhabited item hitem

/-- Taking sites from the modules on record leaves distinct modules, each with a site. -/
theorem foldl_dropSites_distinct {byTarget : Ordered Identity (List Site)} (file : Path)
    (targets : List Identity) (hdistinct : Distinct byTarget.keys)
    (hinhabited : ∀ item ∈ byTarget, item.2 ≠ []) :
    Distinct (Ordered.keys (targets.foldl (dropSites file) byTarget)) ∧
      ∀ item ∈ targets.foldl (dropSites file) byTarget, item.2 ≠ [] := by
  induction targets generalizing byTarget with
  | nil => exact ⟨hdistinct, hinhabited⟩
  | cons target targets ih =>
    rw [List.foldl_cons]
    unfold dropSites
    split
    · exact ih hdistinct hinhabited
    · split
      · refine ih (Ordered.distinct_erase hdistinct target) fun item hitem => ?_
        exact hinhabited item (List.mem_filter.1 hitem).1
      · rename_i hleft
        refine ih (Ordered.distinct_put hdistinct target _) fun item hitem => ?_
        rcases Ordered.mem_put hitem with heq | hitem
        · rw [heq]
          exact fun hnil => hleft hnil
        · exact hinhabited item hitem

theorem Refines.dropFile (h : Refines ix imports) (file : Path) :
    Refines (ix.dropFile file) ((Change.dropFile file).inList imports) := by
  have hkept : Distinct (ix.dropFile file).byTarget.keys ∧
      ∀ item ∈ (ix.dropFile file).byTarget, item.2 ≠ [] := by
    unfold Index.dropFile
    split
    · exact ⟨h.distinct, h.inhabited⟩
    · exact foldl_dropSites_distinct file _ h.distinct h.inhabited
  refine ⟨h.linked.dropFile file, fun target => ?_, hkept.1, hkept.2⟩
  rw [h.linked.sites_dropFile, h.sites]
  exact (sitesIn_filter (fun site => !(site.file == file)) fun _ _ _ => rfl).symm

theorem Refines.dropModule (h : Refines ix imports) (file : Path) (target : Identity) :
    Refines (ix.dropModule file target) ((Change.dropModule file target).inList imports) := by
  have hfile := h.dropFile file
  have hkept : Distinct (ix.dropModule file target).byTarget.keys ∧
      ∀ item ∈ (ix.dropModule file target).byTarget, item.2 ≠ [] := by
    unfold Index.dropModule
    dsimp only
    split
    · exact ⟨hfile.distinct, hfile.inhabited⟩
    · refine ⟨Ordered.distinct_erase hfile.distinct target, fun item hitem => ?_⟩
      exact hfile.inhabited item (List.mem_filter.1 hitem).1
  refine ⟨h.linked.dropModule file target, fun target' => ?_, hkept.1, hkept.2⟩
  rw [sites_dropModule, hfile.sites, Change.inList, Change.inList]
  by_cases htarget : (target == target') = true
  · rw [if_pos htarget, sitesIn_filter fun _ => false]
    · simp
    · intro i _ hi
      have hi' : (i.target == target) = true := BEq.trans hi (BEq.symm htarget)
      simp [hi']
  · rw [if_neg htarget, sitesIn_filter (fun site => !(site.file == file)) fun _ _ _ => rfl,
      sitesIn_filter fun site => !(site.file == file)]
    intro i _ hi
    have hi' : (i.target == target) = false := by
      rw [BEq.congr_left hi, BEq.comm]
      simpa using htarget
    simp [hi']

/-- **Every change keeps the index and the list in step.** -/
theorem Refines.change (h : Refines ix imports) (c : Change) :
    Refines (ix.change c) (c.inList imports) := by
  cases c with
  | add target site => exact h.add target site
  | dropFile file => exact h.dropFile file
  | dropModule file target => exact h.dropModule file target

/-- However it came about, the index says what the list says. -/
theorem refines_after (changes : List Change) : Refines (after changes) (importsAfter changes) := by
  suffices hrun : ∀ ix imports, Refines ix imports →
      Refines (changes.foldl Index.change ix) (changes.foldl Change.inList imports) from
    hrun empty [] refines_empty
  induction changes with
  | nil => exact fun _ _ h => h
  | cons c changes ih => exact fun ix imports h => ih _ _ (h.change c)

/-! ## What is read off the index -/

theorem files_eq_eraseDups (ix : Index) (target : Identity) :
    ix.files target = ((ix.sites target).map Site.file).eraseDups := by
  rw [eraseDups_eq_foldl, List.foldl_map]
  rfl

/-- The modules on record are those that the list mentions. -/
theorem Refines.contains_keys (h : Refines ix imports) (target : Identity) :
    ix.byTarget.keys.contains target = (imports.map Import.target).contains target := by
  rw [Ordered.contains_keys, Bool.eq_iff_iff, List.contains_iff_exists_mem_beq]
  have hsites := h.sites target
  rw [Index.sites] at hsites
  constructor
  · intro hsome
    obtain ⟨sites, hget⟩ := Option.isSome_iff_exists.1 hsome
    rw [hget, Option.getD_some] at hsites
    -- a module on record has a site, and the list has the import at that site
    have hne : sites ≠ [] := by
      obtain ⟨item, hfind, rfl⟩ := Option.map_eq_some_iff.1 hget
      exact h.inhabited item (List.mem_of_find?_eq_some hfind)
    obtain ⟨site, hsite⟩ := List.exists_mem_of_ne_nil sites hne
    rw [hsites] at hsite
    obtain ⟨i, hi, -⟩ := List.mem_map.1 hsite
    obtain ⟨hi, htarget⟩ := List.mem_filter.1 hi
    exact ⟨i.target, List.mem_map_of_mem hi, BEq.symm htarget⟩
  · rintro ⟨_, hmem, heq⟩
    obtain ⟨i, hi, rfl⟩ := List.mem_map.1 hmem
    rw [Option.isSome_iff_ne_none]
    intro hnone
    have hsite : i.site ∈ sitesIn imports target :=
      List.mem_map_of_mem (List.mem_filter.2 ⟨hi, BEq.symm heq⟩)
    rw [← hsites, hnone] at hsite
    simp at hsite

theorem Refines.size_eq (h : Refines ix imports) :
    ix.size = (imports.map Import.target).eraseDups.length := by
  have hkeys : ix.size = ix.byTarget.keys.length := (List.length_map _).symm
  rw [hkeys]
  refine Nat.le_antisymm (h.distinct.length_le ?_) ((distinct_eraseDups _).length_le ?_)
  · intro target htarget
    rw [contains_eraseDups, ← h.contains_keys]
    exact htarget
  · intro target htarget
    rw [h.contains_keys, ← contains_eraseDups]
    exact htarget

theorem Refines.isEmpty_iff (h : Refines ix imports) : ix.isEmpty = true ↔ imports = [] := by
  rw [Index.isEmpty, List.isEmpty_iff]
  constructor
  · intro hnil
    cases imports with
    | nil => rfl
    | cons i imports =>
      have hkey := h.contains_keys i.target
      rw [hnil] at hkey
      simp [Ordered.keys] at hkey
  · rintro rfl
    cases hkeys : ix.byTarget with
    | nil => rfl
    | cons item rest =>
      have hkey := h.contains_keys item.1
      rw [hkeys] at hkey
      simp [Ordered.keys] at hkey

end Index

/-- **The index is a list of imports.**  Whatever was added and forgotten, in whatever order, the
index gives the sites of every module as the list does and in the order of the list, the files
among them each once and as they first come, the number of modules that the list mentions, and it
is empty exactly when the list is. -/
theorem index_is_list_of_imports (changes : List Index.Change) :
    (∀ target, (Index.after changes).sites target =
        Index.sitesIn (Index.importsAfter changes) target) ∧
      (∀ target, (Index.after changes).files target =
        ((Index.sitesIn (Index.importsAfter changes) target).map Site.file).eraseDups) ∧
      (Index.after changes).size =
        ((Index.importsAfter changes).map Import.target).eraseDups.length ∧
      ((Index.after changes).isEmpty = true ↔ Index.importsAfter changes = []) := by
  have h := Index.refines_after changes
  refine ⟨h.sites, fun target => ?_, h.size_eq, h.isEmpty_iff⟩
  rw [Index.files_eq_eraseDups, h.sites]

end Relocate
