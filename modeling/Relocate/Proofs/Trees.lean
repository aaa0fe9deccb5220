import Mathlib.Data.List.Basic
import Mathlib.Data.List.Induction
import Relocate.Disk.Change
import Relocate.Proofs.Places

/-! # Disks that are trees

A disk lists the places that hold something.  `Disk.IsTree` is what makes such a list a tree of
files: no place is listed twice, every place is reached by names, and what holds a place is a
directory.  The elementary changes of a disk are described by what each place holds afterwards
(`entry_put`, `entry_eraseTree`, `entry_relocateTree`), and each of them keeps a tree a tree.
-/

namespace Relocate.Disk

variable {d : Disk} {place source target : Location}

/-- The text can name an entry of a disk: a name of at most 255 bytes. -/
structure IsEntryName (name : String) : Prop extends IsName name where
  short : ¬ 255 < name.utf8ByteSize

instance (name : String) : Decidable (IsEntryName name) :=
  decidable_of_iff (IsName name ∧ ¬ 255 < name.utf8ByteSize)
    ⟨fun ⟨h, h'⟩ => ⟨h, h'⟩, fun h => ⟨h.toIsName, h.short⟩⟩

/-- The disk is a tree of files. -/
structure IsTree (d : Disk) : Prop where
  distinct : (d.entries.map Prod.fst).Nodup
  listed : ∀ place entry, (place, entry) ∈ d.entries →
    place ≠ [] ∧ ∀ name ∈ place, IsEntryName name
  parents : ∀ place entry, (place, entry) ∈ d.entries →
    d.entry? place.dropLast = some .directory

/-- Whether a disk is a tree can be read off its entries one by one. -/
theorem isTree_iff {d : Disk} : d.IsTree ↔ (d.entries.map Prod.fst).Nodup ∧
    ∀ item ∈ d.entries, (item.1 ≠ [] ∧ ∀ name ∈ item.1, IsEntryName name) ∧
      d.entry? item.1.dropLast = some .directory := by
  constructor
  · intro h
    exact ⟨h.distinct, fun item hitem => ⟨h.listed _ _ hitem, h.parents _ _ hitem⟩⟩
  · rintro ⟨hdistinct, hitems⟩
    exact ⟨hdistinct, fun place entry hmem => (hitems _ hmem).1,
      fun place entry hmem => (hitems _ hmem).2⟩

instance (d : Disk) : Decidable d.IsTree := decidable_of_iff _ isTree_iff.symm

/-! ## What a place holds -/

@[simp] theorem entry_nil (d : Disk) : d.entry? [] = some .directory := by simp [Disk.entry?]

theorem entry_of_ne_nil (hne : place ≠ []) : d.entry? place = d.entries.lookup place := by
  simp [Disk.entry?, hne]

/-- Among distinct keys, a key's value is the one it is listed with. -/
theorem lookup_eq_some_iff_mem {entries : List (Location × Entry)}
    (h : (entries.map Prod.fst).Nodup) {entry : Entry} :
    entries.lookup place = some entry ↔ (place, entry) ∈ entries := by
  induction entries with
  | nil => simp
  | cons first entries ih =>
    obtain ⟨p, e⟩ := first
    simp only [List.map_cons, List.nodup_cons] at h
    rw [List.lookup_cons]
    by_cases hp : place = p
    · subst hp
      simp only [beq_self_eq_true, Option.some.injEq, List.mem_cons, Prod.mk.injEq, true_and]
      constructor
      · intro he
        exact .inl he.symm
      · rintro (he | hmem)
        · exact he.symm
        · exact absurd (List.mem_map.2 ⟨_, hmem, rfl⟩) h.1
    · have hne : (place == p) = false := by simpa using hp
      simp [hne, hp, ih h.2]

theorem IsTree.entry_eq_some_iff (h : d.IsTree) (hne : place ≠ []) {entry : Entry} :
    d.entry? place = some entry ↔ (place, entry) ∈ d.entries := by
  rw [entry_of_ne_nil hne, lookup_eq_some_iff_mem h.distinct]

/-- What holds something is reached by names that entries can have. -/
theorem IsTree.entryName (h : d.IsTree) {entry : Entry} (he : d.entry? place = some entry) :
    ∀ name ∈ place, IsEntryName name := by
  by_cases hne : place = []
  · simp [hne]
  · exact (h.listed place entry ((h.entry_eq_some_iff hne).1 he)).2

theorem IsTree.plain (h : d.IsTree) {entry : Entry} (he : d.entry? place = some entry) :
    Plain place :=
  fun name hname => (h.entryName he name hname).toIsName

theorem IsTree.parent (h : d.IsTree) {entry : Entry} (he : d.entry? place = some entry) :
    d.entry? place.dropLast = some .directory := by
  by_cases hne : place = []
  · simp [hne]
  · exact h.parents place entry ((h.entry_eq_some_iff hne).1 he)

/-- What lies above something is a directory. -/
theorem IsTree.directory_of_prefix (h : d.IsTree) {entry : Entry} {dir : Location}
    (he : d.entry? place = some entry) (hpre : dir <+: place) (hne : dir ≠ place) :
    d.entry? dir = some .directory := by
  obtain ⟨rest, rfl⟩ := hpre
  induction rest using List.reverseRecOn generalizing entry with
  | nil => simp at hne
  | append_singleton rest name ih =>
    have hparent : d.entry? (dir ++ rest) = some .directory := by
      have hup := h.parent he
      rwa [← List.append_assoc, List.dropLast_concat] at hup
    by_cases hrest : rest = []
    · simpa [hrest] using hparent
    · exact ih hparent (by simpa using hrest)

/-- Below a file there is nothing. -/
theorem IsTree.eq_of_file_prefix (h : d.IsTree) {entry : Entry} {file : Location}
    {content : Content} (hfile : d.entry? file = some (.file content))
    (he : d.entry? place = some entry) (hpre : file <+: place) : file = place := by
  by_cases hne : file = place
  · exact hne
  · rw [h.directory_of_prefix he hpre hne] at hfile
    simp at hfile

/-- Below nothing there is nothing. -/
theorem IsTree.none_of_prefix (h : d.IsTree) {dir : Location} (hdir : d.entry? dir = none)
    (hpre : dir <+: place) : d.entry? place = none := by
  cases he : d.entry? place with
  | none => rfl
  | some entry =>
    by_cases hne : dir = place
    · rw [hne, he] at hdir
      simp at hdir
    · rw [h.directory_of_prefix he hpre hne] at hdir
      simp at hdir

/-- No entry is listed below a place that is free. -/
theorem IsTree.not_below_free (h : d.IsTree) {dir : Location} (hfree : d.entry? dir = none)
    {item : Location × Entry} (hitem : item ∈ d.entries) : ¬ dir <+: item.1 := by
  intro hpre
  have he := (h.entry_eq_some_iff (h.listed item.1 item.2 hitem).1).2 hitem
  rw [h.none_of_prefix hfree hpre] at he
  simp at he

/-! ## Putting an entry -/

theorem lookup_replaced (entries : List (Location × Entry)) (entry : Entry) (q : Location) :
    (entries.map fun (p, e) => if p = place then (p, entry) else (p, e)).lookup q =
      if q = place then (entries.lookup place).map fun _ => entry else entries.lookup q := by
  induction entries with
  | nil => simp
  | cons first entries ih =>
    obtain ⟨p, e⟩ := first
    by_cases hp : p = place
    · subst hp
      by_cases hq : q = p
      · simp [hq]
      · have hne : (q == p) = false := by simpa using hq
        simpa [List.lookup_cons, hq, hne] using ih
    · by_cases hq : q = p
      · have hne : q ≠ place := fun h => hp (hq.symm.trans h)
        simp [hp, hq]
      · have hne : (q == p) = false := by simpa using hq
        have hne' : (place == p) = false := by simpa using fun h => hp h.symm
        simpa [List.lookup_cons, hp, hne, hne'] using ih

theorem entry_put (hne : place ≠ []) (entry : Entry) (q : Location) :
    Disk.entry? (d.put place entry) q = if q = place then some entry else d.entry? q := by
  by_cases hq : q = []
  · have hnp : ¬ ([] : Location) = place := fun h => hne h.symm
    simp [hq, hnp]
  · rw [entry_of_ne_nil hq, entry_of_ne_nil hq, put]
    split
    · rename_i hsome
      obtain ⟨old, hold⟩ := Option.isSome_iff_exists.1 hsome
      rw [lookup_replaced, hold]
      rfl
    · rename_i hnone
      have hlookup := Option.not_isSome_iff_eq_none.1 hnone
      rw [List.lookup_append]
      by_cases hqp : q = place
      · simp [hqp, hlookup]
      · have hne' : (q == place) = false := by simpa using hqp
        simp [hqp, hne', List.lookup_cons]

theorem map_fst_put (d : Disk) (place : Location) (entry : Entry) :
    (d.put place entry).entries.map Prod.fst =
      if (d.entries.lookup place).isSome then d.entries.map Prod.fst
      else d.entries.map Prod.fst ++ [place] := by
  unfold put
  split
  · simp only [List.map_map]
    refine List.map_congr_left ?_
    rintro ⟨p, e⟩ _
    simp only [Function.comp_apply]
    split <;> rfl
  · simp

theorem mem_of_mem_put {entry : Entry} {item : Location × Entry}
    (h : item ∈ (d.put place entry).entries) : item = (place, entry) ∨ item ∈ d.entries := by
  unfold put at h
  split at h
  · obtain ⟨⟨p, e⟩, hmem, hitem⟩ := List.mem_map.1 h
    simp only at hitem
    split at hitem
    · rename_i hp
      exact .inl (by rw [← hitem, hp])
    · exact .inr (hitem ▸ hmem)
  · rcases List.mem_append.1 h with hmem | hmem
    · exact .inr hmem
    · exact .inl (List.mem_singleton.1 hmem)

/-- An entry can be put into any directory, as long as no directory loses what it holds. -/
theorem IsTree.put (h : d.IsTree) (hne : place ≠ []) (hnames : ∀ name ∈ place, IsEntryName name)
    (hparent : d.entry? place.dropLast = some .directory) {entry : Entry}
    (hkeep : d.entry? place = some .directory → entry = .directory) :
    (d.put place entry).IsTree where
  distinct := by
    rw [map_fst_put]
    split
    · exact h.distinct
    · rename_i hnone
      have hlookup := Option.not_isSome_iff_eq_none.1 hnone
      refine List.nodup_append.2 ⟨h.distinct, by simp, ?_⟩
      intro p hp q hq hpq
      obtain ⟨⟨p', e⟩, hmem, rfl⟩ := List.mem_map.1 hp
      have hplace : p' = place := hpq.trans (List.mem_singleton.1 hq)
      subst hplace
      rw [(lookup_eq_some_iff_mem h.distinct).2 hmem] at hlookup
      simp at hlookup
  listed p e hmem := by
    rcases mem_of_mem_put hmem with hitem | hmem
    · obtain ⟨rfl, rfl⟩ := Prod.mk.inj hitem
      exact ⟨hne, hnames⟩
    · exact h.listed p e hmem
  parents p e hmem := by
    rw [entry_put hne]
    rcases mem_of_mem_put hmem with hitem | hmem
    · obtain ⟨rfl, rfl⟩ := Prod.mk.inj hitem
      have hlen : p.dropLast ≠ p := fun heq => by
        have := congrArg List.length heq
        have hpos := List.length_pos_iff.2 hne
        simp at this
        omega
      rw [if_neg hlen, hparent]
    · have hup := h.parents p e hmem
      split
      · rename_i hplace
        rw [hkeep (hplace ▸ hup)]
      · exact hup

/-! ## Erasing what lies below a place -/

theorem lookup_filter_key (entries : List (Location × Entry)) (keep : Location → Bool)
    (q : Location) :
    (entries.filter fun (p, _) => keep p).lookup q =
      if keep q then entries.lookup q else none := by
  induction entries with
  | nil => simp
  | cons first entries ih =>
    obtain ⟨p, e⟩ := first
    by_cases hq : q = p
    · subst hq
      by_cases hkeep : keep q = true
      · simp [hkeep]
      · simp only [Bool.not_eq_true] at hkeep
        simpa [hkeep] using ih
    · have hne : (q == p) = false := by simpa using hq
      by_cases hkeep : keep p = true
      · simpa [hkeep, List.lookup_cons, hne] using ih
      · simp only [Bool.not_eq_true] at hkeep
        simpa [hkeep, List.lookup_cons, hne] using ih

/-- The disk without the entries whose places are not kept. -/
def restrict (d : Disk) (keep : Location → Bool) : Disk :=
  { d with entries := d.entries.filter fun (p, _) => keep p }

theorem entry_restrict (d : Disk) {keep : Location → Bool} {q : Location} (hq : q ≠ []) :
    Disk.entry? (d.restrict keep) q = if keep q then d.entry? q else none := by
  rw [entry_of_ne_nil hq, entry_of_ne_nil hq]
  exact lookup_filter_key d.entries keep q

/-- A tree stays one when every place that is kept has its directory kept. -/
theorem IsTree.restrict (h : d.IsTree) {keep : Location → Bool}
    (hkeep : ∀ p, p.dropLast ≠ [] → keep p = true → keep p.dropLast = true) :
    (d.restrict keep).IsTree where
  distinct := h.distinct.sublist (List.filter_sublist.map _)
  listed p e hmem := h.listed p e (List.mem_filter.1 hmem).1
  parents p e hmem := by
    obtain ⟨hmem, hp⟩ := List.mem_filter.1 hmem
    by_cases hup : p.dropLast = []
    · rw [hup, entry_nil]
    · rw [entry_restrict d hup, hkeep p hup hp, if_pos rfl]
      exact h.parents p e hmem

theorem eraseTree_eq_restrict (d : Disk) (place : Location) :
    d.eraseTree place = d.restrict fun p => !place.isPrefixOf p :=
  rfl

theorem eraseBelow_eq_restrict (d : Disk) (place : Location) :
    d.eraseBelow place = d.restrict fun p => p == place || !place.isPrefixOf p :=
  rfl

theorem not_isPrefixOf_iff {q : Location} : (!place.isPrefixOf q) = true ↔ ¬ place <+: q := by
  rw [Bool.not_eq_true', Bool.eq_false_iff, ne_eq, List.isPrefixOf_iff_prefix]

theorem entry_eraseTree (hne : place ≠ []) (q : Location) :
    Disk.entry? (d.eraseTree place) q = if place <+: q then none else d.entry? q := by
  by_cases hq : q = []
  · simp [hq, hne]
  · rw [eraseTree_eq_restrict, entry_restrict d hq]
    by_cases hpre : place <+: q
    · rw [if_pos hpre, if_neg fun hkeep => not_isPrefixOf_iff.1 hkeep hpre]
    · rw [if_neg hpre, if_pos (not_isPrefixOf_iff.2 hpre)]

/-- Erasing below a place and then the place is erasing both at once. -/
theorem eraseTree_eraseBelow (d : Disk) (place : Location) :
    (d.eraseBelow place).eraseTree place = d.eraseTree place := by
  simp only [eraseBelow, eraseTree, List.filter_filter, Disk.mk.injEq, and_true]
  refine List.filter_congr ?_
  rintro ⟨p, e⟩ _
  cases place.isPrefixOf p <;> simp

theorem IsTree.eraseTree (h : d.IsTree) (place : Location) : (d.eraseTree place).IsTree := by
  rw [eraseTree_eq_restrict]
  refine h.restrict ?_
  intro p _ hp
  refine not_isPrefixOf_iff.2 fun hup => ?_
  exact not_isPrefixOf_iff.1 hp (hup.trans (List.dropLast_prefix p))

theorem IsTree.eraseBelow (h : d.IsTree) (place : Location) : (d.eraseBelow place).IsTree := by
  rw [eraseBelow_eq_restrict]
  refine h.restrict ?_
  intro p hne hp
  simp only [Bool.or_eq_true, beq_iff_eq, not_isPrefixOf_iff] at hp ⊢
  refine .inr fun hup => ?_
  rcases hp with rfl | hp
  · have hlength := hup.length_le
    rw [List.length_dropLast] at hlength
    have hpos : 0 < p.length := List.length_pos_iff.2 fun hnil => hne (by simp [hnil])
    omega
  · exact hp (hup.trans (List.dropLast_prefix p))

/-! ## Putting a tree elsewhere -/

/-- Where a place is once `source` is put at `target`. -/
def shift (source target place : Location) : Location :=
  match List.isPrefixOf? source place with
  | some rest => target ++ rest
  | none => place

theorem shift_append (source target rest : Location) :
    shift source target (source ++ rest) = target ++ rest := by
  have h : List.isPrefixOf? source (source ++ rest) = some rest :=
    List.isPrefixOf?_eq_some_iff_append_eq.2 rfl
  simp [shift, h]

theorem shift_source (source target : Location) : shift source target source = target := by
  have h := shift_append source target []
  rwa [List.append_nil, List.append_nil] at h

theorem shift_outside (h : ¬ source <+: place) (target : Location) :
    shift source target place = place := by
  unfold shift
  split
  · rename_i rest hrest
    exact absurd ⟨rest, List.isPrefixOf?_eq_some_iff_append_eq.1 hrest⟩ h
  · rfl

theorem relocateTree_entries (d : Disk) (source target : Location) :
    (d.relocateTree source target).entries =
      d.entries.map fun item => (shift source target item.1, item.2) := by
  refine List.map_congr_left ?_
  rintro ⟨p, e⟩ _
  cases hpre : List.isPrefixOf? source p <;> simp [shift, hpre]

/-- Neither place lies below the other. -/
def Apart (source target : Location) : Prop := ¬ source <+: target ∧ ¬ target <+: source

theorem Apart.symm (h : Apart source target) : Apart target source := ⟨h.2, h.1⟩

/-- A place below one of two places apart is not below the other. -/
theorem Apart.not_prefix (h : Apart source target) (hpre : target <+: place) :
    ¬ source <+: place := by
  intro hpre'
  rcases List.prefix_or_prefix_of_prefix hpre' hpre with h' | h'
  · exact h.1 h'
  · exact h.2 h'

/-- Places at the same distance below two places apart are apart. -/
theorem Apart.append (h : Apart source target) (rest : Location) :
    Apart (source ++ rest) (target ++ rest) := by
  refine ⟨fun hpre => ?_, fun hpre => ?_⟩
  · exact h.not_prefix (List.prefix_append target rest)
      ((List.prefix_append source rest).trans hpre)
  · exact h.symm.not_prefix (List.prefix_append source rest)
      ((List.prefix_append target rest).trans hpre)

theorem shift_self (source place : Location) : shift source source place = place := by
  by_cases h : source <+: place
  · obtain ⟨rest, rfl⟩ := h
    exact shift_append source source rest
  · exact shift_outside h source

/-- Different places stay different when a tree is put where there was nothing. -/
theorem shift_inj {p q : Location} (hp : ¬ target <+: p) (hq : ¬ target <+: q)
    (h : shift source target p = shift source target q) : p = q := by
  by_cases hsp : source <+: p
  · obtain ⟨rest, rfl⟩ := hsp
    rw [shift_append] at h
    by_cases hsq : source <+: q
    · obtain ⟨rest', rfl⟩ := hsq
      rw [shift_append] at h
      rw [List.append_cancel_left h]
    · rw [shift_outside hsq] at h
      exact absurd (h ▸ List.prefix_append _ _) hq
  · rw [shift_outside hsp] at h
    by_cases hsq : source <+: q
    · obtain ⟨rest', rfl⟩ := hsq
      rw [shift_append] at h
      exact absurd (h ▸ List.prefix_append _ _) hp
    · rwa [shift_outside hsq] at h

/-- To look up a key among renamed keys is to look up the one that is renamed to it. -/
theorem lookup_map_key {entries : List (Location × Entry)} {rename : Location → Location}
    {p q : Location} (h : ∀ item ∈ entries, rename item.1 = q ↔ item.1 = p) :
    (entries.map fun item => (rename item.1, item.2)).lookup q = entries.lookup p := by
  induction entries with
  | nil => rfl
  | cons first entries ih =>
    obtain ⟨key, entry⟩ := first
    have hfirst := h (key, entry) List.mem_cons_self
    have hrest := ih fun item hitem => h item (List.mem_cons_of_mem _ hitem)
    have hbeq : (q == rename key) = (p == key) := by
      rw [Bool.eq_iff_iff, beq_iff_eq, beq_iff_eq]
      exact ⟨fun heq => (hfirst.1 heq.symm).symm, fun heq => (hfirst.2 heq.symm).symm⟩
    rw [List.map_cons, List.lookup_cons, List.lookup_cons, hrest, hbeq]

/-- What a place holds after a tree was put where there was nothing. -/
theorem IsTree.entry_relocateTree (h : d.IsTree) (hapart : Apart source target)
    (hfree : d.entry? target = none) (q : Location) :
    Disk.entry? (d.relocateTree source target) q =
      if target <+: q then d.entry? (source ++ q.drop target.length)
      else if source <+: q then none else d.entry? q := by
  have hsource : source ≠ [] := fun heq => hapart.1 (by simp [heq])
  have htarget : target ≠ [] := fun heq => hapart.2 (by simp [heq])
  by_cases hq : q = []
  · simp [hq, hsource, htarget]
  rw [entry_of_ne_nil hq, relocateTree_entries]
  by_cases hpre : target <+: q
  · -- nothing was below the target, so what is there now comes from below the source
    obtain ⟨rest, rfl⟩ := hpre
    have hne : source ++ rest ≠ [] := by simp [hsource]
    rw [if_pos (List.prefix_append _ _), List.drop_left, entry_of_ne_nil hne]
    refine lookup_map_key fun item hitem => ?_
    constructor
    · intro heq
      rw [← shift_append source] at heq
      exact shift_inj (h.not_below_free hfree hitem)
        (fun hup => hapart.not_prefix hup (List.prefix_append _ _)) heq
    · intro heq
      rw [heq, shift_append]
  · rw [if_neg hpre]
    have hkeep : ∀ item : Location × Entry, shift source target item.1 = q ↔
        item.1 = q ∧ ¬ source <+: q := by
      rintro ⟨p, e⟩
      by_cases hp : source <+: p
      · obtain ⟨rest, rfl⟩ := hp
        rw [shift_append]
        constructor
        · rintro rfl
          exact absurd (List.prefix_append _ _) hpre
        · rintro ⟨rfl, hnot⟩
          exact absurd (List.prefix_append _ _) hnot
      · rw [shift_outside hp]
        exact ⟨fun heq => ⟨heq, heq ▸ hp⟩, fun heq => heq.1⟩
    by_cases hsource' : source <+: q
    · rw [if_pos hsource', List.lookup_eq_none_iff]
      intro item hitem
      obtain ⟨old, _, rfl⟩ := List.mem_map.1 hitem
      simpa using fun heq => ((hkeep old).1 heq.symm).2 hsource'
    · rw [if_neg hsource', entry_of_ne_nil hq]
      exact lookup_map_key fun item _ =>
        (hkeep item).trans ⟨fun heq => heq.1, fun heq => ⟨heq, hsource'⟩⟩

/-- A tree can be put into any directory that does not lie in it. -/
theorem IsTree.relocateTree (h : d.IsTree) (hapart : Apart source target)
    (hfree : d.entry? target = none) (hnames : ∀ name ∈ target, IsEntryName name)
    (hparent : d.entry? target.dropLast = some .directory) :
    (d.relocateTree source target).IsTree := by
  have hsource : source ≠ [] := fun heq => hapart.1 (by simp [heq])
  have htarget : target ≠ [] := fun heq => hapart.2 (by simp [heq])
  have hdown : ∀ {dir p : Location}, ¬ dir <+: p → ¬ dir <+: p.dropLast :=
    fun hnot hpre => hnot (hpre.trans (List.dropLast_prefix _))
  refine ⟨?_, ?_, ?_⟩
  · rw [relocateTree_entries, List.map_map]
    have hmap : d.entries.map (Prod.fst ∘ fun item => (shift source target item.1, item.2)) =
        (d.entries.map Prod.fst).map (shift source target) := by
      rw [List.map_map]
      rfl
    rw [hmap]
    refine List.pairwise_map.2 (h.distinct.imp_of_mem ?_)
    intro p q hp hq hne heq
    obtain ⟨⟨p, e⟩, hpmem, rfl⟩ := List.mem_map.1 hp
    obtain ⟨⟨q, e'⟩, hqmem, rfl⟩ := List.mem_map.1 hq
    exact hne (shift_inj (h.not_below_free hfree hpmem) (h.not_below_free hfree hqmem) heq)
  · intro p e hmem
    rw [relocateTree_entries] at hmem
    obtain ⟨⟨q, e'⟩, hq, heq⟩ := List.mem_map.1 hmem
    obtain ⟨rfl, rfl⟩ := Prod.mk.inj heq
    obtain ⟨hqne, hqnames⟩ := h.listed q e' hq
    by_cases hpre : source <+: q
    · obtain ⟨rest, rfl⟩ := hpre
      simp only [shift_append]
      refine ⟨by simp [htarget], ?_⟩
      intro name hname
      rcases List.mem_append.1 hname with hname | hname
      · exact hnames name hname
      · exact hqnames name (List.mem_append_right _ hname)
    · simp only [shift_outside hpre]
      exact ⟨hqne, hqnames⟩
  · intro p e hmem
    rw [relocateTree_entries] at hmem
    obtain ⟨⟨q, e'⟩, hq, heq⟩ := List.mem_map.1 hmem
    obtain ⟨rfl, rfl⟩ := Prod.mk.inj heq
    have hup := h.parents q e' hq
    rw [h.entry_relocateTree hapart hfree]
    by_cases hpre : source <+: q
    · obtain ⟨rest, rfl⟩ := hpre
      simp only [shift_append]
      -- the directory above the source itself becomes the one above the target
      rcases List.eq_nil_or_concat rest with rfl | ⟨front, last, rfl⟩
      · have hlast : ¬ target <+: target.dropLast := fun hpre => by
          have hle := hpre.length_le
          have hpos := List.length_pos_iff.2 htarget
          simp at hle
          omega
        simp only [List.append_nil]
        rw [if_neg hlast, if_neg (hdown hapart.1), hparent]
      · rw [List.concat_eq_append, ← List.append_assoc, List.dropLast_concat] at hup ⊢
        rw [if_pos (List.prefix_append _ _), List.drop_left, hup]
    · simp only [shift_outside hpre]
      rw [if_neg (hdown (h.not_below_free hfree hq)), if_neg (hdown hpre), hup]

end Relocate.Disk
