import Mathlib.Data.List.Basic
import Mathlib.Data.List.Induction
import Relocate.Proofs.FlatIndex

/-! # Entries that override each other

Giving keys their values one after the other leaves each key at its first place with its last value.
`Ordered.overriding` says this of the list of all entries at once, and
`Ordered.putAll_eq_overriding` that it is what comes of them.  Therefore entries may be put together
in advance: what is put into a map from another map is what is put into it from the entries that the
other one was made of (`Ordered.putAll_putAll`).
-/

namespace Relocate

section

variable {α : Type} [BEq α] [EquivBEq α]

/-- What is there already may as well be added only once. -/
theorem foldl_insertNew_eraseDups (items start : List α) :
    items.eraseDups.foldl insertNew start = items.foldl insertNew start := by
  -- from the back, since whether an item counts depends on the items in front of it
  induction items using List.reverseRecOn with
  | nil => rfl
  | append_singleton items item ih =>
    have hlast : (items ++ [item]).eraseDups = insertNew items.eraseDups item := by
      rw [eraseDups_eq_foldl, eraseDups_eq_foldl, List.foldl_append]
      rfl
    rw [hlast, List.foldl_append, insertNew, contains_eraseDups]
    by_cases hitem : items.contains item = true
    · have hthere : (items.foldl insertNew start).contains item = true := by
        rw [contains_foldl_insertNew, hitem, Bool.or_true]
      rw [if_pos hitem, ih, List.foldl_cons, List.foldl_nil, insertNew, if_pos hthere]
    · rw [if_neg hitem, List.foldl_append, ih]

end

namespace Ordered

variable {κ α : Type} [BEq κ]

theorem putAll_append (m : Ordered κ α) (entries more : List (κ × α)) :
    m.putAll (entries ++ more) = (m.putAll entries).putAll more :=
  List.foldl_append

variable [EquivBEq κ]

theorem keys_putAll (m : Ordered κ α) (entries : List (κ × α)) :
    (m.putAll entries).keys = (entries.map Prod.fst).foldl insertNew m.keys := by
  induction entries generalizing m with
  | nil => rfl
  | cons first entries ih =>
    rw [List.map_cons, List.foldl_cons, ← keys_put m first.1 first.2]
    exact ih _

theorem distinct_putAll {m : Ordered κ α} (h : Distinct m.keys) (entries : List (κ × α)) :
    Distinct (m.putAll entries).keys := by
  induction entries generalizing m with
  | nil => exact h
  | cons first entries ih => exact ih (distinct_put h first.1 first.2)

/-- The last entry of a key decides, and if there is none, what was there before. -/
theorem get?_putAll (m : Ordered κ α) (entries : List (κ × α)) (key : κ) :
    (m.putAll entries).get? key = (entries.reverse.lookup key).or (m.get? key) := by
  induction entries generalizing m with
  | nil => rfl
  | cons first entries ih =>
    obtain ⟨known, value⟩ := first
    have hput : (m.putAll ((known, value) :: entries)).get? key =
        (entries.reverse.lookup key).or ((m.put known value).get? key) := ih _
    rw [hput, get?_put, List.reverse_cons, List.lookup_append, Option.or_assoc, List.lookup_cons,
      BEq.comm]
    cases key == known <;> rfl

/-- A map of distinct keys is known by its keys and their values. -/
theorem eq_filterMap_keys {m : Ordered κ α} (h : Distinct m.keys) :
    m = m.keys.filterMap fun key => (m.get? key).map fun value => (key, value) := by
  induction m with
  | nil => rfl
  | cons first rest ih =>
    obtain ⟨known, value⟩ := first
    obtain ⟨hfirst, hrest⟩ := List.pairwise_cons.1 h
    have hother : (keys rest).filterMap (fun key =>
          (get? ((known, value) :: rest) key).map fun value => (key, value)) =
        (keys rest).filterMap fun key => (get? rest key).map fun value => (key, value) := by
      refine List.filterMap_congr fun key hkey => ?_
      rw [get?_cons, hfirst key hkey]
      rfl
    rw [keys_cons, List.filterMap_cons_some (b := (known, value)) (by simp [get?_cons]), hother,
      ← ih hrest]

theorem eq_of_keys_of_get? {m m' : Ordered κ α} (h : Distinct m.keys) (hkeys : m.keys = m'.keys)
    (hget : ∀ key, m.get? key = m'.get? key) : m = m' := by
  calc
    m = m.keys.filterMap fun key => (m.get? key).map fun value => (key, value) :=
      eq_filterMap_keys h
    _ = m'.keys.filterMap fun key => (m'.get? key).map fun value => (key, value) := by
      simp only [hkeys, hget]
    _ = m' := (eq_filterMap_keys (hkeys ▸ h)).symm

/-- Each key once, at the place of its first entry and with the value of its last. -/
def overriding (entries : List (κ × α)) : Ordered κ α :=
  (entries.map Prod.fst).eraseDups.filterMap fun key =>
    (entries.reverse.lookup key).map fun value => (key, value)

theorem get?_putAll_nil (entries : List (κ × α)) (key : κ) :
    (putAll [] entries).get? key = entries.reverse.lookup key := by
  rw [get?_putAll]
  exact Option.or_none

theorem distinct_putAll_nil (entries : List (κ × α)) :
    Distinct (putAll ([] : Ordered κ α) entries).keys :=
  distinct_putAll (m := []) List.Pairwise.nil entries

/-- **Later entries override earlier ones, in their place.** -/
theorem putAll_eq_overriding (entries : List (κ × α)) : putAll [] entries = overriding entries := by
  rw [eq_filterMap_keys (distinct_putAll_nil entries), keys_putAll, overriding, eraseDups_eq_foldl]
  simp only [get?_putAll_nil]
  rfl

/-- Where no key is repeated, the last entry of a key is its only one. -/
theorem lookup_reverse {m : Ordered κ α} (h : Distinct m.keys) (key : κ) :
    List.lookup key m.reverse = m.get? key := by
  induction m with
  | nil => rfl
  | cons first rest ih =>
    obtain ⟨known, value⟩ := first
    obtain ⟨hfirst, hrest⟩ := List.pairwise_cons.1 h
    rw [List.reverse_cons, List.lookup_append, ih hrest, get?_cons]
    by_cases hkey : (known == key) = true
    · have hnone : get? rest key = none := by
        rw [← Option.not_isSome_iff_eq_none, ← contains_keys]
        intro hmem
        obtain ⟨other, hother, hlike⟩ := List.contains_iff_exists_mem_beq.1 hmem
        have hdiffer := hfirst other hother
        rw [BEq.trans hkey hlike] at hdiffer
        exact Bool.noConfusion hdiffer
      rw [hnone, if_pos hkey, List.lookup_cons, BEq.symm hkey]
      rfl
    · rw [if_neg hkey, List.lookup_cons, BEq.comm, Bool.eq_false_iff.2 hkey]
      exact Option.or_none

/-- **Entries may be put together in advance.** -/
theorem putAll_putAll {m : Ordered κ α} (h : Distinct m.keys) (entries : List (κ × α)) :
    m.putAll (putAll [] entries) = m.putAll entries := by
  refine eq_of_keys_of_get? (distinct_putAll h _) ?_ fun key => ?_
  · have hkeys : (putAll [] entries).map Prod.fst = (entries.map Prod.fst).eraseDups := by
      rw [eraseDups_eq_foldl]
      exact keys_putAll [] entries
    rw [keys_putAll, keys_putAll, hkeys, foldl_insertNew_eraseDups]
  · rw [get?_putAll, get?_putAll, lookup_reverse (distinct_putAll_nil entries), get?_putAll_nil]

end Ordered

/-! ## The entry of a key -/

namespace Ordered

variable {κ α : Type} [BEq κ] {m : Ordered κ α} {key : κ} {value : α}

theorem get?_of_mem [EquivBEq κ] (h : Distinct m.keys) (hmem : (key, value) ∈ m) :
    m.get? key = some value := by
  induction m with
  | nil => simp at hmem
  | cons first rest ih =>
    obtain ⟨hfirst, hrest⟩ := List.pairwise_cons.1 h
    rw [get?_cons]
    rcases List.mem_cons.1 hmem with rfl | hmem
    · simp
    · rw [hfirst key (List.mem_map_of_mem hmem), ih hrest hmem]
      rfl

/-- A key has one entry. -/
theorem filter_key [LawfulBEq κ] (h : Distinct m.keys) (hget : m.get? key = some value) :
    (m.filter fun item => item.1 == key) = [(key, value)] := by
  induction m with
  | nil => simp [get?] at hget
  | cons first rest ih =>
    obtain ⟨known, old⟩ := first
    obtain ⟨hfirst, hrest⟩ := List.pairwise_cons.1 h
    rw [get?_cons] at hget
    by_cases hkey : (known == key) = true
    · obtain rfl : old = value := by simpa [hkey] using hget
      obtain rfl : known = key := eq_of_beq hkey
      have hnone : (rest.filter fun item => item.1 == known) = [] := by
        refine List.filter_eq_nil_iff.2 fun item hitem heq => ?_
        have hdiffer := hfirst item.1 (List.mem_map_of_mem hitem)
        rw [BEq.symm heq] at hdiffer
        exact Bool.noConfusion hdiffer
      rw [List.filter_cons, if_pos hkey, hnone]
    · rw [if_neg hkey] at hget
      rw [List.filter_cons, if_neg hkey, ih hrest hget]

end Ordered

end Relocate
