import Relocate.Proofs.ModulePaths
import Relocate.Proofs.Sessions

/-! # Discovery

The files of a project are those that a walk comes to: it takes the entries of a directory by name,
goes into every directory as it comes to it, and passes over those with an excluded name together
with all that they hold (`Disk.IsWalk`).  Discovery sorts the files of a disk instead, by the lists
of names that lead to them.  The two agree (`Disk.IsTree.isWalk_walk`), since either list is in the
order of a walk and has the same members, each once.

Names are compared by their characters, which is the order of their bytes (`Text.bytes_lt_iff`).
-/

namespace Relocate

/-! ## The order of bytes -/

namespace Text

/-- The bytes of a text. -/
def bytes (text : String) : List UInt8 := text.toUTF8.data.toList

theorem bytes_eq (text : String) : bytes text = text.toList.flatMap String.utf8EncodeChar := by
  rw [bytes, String.toUTF8, ← String.utf8Encode_toList, List.utf8Encode,
    List.toList_data_toByteArray]

theorem code_lt (c : Char) : c.val.toNat < 1114112 := by
  rcases c.valid with hlow | ⟨-, hhigh⟩
  · omega
  · exact hhigh

theorem byte_cons_lt_iff {a b : Nat} (ha : a < 256) (hb : b < 256) (rest rest' : List UInt8) :
    UInt8.ofNat a :: rest < UInt8.ofNat b :: rest' ↔ a < b ∨ a = b ∧ rest < rest' := by
  rw [List.cons_lt_cons_iff, UInt8.lt_iff_toNat_lt, ← UInt8.toNat_inj, UInt8.toNat_ofNat',
    UInt8.toNat_ofNat', Nat.mod_eq_of_lt ha, Nat.mod_eq_of_lt hb]

/-- Of two numbers the smaller one has the smaller digits to the base 64. -/
theorem digits_lt {v w : Nat} (h : v < w) :
    v / 262144 < w / 262144 ∨ v / 262144 = w / 262144 ∧
      (v / 4096 % 64 < w / 4096 % 64 ∨ v / 4096 % 64 = w / 4096 % 64 ∧
        (v / 64 % 64 < w / 64 % 64 ∨ v / 64 % 64 = w / 64 % 64 ∧ v % 64 < w % 64)) := by
  have hstep : ∀ v w : Nat, v < w → v / 64 < w / 64 ∨ v / 64 = w / 64 ∧ v % 64 < w % 64 := by omega
  have hdigits : ∀ n : Nat, n / 4096 = n / 64 / 64 ∧ n / 262144 = n / 64 / 64 / 64 := by omega
  rw [(hdigits v).1, (hdigits v).2, (hdigits w).1, (hdigits w).2]
  rcases hstep v w h with hlt | ⟨heq, hlt⟩
  · rcases hstep _ _ hlt with hlt | ⟨heq, hlt⟩
    · rcases hstep _ _ hlt with hlt | ⟨heq, hlt⟩
      · exact .inl hlt
      · exact .inr ⟨heq, .inl hlt⟩
    · exact .inr ⟨by rw [heq], .inr ⟨by rw [heq], .inl hlt⟩⟩
  · exact .inr ⟨by rw [heq], .inr ⟨by rw [heq], .inr ⟨by rw [heq], hlt⟩⟩⟩

/-- Of two characters the smaller one has the smaller bytes, whatever follows. -/
theorem encoded_lt {c d : Char} (h : c < d) (rest rest' : List UInt8) :
    String.utf8EncodeChar c ++ rest < String.utf8EncodeChar d ++ rest' := by
  have hlt : c.val.toNat < d.val.toNat := h
  have hmax := code_lt d
  unfold String.utf8EncodeChar
  generalize c.val.toNat = v at hlt
  generalize d.val.toNat = w at hlt hmax
  have hdigits := digits_lt hlt
  have hfirst : v / 262144 % 8 = v / 262144 ∧ w / 262144 % 8 = w / 262144 := by omega
  dsimp only
  -- either character takes up one to four bytes
  repeat' split
  all_goals
    simp only [List.cons_append]
    repeat rw [byte_cons_lt_iff (by omega) (by omega)]
    omega

theorem bytes_lt_of_lt {a b : String} (h : a < b) : bytes a < bytes b := by
  rw [bytes_eq, bytes_eq]
  have hchars : a.toList < b.toList := h
  generalize a.toList = s at hchars
  generalize b.toList = t at hchars
  induction s generalizing t with
  | nil =>
    cases t with
    | nil => exact absurd hchars (List.lt_irrefl _)
    | cons d t =>
      rw [List.flatMap_nil, List.flatMap_cons]
      cases hd : String.utf8EncodeChar d with
      | nil => exact absurd hd String.utf8EncodeChar_ne_nil
      | cons first others => exact List.nil_lt_cons _ _
  | cons c s ih =>
    cases t with
    | nil => exact absurd hchars (List.not_lt_nil _)
    | cons d t =>
      rw [List.flatMap_cons, List.flatMap_cons]
      rcases List.cons_lt_cons_iff.1 hchars with hlt | ⟨rfl, hrest⟩
      · exact encoded_lt hlt _ _
      · exact List.append_left_lt (ih t hrest)

/-- **The bytes of texts are in the order of their characters.** -/
theorem bytes_lt_iff {a b : String} : bytes a < bytes b ↔ a < b := by
  refine ⟨fun h => ?_, bytes_lt_of_lt⟩
  by_contra hnot
  by_cases heq : a = b
  · exact List.lt_irrefl _ (heq ▸ h)
  · have hgt : b < a := by
      by_contra hle
      exact heq (String.le_antisymm (String.not_lt.1 hle) (String.not_lt.1 hnot))
    exact List.lt_asymm h (bytes_lt_of_lt hgt)
end Text

/-! ## Walks -/

namespace Disk

open Text

/-- The names of all that a directory holds, in the order of their bytes. -/
structure IsListing (d : Disk) (place : Location) (names : List String) : Prop where
  sorted : names.Pairwise fun a b => bytes a < bytes b
  mem_iff : ∀ name, name ∈ names ↔ ∃ entry, d.entry? (place ++ [name]) = some entry

/-- The files that a walk comes to, by the names that lead there, when it takes entries of a
directory one after the other. -/
inductive DepthFirst (d : Disk) (excluded : List String) :
    (place : Location) → (entries : List String) → (found : List (List String)) → Prop
  | done {place : Location} : DepthFirst d excluded place [] []
  | file {place : Location} {name : String} {entries : List String} {found : List (List String)}
      {content : Content} (hfile : d.entry? (place ++ [name]) = some (.file content))
      (hrest : DepthFirst d excluded place entries found) :
      DepthFirst d excluded place (name :: entries) ([name] :: found)
  /-- An excluded directory is passed over with all that it holds. -/
  | pass {place : Location} {name : String} {entries : List String} {found : List (List String)}
      (hdir : d.entry? (place ++ [name]) = some .directory) (hexcluded : name ∈ excluded)
      (hrest : DepthFirst d excluded place entries found) :
      DepthFirst d excluded place (name :: entries) found
  /-- Any other is gone through before the next entry is taken. -/
  | enter {place : Location} {name : String} {entries inner : List String}
      {below found : List (List String)} (hdir : d.entry? (place ++ [name]) = some .directory)
      (hexcluded : name ∉ excluded) (hlisting : d.IsListing (place ++ [name]) inner)
      (hbelow : DepthFirst d excluded (place ++ [name]) inner below)
      (hrest : DepthFirst d excluded place entries found) :
      DepthFirst d excluded place (name :: entries) (below.map (name :: ·) ++ found)

/-- The files that a walk through a directory comes to, by the names that lead there. -/
def IsWalk (d : Disk) (excluded : List String) (place : Location) (found : List (List String)) :
    Prop :=
  ∃ names, d.IsListing place names ∧ d.DepthFirst excluded place names found

/-- The names lead to a file, through no excluded directory. -/
def LeadsToFile (d : Disk) (excluded : List String) (place names : Location) : Prop :=
  (∃ content, d.entry? (place ++ names) = some (.file content)) ∧
    ∀ dir ∈ names.dropLast, dir ∉ excluded

variable {d : Disk} {excluded entries : List String} {place : Location}
  {found : List (List String)}

theorem LeadsToFile.cons {name : String} {rest : Location} (hrest : rest ≠ []) :
    d.LeadsToFile excluded place (name :: rest) ↔
      name ∉ excluded ∧ d.LeadsToFile excluded (place ++ [name]) rest := by
  rw [LeadsToFile, LeadsToFile, List.dropLast_cons_of_ne_nil hrest, List.forall_mem_cons,
    List.append_assoc, List.singleton_append, and_left_comm]

theorem not_leadsToFile {names : Location} (hdir : d.entry? (place ++ names) = some .directory) :
    ¬ d.LeadsToFile excluded place names := by
  rintro ⟨⟨content, hfile⟩, -⟩
  rw [hdir] at hfile
  simp at hfile

/-- Below a file there is nothing. -/
theorem LeadsToFile.of_file (htree : d.IsTree) {name : String} {content : Content}
    (hfile : d.entry? (place ++ [name]) = some (.file content)) {rest : Location} :
    d.LeadsToFile excluded place (name :: rest) ↔ rest = [] := by
  constructor
  · rintro ⟨⟨content', hthere⟩, -⟩
    have hsame := htree.eq_of_file_prefix hfile hthere (by simp [List.prefix_append_right_inj])
    exact (List.cons.inj (List.append_cancel_left hsame)).2.symm
  · rintro rfl
    exact ⟨⟨content, hfile⟩, by simp⟩

theorem LeadsToFile.of_excluded {name : String}
    (hdir : d.entry? (place ++ [name]) = some .directory) (hexcluded : name ∈ excluded)
    {rest : Location} : ¬ d.LeadsToFile excluded place (name :: rest) := by
  intro h
  by_cases hrest : rest = []
  · subst hrest
    exact not_leadsToFile hdir h
  · exact ((LeadsToFile.cons hrest).1 h).1 hexcluded

theorem LeadsToFile.of_directory {name : String}
    (hdir : d.entry? (place ++ [name]) = some .directory) (hexcluded : name ∉ excluded)
    {rest : Location} :
    d.LeadsToFile excluded place (name :: rest) ↔
      d.LeadsToFile excluded (place ++ [name]) rest := by
  by_cases hrest : rest = []
  · subst hrest
    exact iff_of_false (not_leadsToFile hdir) (not_leadsToFile (by rwa [List.append_nil]))
  · rw [LeadsToFile.cons hrest, and_iff_right hexcluded]

/-- The first name that leads to a file is listed. -/
theorem IsListing.exists_cons (htree : d.IsTree) (hlisting : d.IsListing place entries)
    (hplace : d.entry? place = some .directory) {names : Location}
    (h : d.LeadsToFile excluded place names) : ∃ name ∈ entries, ∃ rest, names = name :: rest := by
  cases names with
  | nil => exact absurd h (not_leadsToFile (by rwa [List.append_nil]))
  | cons name rest =>
    obtain ⟨content, hthere⟩ := h.1
    have hname := htree.mem_namesIn.1 (htree.mem_namesIn_of_below hthere)
    exact ⟨name, (hlisting.mem_iff name).2 hname, rest, rfl⟩

/-- **What a walk comes to**: the files that the entries lead to, through no excluded directory. -/
theorem DepthFirst.mem_iff (htree : d.IsTree) (h : d.DepthFirst excluded place entries found)
    (names : Location) :
    names ∈ found ↔
      (∃ name ∈ entries, ∃ rest, names = name :: rest) ∧ d.LeadsToFile excluded place names := by
  induction h generalizing names with
  | done => simp
  | file hfile _ ih =>
    rw [List.mem_cons, ih, List.exists_mem_cons_iff, or_and_right]
    refine or_congr ⟨?_, ?_⟩ Iff.rfl
    · rintro rfl
      exact ⟨⟨[], rfl⟩, (LeadsToFile.of_file htree hfile).2 rfl⟩
    · rintro ⟨⟨rest, rfl⟩, hleads⟩
      rw [(LeadsToFile.of_file htree hfile).1 hleads]
  | pass hdir hexcluded _ ih =>
    rw [ih, List.exists_mem_cons_iff, or_and_right, or_iff_right]
    rintro ⟨⟨rest, rfl⟩, hleads⟩
    exact LeadsToFile.of_excluded hdir hexcluded hleads
  | enter hdir hexcluded hlisting _ _ ihbelow ih =>
    rw [List.mem_append, List.mem_map, ih, List.exists_mem_cons_iff, or_and_right]
    refine or_congr ⟨?_, ?_⟩ Iff.rfl
    · rintro ⟨rest, hmem, rfl⟩
      exact ⟨⟨rest, rfl⟩,
        (LeadsToFile.of_directory hdir hexcluded).2 ((ihbelow rest).1 hmem).2⟩
    · rintro ⟨⟨rest, rfl⟩, hleads⟩
      have hinner := (LeadsToFile.of_directory hdir hexcluded).1 hleads
      exact ⟨rest, (ihbelow rest).2 ⟨hlisting.exists_cons htree hdir hinner, hinner⟩, rfl⟩

/-- What a walk through a directory comes to. -/
theorem IsWalk.mem_iff (htree : d.IsTree) (hplace : d.entry? place = some .directory)
    (h : d.IsWalk excluded place found) (names : Location) :
    names ∈ found ↔ d.LeadsToFile excluded place names := by
  obtain ⟨listed, hlisting, hfirst⟩ := h
  rw [hfirst.mem_iff htree]
  exact and_iff_right_of_imp (hlisting.exists_cons htree hplace)

end Disk

/-! ## The order of a walk -/

namespace ProjectFiles

theorem comesBefore_cons_self (name : String) (a b : List String) :
    comesBefore (name :: a) (name :: b) = comesBefore a b := by
  simp [comesBefore]

theorem comesBefore_cons_iff {name other : String} {a b : List String} :
    comesBefore (name :: a) (other :: b) = true ↔
      name < other ∨ name = other ∧ comesBefore a b = true := by
  by_cases heq : name = other
  · subst heq
    rw [comesBefore_cons_self]
    exact ⟨fun h => .inr ⟨rfl, h⟩, fun h => h.elim (absurd · (String.lt_irrefl _)) And.right⟩
  · simp [comesBefore, heq]

theorem comesBefore_of_lt {name other : String} (h : name < other) (a b : List String) :
    comesBefore (name :: a) (other :: b) = true :=
  comesBefore_cons_iff.2 (.inl h)

theorem comesBefore_trans (a b c : List String) (hab : comesBefore a b = true)
    (hbc : comesBefore b c = true) : comesBefore a c = true := by
  induction a generalizing b c with
  | nil => rfl
  | cons x a ih =>
    rcases b with _ | ⟨y, b⟩
    · simp [comesBefore] at hab
    rcases c with _ | ⟨z, c⟩
    · simp [comesBefore] at hbc
    rw [comesBefore_cons_iff] at hab hbc ⊢
    rcases hab with hxy | ⟨rfl, hab⟩
    · rcases hbc with hyz | ⟨rfl, -⟩
      · exact .inl (String.lt_trans hxy hyz)
      · exact .inl hxy
    · exact hbc.imp_right fun ⟨hxz, hbc⟩ => ⟨hxz, ih b c hab hbc⟩

theorem comesBefore_total (a b : List String) : (comesBefore a b || comesBefore b a) = true := by
  rw [Bool.or_eq_true]
  induction a generalizing b with
  | nil => exact .inl rfl
  | cons x a ih =>
    rcases b with _ | ⟨y, b⟩
    · exact .inr rfl
    by_cases heq : x = y
    · subst heq
      simpa only [comesBefore_cons_self] using ih b
    · rcases String.le_total x y with hle | hle
      · exact .inl (comesBefore_of_lt (String.not_le.1 fun h => heq (String.le_antisymm hle h)) _ _)
      · exact .inr (comesBefore_of_lt (String.not_le.1 fun h => heq (String.le_antisymm h hle)) _ _)

theorem comesBefore_antisymm {a b : List String} (hab : comesBefore a b = true)
    (hba : comesBefore b a = true) : a = b := by
  induction a generalizing b with
  | nil =>
    rcases b with _ | ⟨y, b⟩
    · rfl
    · simp [comesBefore] at hba
  | cons x a ih =>
    rcases b with _ | ⟨y, b⟩
    · simp [comesBefore] at hab
    rw [comesBefore_cons_iff] at hab hba
    rcases hab with hxy | ⟨rfl, hab⟩
    · rcases hba with hyx | ⟨rfl, -⟩
      · exact absurd hyx (String.lt_asymm hxy)
      · exact absurd hxy (String.lt_irrefl _)
    · rcases hba with hlt | ⟨-, hba⟩
      · exact absurd hlt (String.lt_irrefl _)
      · rw [ih hab hba]

theorem sorted_walk (d : Disk) (place : Location) (excluded : List String) :
    (walk d place excluded).Pairwise fun a b => comesBefore a b = true :=
  List.pairwise_mergeSort comesBefore_trans comesBefore_total _

/-- The files that are sorted are those that a walk comes to. -/
theorem mem_walk_iff {d : Disk} (htree : d.IsTree) {place names : Location}
    {excluded : List String} :
    names ∈ walk d place excluded ↔ d.LeadsToFile excluded place names := by
  have hany : (names.dropLast.any excluded.contains) = false ↔
      ∀ dir ∈ names.dropLast, dir ∉ excluded := by simp
  simp only [walk, List.mem_mergeSort, List.mem_filterMap, Disk.LeadsToFile]
  constructor
  · rintro ⟨⟨p, entry⟩, hmem, hnames⟩
    cases entry with
    | directory => simp at hnames
    | file content =>
      cases hrest : List.isPrefixOf? place p with
      | none => simp [hrest] at hnames
      | some rest =>
        obtain rfl := List.isPrefixOf?_eq_some_iff_append_eq.1 hrest
        simp only [hrest] at hnames
        split at hnames
        · simp at hnames
        · rename_i hclear
          obtain rfl := Option.some.inj hnames
          have hne := (htree.listed _ _ hmem).1
          exact ⟨⟨content, (htree.entry_eq_some_iff hne).2 hmem⟩,
            hany.1 (Bool.eq_false_iff.2 hclear)⟩
  · rintro ⟨⟨content, hfile⟩, hclear⟩
    have hne : place ++ names ≠ [] := by
      intro hnil
      rw [hnil, Disk.entry_nil] at hfile
      simp at hfile
    refine ⟨(place ++ names, .file content), (htree.entry_eq_some_iff hne).1 hfile, ?_⟩
    have hrest : List.isPrefixOf? place (place ++ names) = some names :=
      List.isPrefixOf?_eq_some_iff_append_eq.2 rfl
    simp only [hrest, hany.2 hclear, Bool.false_eq_true, if_false]

end ProjectFiles

namespace Disk

open Text ProjectFiles

variable {d : Disk} {excluded entries : List String} {place : Location}
  {found : List (List String)}

/-- What an entry leads to comes before all that later entries lead to. -/
theorem DepthFirst.after (htree : d.IsTree) (h : d.DepthFirst excluded place entries found)
    {name : String} (hlt : ∀ other ∈ entries, bytes name < bytes other) (rest : Location) :
    ∀ names ∈ found, comesBefore (name :: rest) names = true ∧ name :: rest ≠ names := by
  intro names hnames
  obtain ⟨⟨other, hother, rest', rfl⟩, -⟩ := (h.mem_iff htree names).1 hnames
  have hbefore := bytes_lt_iff.1 (hlt other hother)
  refine ⟨comesBefore_of_lt hbefore _ _, fun heq => ?_⟩
  rw [(List.cons.inj heq).1] at hbefore
  exact String.lt_irrefl _ hbefore

/-- What a walk comes to first comes before what it comes to later. -/
theorem DepthFirst.sorted (htree : d.IsTree) (h : d.DepthFirst excluded place entries found)
    (hentries : entries.Pairwise fun a b => bytes a < bytes b) :
    found.Pairwise fun a b => comesBefore a b = true ∧ a ≠ b := by
  induction h with
  | done => exact .nil
  | file _ hrest ih =>
    obtain ⟨hlt, hentries⟩ := List.pairwise_cons.1 hentries
    exact List.pairwise_cons.2 ⟨hrest.after htree hlt [], ih hentries⟩
  | pass _ _ _ ih => exact ih (List.pairwise_cons.1 hentries).2
  | enter _ _ hlisting _ hrest ihbelow ih =>
    obtain ⟨hlt, hentries⟩ := List.pairwise_cons.1 hentries
    refine List.pairwise_append.2 ⟨List.pairwise_map.2 ?_, ih hentries, ?_⟩
    · refine (ihbelow hlisting.sorted).imp fun {a b} hab => ?_
      rw [comesBefore_cons_self]
      exact ⟨hab.1, fun heq => hab.2 (List.cons.inj heq).2⟩
    · intro names hnames
      obtain ⟨rest, -, rfl⟩ := List.mem_map.1 hnames
      exact hrest.after htree hlt rest

theorem IsTree.isListing_namesIn (htree : d.IsTree) (place : Location) :
    d.IsListing place (d.namesIn place) := by
  refine ⟨?_, fun name => htree.mem_namesIn⟩
  have hsorted : (d.namesIn place).Pairwise fun a b => decide (a ≤ b) = true := by
    refine List.pairwise_mergeSort (fun a b c hab hbc => ?_) (fun a b => ?_) _
    · exact decide_eq_true (String.le_trans (of_decide_eq_true hab) (of_decide_eq_true hbc))
    · simpa using String.le_total a b
  refine (hsorted.and (htree.nodup_namesIn place)).imp fun {a b} hab => bytes_lt_iff.2 ?_
  exact String.not_le.1 fun hle => hab.2 (String.le_antisymm (of_decide_eq_true hab.1) hle)

/-- Entries can be gone through when all that is in the directory can be. -/
theorem exists_depthFirst (hinner : ∀ name, ∃ below, d.IsWalk excluded (place ++ [name]) below)
    (hentries : ∀ name ∈ entries, ∃ entry, d.entry? (place ++ [name]) = some entry) :
    ∃ found, d.DepthFirst excluded place entries found := by
  induction entries with
  | nil => exact ⟨[], .done⟩
  | cons name entries ih =>
    rw [List.forall_mem_cons] at hentries
    obtain ⟨⟨entry, hentry⟩, hentries⟩ := hentries
    obtain ⟨found, hfound⟩ := ih hentries
    cases entry with
    | file content => exact ⟨_, .file hentry hfound⟩
    | directory =>
      by_cases hexcluded : name ∈ excluded
      · exact ⟨_, .pass hentry hexcluded hfound⟩
      · obtain ⟨below, inner, hlisting, hbelow⟩ := hinner name
        exact ⟨_, .enter hentry hexcluded hlisting hbelow hfound⟩

theorem exists_depth (d : Disk) : ∃ depth, ∀ item ∈ d.entries, item.1.length ≤ depth := by
  induction d.entries with
  | nil => exact ⟨0, by simp⟩
  | cons first entries ih =>
    obtain ⟨depth, hdepth⟩ := ih
    refine ⟨max first.1.length depth, List.forall_mem_cons.2 ⟨Nat.le_max_left _ _, ?_⟩⟩
    exact fun item hitem => Nat.le_trans (hdepth item hitem) (Nat.le_max_right _ _)

/-- Every directory can be walked through, since a disk is only so deep. -/
theorem IsTree.exists_isWalk (htree : d.IsTree) (excluded : List String) (place : Location) :
    ∃ found, d.IsWalk excluded place found := by
  obtain ⟨deepest, hdeepest⟩ := d.exists_depth
  have hbound : ∀ item ∈ d.entries, item.1.length ≤ place.length + deepest :=
    fun item hitem => Nat.le_trans (hdeepest item hitem) (Nat.le_add_left _ _)
  clear hdeepest
  -- the levels below the directory bound the walk
  induction deepest generalizing place with
  | zero =>
    refine ⟨[], [], ⟨.nil, fun name => ?_⟩, .done⟩
    simp only [List.not_mem_nil, false_iff, not_exists]
    intro entry hentry
    have hshort := hbound _ ((htree.entry_eq_some_iff (by simp)).1 hentry)
    rw [List.length_append] at hshort
    exact Nat.not_succ_le_self _ hshort
  | succ levels ih =>
    have hlisting := htree.isListing_namesIn place
    obtain ⟨found, hfound⟩ := exists_depthFirst
      (fun name => ih (place ++ [name]) (by simpa [Nat.add_right_comm, Nat.add_assoc] using hbound))
      (fun name hname => (hlisting.mem_iff name).1 hname)
    exact ⟨found, _, hlisting, hfound⟩

/-- **Sorting is walking**: the files in order are those that a walk comes to, one after the
other. -/
theorem IsTree.isWalk_walk (htree : d.IsTree) (hplace : d.entry? place = some .directory)
    (excluded : List String) : d.IsWalk excluded place (walk d place excluded) := by
  obtain ⟨found, hfound⟩ := htree.exists_isWalk excluded place
  obtain ⟨names, hlisting, hfirst⟩ := hfound
  have hsorted := hfirst.sorted htree hlisting.sorted
  have hperm : (walk d place excluded).Perm found := by
    refine (List.perm_ext_iff_of_nodup (Session.nodup_walk htree place excluded)
      (hsorted.imp And.right)).2 fun names => ?_
    rw [mem_walk_iff htree, IsWalk.mem_iff htree hplace ⟨_, hlisting, hfirst⟩]
  have heq : walk d place excluded = found :=
    hperm.eq_of_pairwise (fun _ _ _ _ => comesBefore_antisymm) (sorted_walk d place excluded)
      (hsorted.imp And.left)
  exact heq ▸ ⟨names, hlisting, hfirst⟩

theorem locate_of_isDir {path : Path} (h : d.isDir path = true) :
    path.text ≠ "" ∧ ∃ place, d.locate path = .ok place ∧ d.entry? place = some .directory := by
  cases hlocate : d.locate path with
  | error cause =>
    have hfind : d.find path = .error cause := by rw [find, hlocate]; rfl
    simp [isDir, hfind] at h
  | ok place =>
    refine ⟨fun hempty => ?_, place, rfl, ?_⟩
    · have hnone : d.locate path = .error .notFound := by
        obtain rfl : path = ⟨""⟩ := congrArg Path.mk hempty
        rfl
      rw [hnone] at hlocate
      cases hlocate
    · cases hentry : d.entry? place with
      | none => simp [isDir, find, hlocate, Except.bind, hentry] at h
      | some entry =>
        cases entry with
        | directory => rfl
        | file content => simp [isDir, find, hlocate, Except.bind, hentry] at h

end Disk

/-! ## The paths that a walk comes to -/

namespace ProjectFiles

open Relocate.Path

variable {root : Path}

/-- The names below a directory follow its components. -/
theorem components_pathBelow (hroot : root.text ≠ "") {names : Location} (h : Plain names) :
    (pathBelow root names).components = root.components ++ names.map .name := by
  induction names generalizing root with
  | nil => simp [pathBelow]
  | cons name names ih =>
    obtain ⟨hname, hnames⟩ := List.forall_mem_cons.1 h
    have hcomponents := components_join hroot (isAbsolute_name hname)
    have hjoined : (root.join ⟨name⟩).text ≠ "" := by
      intro hempty
      have hnone : (root.join ⟨name⟩).components = [] := by rw [components, hempty]; rfl
      rw [hnone, stepsIn_name hname] at hcomponents
      simp at hcomponents
    have hfold : pathBelow root (name :: names) = pathBelow (root.join ⟨name⟩) names := rfl
    rw [hfold, ih hjoined hnames, hcomponents, stepsIn_name hname]
    simp

theorem pathBelow_beq (hroot : root.text ≠ "") {names names' : Location} (h : Plain names)
    (h' : Plain names') (hsame : (pathBelow root names == pathBelow root names') = true) :
    names = names' := by
  have hparts : (pathBelow root names).components = (pathBelow root names').components :=
    beq_iff_eq.1 hsame
  rw [components_pathBelow hroot h, components_pathBelow hroot h'] at hparts
  exact (List.map_inj_right fun _ _ => Component.name.inj).1 (List.append_cancel_left hparts)

theorem fileName?_pathBelow (hroot : root.text ≠ "") {dirs : Location} {name : String}
    (h : Plain (dirs ++ [name])) : (pathBelow root (dirs ++ [name])).fileName? = some name := by
  rw [fileName?, components_pathBelow hroot h, List.map_append, ← List.append_assoc]
  simp

end ProjectFiles

/-! ## What the files are for -/

namespace Extensions

/-- The name is a stem and a dot before one of the extensions, whose own leading dots do not
count. -/
def Carries (extensions : List String) (name : String) : Prop :=
  ∃ stem, ∃ extension ∈ extensions,
    name.toList = stem ++ '.' :: extension.toList.dropWhile (· == '.')

/-- A name has a stem when it carries an extension. -/
theorem isSome_stem?_iff {extensions : List String} {name : String} :
    ((ofList extensions).stem? name).isSome = true ↔ Carries extensions name := by
  have hnames : Carries extensions name ↔
      ∃ extension ∈ (ofList extensions).names, ("." ++ extension).toList <:+ name.toList := by
    simp only [Carries, ofList, List.mem_map, List.IsSuffix]
    constructor
    · rintro ⟨stem, extension, hextension, hname⟩
      exact ⟨_, ⟨extension, hextension, rfl⟩, stem, by simp [hname]⟩
    · rintro ⟨_, ⟨extension, hextension, rfl⟩, stem, hname⟩
      exact ⟨stem, extension, hextension, by simp [← hname]⟩
  rw [hnames, Option.isSome_iff_ne_none]
  constructor
  · intro hsome
    by_contra hnone
    exact hsome (stem?_eq_none fun extension hextension hsuffix =>
      hnone ⟨extension, hextension, hsuffix⟩)
  · rintro ⟨extension, hextension, hsuffix⟩ hnone
    exact not_suffix_of_stem?_eq_none hnone extension hextension hsuffix

end Extensions

namespace ProjectFiles

open Relocate.Path

section Purposes

variable {known : Extensions} {path : Path} {name : String}

theorem purposeOf_eq_config_iff (h : path.fileName? = some name) :
    purposeOf known path = .config ↔ name ∈ AliasTable.fileNames := by
  rw [purposeOf, h, Option.getD_some, ← List.contains_iff_mem]
  split
  · rename_i hconfig
    exact iff_of_true rfl hconfig
  · rename_i hconfig
    refine iff_of_false ?_ hconfig
    split
    · simp
    · split <;> simp

theorem purposeOf_eq_manifest_iff (h : path.fileName? = some name) :
    purposeOf known path = .manifest ↔ name = Manifest.fileName := by
  rw [purposeOf, h, Option.getD_some]
  split
  · -- no manifest has the name of a configuration
    rename_i hconfig
    refine iff_of_false (by simp) ?_
    rintro rfl
    exact absurd hconfig (by decide)
  · split
    · rename_i hmanifest
      exact iff_of_true rfl hmanifest
    · rename_i hmanifest
      refine iff_of_false ?_ hmanifest
      split <;> simp

theorem purposeOf_eq_source_iff {extensions : List String} (h : path.fileName? = some name) :
    purposeOf (.ofList extensions) path = .source ↔
      Extensions.Carries extensions name ∧ name ∉ AliasTable.fileNames ∧
        name ≠ Manifest.fileName := by
  have hstem : (Extensions.ofList extensions).isSource path = true ↔
      Extensions.Carries extensions name := by
    rw [Extensions.isSource, h]
    exact Extensions.isSome_stem?_iff
  rw [purposeOf, h, Option.getD_some, ← List.contains_iff_mem, ← hstem]
  split
  · rename_i hconfig
    exact iff_of_false (by simp) fun hsource => hsource.2.1 hconfig
  · rename_i hconfig
    split
    · rename_i hmanifest
      exact iff_of_false (by simp) fun hsource => hsource.2.2 hmanifest
    · rename_i hmanifest
      split
      · rename_i hsource
        exact iff_of_true rfl ⟨hsource, hconfig, hmanifest⟩
      · rename_i hsource
        exact iff_of_false (by simp) fun h => hsource h.1

end Purposes

/-- The path leads to a file of that name below the root, through no excluded directory. -/
def IsFileBelow (disk : Disk) (excluded : List String) (root : Path) (place : Location)
    (path : Path) (name : String) : Prop :=
  ∃ dirs content, path = pathBelow root (dirs ++ [name]) ∧
    disk.entry? (place ++ dirs ++ [name]) = some (.file content) ∧ ∀ dir ∈ dirs, dir ∉ excluded

section Walks

variable {disk : Disk} {root : Path} {place : Location} {excluded : List String}

/-- The paths of a walk lead to the files that it comes to. -/
theorem mem_paths_iff (htree : disk.IsTree)
    (hplace : disk.entry? place = some .directory) {path : Path} :
    path ∈ (walk disk place excluded).map (pathBelow root) ↔
      ∃ name, IsFileBelow disk excluded root place path name := by
  rw [List.mem_map]
  constructor
  · rintro ⟨names, hnames, rfl⟩
    obtain ⟨⟨content, hfile⟩, hclear⟩ := (mem_walk_iff htree).1 hnames
    obtain rfl | ⟨dirs, name, rfl⟩ := List.eq_nil_or_concat' names
    · rw [List.append_nil, hplace] at hfile
      simp at hfile
    · rw [List.dropLast_concat] at hclear
      exact ⟨name, dirs, content, rfl, by rwa [List.append_assoc], hclear⟩
  · rintro ⟨name, dirs, content, rfl, hfile, hclear⟩
    refine ⟨dirs ++ [name], (mem_walk_iff htree).2 ⟨⟨content, ?_⟩, ?_⟩, rfl⟩
    · rwa [← List.append_assoc]
    · rwa [List.dropLast_concat]

theorem IsFileBelow.fileName? (htree : disk.IsTree) (hroot : root.text ≠ "") {path : Path}
    {name : String} (h : IsFileBelow disk excluded root place path name) :
    path.fileName? = some name := by
  obtain ⟨dirs, content, rfl, hfile, -⟩ := h
  rw [List.append_assoc] at hfile
  exact fileName?_pathBelow hroot (htree.plain hfile).right

/-- What a walk finds for one purpose, when that purpose can be told by the name. -/
theorem mem_filter_purpose_iff (htree : disk.IsTree) (hroot : root.text ≠ "")
    (hplace : disk.entry? place = some .directory) {known : Extensions} {purpose : Purpose}
    {Fits : String → Prop} (hfits : ∀ {path name}, path.fileName? = some name →
      (purposeOf known path = purpose ↔ Fits name)) {path : Path} :
    path ∈ ((walk disk place excluded).map (pathBelow root)).filter
        (fun path => purposeOf known path = purpose) ↔
      ∃ name, IsFileBelow disk excluded root place path name ∧ Fits name := by
  rw [List.mem_filter, mem_paths_iff htree hplace, decide_eq_true_iff, ← exists_and_right]
  exact exists_congr fun name => and_congr_right fun h => hfits (h.fileName? htree hroot)

/-- The paths of a walk are the same only for the same names. -/
theorem eq_of_pathBelow_beq (htree : disk.IsTree) (hroot : root.text ≠ "") {names names' : Location}
    (h : names ∈ walk disk place excluded) (h' : names' ∈ walk disk place excluded)
    (hsame : (pathBelow root names == pathBelow root names') = true) : names = names' :=
  pathBelow_beq hroot (Session.plain_of_mem_walk htree h).right
    (Session.plain_of_mem_walk htree h').right hsame

theorem distinct_paths (htree : disk.IsTree) (hroot : root.text ≠ "") :
    ((walk disk place excluded).map (pathBelow root)).Pairwise fun a b => (a == b) = false := by
  refine List.pairwise_map.2 ((Session.nodup_walk htree place excluded).imp_of_mem ?_)
  intro names names' h h' hne
  exact Bool.eq_false_iff.2 fun hsame => hne (eq_of_pathBelow_beq htree hroot h h' hsame)

/-- A file found for one purpose is not found for another. -/
theorem filter_purpose_apart (htree : disk.IsTree) (hroot : root.text ≠ "") {known : Extensions}
    {purpose purpose' : Purpose} (hne : purpose ≠ purpose') {a b : Path}
    (ha : a ∈ ((walk disk place excluded).map (pathBelow root)).filter
      fun path => purposeOf known path = purpose)
    (hb : b ∈ ((walk disk place excluded).map (pathBelow root)).filter
      fun path => purposeOf known path = purpose') : (a == b) = false := by
  rw [List.mem_filter, List.mem_map, decide_eq_true_iff] at ha hb
  obtain ⟨⟨names, hnames, rfl⟩, hpurpose⟩ := ha
  obtain ⟨⟨names', hnames', rfl⟩, hpurpose'⟩ := hb
  refine Bool.eq_false_iff.2 fun hsame => hne ?_
  rw [← hpurpose, ← hpurpose', eq_of_pathBelow_beq htree hroot hnames hnames' hsame]

end Walks

end ProjectFiles

/-- **Discovery finds every file of the project once.**  In a directory of a tree it finds the files
below that have the name of a configuration or of a manifest or carry an extension, and that no
excluded directory holds.  A configuration is never taken for anything else, nor is a manifest for
a source, whatever the extensions are.  No two paths lead to one file, within a list or across
lists, and each list is in the order in which a walk comes to the files. -/
theorem discovery_is_partition_of_walk {disk : Disk} (htree : disk.IsTree) {root : Path}
    (hdir : disk.isDir root = true) (scan : ScanSettings) :
    ∃ files place found,
      ProjectFiles.discover disk root scan = .ok files ∧ disk.locate root = .ok place ∧
      disk.IsWalk scan.excludedDirs place found ∧
      (∀ path, path ∈ files.configs ++ files.manifests ++ files.sources ↔
        ∃ name, ProjectFiles.IsFileBelow disk scan.excludedDirs root place path name ∧
          (name ∈ AliasTable.fileNames ∨ name = Manifest.fileName ∨
            Extensions.Carries scan.extensions name)) ∧
      (∀ path, path ∈ files.configs ↔
        ∃ name, ProjectFiles.IsFileBelow disk scan.excludedDirs root place path name ∧
          name ∈ AliasTable.fileNames) ∧
      (∀ path, path ∈ files.manifests ↔
        ∃ name, ProjectFiles.IsFileBelow disk scan.excludedDirs root place path name ∧
          name = Manifest.fileName) ∧
      (∀ path, path ∈ files.sources ↔
        ∃ name, ProjectFiles.IsFileBelow disk scan.excludedDirs root place path name ∧
          Extensions.Carries scan.extensions name ∧ name ∉ AliasTable.fileNames ∧
            name ≠ Manifest.fileName) ∧
      (files.configs ++ files.manifests ++ files.sources).Pairwise
        (fun a b => (a == b) = false) ∧
      files.configs.Sublist (found.map (ProjectFiles.pathBelow root)) ∧
      files.manifests.Sublist (found.map (ProjectFiles.pathBelow root)) ∧
      files.sources.Sublist (found.map (ProjectFiles.pathBelow root)) := by
  obtain ⟨hroot, place, hlocate, hplace⟩ := Disk.locate_of_isDir hdir
  have hconfigs := @ProjectFiles.mem_filter_purpose_iff disk root place scan.excludedDirs htree
    hroot hplace (.ofList scan.extensions) .config _ ProjectFiles.purposeOf_eq_config_iff
  have hmanifests := @ProjectFiles.mem_filter_purpose_iff disk root place scan.excludedDirs htree
    hroot hplace (.ofList scan.extensions) .manifest _ ProjectFiles.purposeOf_eq_manifest_iff
  have hsources := @ProjectFiles.mem_filter_purpose_iff disk root place scan.excludedDirs htree
    hroot hplace (.ofList scan.extensions) .source _ ProjectFiles.purposeOf_eq_source_iff
  have hdistinct := @ProjectFiles.distinct_paths disk root place scan.excludedDirs htree hroot
  refine ⟨_, place, ProjectFiles.walk disk place scan.excludedDirs,
    by rw [ProjectFiles.discover, hdir, hlocate], hlocate, htree.isWalk_walk hplace _, ?_,
    fun _ => hconfigs, fun _ => hmanifests, fun _ => hsources, ?_,
    List.filter_sublist, List.filter_sublist, List.filter_sublist⟩
  · intro path
    rw [List.mem_append, List.mem_append, hconfigs, hmanifests, hsources, ← exists_or, ← exists_or]
    refine exists_congr fun name => ?_
    rw [← and_or_left, ← and_or_left, or_assoc]
    refine and_congr_right fun _ => ?_
    by_cases hconfig : name ∈ AliasTable.fileNames <;>
      by_cases hmanifest : name = Manifest.fileName <;> simp [hconfig, hmanifest]
  · refine List.pairwise_append.2 ⟨List.pairwise_append.2
      ⟨hdistinct.filter _, hdistinct.filter _, ?_⟩, hdistinct.filter _, ?_⟩
    · intro a ha b hb
      exact ProjectFiles.filter_purpose_apart htree hroot (by decide) ha hb
    · intro a ha b hb
      rcases List.mem_append.1 ha with ha | ha
      · exact ProjectFiles.filter_purpose_apart htree hroot (by decide) ha hb
      · exact ProjectFiles.filter_purpose_apart htree hroot (by decide) ha hb

/-- A directory whose own name is excluded, with another of that name deep below it, a file that has
the name of an excluded directory, and a directory that comes before a file although its path does
not. -/
def Disk.excludedRoot : Disk where
  entries :=
    [(["dist"], .directory),
      (["dist", "a"], .directory),
      (["dist", "a", "z.ts"], .file (.text "")),
      (["dist", "a.ts"], .file (.text "")),
      (["dist", "b"], .directory),
      (["dist", "b", "dist"], .directory),
      (["dist", "b", "dist", "c.ts"], .file (.text "")),
      (["dist", "b", "notes.md"], .file (.text "")),
      (["dist", "b", "package.json"], .file (.text "")),
      (["dist", "data.json"], .file (.text "")),
      (["dist", "package.json"], .file (.text "")),
      (["dist", "tsconfig.json"], .file (.text "")),
      (["dist", "x.ts"], .file (.text ""))]
  workingDir := []

/-- Manifests and configurations carry an extension, too. -/
def ScanSettings.withJson : ScanSettings where
  extensions := ["ts", ".json"]
  excludedDirs := ["dist", "x.ts"]

namespace ProjectFiles

/-- What a walk of the project finds is divided by purpose. -/
theorem discover_of_walk {disk : Disk} {root : Path} {scan : ScanSettings} {place : Location}
    {found : List (List String)} (hdir : disk.isDir root = true)
    (hlocate : disk.locate root = .ok place) (hwalk : walk disk place scan.excludedDirs = found) :
    discover disk root scan =
      let has (purpose : Purpose) := (found.map (pathBelow root)).filter fun path =>
        purposeOf (.ofList scan.extensions) path = purpose
      .ok { sources := has .source, configs := has .config, manifests := has .manifest } := by
  rw [discover, hdir, hlocate, ← hwalk]

theorem discover_excludedRoot :
    discover .excludedRoot ⟨"dist/"⟩ .withJson =
      .ok
        { sources := [⟨"dist/a/z.ts"⟩, ⟨"dist/a.ts"⟩, ⟨"dist/data.json"⟩, ⟨"dist/x.ts"⟩]
          configs := [⟨"dist/tsconfig.json"⟩]
          manifests := [⟨"dist/b/package.json"⟩, ⟨"dist/package.json"⟩] } := by
  have hwalk : walk .excludedRoot ["dist"] ScanSettings.withJson.excludedDirs =
      [["a", "z.ts"], ["a.ts"], ["b", "notes.md"], ["b", "package.json"], ["data.json"],
        ["package.json"], ["tsconfig.json"], ["x.ts"]] :=
    List.mergeSort_of_pairwise (by decide +kernel)
  rw [discover_of_walk (by decide +kernel) (by decide +kernel) hwalk]
  rfl

end ProjectFiles

/-- Directories are gone through in their place, and an excluded name counts neither for the root
nor for a file. -/
theorem discovery_is_partition_of_walk_of_excluded_root :
    Disk.excludedRoot.IsTree ∧ Disk.excludedRoot.isDir ⟨"dist/"⟩ = true ∧
      ∃ place found, Disk.excludedRoot.locate ⟨"dist/"⟩ = .ok place ∧
        Disk.excludedRoot.IsWalk ["dist", "x.ts"] place found ∧
        [⟨"dist/a/z.ts"⟩, ⟨"dist/a.ts"⟩, ⟨"dist/data.json"⟩, ⟨"dist/x.ts"⟩].Sublist
          (found.map (ProjectFiles.pathBelow ⟨"dist/"⟩)) ∧
        [⟨"dist/b/package.json"⟩, ⟨"dist/package.json"⟩].Sublist
          (found.map (ProjectFiles.pathBelow ⟨"dist/"⟩)) ∧
        ∀ path, path = ⟨"dist/tsconfig.json"⟩ ↔
          ∃ name, name ∈ AliasTable.fileNames ∧
            ProjectFiles.IsFileBelow .excludedRoot ["dist", "x.ts"] ⟨"dist/"⟩ place path name := by
  have htree : Disk.excludedRoot.IsTree := by decide +kernel
  have hdir : Disk.excludedRoot.isDir ⟨"dist/"⟩ = true := by decide +kernel
  obtain ⟨files, place, found, hfiles, hlocate, hwalk, -, hconfigs, -, -, -, -, hmanifests,
    hsources⟩ := discovery_is_partition_of_walk htree hdir .withJson
  obtain rfl := Except.ok.inj (ProjectFiles.discover_excludedRoot.symm.trans hfiles)
  refine ⟨htree, hdir, place, found, hlocate, hwalk, hsources, hmanifests, fun path => ?_⟩
  rw [← List.mem_singleton, hconfigs path]
  exact exists_congr fun _ => and_comm

end Relocate
