import Relocate.Proofs.ExtendsChains
import Relocate.Proofs.Overriding
import Relocate.Proofs.RoundTrip

/-! # What a configuration takes over

A file that can be read is put together from its own declaration and from what the files that it
extends were read as (`AliasTable.Merged.compose`).  What holds of every file for which it holds of
the files that it extends holds of all files that can be read (`AliasTable.Reads.induct`), and a
file can be read if everything that it leads to makes sense and no chain of extensions comes back
(`AliasTable.exists_reads`).

Whether there is a base address at all depends on every file that is extended, at any depth
(`AliasTable.Reads.declaresBase_iff`).  Which directory it stands for depends, without an address of
the file's own, on the last of the files that it extends, even if another one declares the address.
-/

namespace Relocate

/-- What is optional is absent or was read. -/
theorem Json.optional?_cases {α : Type} {read : Json.Value → Option α} {value : Option Json.Value}
    {result : Option α} (h : Json.optional? read value = some result) :
    result = none ∨ ∃ value' found, read value' = some found ∧ result = some found := by
  unfold Json.optional? at h
  split at h
  · exact .inl (Option.some.inj h).symm
  · exact .inl (Option.some.inj h).symm
  · obtain ⟨found, hfound, rfl⟩ := Option.map_eq_some_iff.1 h
    exact .inr ⟨_, found, hfound, rfl⟩

namespace AliasTable

open Relation

/-! ## Patterns of use -/

/-- The text has one wildcard, at its end. -/
def endsInWildcard (text : String) : Bool :=
  text.toList.getLast? == some '*' && text.toList.count '*' == 1

/-- The text without its last character. -/
def beforeWildcard (text : String) : String := String.ofList text.toList.dropLast

/-- Of the paths that a key is mapped to those that end in a wildcard count, as directories. -/
def mappedDirs (entries : List Path) : List Path :=
  (entries.filter fun entry => endsInWildcard entry.text).map fun entry =>
    (Path.mk (beforeWildcard entry.text)).normalize

/-- The patterns of the keys that end in a wildcard and have a directory left. -/
def usable (entries : List (String × List Path)) : List AliasPattern :=
  ((entries.filter fun item => endsInWildcard item.1).map fun item =>
    (⟨beforeWildcard item.1, mappedDirs item.2⟩ : AliasPattern)).filter fun pattern =>
      !pattern.directories.isEmpty

theorem endsInWildcard_iff {text : String} :
    endsInWildcard text = true ↔ ∃ lead : String, '*' ∉ lead.toList ∧ text = lead ++ "*" := by
  rw [endsInWildcard, Bool.and_eq_true, beq_iff_eq, beq_iff_eq]
  constructor
  · rintro ⟨hlast, hcount⟩
    obtain ⟨front, hfront⟩ := List.getLast?_eq_some_iff.1 hlast
    refine ⟨String.ofList front, ?_, String.toList_inj.1 (by simp [hfront])⟩
    rw [hfront, List.count_append, List.count_singleton_self] at hcount
    rw [String.toList_ofList]
    exact List.count_eq_zero.1 (by omega)
  · rintro ⟨lead, hlead, rfl⟩
    simp [String.toList_append, List.count_eq_zero.2 hlead]

theorem beforeWildcard_append (lead : String) : beforeWildcard (lead ++ "*") = lead := by
  simp [beforeWildcard, String.toList_append]

theorem wildcardLead?_eq (text : String) :
    wildcardLead? text = if endsInWildcard text then some (beforeWildcard text) else none := by
  split
  · rename_i h
    obtain ⟨lead, hlead, rfl⟩ := endsInWildcard_iff.1 h
    rw [wildcardLead?, Text.dropTail?_eq_some_iff.2 rfl, beforeWildcard_append]
    simp [Option.filter, hlead]
  · rename_i h
    rw [wildcardLead?, Option.filter_eq_none_iff]
    intro lead hlead hfree
    exact h (endsInWildcard_iff.2
      ⟨lead, by simpa using hfree, (Text.dropTail?_eq_some_iff.1 hlead).symm⟩)

theorem filterMap_mappedDir? (entries : List Path) :
    entries.filterMap mappedDir? = mappedDirs entries := by
  rw [mappedDirs, ← List.filterMap_eq_map, ← List.filterMap_eq_filter, List.filterMap_filterMap]
  refine List.filterMap_congr fun entry _ => ?_
  rw [mappedDir?, wildcardLead?_eq]
  cases h : endsInWildcard entry.text <;> simp [Option.guard, h]

theorem filterMap_patternOf? (entries : List (String × List Path)) :
    (entries.filterMap fun item => patternOf? item.1 item.2) = usable entries := by
  rw [usable, ← List.filterMap_eq_map, ← List.filterMap_eq_filter, ← List.filterMap_eq_filter,
    List.filterMap_filterMap, List.filterMap_filterMap]
  refine List.filterMap_congr fun item _ => ?_
  rw [patternOf?, wildcardLead?_eq, filterMap_mappedDir?]
  cases hkey : endsInWildcard item.1 with
  | false => simp [Option.guard, hkey]
  | true => cases hdirs : mappedDirs item.2 <;> simp [Option.guard, hkey, hdirs]

/-- Two keys that end in a wildcard have the same lead only if they are the same. -/
theorem beforeWildcard_beq {key key' : String} (h : endsInWildcard key = true)
    (h' : endsInWildcard key' = true) :
    (beforeWildcard key == beforeWildcard key') = (key == key') := by
  obtain ⟨lead, -, rfl⟩ := endsInWildcard_iff.1 h
  obtain ⟨lead', -, rfl⟩ := endsInWildcard_iff.1 h'
  rw [beforeWildcard_append, beforeWildcard_append, Bool.eq_iff_iff, beq_iff_eq, beq_iff_eq,
    String.append_left_inj]

theorem filter_usable (entries : List (String × List Path)) {key : String}
    (h : endsInWildcard key = true) :
    ((usable entries).filter fun pattern => pattern.lead == beforeWildcard key) =
      usable (entries.filter fun item => item.1 == key) := by
  simp only [usable, List.filter_map, List.filter_filter, Function.comp_def]
  refine congrArg (List.map _) (List.filter_congr fun item _ => ?_)
  cases hkey : endsInWildcard item.1 with
  | false => simp
  | true =>
    rw [beforeWildcard_beq hkey h]
    cases item.1 == key <;> simp

/-! ## Files that can be read -/

variable {disk : Disk} {path : Path} {m : Merged}

/-- What the file at `path` comes to with all that it takes over. -/
def Reads (disk : Disk) (path : Path) (m : Merged) : Prop :=
  (merged disk (longestChain disk) [] path).1 = .ok m

/-- What a file comes to with its own declaration and what the files that it extends come to. -/
def Merged.compose (path : Path) (declaration : Declaration) (bases : List Merged) : Merged :=
  (bases.foldl Merged.extend (.start (directoryOf path))).declare (directoryOf path) declaration

/-- **What is read is known file by file.**  What holds of a file if it holds of those that it
extends holds of every file that can be read. -/
@[elab_as_elim]
theorem Reads.induct {motive : Path → Merged → Prop} (h : Reads disk path m)
    (step : ∀ path declaration bases, Declaration.load disk path = .ok declaration →
      Reads disk path (.compose path declaration bases) →
      List.Forall₂ (fun base m => Reads disk base m ∧ motive base m)
        (located disk path declaration) bases →
      motive path (.compose path declaration bases)) :
    motive path m := by
  have hread : ∀ fuel ≤ longestChain disk, ∀ visited path m,
      (merged disk fuel visited path).1 = .ok m → motive path m := by
    -- on the fuel, for any record: what is read with less room is read with all of it
    intro fuel
    induction fuel with
    | zero => simp [merged]
    | succ fuel ih =>
      intro hfuel visited path m hm
      obtain ⟨-, declaration, bases, hdeclared, hbases, rfl⟩ := merged_ok_iff.1 hm
      refine step path declaration bases hdeclared (merged_mono hm hfuel (List.nil_subset _)) ?_
      refine hbases.imp fun base m hbase => ⟨?_, ih (by omega) _ _ _ hbase⟩
      exact merged_mono hbase (by omega) (List.nil_subset _)
  exact hread _ Nat.le.refl _ _ _ h

theorem Reads.exists_compose (h : Reads disk path m) :
    ∃ declaration bases, Declaration.load disk path = .ok declaration ∧
      List.Forall₂ (Reads disk) (located disk path declaration) bases ∧
      m = .compose path declaration bases := by
  refine h.induct fun path declaration bases hdeclared _ hbases => ?_
  exact ⟨declaration, bases, hdeclared, hbases.imp fun _ _ hbase => hbase.1, rfl⟩

/-- **A file can be read** if all that it leads to makes sense and no chain comes back. -/
theorem exists_reads (hread : Readable disk path) (hacyclic : ¬ Circular disk path) :
    ∃ m, Reads disk path m := by
  cases hmerged : (merged disk (longestChain disk) [] path).1 with
  | ok m => exact ⟨m, hmerged⟩
  | error problem =>
    rcases exists_of_merged_error hmerged with ⟨culprit, rfl⟩ | ⟨file, hwalk, herror⟩
    · rcases returnsTo_of_merged_circular (room_longestChain Nat.le.refl) hmerged with
        ⟨-, hculprit⟩ | hreturns
      · exact absurd hculprit List.not_mem_nil
      · exact absurd ⟨culprit, hreturns⟩ hacyclic
    · obtain ⟨declaration, hdeclared⟩ := hread file hwalk
      rw [herror] at hdeclared
      cases hdeclared

/-- All that a file leads to makes sense if the file can be read. -/
theorem Reads.readable (h : Reads disk path m) : Readable disk path := by
  intro file hwalk
  obtain ⟨fuel, visited, m', -, hm'⟩ := exists_merged_of_walk h hwalk
  cases fuel with
  | zero => simp [merged] at hm'
  | succ fuel =>
    obtain ⟨-, declaration, -, hdeclared, -⟩ := merged_ok_iff.1 hm'
    exact ⟨declaration, hdeclared⟩

/-- The table of a file that can be read. -/
theorem Reads.load_eq (h : Reads disk path m) :
    load disk path = .ok (some ⟨path.normalize, m.baseDir.normalize, usable m.paths⟩) := by
  obtain ⟨declaration, -, hdeclared, -⟩ := h.exists_compose
  rw [load, if_pos (isFile_of_load hdeclared), h, ← filterMap_patternOf?]

/-! ## The base directory -/

/-- What the items of one list are related to in another, their last ones are too. -/
theorem getLast?_of_forall₂ {α β : Type} {r : α → β → Prop} {items : List α} {others : List β}
    (h : List.Forall₂ r items others) {other : β} (hother : others.getLast? = some other) :
    ∃ item, items.getLast? = some item ∧ r item other := by
  rw [← List.head?_reverse] at hother
  obtain ⟨rest, hrest⟩ := List.head?_eq_some_iff.1 hother
  have hreverse := List.rel_reverse h
  rw [hrest] at hreverse
  obtain ⟨item, front, hitem, -, hfront⟩ := List.forall₂_cons_right_iff.1 hreverse
  exact ⟨item, by rw [← List.head?_reverse, hfront]; rfl, hitem⟩

theorem Merged.baseDir_foldl (bases : List Merged) (m : Merged) :
    (bases.foldl Merged.extend m).baseDir = (bases.getLast?.map Merged.baseDir).getD m.baseDir := by
  induction bases generalizing m with
  | nil => rfl
  | cons base bases ih =>
    rw [List.foldl_cons, ih, List.getLast?_cons]
    cases bases.getLast? <;> rfl

theorem Merged.declaresBase_foldl (bases : List Merged) (m : Merged) :
    (bases.foldl Merged.extend m).declaresBase =
      (m.declaresBase || bases.any Merged.declaresBase) := by
  induction bases generalizing m with
  | nil => simp
  | cons base bases ih => rw [List.foldl_cons, ih, List.any_cons, Merged.extend, Bool.or_assoc]

theorem Merged.paths_foldl (bases : List Merged) (m : Merged) :
    (bases.foldl Merged.extend m).paths = m.paths.putAll (bases.flatMap Merged.paths) := by
  induction bases generalizing m with
  | nil => rfl
  | cons base bases ih =>
    rw [List.foldl_cons, ih, List.flatMap_cons, Ordered.putAll_append]
    rfl

theorem Merged.declaresBase_compose (path : Path) (declaration : Declaration)
    (bases : List Merged) :
    (compose path declaration bases).declaresBase =
      (bases.any Merged.declaresBase || declaration.baseUrl.isSome) := by
  rw [compose, declare, declaresBase_foldl]
  rfl

theorem Merged.baseDir_compose_some {declaration : Declaration} {url : String}
    (h : declaration.baseUrl = some url) (path : Path) (bases : List Merged) :
    (compose path declaration bases).baseDir = ((directoryOf path).join ⟨url⟩).normalize := by
  rw [compose, declare, h]

theorem Merged.baseDir_compose_none {declaration : Declaration} (h : declaration.baseUrl = none)
    (path : Path) (bases : List Merged) :
    (compose path declaration bases).baseDir =
      if bases.any Merged.declaresBase then
        (bases.getLast?.map Merged.baseDir).getD (directoryOf path)
      else directoryOf path := by
  have hstart : (Merged.start (directoryOf path)).baseDir = directoryOf path := by rw [start]
  rw [compose, declare, h, declaresBase_foldl, baseDir_foldl, hstart]
  rfl

/-- The file at `path` declares a base address or takes one over. -/
def HasBase (disk : Disk) (path : Path) : Prop :=
  ∃ file declaration, ReflTransGen (Extends disk) path file ∧
    Declaration.load disk file = .ok declaration ∧ declaration.baseUrl.isSome = true

theorem HasBase.of_extends {base : Path} (hextends : Extends disk path base)
    (h : HasBase disk base) : HasBase disk path := by
  obtain ⟨file, declaration, hwalk, hdeclared⟩ := h
  exact ⟨file, declaration, .head hextends hwalk, hdeclared⟩

theorem hasBase_iff {declaration : Declaration}
    (hdeclared : Declaration.load disk path = .ok declaration) :
    HasBase disk path ↔ declaration.baseUrl.isSome = true ∨
      ∃ base ∈ located disk path declaration, HasBase disk base := by
  constructor
  · rintro ⟨file, declaration', hwalk, hdeclared', hurl⟩
    rcases hwalk.cases_head with rfl | ⟨base, ⟨declaration'', hdeclared'', hbase⟩, hwalk⟩
    · obtain rfl : declaration' = declaration := by simpa [hdeclared] using hdeclared'.symm
      exact .inl hurl
    · obtain rfl : declaration'' = declaration := by simpa [hdeclared] using hdeclared''.symm
      exact .inr ⟨base, hbase, file, declaration', hwalk, hdeclared', hurl⟩
  · rintro (hurl | ⟨base, hbase, h⟩)
    · exact ⟨path, declaration, .refl, hdeclared, hurl⟩
    · exact h.of_extends ⟨declaration, hdeclared, hbase⟩

/-- The bases among which one has a base address, seen from both sides. -/
theorem any_declaresBase_iff {paths : List Path} {bases : List Merged}
    (h : List.Forall₂ (fun base m => m.declaresBase = true ↔ HasBase disk base) paths bases) :
    bases.any Merged.declaresBase = true ↔ ∃ base ∈ paths, HasBase disk base := by
  induction h with
  | nil => simp
  | cons hfirst _ ih =>
    rw [List.any_cons, Bool.or_eq_true, hfirst, ih]
    simp only [List.mem_cons, exists_eq_or_imp]

/-- **A base address is taken over from any depth.** -/
theorem Reads.declaresBase_iff (h : Reads disk path m) :
    m.declaresBase = true ↔ HasBase disk path := by
  refine h.induct fun path declaration bases hdeclared _ hbases => ?_
  rw [Merged.declaresBase_compose, Bool.or_eq_true, hasBase_iff hdeclared, or_comm,
    any_declaresBase_iff (hbases.imp fun _ _ hbase => hbase.2)]

theorem normalize_directoryOf (path : Path) : (directoryOf path).normalize = directoryOf path :=
  Path.normalize_normalize _

/-- What is read has a base directory in normal form. -/
theorem Reads.normalize_baseDir (h : Reads disk path m) : m.baseDir.normalize = m.baseDir := by
  refine h.induct fun path declaration bases _ _ hbases => ?_
  cases hurl : declaration.baseUrl with
  | some url => rw [Merged.baseDir_compose_some hurl, Path.normalize_normalize]
  | none =>
    rw [Merged.baseDir_compose_none hurl]
    split
    · cases hlast : bases.getLast? with
      | none => rw [Option.map_none, Option.getD_none, normalize_directoryOf]
      | some last =>
        obtain ⟨base, -, -, hnormal⟩ := getLast?_of_forall₂ hbases hlast
        exact hnormal
    · exact normalize_directoryOf path

/-! ## Own declarations -/

theorem distinct_readPaths {value : Json.Value} {paths : Ordered String (List String)}
    (h : readPaths value = some paths) : Distinct paths.keys := by
  obtain ⟨fields, -, hfields⟩ := Option.bind_eq_some_iff.1 h
  obtain ⟨entries, -, rfl⟩ := Option.map_eq_some_iff.1 hfields
  exact Ordered.distinct_putAll_nil entries

theorem distinct_readOptions {value : Json.Value}
    {options : Option String × Option (Ordered String (List String))}
    (h : readOptions value = some options) : Distinct (options.2.getD []).keys := by
  unfold readOptions at h
  split at h
  · simp only [Option.bind_eq_bind, Option.bind_eq_some_iff, Option.pure_def,
      Option.some.injEq] at h
    obtain ⟨baseUrl, -, paths, hpaths, rfl⟩ := h
    rcases Json.optional?_cases hpaths with rfl | ⟨value', found, hfound, rfl⟩
    · exact .nil
    · exact distinct_readPaths hfound
  · simp at h

theorem Declaration.distinct_of_parse? {text : String} {declaration : Declaration}
    (h : Declaration.parse? text = some declaration) : Distinct declaration.paths.keys := by
  simp only [Declaration.parse?, Option.bind_eq_bind, Option.bind_eq_some_iff] at h
  obtain ⟨value, -, record, -, h⟩ := h
  split at h
  · simp only [Option.bind_eq_some_iff, Option.pure_def, Option.some.injEq] at h
    obtain ⟨bases, -, options, hoptions, rfl⟩ := h
    rcases Json.optional?_cases hoptions with rfl | ⟨value', found, hfound, rfl⟩
    · exact .nil
    · exact distinct_readOptions hfound
  · simp at h

/-- What a file declares has no key twice. -/
theorem Declaration.distinct_of_load {declaration : Declaration}
    (h : Declaration.load disk path = .ok declaration) : Distinct declaration.paths.keys := by
  unfold Declaration.load at h
  split at h
  · cases h
  · split at h
    · cases h
      exact distinct_of_parse? ‹_›
    · cases h

/-- What a file declares, with the mapped paths starting from a directory. -/
def Declaration.entriesFrom (declaration : Declaration) (dir : Path) : List (String × List Path) :=
  declaration.paths.map fun item => (item.1, item.2.map fun entry => dir.join ⟨entry⟩)

theorem Declaration.keys_entriesFrom (declaration : Declaration) (dir : Path) :
    Ordered.keys (declaration.entriesFrom dir) = declaration.paths.keys := by
  rw [entriesFrom, Ordered.keys, List.map_map]
  rfl

theorem Merged.paths_compose (path : Path) (declaration : Declaration) (bases : List Merged) :
    (compose path declaration bases).paths =
      Ordered.putAll [] (bases.flatMap Merged.paths ++
        declaration.entriesFrom (compose path declaration bases).baseDir) := by
  rw [Ordered.putAll_append, ← show (Merged.start (directoryOf path)).paths = [] from rfl,
    ← paths_foldl]
  rfl

/-- **What a file declares itself counts,** and starts from its base directory. -/
theorem Reads.filter_usable_paths (h : Reads disk path m) {declaration : Declaration}
    (hdeclared : Declaration.load disk path = .ok declaration) {item : String × List String}
    (hitem : item ∈ declaration.paths) (hkey : endsInWildcard item.1 = true) :
    ((usable m.paths).filter fun pattern => pattern.lead == beforeWildcard item.1) =
      usable [(item.1, item.2.map fun entry => m.baseDir.join ⟨entry⟩)] := by
  obtain ⟨declaration', bases, hdeclared', -, rfl⟩ := h.exists_compose
  obtain rfl : declaration' = declaration := by simpa [hdeclared] using hdeclared'.symm
  have hown : Distinct (Ordered.keys
      (declaration'.entriesFrom (Merged.compose path declaration' bases).baseDir)) := by
    rw [Declaration.keys_entriesFrom]
    exact Declaration.distinct_of_load hdeclared
  have hget := Ordered.get?_of_mem hown (List.mem_map_of_mem hitem)
  rw [filter_usable _ hkey, Merged.paths_compose]
  rw [Ordered.filter_key (Ordered.distinct_putAll_nil _)]
  rw [Ordered.putAll_append, Ordered.get?_putAll, Ordered.lookup_reverse hown, hget]
  rfl

end AliasTable

/-- **The base directory of a configuration.**  Let all that a file leads to make sense and no chain
of extensions come back.  Then the file has a table, and its base directory is the one that its own
base address means.  Without an address of its own, but with one among the files that it extends, it
has the base directory of the last of these, whether or not it is this one that has the address.
Without any address it is the directory of the file.  The patterns that the file itself declares are
those of the table, mapped to directories from that same base directory. -/
theorem base_directory_is_that_of_last_base (disk : Disk) (path : Path)
    (hread : AliasTable.Readable disk path) (hacyclic : ¬ AliasTable.Circular disk path) :
    ∃ declaration table, AliasTable.Declaration.load disk path = .ok declaration ∧
      AliasTable.load disk path = .ok (some table) ∧
      (∀ url, declaration.baseUrl = some url →
        table.baseDir = ((AliasTable.directoryOf path).join ⟨url⟩).normalize) ∧
      (declaration.baseUrl = none →
        (∃ base ∈ AliasTable.located disk path declaration, AliasTable.HasBase disk base) →
        ∃ last table', (AliasTable.located disk path declaration).getLast? = some last ∧
          AliasTable.load disk last = .ok (some table') ∧ table.baseDir = table'.baseDir) ∧
      (declaration.baseUrl = none →
        (∀ base ∈ AliasTable.located disk path declaration, ¬ AliasTable.HasBase disk base) →
        table.baseDir = AliasTable.directoryOf path) ∧
      ∀ item ∈ declaration.paths, AliasTable.endsInWildcard item.1 = true →
        (table.patterns.filter fun pattern => pattern.lead == AliasTable.beforeWildcard item.1) =
          AliasTable.usable [(item.1, item.2.map fun entry => table.baseDir.join ⟨entry⟩)] := by
  obtain ⟨m, hm⟩ := AliasTable.exists_reads hread hacyclic
  obtain ⟨declaration, bases, hdeclared, hbases, hcompose⟩ := hm.exists_compose
  have hany : bases.any AliasTable.Merged.declaresBase = true ↔
      ∃ base ∈ AliasTable.located disk path declaration, AliasTable.HasBase disk base :=
    AliasTable.any_declaresBase_iff (hbases.imp fun _ _ hbase => hbase.declaresBase_iff)
  refine ⟨declaration, _, hdeclared, hm.load_eq, fun url hurl => ?_, fun hnone hbase => ?_,
    fun hnone hbase => ?_, fun item hitem hkey => ?_⟩
  · rw [hm.normalize_baseDir, hcompose, AliasTable.Merged.baseDir_compose_some hurl]
  · have hsome := hany.2 hbase
    cases hlast : bases.getLast? with
    | none => simp [List.getLast?_eq_none_iff.1 hlast] at hsome
    | some base =>
      obtain ⟨last, hlocated, hreads⟩ := AliasTable.getLast?_of_forall₂ hbases hlast
      refine ⟨last, _, hlocated, hreads.load_eq, ?_⟩
      rw [hm.normalize_baseDir, hreads.normalize_baseDir, hcompose,
        AliasTable.Merged.baseDir_compose_none hnone, if_pos hsome, hlast]
      rfl
  · have hfree : ¬ bases.any AliasTable.Merged.declaresBase = true := fun hsome => by
      obtain ⟨base, hlocated, hhas⟩ := hany.1 hsome
      exact hbase base hlocated hhas
    rw [hm.normalize_baseDir, hcompose, AliasTable.Merged.baseDir_compose_none hnone,
      if_neg hfree]
  · rw [hm.normalize_baseDir]
    exact hm.filter_usable_paths hdeclared hitem hkey

namespace Layers

/-- A configuration that extends one with a base address and then one without. -/
def config : String :=
  "\x7b\"extends\":[\"./a/t\",\"./b/t\"]," ++
    "\"compilerOptions\":\x7b\"paths\":\x7b\"@/*\":[\"src/*\"]\x7d\x7d\x7d"

/-- A project with that configuration and the two others. -/
def disk : Disk where
  entries :=
    [(["t.json"], .file (.text config)),
      (["a"], .directory),
      (["a", "t.json"], .file (.text "\x7b\"compilerOptions\":\x7b\"baseUrl\":\".\"\x7d\x7d")),
      (["b"], .directory), (["b", "t.json"], .file (.text "\x7b\x7d"))]
  workingDir := []

/-- What the configuration declares. -/
def declaration : AliasTable.Declaration := ⟨["./a/t", "./b/t"], none, [("@/*", ["src/*"])]⟩

theorem declared : AliasTable.Declaration.load disk ⟨"/t.json"⟩ = .ok declaration := by
  decide +kernel

theorem located :
    AliasTable.located disk ⟨"/t.json"⟩ declaration = [⟨"/a/t.json"⟩, ⟨"/b/t.json"⟩] := by
  decide +kernel

theorem hasBase : AliasTable.HasBase disk ⟨"/a/t.json"⟩ :=
  ⟨⟨"/a/t.json"⟩, ⟨[], some ".", []⟩, .refl, by decide +kernel, rfl⟩

theorem table :
    AliasTable.load disk ⟨"/t.json"⟩ =
      .ok (some ⟨⟨"/t.json"⟩, ⟨"/b"⟩, [⟨"@/", [⟨"/b/src"⟩]⟩]⟩) := by
  decide +kernel

end Layers

/-- The last base has no address, and its directory is the base directory. -/
theorem base_directory_is_that_of_last_base_without_address :
    AliasTable.Readable Layers.disk ⟨"/t.json"⟩ ∧ ¬ AliasTable.Circular Layers.disk ⟨"/t.json"⟩ ∧
      ∃ table table', AliasTable.load Layers.disk ⟨"/t.json"⟩ = .ok (some table) ∧
        AliasTable.load Layers.disk ⟨"/b/t.json"⟩ = .ok (some table') ∧
        table.baseDir = table'.baseDir := by
  obtain ⟨m, hm, -⟩ := AliasTable.load_eq_ok_some Layers.table
  have hread := AliasTable.Reads.readable hm
  have hacyclic := AliasTable.not_circular_of_merged_ok hm
  refine ⟨hread, hacyclic, ?_⟩
  obtain ⟨declaration, table, hdeclared, htable, -, hinherits, -⟩ :=
    base_directory_is_that_of_last_base Layers.disk ⟨"/t.json"⟩ hread hacyclic
  obtain rfl : Layers.declaration = declaration :=
    Except.ok.inj (Layers.declared.symm.trans hdeclared)
  rw [Layers.located] at hinherits
  obtain ⟨last, table', hlast, htable', hsame⟩ :=
    hinherits rfl ⟨_, List.mem_cons_self, Layers.hasBase⟩
  obtain rfl : ⟨"/b/t.json"⟩ = last := Option.some.inj hlast
  exact ⟨table, table', htable, htable', hsame⟩

/-- An address is taken over from one base and the directory from another, which has no address. -/
theorem later_base_takes_inherited_directory :
    AliasTable.Declaration.load Layers.disk ⟨"/t.json"⟩ = .ok Layers.declaration ∧
      Layers.declaration.baseUrl = none ∧
      AliasTable.located Layers.disk ⟨"/t.json"⟩ Layers.declaration =
        [⟨"/a/t.json"⟩, ⟨"/b/t.json"⟩] ∧
      AliasTable.HasBase Layers.disk ⟨"/a/t.json"⟩ ∧
      ¬ AliasTable.HasBase Layers.disk ⟨"/b/t.json"⟩ ∧
      AliasTable.load Layers.disk ⟨"/a/t.json"⟩ = .ok (some ⟨⟨"/a/t.json"⟩, ⟨"/a"⟩, []⟩) ∧
      AliasTable.load Layers.disk ⟨"/t.json"⟩ =
        .ok (some ⟨⟨"/t.json"⟩, ⟨"/b"⟩, [⟨"@/", [⟨"/b/src"⟩]⟩]⟩) := by
  refine ⟨Layers.declared, rfl, Layers.located, Layers.hasBase, ?_, by decide +kernel, Layers.table⟩
  have hdeclared : AliasTable.Declaration.load Layers.disk ⟨"/b/t.json"⟩ = .ok ⟨[], none, []⟩ := by
    decide +kernel
  rw [AliasTable.hasBase_iff hdeclared]
  simp [AliasTable.located]

end Relocate
