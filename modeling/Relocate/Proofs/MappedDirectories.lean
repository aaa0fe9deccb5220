import Relocate.Proofs.WrittenTargets

/-! # Imports stay where they are mapped to

An import that is not relative is mapped to directories: by the first pattern of the nearest alias
table that takes it, else by the package with the longest name that it starts with
(`Resolver.Maps`).  What follows the lead of the pattern or the name of the package, the tail, is
read from one of these directories.  A tail without `..` leads down from there, so the import should
not leave the directories.

It does leave them when the tail starts with a separator, since an absolute path read from a
directory stands for itself.  The lead of a pattern need not end in a separator, and after the name
of a package there may be two, so such tails occur.  `mapped_path_stays_inside` says that they are
the only ones.
-/

namespace Relocate

open Text

namespace Path

/-- Names lead down from a place. -/
theorem prefix_foldl_stepFrom {parts : List Component}
    (h : ∀ part ∈ parts, ∃ name, part = .name name) (place : Location) :
    place <+: parts.foldl Disk.stepFrom place := by
  induction parts generalizing place with
  | nil => exact List.prefix_refl _
  | cons part parts ih =>
    obtain ⟨name, rfl⟩ := h part List.mem_cons_self
    have hrest := ih (fun part hpart => h part (List.mem_cons_of_mem _ hpart)) (place ++ [name])
    exact (List.prefix_append place [name]).trans hrest

theorem mem_components_of_mem_stepsIn {p : Path} (h : p.isAbsolute = false) {part : Component}
    (hpart : part ∈ stepsIn p.text.toList) : part ∈ p.components := by
  have hslash : p.text.toList.head? ≠ some '/' := by simpa [isAbsolute] using h
  rw [components, componentsOf_relative hslash]
  exact List.mem_append_right _ hpart

/-- What is read from a directory without climbing lies in it, unless it starts at the root. -/
theorem isInDir_join {dir tail : Path} (hdir : dir.isAbsolute = true)
    (htail : tail.isAbsolute = false) (hup : .up ∉ tail.components) :
    dir.isInDir (dir.join tail) = true := by
  have hjoin := isAbsolute_join hdir tail
  rw [isInDir, normalize_eq_ofPlace hdir, normalize_eq_ofPlace hjoin,
    startsWith_ofPlace (plain_place hjoin) (plain_place hdir), place_join dir htail]
  refine prefix_foldl_stepFrom (fun part hpart => ?_) _
  rcases eq_of_mem_stepsIn hpart with rfl | ⟨name, hname, -⟩
  · exact absurd (mem_components_of_mem_stepsIn htail hpart) hup
  · exact ⟨name, hname⟩

end Path

namespace Resolver

/-- Every directory that specifiers are mapped to is at an absolute path. -/
structure Grounded (r : Resolver) : Prop where
  directories : ∀ entry ∈ r.tables, ∀ pattern ∈ entry.2.patterns, ∀ dir ∈ pattern.directories,
    dir.isAbsolute = true
  roots : ∀ entry ∈ r.packages.roots, entry.2.isAbsolute = true

/-- The pattern takes the specifier: its lead starts it, and the rest is a module in one of its
directories, or there is only one directory. -/
def Takes (r : Resolver) (disk : Disk) (specifier : String) (pattern : AliasPattern) : Prop :=
  ∃ tail, pattern.lead ++ tail = specifier ∧
    (pattern.directories.length = 1 ∨
      ∃ dir ∈ pattern.directories, r.holds disk (dir.join ⟨tail⟩).normalize = true)

/-- The specifier is mapped in the file to the directories, where its tail is read. -/
inductive Maps (r : Resolver) (disk : Disk) (file : Path) (specifier : String) :
    (directories : List Path) → (tail : String) → Prop
  /-- By the first pattern of the nearest table that takes it. -/
  | pattern {table : AliasTable} {ahead behind : List AliasPattern} {pattern : AliasPattern}
      {tail : String} (table_eq : r.nearestTable? file = some table)
      (patterns_eq : table.patterns = ahead ++ pattern :: behind)
      (passed : ∀ other ∈ ahead, ¬ r.Takes disk specifier other)
      (takes : r.Takes disk specifier pattern) (tail_eq : pattern.lead ++ tail = specifier) :
      Maps r disk file specifier pattern.directories tail
  /-- Without such a pattern, by the package with the longest name that it starts with. -/
  | package {name : String} {root : Path} {tail : String}
      (passed : ∀ table, r.nearestTable? file = some table →
        ∀ pattern ∈ table.patterns, ¬ r.Takes disk specifier pattern)
      (mem : (name, root) ∈ r.packages.roots)
      (longest : ∀ other ∈ r.packages.roots, startsWith (other.1 ++ "/") specifier = true →
        other.1.utf8ByteSize ≤ name.utf8ByteSize)
      (tail_eq : name ++ "/" ++ tail = specifier) :
      Maps r disk file specifier [root] tail

variable {r : Resolver} {disk : Disk} {file path : Path} {specifier tail : String}
  {directories : List Path}

/-! ## What a pattern gives -/

/-- A pattern that takes a specifier reads its tail in one of the directories. -/
theorem patternPath?_cases (r : Resolver) (disk : Disk) (pattern : AliasPattern)
    (specifier : String) :
    (¬ r.Takes disk specifier pattern ∧ r.patternPath? disk pattern specifier = none) ∨
      ∃ tail, ∃ dir ∈ pattern.directories, r.Takes disk specifier pattern ∧
        pattern.lead ++ tail = specifier ∧
        r.patternPath? disk pattern specifier = some (dir.join ⟨tail⟩).normalize := by
  rw [patternPath?]
  cases htail : pattern.tail? specifier with
  | none =>
    refine .inl ⟨?_, rfl⟩
    rintro ⟨tail, hlead, -⟩
    rw [AliasPattern.tail?, dropLead?_eq_some_iff.2 hlead] at htail
    simp at htail
  | some tail =>
    have hlead : pattern.lead ++ tail = specifier := dropLead?_eq_some_iff.1 htail
    rw [Option.bind_some]
    dsimp only
    cases hfind : (pattern.directories.map fun dir => (dir.join ⟨tail⟩).normalize).find?
        fun path => (Identity.locate? disk r.known path).isSome with
    | some path =>
      obtain ⟨dir, hdir, rfl⟩ := List.mem_map.1 (List.mem_of_find?_eq_some hfind)
      have htakes : r.Takes disk specifier pattern :=
        ⟨tail, hlead, .inr ⟨dir, hdir, List.find?_some hfind⟩⟩
      exact .inr ⟨tail, dir, hdir, htakes, hlead, rfl⟩
    | none =>
      -- no directory holds the module; only a single one is trusted
      have hheld : ∀ dir ∈ pattern.directories,
          ¬ r.holds disk (dir.join ⟨tail⟩).normalize = true := by
        intro dir hdir
        exact List.find?_eq_none.1 hfind _ (List.mem_map_of_mem hdir)
      have hnot : pattern.directories.length ≠ 1 → ¬ r.Takes disk specifier pattern := by
        rintro hlength ⟨tail', hlead', hone | ⟨dir, hdir, hholds⟩⟩
        · exact hlength hone
        · obtain ⟨-, rfl⟩ := eq_of_append_eq_append rfl (hlead.trans hlead'.symm)
          exact hheld dir hdir hholds
      cases hdirectories : pattern.directories with
      | nil => exact .inl ⟨hnot (by simp [hdirectories]), rfl⟩
      | cons dir others =>
        cases others with
        | nil =>
          have htakes : r.Takes disk specifier pattern :=
            ⟨tail, hlead, .inl (by simp [hdirectories])⟩
          exact .inr ⟨tail, dir, List.mem_cons_self, htakes, hlead, rfl⟩
        | cons other others => exact .inl ⟨hnot (by simp [hdirectories]), rfl⟩

theorem patternPath?_eq_none_iff {pattern : AliasPattern} :
    r.patternPath? disk pattern specifier = none ↔ ¬ r.Takes disk specifier pattern := by
  rcases r.patternPath?_cases disk pattern specifier with
    ⟨hnot, hnone⟩ | ⟨tail, dir, -, htakes, -, hsome⟩
  · exact ⟨fun _ => hnot, fun _ => hnone⟩
  · rw [hsome]
    exact ⟨nofun, fun hnot => absurd htakes hnot⟩

instance (r : Resolver) (disk : Disk) (specifier : String) (pattern : AliasPattern) :
    Decidable (r.Takes disk specifier pattern) :=
  decidable_of_iff (¬ r.patternPath? disk pattern specifier = none)
    (by rw [patternPath?_eq_none_iff, not_not])

theorem aliasPath?_eq_none_iff :
    r.aliasPath? disk file specifier = none ↔ ∀ table, r.nearestTable? file = some table →
      ∀ pattern ∈ table.patterns, ¬ r.Takes disk specifier pattern := by
  rw [aliasPath?]
  cases r.nearestTable? file with
  | none => simp
  | some table => simp [patternPath?_eq_none_iff]

/-! ## The mapping of a specifier -/

/-- Whatever has a path is mapped. -/
theorem exists_maps (hdot : startsWith "." specifier = false)
    (h : r.resolvePath? disk file specifier = some path) :
    ∃ directories tail, r.Maps disk file specifier directories tail := by
  rw [resolvePath?, hdot, if_neg (by simp)] at h
  cases halias : r.aliasPath? disk file specifier with
  | some found =>
    obtain ⟨table, htable, hfound⟩ := Option.bind_eq_some_iff.1 halias
    obtain ⟨ahead, pattern, behind, hpatterns, hpattern, hahead⟩ :=
      List.findSome?_eq_some_iff.1 hfound
    rcases r.patternPath?_cases disk pattern specifier with
      ⟨-, hnone⟩ | ⟨tail, dir, -, htakes, hlead, -⟩
    · rw [hnone] at hpattern
      simp at hpattern
    · have hpassed := fun other hother => patternPath?_eq_none_iff.1 (hahead other hother)
      exact ⟨_, _, .pattern htable hpatterns hpassed htakes hlead⟩
  | none =>
    rw [halias, Option.none_or] at h
    obtain ⟨⟨name, root, tail⟩, hbest, -⟩ := Option.map_eq_some_iff.1 h
    obtain ⟨entry, hentry, hmatch⟩ := List.mem_filterMap.1 (mem_of_lastGreatest? hbest)
    obtain ⟨tail', htail, heq⟩ := Option.map_eq_some_iff.1 hmatch
    obtain ⟨rfl, rfl, rfl⟩ : entry.1 = name ∧ entry.2 = root ∧ tail' = tail := by simpa using heq
    refine ⟨_, _, .package (aliasPath?_eq_none_iff.1 halias) hentry ?_
      (dropLead?_eq_some_iff.1 htail)⟩
    intro other hother hlead
    obtain ⟨rest, hrest⟩ := startsWith_eq_true_iff.1 hlead
    have hmatching : (other.1, other.2, rest) ∈ r.packages.roots.filterMap fun item =>
        (dropLead? (item.1 ++ "/") specifier).map fun tail => (item.1, item.2, tail) :=
      List.mem_filterMap.2 ⟨other, hother, by rw [dropLead?_eq_some_iff.2 hrest, Option.map_some]⟩
    exact le_of_lastGreatest? hbest hmatching

/-- A mapped specifier means its tail, read from one of the directories. -/
theorem Maps.exists_resolvePath? {claims : List (String × Path)}
    (hpackages : r.packages = .ofClaims claims) (hdot : startsWith "." specifier = false)
    (h : r.Maps disk file specifier directories tail) :
    ∃ dir ∈ directories,
      r.resolvePath? disk file specifier = some (dir.join ⟨tail⟩).normalize := by
  rw [resolvePath?, hdot, if_neg (by simp)]
  cases h with
  | @pattern table ahead behind pattern _ htable hpatterns hpassed htakes htail =>
    rcases r.patternPath?_cases disk pattern specifier with
      ⟨hnot, -⟩ | ⟨tail', dir, hdir, -, htail', hpath⟩
    · exact absurd htakes hnot
    · obtain ⟨-, rfl⟩ := eq_of_append_eq_append rfl (htail.trans htail'.symm)
      have hahead : ahead.findSome? (fun other => r.patternPath? disk other specifier) = none :=
        List.findSome?_eq_none_iff.2 fun other hother =>
          patternPath?_eq_none_iff.2 (hpassed other hother)
      refine ⟨dir, hdir, ?_⟩
      rw [aliasPath?, htable, Option.bind_some, hpatterns, List.findSome?_append, hahead,
        Option.none_or, List.findSome?_cons, hpath]
      rfl
  | @package name root _ hpassed hmem hlongest htail =>
    refine ⟨root, List.mem_singleton_self root, ?_⟩
    have hbelow : pathBelow? (name ++ "/") root specifier = some (root.join ⟨tail⟩).normalize := by
      rw [pathBelow?, dropLead?_eq_some_iff.2 htail, Option.map_some]
    rw [aliasPath?_eq_none_iff.2 hpassed, Option.none_or]
    rw [hpackages] at hmem hlongest ⊢
    rcases packages_resolve?_cases hmem hbelow with hfound | ⟨other, hother, hlonger, hlead, -⟩
    · exact hfound
    · exact absurd hlonger (Nat.not_lt_of_le (hlongest other hother hlead))

theorem Maps.isAbsolute (hgrounded : r.Grounded)
    (h : r.Maps disk file specifier directories tail) :
    ∀ dir ∈ directories, dir.isAbsolute = true := by
  cases h with
  | @pattern table ahead behind pattern _ htable hpatterns _ _ _ =>
    obtain ⟨above, -, hget⟩ := List.exists_of_findSome?_eq_some htable
    obtain ⟨entry, hfind, rfl⟩ := Option.map_eq_some_iff.1 hget
    have hpattern : pattern ∈ entry.2.patterns := by simp [hpatterns]
    exact hgrounded.directories entry (List.mem_of_find?_eq_some hfind) pattern hpattern
  | package _ hmem _ _ =>
    intro dir hdir
    rw [List.mem_singleton.1 hdir]
    exact hgrounded.roots _ hmem

end Resolver

/-- **Mapped imports stay inside.**  An import that is not relative and has a path is mapped to
directories.  If its tail climbs nowhere, the path lies in one of them, unless the tail starts with
a separator and names a place outside of all of them.  A tail that starts with a separator is the
path by itself, whatever the directories. -/
theorem mapped_path_stays_inside {r : Resolver} {claims : List (String × Path)}
    (hpackages : r.packages = .ofClaims claims) (hgrounded : r.Grounded) {disk : Disk}
    {file path : Path} {specifier : String} (hdot : startsWith "." specifier = false)
    (h : r.resolvePath? disk file specifier = some path) :
    (∃ directories tail, r.Maps disk file specifier directories tail) ∧
    ∀ directories tail, r.Maps disk file specifier directories tail →
      (Component.up ∉ Path.components ⟨tail⟩ →
        ((∃ dir ∈ directories, dir.isInDir path = true) ↔
          Path.isAbsolute ⟨tail⟩ = false ∨ ∃ dir ∈ directories, dir.isInDir ⟨tail⟩ = true)) ∧
      (Path.isAbsolute ⟨tail⟩ = true → path = Path.normalize ⟨tail⟩) := by
  refine ⟨Resolver.exists_maps hdot h, fun directories tail hmaps => ?_⟩
  obtain ⟨dir, hdir, hpath⟩ := hmaps.exists_resolvePath? hpackages hdot
  obtain rfl : path = (dir.join ⟨tail⟩).normalize := Option.some.inj (h.symm.trans hpath)
  simp only [Path.isInDir_normalize]
  by_cases htail : Path.isAbsolute ⟨tail⟩ = true
  · rw [Path.join_of_isAbsolute htail]
    simp [htail]
  · rw [Bool.not_eq_true] at htail
    refine ⟨fun hup => ⟨fun _ => .inl htail, fun _ => ?_⟩, fun habsolute => ?_⟩
    · exact ⟨dir, hdir, Path.isInDir_join (hmaps.isAbsolute hgrounded dir hdir) htail hup⟩
    · rw [htail] at habsolute
      cases habsolute

namespace Mappings

/-- Two patterns whose leads do not end in a separator, the first with two directories. -/
def openTable : AliasTable where
  configPath := ⟨"/p/tsconfig.json"⟩
  baseDir := ⟨"/p"⟩
  patterns := [⟨"@l", [⟨"/p/a"⟩, ⟨"/p/b"⟩]⟩, ⟨"@", [⟨"/p/src"⟩]⟩]

/-- These patterns, and two packages of which one has a longer name. -/
def outward : Resolver where
  known := .standard
  tables := [(⟨"/p"⟩, openTable)]
  packages := .ofClaims [("core", ⟨"/pkg"⟩), ("core/ui", ⟨"/front"⟩)]

theorem grounded_outward : outward.Grounded :=
  ⟨by decide +kernel, by decide +kernel⟩

/-- The second pattern maps what the first one does not take. -/
theorem maps_alias {specifier tail : String} (htail : "@" ++ tail = specifier)
    (hpassed : ¬ outward.Takes default specifier ⟨"@l", [⟨"/p/a"⟩, ⟨"/p/b"⟩]⟩) :
    outward.Maps default ⟨"/p/x.ts"⟩ specifier [⟨"/p/src"⟩] tail := by
  have htable : outward.nearestTable? ⟨"/p/x.ts"⟩ = some openTable := by decide +kernel
  have hpatterns : openTable.patterns =
      [⟨"@l", [⟨"/p/a"⟩, ⟨"/p/b"⟩]⟩] ++ ⟨"@", [⟨"/p/src"⟩]⟩ :: [] := rfl
  have htakes : outward.Takes default specifier ⟨"@", [⟨"/p/src"⟩]⟩ := ⟨tail, htail, .inl rfl⟩
  exact .pattern htable hpatterns (by simpa using hpassed) htakes htail

/-- The package with the longer name maps what starts with it. -/
theorem maps_package {specifier tail : String} (htail : "core/ui" ++ "/" ++ tail = specifier)
    (hpassed : outward.aliasPath? default ⟨"/p/x.ts"⟩ specifier = none) :
    outward.Maps default ⟨"/p/x.ts"⟩ specifier [⟨"/front"⟩] tail := by
  have hroots : outward.packages.roots = [("core", ⟨"/pkg"⟩), ("core/ui", ⟨"/front"⟩)] := by
    decide +kernel
  have hlongest : ∀ other ∈ outward.packages.roots,
      other.1.utf8ByteSize ≤ "core/ui".utf8ByteSize := by decide +kernel
  exact .package (Resolver.aliasPath?_eq_none_iff.1 hpassed) (by simp [hroots])
    (fun other hother _ => hlongest other hother) htail

end Mappings

/-- By a pattern, behind another one that holds the module in none of its directories; and by the
package with the longest name. -/
theorem mapped_path_stays_inside_of_both :
    (Mappings.outward.resolvePath? default ⟨"/p/x.ts"⟩ "@lib/./a//b" = some ⟨"/p/src/lib/a/b"⟩ ∧
      Path.isInDir ⟨"/p/src"⟩ ⟨"/p/src/lib/a/b"⟩ = true) ∧
    (Mappings.outward.resolvePath? default ⟨"/p/x.ts"⟩ "core/ui/x" = some ⟨"/front/x"⟩ ∧
      Path.isInDir ⟨"/front"⟩ ⟨"/front/x"⟩ = true) := by
  have halias : Mappings.outward.resolvePath? default ⟨"/p/x.ts"⟩ "@lib/./a//b" =
      some ⟨"/p/src/lib/a/b"⟩ := by decide +kernel
  have hpackage : Mappings.outward.resolvePath? default ⟨"/p/x.ts"⟩ "core/ui/x" =
      some ⟨"/front/x"⟩ := by decide +kernel
  have hinside := (mapped_path_stays_inside rfl Mappings.grounded_outward (by decide) halias).2
    [⟨"/p/src"⟩] "lib/./a//b" (Mappings.maps_alias (by decide) (by decide +kernel))
  have hinside' := (mapped_path_stays_inside rfl Mappings.grounded_outward (by decide) hpackage).2
    [⟨"/front"⟩] "x" (Mappings.maps_package (by decide) (by decide +kernel))
  refine ⟨⟨halias, ?_⟩, hpackage, ?_⟩
  · simpa using (hinside.1 (by decide)).2 (.inl (by decide))
  · simpa using (hinside'.1 (by decide)).2 (.inl (by decide))

/-- A tail that starts with a separator leaves the directory of a pattern, and that of a package. -/
theorem mapped_path_leaves_directories :
    (Mappings.outward.Maps default ⟨"/p/x.ts"⟩ "@/lib/x" [⟨"/p/src"⟩] "/lib/x" ∧
      Component.up ∉ Path.components ⟨"/lib/x"⟩ ∧
      Mappings.outward.resolvePath? default ⟨"/p/x.ts"⟩ "@/lib/x" = some ⟨"/lib/x"⟩ ∧
      Path.isInDir ⟨"/p/src"⟩ ⟨"/lib/x"⟩ = false) ∧
    (Mappings.outward.Maps default ⟨"/p/x.ts"⟩ "core/ui//etc/x" [⟨"/front"⟩] "/etc/x" ∧
      Component.up ∉ Path.components ⟨"/etc/x"⟩ ∧
      Mappings.outward.resolvePath? default ⟨"/p/x.ts"⟩ "core/ui//etc/x" = some ⟨"/etc/x"⟩ ∧
      Path.isInDir ⟨"/front"⟩ ⟨"/etc/x"⟩ = false) := by
  refine ⟨⟨?_, by decide, by decide +kernel, by decide⟩,
    ⟨?_, by decide, by decide +kernel, by decide⟩⟩
  · exact Mappings.maps_alias (by decide) (by decide +kernel)
  · exact Mappings.maps_package (by decide) (by decide +kernel)

end Relocate
