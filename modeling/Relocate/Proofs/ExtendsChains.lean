import Mathlib.Data.List.Forall2
import Mathlib.Data.List.Perm.Subperm
import Mathlib.Logic.Relation
import Relocate.Project.Alias

/-! # Chains of extensions

A configuration names the files that it extends, and these name others, so how far reading goes is
up to what the files hold.  A file is on record as visited while the files that it extends are read,
and a chain of extensions that meets a file on record is refused.

The record is the same after a file is read as before it, whatever comes of it
(`AliasTable.merged_visited`), so that what is read for one entry of `extends` does not depend on
the entries before it.  With this the reading of a file is described once, by its success
(`AliasTable.merged_ok_iff`) and by its failure (`AliasTable.merged_error_cases`), and the rest is
about walks along extensions: a chain that comes back to a file is a cycle, and a chain that does
not is no longer than there are files.
-/

namespace Relocate

namespace AliasTable

open Relation

/-! ## The record of visited files -/

section

variable {disk : Disk} {load : Visited → Path → Except ConfigProblem Merged × Visited} {dir : Path}
  (hload : ∀ visited path, (load visited path).2 = visited)

include hload

theorem mergedBases_visited (visited : Visited) (m : Merged) (entries : List String) :
    (mergedBases disk load dir visited m entries).2 = visited := by
  induction entries generalizing m with
  | nil => rfl
  | cons entry entries ih =>
    rw [mergedBases]
    cases locateExtended? disk dir entry with
    | none => exact ih m
    | some path =>
      have hpath := hload visited path
      cases hanswer : (load visited path).1 with
      | error problem => simpa [hanswer] using hpath
      | ok base => simpa [hanswer, hpath] using ih (m.extend base)

theorem mergedFile_visited (visited : Visited) (path : Path) :
    (mergedFile disk load visited path).2 = visited := by
  rw [mergedFile]
  cases Declaration.load disk path with
  | error problem => rfl
  | ok declaration => exact mergedBases_visited hload visited _ declaration.bases

end

/-- **The record is restored.**  Whether a file can be read or not, the same files are on record as
visited afterwards. -/
theorem merged_visited (disk : Disk) (fuel : Nat) (visited : Visited) (path : Path) :
    (merged disk fuel visited path).2 = visited := by
  induction fuel generalizing visited path with
  | zero => rfl
  | succ fuel ih =>
    rw [merged]
    split
    · rfl
    · show ((mergedFile disk (merged disk fuel) _ path).2).erase _ = visited
      rw [mergedFile_visited ih, List.erase_cons_head]

/-! ## Reading a file -/

/-- The files that the entries of `extends` mean, in their order. -/
def located (disk : Disk) (path : Path) (declaration : Declaration) : List Path :=
  declaration.bases.filterMap (locateExtended? disk (directoryOf path))

/-- The configuration at `path` extends the one at `base`. -/
def Extends (disk : Disk) (path base : Path) : Prop :=
  ∃ declaration, Declaration.load disk path = .ok declaration ∧
    base ∈ located disk path declaration

section

variable {disk : Disk} {load : Visited → Path → Except ConfigProblem Merged × Visited} {dir : Path}
  (hload : ∀ visited path, (load visited path).2 = visited)

include hload

theorem mergedBases_ok_iff {visited : Visited} {m m' : Merged} {entries : List String} :
    (mergedBases disk load dir visited m entries).1 = .ok m' ↔
      ∃ bases, List.Forall₂ (fun path base => (load visited path).1 = .ok base)
          (entries.filterMap (locateExtended? disk dir)) bases ∧
        m' = bases.foldl Merged.extend m := by
  induction entries generalizing m with
  | nil =>
    simp only [mergedBases, List.filterMap_nil, List.forall₂_nil_left_iff, Except.ok.injEq]
    exact ⟨fun h => ⟨[], rfl, h.symm⟩, fun ⟨_, rfl, h⟩ => h.symm⟩
  | cons entry entries ih =>
    rw [mergedBases]
    cases hlocate : locateExtended? disk dir entry with
    | none => rw [List.filterMap_cons_none hlocate]; exact ih
    | some path =>
      rw [List.filterMap_cons_some hlocate]
      cases hanswer : (load visited path).1 with
      | error problem =>
        constructor
        · intro h
          simp [hanswer] at h
        · rintro ⟨_, hbases, -⟩
          obtain ⟨base, rest, hbase, -, rfl⟩ := List.forall₂_cons_left_iff.1 hbases
          simp [hanswer] at hbase
      | ok base =>
        simp only [hanswer, hload]
        rw [ih]
        constructor
        · rintro ⟨rest, hrest, rfl⟩
          exact ⟨base :: rest, .cons hanswer hrest, rfl⟩
        · rintro ⟨_, hbases, rfl⟩
          obtain ⟨base', rest, hbase, hrest, rfl⟩ := List.forall₂_cons_left_iff.1 hbases
          obtain rfl : base = base' := by simpa [hanswer] using hbase
          exact ⟨rest, hrest, rfl⟩

theorem exists_of_mergedBases_error {visited : Visited} {m : Merged} {entries : List String}
    {problem : ConfigProblem}
    (h : (mergedBases disk load dir visited m entries).1 = .error problem) :
    ∃ path ∈ entries.filterMap (locateExtended? disk dir),
      (load visited path).1 = .error problem := by
  induction entries generalizing m with
  | nil => simp [mergedBases] at h
  | cons entry entries ih =>
    rw [mergedBases] at h
    cases hlocate : locateExtended? disk dir entry with
    | none =>
      rw [hlocate] at h
      rw [List.filterMap_cons_none hlocate]
      exact ih h
    | some path =>
      rw [List.filterMap_cons_some hlocate]
      cases hanswer : (load visited path).1 with
      | error problem' =>
        refine ⟨path, List.mem_cons_self, ?_⟩
        simpa [hlocate, hanswer] using h
      | ok base =>
        obtain ⟨path', hpath', herror⟩ := ih (m := m.extend base) (by
          simpa [hlocate, hanswer, hload] using h)
        exact ⟨path', List.mem_cons_of_mem _ hpath', herror⟩

end

variable {disk : Disk} {fuel : Nat} {visited : Visited} {path : Path}

/-- What the files that one in `dir` extends are added to. -/
def Merged.start (dir : Path) : Merged := ⟨dir, false, []⟩

/-- What is read of a file that is not on record. -/
theorem merged_succ (h : placeOf disk path ∉ visited) {declaration : Declaration}
    (hdeclared : Declaration.load disk path = .ok declaration) :
    (merged disk (fuel + 1) visited path).1 =
      (mergedBases disk (merged disk fuel) (directoryOf path) (placeOf disk path :: visited)
        (.start (directoryOf path)) declaration.bases).1.map
          fun bases => bases.declare (directoryOf path) declaration := by
  rw [merged, if_neg (by simpa using h), mergedFile, hdeclared]
  rfl

/-- **A file that can be read.**  It is not on record, it declares something, and each of the files
that it extends can be read while it is on record. -/
theorem merged_ok_iff {m : Merged} :
    (merged disk (fuel + 1) visited path).1 = .ok m ↔
      placeOf disk path ∉ visited ∧ ∃ declaration bases,
        Declaration.load disk path = .ok declaration ∧
        List.Forall₂ (fun path' base =>
            (merged disk fuel (placeOf disk path :: visited) path').1 = .ok base)
          (located disk path declaration) bases ∧
        m = (bases.foldl Merged.extend (.start (directoryOf path))).declare (directoryOf path)
          declaration := by
  by_cases hplace : placeOf disk path ∈ visited
  · simp [merged, hplace]
  cases hdeclared : Declaration.load disk path with
  | error problem => simp [merged, mergedFile, hplace, hdeclared]
  | ok declaration =>
    rw [merged_succ hplace hdeclared]
    constructor
    · intro h
      cases hbases : (mergedBases disk (merged disk fuel) (directoryOf path)
          (placeOf disk path :: visited) (.start (directoryOf path)) declaration.bases).1 with
      | error problem => simp [hbases, Except.map] at h
      | ok taken =>
        obtain ⟨bases, hread, rfl⟩ := (mergedBases_ok_iff (merged_visited disk fuel)).1 hbases
        refine ⟨hplace, declaration, bases, rfl, hread, ?_⟩
        simpa [hbases, Except.map] using h.symm
    · rintro ⟨-, declaration', bases, hsame, hread, rfl⟩
      obtain rfl : declaration = declaration' := by simpa using hsame
      rw [(mergedBases_ok_iff (merged_visited disk fuel)).2 ⟨bases, hread, rfl⟩]
      rfl

/-- **A file that cannot be read.**  It is on record, or it declares nothing that makes sense, or
one of the files that it extends cannot be read while it is on record. -/
theorem merged_error_cases {problem : ConfigProblem}
    (h : (merged disk (fuel + 1) visited path).1 = .error problem) :
    (placeOf disk path ∈ visited ∧ problem = .circularExtends path) ∨
      Declaration.load disk path = .error problem ∨
      (placeOf disk path ∉ visited ∧ ∃ base, Extends disk path base ∧
        (merged disk fuel (placeOf disk path :: visited) base).1 = .error problem) := by
  by_cases hplace : placeOf disk path ∈ visited
  · exact .inl ⟨hplace, by simpa [merged, hplace] using h.symm⟩
  cases hdeclared : Declaration.load disk path with
  | error problem' => exact .inr (.inl (by simpa [merged, mergedFile, hplace, hdeclared] using h))
  | ok declaration =>
    rw [merged_succ hplace hdeclared] at h
    cases hbases : (mergedBases disk (merged disk fuel) (directoryOf path)
        (placeOf disk path :: visited) (.start (directoryOf path)) declaration.bases).1 with
    | ok taken => simp [hbases, Except.map] at h
    | error problem' =>
      obtain rfl : problem' = problem := by simpa [hbases, Except.map] using h
      obtain ⟨base, hbase, herror⟩ :=
        exists_of_mergedBases_error (merged_visited disk fuel) hbases
      exact .inr (.inr ⟨hplace, base, ⟨declaration, hdeclared, hbase⟩, herror⟩)

/-- What can be read can be read with fewer files on record and more fuel, and gives the same. -/
theorem merged_mono {m : Merged} (h : (merged disk fuel visited path).1 = .ok m) {fuel' : Nat}
    (hfuel : fuel ≤ fuel') {visited' : Visited} (hvisited : visited' ⊆ visited) :
    (merged disk fuel' visited' path).1 = .ok m := by
  induction fuel generalizing visited visited' fuel' path m with
  | zero => simp [merged] at h
  | succ fuel ih =>
    obtain ⟨fuel', rfl⟩ : ∃ n, fuel' = n + 1 := ⟨fuel' - 1, by omega⟩
    obtain ⟨hplace, declaration, bases, hdeclared, hbases, rfl⟩ := merged_ok_iff.1 h
    refine merged_ok_iff.2
      ⟨fun hmem => hplace (hvisited hmem), declaration, bases, hdeclared, ?_, rfl⟩
    exact hbases.imp fun path' base hbase => ih hbase (by omega) (List.cons_subset_cons _ hvisited)

/-! ## Cycles -/

/-- Along extensions one comes from `path` to the file `last` after having been there before, under
the name `first`. -/
def ReturnsTo (disk : Disk) (path last : Path) : Prop :=
  ∃ first, ReflTransGen (Extends disk) path first ∧ TransGen (Extends disk) first last ∧
    placeOf disk first = placeOf disk last

/-- A cycle of extensions can be reached from the file at `path`. -/
def Circular (disk : Disk) (path : Path) : Prop := ∃ last, ReturnsTo disk path last

/-- What is on the left of a list of related pairs is related to something on the right. -/
theorem exists_of_forall₂ {α β : Type} {r : α → β → Prop} {items : List α} {others : List β}
    (h : List.Forall₂ r items others) {item : α} (hitem : item ∈ items) :
    ∃ other ∈ others, r item other := by
  induction h with
  | nil => simp at hitem
  | @cons a b _ _ hab _ ih =>
    rcases List.mem_cons.1 hitem with rfl | hitem
    · exact ⟨b, List.mem_cons_self, hab⟩
    · obtain ⟨other, hother, hrelated⟩ := ih hitem
      exact ⟨other, List.mem_cons_of_mem _ hother, hrelated⟩

/-- If a file can be read, so can the files that it extends, while it is on record. -/
theorem exists_merged_of_extends {m : Merged} (h : (merged disk fuel visited path).1 = .ok m)
    {base : Path} (hextends : Extends disk path base) :
    ∃ fuel' m', (merged disk fuel' (placeOf disk path :: visited) base).1 = .ok m' := by
  cases fuel with
  | zero => simp [merged] at h
  | succ fuel =>
    obtain ⟨-, declaration, bases, hdeclared, hbases, -⟩ := merged_ok_iff.1 h
    obtain ⟨declaration', hdeclared', hbase⟩ := hextends
    obtain rfl : declaration' = declaration := by simpa [hdeclared] using hdeclared'.symm
    obtain ⟨m', -, hm'⟩ := exists_of_forall₂ hbases hbase
    exact ⟨fuel, m', hm'⟩

/-- If a file can be read, so can every file on a walk from it, while those on record before still
are. -/
theorem exists_merged_of_walk {m : Merged} (h : (merged disk fuel visited path).1 = .ok m)
    {last : Path} (hwalk : ReflTransGen (Extends disk) path last) :
    ∃ fuel' visited' m', visited ⊆ visited' ∧ (merged disk fuel' visited' last).1 = .ok m' := by
  induction hwalk with
  | refl => exact ⟨fuel, visited, m, List.Subset.refl _, h⟩
  | tail _ hextends ih =>
    obtain ⟨fuel', visited', m', hsub, hm'⟩ := ih
    obtain ⟨fuel'', m'', hm''⟩ := exists_merged_of_extends hm' hextends
    exact ⟨fuel'', _, m'', List.subset_cons_of_subset _ hsub, hm''⟩

theorem not_mem_of_merged_ok {m : Merged} (h : (merged disk fuel visited path).1 = .ok m) :
    placeOf disk path ∉ visited := by
  cases fuel with
  | zero => simp [merged] at h
  | succ fuel => exact (merged_ok_iff.1 h).1

/-- **No cycle is missed.** -/
theorem not_circular_of_merged_ok {m : Merged} (h : (merged disk fuel visited path).1 = .ok m) :
    ¬ Circular disk path := by
  rintro ⟨last, first, hreach, hreturn, hplace⟩
  obtain ⟨fuel₁, visited₁, m₁, -, hm₁⟩ := exists_merged_of_walk h hreach
  obtain ⟨next, hextends, hwalk⟩ := (TransGen.head'_iff).1 hreturn
  obtain ⟨fuel₂, m₂, hm₂⟩ := exists_merged_of_extends hm₁ hextends
  obtain ⟨fuel₃, visited₃, m₃, hsub, hm₃⟩ := exists_merged_of_walk hm₂ hwalk
  exact not_mem_of_merged_ok hm₃ (hplace ▸ hsub List.mem_cons_self)

/-! ## Room for a chain -/

/-- What declares something is a file of the disk. -/
theorem isFile_of_load {declaration : Declaration}
    (h : Declaration.load disk path = .ok declaration) : disk.isFile path = true := by
  unfold Declaration.load at h
  split at h
  · simp at h
  · rename_i text hread
    unfold Disk.readText at hread
    split at hread
    · rename_i hfind
      simp [Disk.isFile, hfind]
    all_goals simp at hread

theorem placeOf_mem_of_isFile (h : disk.isFile path = true) :
    placeOf disk path ∈ disk.entries.map fun entry => some entry.1 := by
  rw [Disk.isFile, Disk.find] at h
  cases hlocate : disk.locate path with
  | error cause => simp [hlocate, Except.bind] at h
  | ok place =>
    have hplace : placeOf disk path = some place := by rw [placeOf, hlocate]; rfl
    cases hentry : disk.entry? place with
    | none => simp [hlocate, Except.bind, hentry] at h
    | some entry =>
      rw [Disk.entry?] at hentry
      split at hentry
      · obtain rfl : Entry.directory = entry := by simpa using hentry
        simp [Except.bind, Disk.entry?, *] at h
      · obtain ⟨before, after, hentries, -⟩ := List.lookup_eq_some_iff.1 hentry
        rw [hplace, hentries]
        simp

/-- The files on record are different files of the disk, and with the fuel there is room for one
more than there are. -/
structure Room (disk : Disk) (fuel : Nat) (visited : Visited) : Prop where
  nodup : visited.Nodup
  files : ∀ place ∈ visited, place ∈ disk.entries.map fun entry => some entry.1
  room : disk.entries.length < fuel + visited.length

theorem room_longestChain (hfuel : longestChain disk ≤ fuel) : Room disk fuel [] where
  nodup := List.nodup_nil
  files := by simp
  room := by
    rw [longestChain] at hfuel
    rw [List.length_nil]
    omega

/-- There is always room for one more file. -/
theorem Room.fuel_ne_zero (h : Room disk fuel visited) : fuel ≠ 0 := by
  have hle := (h.nodup.subperm h.files).length_le
  have hroom := h.room
  rw [List.length_map] at hle
  omega

theorem Room.visit (h : Room disk (fuel + 1) visited) (hplace : placeOf disk path ∉ visited)
    {declaration : Declaration} (hdeclared : Declaration.load disk path = .ok declaration) :
    Room disk fuel (placeOf disk path :: visited) where
  nodup := List.nodup_cons.2 ⟨hplace, h.nodup⟩
  files :=
    List.forall_mem_cons.2 ⟨placeOf_mem_of_isFile (isFile_of_load hdeclared), h.files⟩
  room := by
    have hroom := h.room
    rw [List.length_cons]
    omega

/-- A declaration that cannot be read is never taken for a cycle. -/
theorem Declaration.load_ne_circular (culprit : Path) :
    Declaration.load disk path ≠ .error (.circularExtends culprit) := by
  unfold Declaration.load
  split
  · simp
  · split <;> simp

/-- **No cycle is made up.**  A file that is refused for a cycle is on one, or on record. -/
theorem returnsTo_of_merged_circular (hroom : Room disk fuel visited) {culprit : Path}
    (h : (merged disk fuel visited path).1 = .error (.circularExtends culprit)) :
    (ReflTransGen (Extends disk) path culprit ∧ placeOf disk culprit ∈ visited) ∨
      ReturnsTo disk path culprit := by
  induction fuel generalizing visited path with
  | zero => exact absurd rfl hroom.fuel_ne_zero
  | succ fuel ih =>
    rcases merged_error_cases h with
      ⟨hplace, hculprit⟩ | hdeclared | ⟨hplace, base, hextends, hbase⟩
    · obtain rfl : culprit = path := by simpa using hculprit
      exact .inl ⟨.refl, hplace⟩
    · exact absurd hdeclared (Declaration.load_ne_circular culprit)
    · obtain ⟨declaration, hdeclared, hlocated⟩ := id hextends
      rcases ih (hroom.visit hplace hdeclared) hbase with
        ⟨hwalk, hculprit⟩ | ⟨first, hwalk, hreturn⟩
      · rcases List.mem_cons.1 hculprit with hsame | hculprit
        · -- the chain is back at the file itself
          exact .inr ⟨path, .refl, .head' hextends hwalk, hsame.symm⟩
        · exact .inl ⟨.head hextends hwalk, hculprit⟩
      · exact .inr ⟨first, .head hextends hwalk, hreturn⟩

theorem mergedBases_congr {load load' : Visited → Path → Except ConfigProblem Merged × Visited}
    (dir : Path) (hload : ∀ path, (load visited path).2 = visited)
    (hsame : ∀ path, load visited path = load' visited path) (m : Merged) (entries : List String) :
    mergedBases disk load dir visited m entries = mergedBases disk load' dir visited m entries := by
  induction entries generalizing m with
  | nil => rfl
  | cons entry entries ih =>
    rw [mergedBases, mergedBases]
    cases locateExtended? disk dir entry with
    | none => exact ih m
    | some path =>
      have hpath := hload path
      simp only [← hsame]
      cases (load visited path).1 with
      | error problem => rfl
      | ok base =>
        simp only [hpath]
        exact ih _

/-- **Chains end.**  With room for all files of the disk, more fuel changes nothing. -/
theorem merged_congr (hroom : Room disk fuel visited) {fuel' : Nat}
    (hroom' : Room disk fuel' visited) :
    merged disk fuel visited path = merged disk fuel' visited path := by
  induction fuel generalizing fuel' visited path with
  | zero => exact absurd rfl hroom.fuel_ne_zero
  | succ fuel ih =>
    cases fuel' with
    | zero => exact absurd rfl hroom'.fuel_ne_zero
    | succ fuel' =>
      rw [merged, merged]
      by_cases hplace : placeOf disk path ∈ visited
      · simp [hplace]
      · simp only [List.contains_eq_mem, hplace, decide_false, Bool.false_eq_true, if_false,
          mergedFile]
        cases hdeclared : Declaration.load disk path with
        | error problem => rfl
        | ok declaration =>
          have hbase : ∀ base, merged disk fuel (placeOf disk path :: visited) base =
              merged disk fuel' (placeOf disk path :: visited) base := fun base =>
            ih (hroom.visit hplace hdeclared) (hroom'.visit hplace hdeclared)
          simp only [mergedBases_congr (directoryOf path) (merged_visited disk fuel _) hbase]

theorem load_eq_ok_some {table : AliasTable} (h : load disk path = .ok (some table)) :
    ∃ m, (merged disk (longestChain disk) [] path).1 = .ok m ∧
      table = ⟨path.normalize, m.baseDir.normalize,
        m.paths.filterMap fun item => patternOf? item.1 item.2⟩ := by
  unfold load at h
  split at h
  · split at h
    · simp at h
    · rename_i m hmerged
      exact ⟨m, hmerged, by simpa using h.symm⟩
  · simp at h

theorem load_eq_error {problem : ConfigProblem} (h : load disk path = .error (.config problem)) :
    (merged disk (longestChain disk) [] path).1 = .error problem := by
  unfold load at h
  split at h
  · split at h
    · rename_i problem' hmerged
      obtain rfl : problem' = problem := by simpa using h
      exact hmerged
    · simp at h
  · simp at h

/-- A file that is refused for a cycle is on a cycle that can be reached. -/
theorem returnsTo_of_load_circular {culprit : Path}
    (h : load disk path = .error (.config (.circularExtends culprit))) :
    ReturnsTo disk path culprit := by
  rcases returnsTo_of_merged_circular (room_longestChain Nat.le.refl) (load_eq_error h) with
    ⟨-, hculprit⟩ | hreturns
  · exact absurd hculprit List.not_mem_nil
  · exact hreturns

/-- All that the file at `path` leads to makes sense. -/
def Readable (disk : Disk) (path : Path) : Prop :=
  ∀ file, ReflTransGen (Extends disk) path file →
    ∃ declaration, Declaration.load disk file = .ok declaration

/-- What cannot be read leads to a cycle or to a file that makes no sense. -/
theorem exists_of_merged_error {problem : ConfigProblem}
    (h : (merged disk fuel visited path).1 = .error problem) :
    (∃ culprit, problem = .circularExtends culprit) ∨
      ∃ file, ReflTransGen (Extends disk) path file ∧
        Declaration.load disk file = .error problem := by
  induction fuel generalizing visited path with
  | zero => exact .inl ⟨path, by simpa [merged] using h.symm⟩
  | succ fuel ih =>
    rcases merged_error_cases h with ⟨-, hculprit⟩ | hdeclared | ⟨-, base, hextends, hbase⟩
    · exact .inl ⟨path, hculprit⟩
    · exact .inr ⟨path, .refl, hdeclared⟩
    · refine (ih hbase).imp id ?_
      rintro ⟨file, hwalk, hdeclared⟩
      exact ⟨file, .head hextends hwalk, hdeclared⟩

/-- A cycle that can be reached is reported, if all files on the way make sense. -/
theorem exists_load_circular (hread : Readable disk path) (hcycle : Circular disk path) :
    ∃ culprit, load disk path = .error (.config (.circularExtends culprit)) := by
  obtain ⟨declaration, hdeclared⟩ := hread path .refl
  rw [load, if_pos (isFile_of_load hdeclared)]
  cases hmerged : (merged disk (longestChain disk) [] path).1 with
  | ok m => exact absurd hcycle (not_circular_of_merged_ok hmerged)
  | error problem =>
    rcases exists_of_merged_error hmerged with ⟨culprit, rfl⟩ | ⟨file, hwalk, herror⟩
    · exact ⟨culprit, rfl⟩
    · obtain ⟨declaration', hdeclared'⟩ := hread file hwalk
      rw [herror] at hdeclared'
      cases hdeclared'

end AliasTable

/-- **Chains of extensions end, and cycles are reported exactly.**  No chain is longer than the
bound that it is given, so that a greater one makes no difference.  Where a table is returned no
cycle can be reached.  The file that is named as the one a chain came back to is on a cycle, so one
that several files extend, without a cycle, is never named; and where all files on the way make
sense, a cycle is reported if there is one.  What is on record as visited is the same after a file
is read as it was before, whether the file could be read or not. -/
theorem extension_cycles_are_reported (disk : Disk) (path : Path) :
    (∀ fuel, AliasTable.longestChain disk ≤ fuel →
      AliasTable.merged disk fuel [] path =
        AliasTable.merged disk (AliasTable.longestChain disk) [] path) ∧
      (∀ table, AliasTable.load disk path = .ok (some table) → ¬ AliasTable.Circular disk path) ∧
      (∀ culprit, AliasTable.load disk path = .error (.config (.circularExtends culprit)) →
        AliasTable.ReturnsTo disk path culprit) ∧
      (AliasTable.Readable disk path → (AliasTable.Circular disk path ↔
        ∃ culprit, AliasTable.load disk path = .error (.config (.circularExtends culprit)))) ∧
      ∀ fuel visited file, (AliasTable.merged disk fuel visited file).2 = visited := by
  refine ⟨fun fuel hfuel => ?_, fun table htable => ?_, fun culprit => ?_, fun hread => ?_, ?_⟩
  · exact AliasTable.merged_congr (AliasTable.room_longestChain hfuel)
      (AliasTable.room_longestChain Nat.le.refl)
  · obtain ⟨m, hmerged, -⟩ := AliasTable.load_eq_ok_some htable
    exact AliasTable.not_circular_of_merged_ok hmerged
  · exact AliasTable.returnsTo_of_load_circular
  · refine ⟨AliasTable.exists_load_circular hread, ?_⟩
    rintro ⟨culprit, hload⟩
    exact ⟨culprit, AliasTable.returnsTo_of_load_circular hload⟩
  · exact fun fuel visited file => AliasTable.merged_visited disk fuel visited file

namespace SelfExtension

/-- A configuration that extends itself. -/
def disk : Disk := ⟨[(["a.json"], .file (.text "\x7b\"extends\":\"./a\"\x7d"))], []⟩

theorem load_disk : AliasTable.Declaration.load disk ⟨"/a.json"⟩ = .ok ⟨["./a"], none, []⟩ := by
  decide +kernel

theorem extends_iff (base : Path) :
    AliasTable.Extends disk ⟨"/a.json"⟩ base ↔ base = ⟨"/a.json"⟩ := by
  have hlocated : AliasTable.located disk ⟨"/a.json"⟩ ⟨["./a"], none, []⟩ = [⟨"/a.json"⟩] := by
    decide +kernel
  simp [AliasTable.Extends, load_disk, hlocated]

/-- No other file can be reached. -/
theorem readable_disk : AliasTable.Readable disk ⟨"/a.json"⟩ := by
  intro file hwalk
  have hfile : file = ⟨"/a.json"⟩ := by
    induction hwalk with
    | refl => rfl
    | tail _ hextends ih => exact (extends_iff _).1 (ih ▸ hextends)
  exact ⟨_, hfile ▸ load_disk⟩

end SelfExtension

theorem extension_cycles_are_reported_of_itself :
    AliasTable.Readable SelfExtension.disk ⟨"/a.json"⟩ ∧
      AliasTable.Circular SelfExtension.disk ⟨"/a.json"⟩ ∧
      ∃ culprit, AliasTable.load SelfExtension.disk ⟨"/a.json"⟩ =
        .error (.config (.circularExtends culprit)) := by
  have hcycle : AliasTable.Circular SelfExtension.disk ⟨"/a.json"⟩ :=
    ⟨⟨"/a.json"⟩, ⟨"/a.json"⟩, .refl, .single ((SelfExtension.extends_iff _).2 rfl), rfl⟩
  obtain ⟨-, -, -, hreported, -⟩ := extension_cycles_are_reported SelfExtension.disk ⟨"/a.json"⟩
  exact ⟨SelfExtension.readable_disk, hcycle, (hreported SelfExtension.readable_disk).1 hcycle⟩

end Relocate
