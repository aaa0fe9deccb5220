import Relocate.Proofs.Inheritance

/-! # Aliases as a list of declarations

A configuration takes over the patterns of the files that it extends, one after the other, and adds
its own, and each of these files has done the same before.  A key that is known keeps its place and
gets a new value.

All of this comes to one list: the files in the order in which they are done with, a file behind all
that it extends (`AliasTable.PostOrder`), with what each of them declares.  A file that several
others extend is in it several times, so it may override again what one of them has overridden.
That the list may be gone through at once instead of file by file is `Ordered.putAll_putAll`.
-/

namespace Relocate

namespace AliasTable

open Relation

variable {disk : Disk} {path : Path} {m : Merged}

/-! ## The order of files -/

/-- The files of a list and all that they lead to, each behind the files that it extends. -/
inductive PostOrder (disk : Disk) : List Path → List Path → Prop
  | nil : PostOrder disk [] []
  | cons {path : Path} {declaration : Declaration} {rest below later : List Path}
      (hdeclared : Declaration.load disk path = .ok declaration)
      (hbelow : PostOrder disk (located disk path declaration) below)
      (hlater : PostOrder disk rest later) :
      PostOrder disk (path :: rest) (below ++ path :: later)

theorem PostOrder.append {paths order paths' order' : List Path} (h : PostOrder disk paths order)
    (h' : PostOrder disk paths' order') : PostOrder disk (paths ++ paths') (order ++ order') := by
  induction h with
  | nil => exact h'
  | cons hdeclared hbelow _ _ ih =>
    rw [List.append_assoc]
    exact .cons hdeclared hbelow ih

theorem PostOrder.unique {paths order order' : List Path} (h : PostOrder disk paths order)
    (h' : PostOrder disk paths order') : order = order' := by
  induction h generalizing order' with
  | nil =>
    cases h' with
    | nil => rfl
  | cons hdeclared _ _ ihbelow ihlater =>
    cases h' with
    | cons hdeclared' hbelow' hlater' =>
      cases hdeclared.symm.trans hdeclared'
      rw [ihbelow hbelow', ihlater hlater']

/-! ## Declarations in that order -/

/-- What a file declares itself, with the mapped paths starting from the base directory of its
table. -/
def declared (disk : Disk) (file : Path) : List (String × List Path) :=
  match Declaration.load disk file, load disk file with
  | .ok declaration, .ok (some table) => declaration.entriesFrom table.baseDir
  | _, _ => []

theorem Reads.declared_eq (h : Reads disk path m) {declaration : Declaration}
    (hdeclared : Declaration.load disk path = .ok declaration) :
    declared disk path = declaration.entriesFrom m.baseDir := by
  rw [declared, hdeclared, h.load_eq]
  show declaration.entriesFrom m.baseDir.normalize = _
  rw [h.normalize_baseDir]

/-- The paths of a file are those of all that it leads to, put together in the order of the
files. -/
def Flattens (disk : Disk) (path : Path) (m : Merged) (order : List Path) : Prop :=
  PostOrder disk [path] order ∧ (∀ file ∈ order, ∃ m', Reads disk file m') ∧
    m.paths = Ordered.putAll [] (order.flatMap (declared disk))

/-- What the files of a list add to a map, they add in the order of all that they lead to. -/
theorem exists_flattened {paths : List Path} {bases : List Merged}
    (h : List.Forall₂ (fun base m => ∃ order, Flattens disk base m order) paths bases) :
    ∃ order, PostOrder disk paths order ∧ (∀ file ∈ order, ∃ m', Reads disk file m') ∧
      ∀ taken : Ordered String (List Path), Distinct taken.keys →
        taken.putAll (bases.flatMap Merged.paths) =
          taken.putAll (order.flatMap (declared disk)) := by
  induction h with
  | nil => exact ⟨[], .nil, by simp, fun _ _ => rfl⟩
  | @cons base m paths bases hfirst _ ih =>
    obtain ⟨front, hfront, hreads, hpaths⟩ := hfirst
    obtain ⟨order, horder, hreads', hbases⟩ := ih
    refine ⟨front ++ order, hfront.append horder, ?_, fun taken htaken => ?_⟩
    · intro file hfile
      exact (List.mem_append.1 hfile).elim (hreads file) (hreads' file)
    · -- the first file has put its part together by itself, and this is taken apart again
      rw [List.flatMap_cons, List.flatMap_append, Ordered.putAll_append, Ordered.putAll_append,
        hpaths, Ordered.putAll_putAll htaken]
      exact hbases _ (Ordered.distinct_putAll htaken _)

/-- **Files may be flattened.**  By induction along extensions: what the files that are extended
come to is put together already, and putting it together again with the rest makes no difference. -/
theorem Reads.exists_flattens (h : Reads disk path m) : ∃ order, Flattens disk path m order := by
  refine h.induct fun path declaration bases hdeclared hread hbases => ?_
  obtain ⟨below, hbelow, hreads, hpaths⟩ := exists_flattened (hbases.imp fun _ _ hbase => hbase.2)
  refine ⟨below ++ [path], .cons hdeclared hbelow .nil, ?_, ?_⟩
  · intro file hfile
    rcases List.mem_append.1 hfile with hfile | hfile
    · exact hreads file hfile
    · exact ⟨_, List.mem_singleton.1 hfile ▸ hread⟩
  · rw [Merged.paths_compose, Ordered.putAll_append, hpaths [] List.Pairwise.nil,
      ← Ordered.putAll_append, List.flatMap_append, List.flatMap_singleton,
      hread.declared_eq hdeclared]

end AliasTable

/-- **Aliases are what the declarations override each other to.**  Let all that a file leads to make
sense and no chain of extensions come back.  Then there is one order of the files that it leads to,
a file behind those that it extends and repeated for each file that extends it.  All of them have a
base directory, which their mapped paths start from.  The patterns of the table are the declarations
in that order, each key at the place of its first and with the value of its last one, as far as they
are of use: keys and mapped paths count only with one wildcard at their end, and keys only if a
mapped path is left. -/
theorem aliases_are_overriding_declarations (disk : Disk) (path : Path)
    (hread : AliasTable.Readable disk path) (hacyclic : ¬ AliasTable.Circular disk path) :
    ∃ order table, (∀ order', AliasTable.PostOrder disk [path] order' ↔ order' = order) ∧
      (∀ file ∈ order, ∃ declaration table',
        AliasTable.Declaration.load disk file = .ok declaration ∧
        AliasTable.load disk file = .ok (some table') ∧
        AliasTable.declared disk file = declaration.entriesFrom table'.baseDir) ∧
      AliasTable.load disk path = .ok (some table) ∧
      table.patterns = AliasTable.usable
        (Ordered.overriding (order.flatMap (AliasTable.declared disk))) := by
  obtain ⟨m, hm⟩ := AliasTable.exists_reads hread hacyclic
  obtain ⟨order, horder, hreads, hpaths⟩ := hm.exists_flattens
  refine ⟨order, _, fun order' => ⟨fun h => h.unique horder, fun h => h ▸ horder⟩,
    fun file hfile => ?_, hm.load_eq, ?_⟩
  · obtain ⟨m', hm'⟩ := hreads file hfile
    obtain ⟨declaration, -, hdeclared, -⟩ := hm'.exists_compose
    refine ⟨declaration, _, hdeclared, hm'.load_eq, ?_⟩
    rw [hm'.declared_eq hdeclared, hm'.normalize_baseDir]
  · rw [hpaths, Ordered.putAll_eq_overriding]

namespace Shared

/-- A configuration that extends a third one and overrides one of its keys. -/
def layer (key entry : String) : String :=
  "\x7b\"extends\":\"./c\",\"compilerOptions\":\x7b\"paths\":\x7b\"" ++ key ++ "\":[\"" ++ entry ++
    "\"]\x7d\x7d\x7d"

/-- A configuration that extends two such. -/
def disk : Disk where
  entries :=
    [(["t.json"], .file (.text "\x7b\"extends\":[\"./a\",\"./b\"]\x7d")),
      (["a.json"], .file (.text (layer "x/*" "a/*"))),
      (["b.json"], .file (.text (layer "y/*" "b/*"))),
      (["c.json"], .file (.text
        ("\x7b\"compilerOptions\":\x7b\"paths\":" ++
          "\x7b\"y/*\":[\"c/*\"],\"x/*\":[\"c/*\"]\x7d\x7d\x7d")))]
  workingDir := []

end Shared

/-- What the first of the two overrides, the third one overrides again on behalf of the second. -/
theorem aliases_are_overriding_declarations_of_shared_base :
    AliasTable.Readable Shared.disk ⟨"/t.json"⟩ ∧ ¬ AliasTable.Circular Shared.disk ⟨"/t.json"⟩ ∧
      ∃ order, AliasTable.PostOrder Shared.disk [⟨"/t.json"⟩] order ∧
        [⟨"y/", [⟨"/b"⟩]⟩, ⟨"x/", [⟨"/c"⟩]⟩] = AliasTable.usable
          (Ordered.overriding (order.flatMap (AliasTable.declared Shared.disk))) := by
  have hload : AliasTable.load Shared.disk ⟨"/t.json"⟩ =
      .ok (some ⟨⟨"/t.json"⟩, ⟨"/"⟩, [⟨"y/", [⟨"/b"⟩]⟩, ⟨"x/", [⟨"/c"⟩]⟩]⟩) := by decide +kernel
  obtain ⟨m, hm, -⟩ := AliasTable.load_eq_ok_some hload
  have hread := AliasTable.Reads.readable hm
  have hacyclic := AliasTable.not_circular_of_merged_ok hm
  obtain ⟨order, table, horder, -, htable, hpatterns⟩ :=
    aliases_are_overriding_declarations Shared.disk ⟨"/t.json"⟩ hread hacyclic
  cases hload.symm.trans htable
  exact ⟨hread, hacyclic, order, (horder order).2 rfl, hpatterns⟩

end Relocate
