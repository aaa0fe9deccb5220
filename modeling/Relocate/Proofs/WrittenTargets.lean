import Relocate.Proofs.RoundTrip

/-! # Targets that specifiers lead back to

What is written for a target is read back as the path of the target, whether or not there is
anything at that path.  This needs more than for a file that is there: reading must come to the
same path, not only to the same module, and no probe of the disk may tell two directories apart.

* `alias_leads_back_to_target`: aliases whose leads do not cover one another, with one directory
  each.  Writing takes the first directory that encloses the target, reading the first lead that the
  specifier starts with; the two meet because only one lead can start it.
* `relative_specifier_leads_back_to_target`: whatever aliases and packages have nothing for.
* `package_leads_back_to_target`: writing takes the innermost package and reading the longest name,
  so that only a longer name can come between.
-/

namespace Relocate

open Text Relocate.Path Resolver

/-- The target lies in the directory and is not the directory itself. -/
def Path.HoldsInside (dir target : Path) : Prop :=
  dir.isInDir target = true ∧ dir.normalize ≠ target.normalize

instance (dir target : Path) : Decidable (dir.HoldsInside target) :=
  inferInstanceAs (Decidable (_ ∧ _))

/-- Of two patterns neither covers what starts with the lead of the other. -/
def AliasPattern.Apart (pattern other : AliasPattern) : Prop :=
  Text.startsWith pattern.lead other.lead = false ∧ Text.startsWith other.lead pattern.lead = false

instance (pattern other : AliasPattern) : Decidable (pattern.Apart other) :=
  inferInstanceAs (Decidable (_ ∧ _))

namespace Path

theorem isAbsolute_normalize {p : Path} (h : p.isAbsolute = true) :
    p.normalize.isAbsolute = true :=
  p.isAbsolute_normalize_eq.trans h

theorem place_normalize {p : Path} (h : p.isAbsolute = true) : p.normalize.place = p.place := by
  rw [normalize_eq_ofPlace h, place_ofPlace (plain_place h)]

theorem no_backslash_place {p : Path} (h : p.isAbsolute = true) (hslash : '\\' ∉ p.text.toList) :
    ∀ name ∈ p.place, '\\' ∉ name.toList :=
  fun _ hname hmem => hslash (mem_text_of_mem_place h hname hmem)

theorem isInDir_normalize (dir target : Path) :
    dir.isInDir target.normalize = dir.isInDir target := by
  rw [isInDir, isInDir, normalize_normalize]

theorem relative_normalize (dir target : Path) :
    dir.relative target.normalize = dir.relative target := by
  rw [relative, relative, normalize_normalize]

/-- Names make up no empty path. -/
theorem intercalate_eq_empty_iff {names : Location} (h : Plain names) :
    "/".intercalate names = "" ↔ names = [] := by
  refine ⟨fun hempty => ?_, fun hnil => hnil ▸ rfl⟩
  by_contra hne
  have hcomponents := components_names h
  rw [hempty] at hcomponents
  exact hne (List.map_eq_nil_iff.1 hcomponents.symm)

/-- A relative specifier starts with a step of its own. -/
theorem dotted_cases (up : Nat) (names : Location) :
    dotted up names = "." ∨ dotted up names = ".." ∨ Text.startsWith "./" (dotted up names) = true ∨
      Text.startsWith "../" (dotted up names) = true := by
  obtain ⟨first, pieces, hpieces⟩ := List.exists_cons_of_ne_nil (climbing_ne_nil up)
  have hfirst : first = "." ∨ first = ".." :=
    eq_of_mem_climbing (hpieces ▸ List.mem_cons_self : first ∈ climbing up)
  have hchars := toList_dotted up names
  rw [hpieces, List.cons_append, List.map_cons] at hchars
  cases hrest : (pieces ++ names).map String.toList with
  | nil =>
    have hdotted : dotted up names = first := by
      apply String.toList_inj.1
      rw [hchars, hrest]
      simp
    rw [hdotted]
    exact hfirst.imp_right .inl
  | cons next others =>
    have hlead : Text.startsWith (first ++ "/") (dotted up names) = true := by
      rw [Text.startsWith, List.isPrefixOf_iff_prefix, hchars, hrest, List.intercalate_cons_cons,
        String.toList_append]
      exact List.prefix_append _ _
    rcases hfirst with rfl | rfl
    · exact .inr (.inr (.inl hlead))
    · exact .inr (.inr (.inr hlead))

end Path

namespace Resolver

variable {r : Resolver} {disk : Disk} {file target : Path} {specifier : String}

theorem startsWith_dot_append {lead tail : String} (hne : lead ≠ "")
    (h : Text.startsWith "." lead = false) : Text.startsWith "." (lead ++ tail) = false := by
  rw [Text.startsWith, Bool.eq_false_iff, ne_eq, List.isPrefixOf_iff_prefix] at h ⊢
  rw [String.toList_append]
  intro hprefix
  cases hchars : lead.toList with
  | nil => exact hne (String.toList_inj.1 hchars)
  | cons c rest =>
    rw [hchars, List.cons_append] at hprefix
    rw [hchars] at h
    exact h (List.cons_prefix_cons.2 ⟨(List.cons_prefix_cons.1 hprefix).1, List.nil_prefix⟩)

/-- What a directory encloses lies inside it. -/
theorem encloses_iff (htarget : target.isAbsolute = true) (hslash : '\\' ∉ target.text.toList)
    (dir : Path) : encloses target dir = true ↔ dir.HoldsInside target := by
  rw [encloses, Bool.and_eq_true, bne_iff_ne, HoldsInside]
  refine and_congr_right fun hin => not_congr ?_
  have hdir := isAbsolute_of_isInDir htarget hin
  obtain ⟨names, hnames⟩ := exists_place_append htarget hin
  have hplain := plain_place htarget
  rw [hnames] at hplain
  have hslashes : ∀ name ∈ names, '\\' ∉ name.toList := fun name hname =>
    no_backslash_place htarget hslash name (hnames ▸ List.mem_append_right _ hname)
  rw [slashed_relative_below hdir htarget hnames hslashes, intercalate_eq_empty_iff hplain.right,
    normalize_eq_ofPlace hdir, normalize_eq_ofPlace htarget,
    ofPlace_inj (plain_place hdir) (plain_place htarget), hnames]
  exact ⟨fun hnil => by rw [hnil, List.append_nil], fun heq => by simpa using heq⟩

theorem encloses_normalize (target dir : Path) :
    encloses target.normalize dir = encloses target dir := by
  rw [encloses, encloses, isInDir_normalize, relative_normalize]

/-- A single directory is trusted, whatever the disk holds. -/
theorem patternPath?_of_single {pattern : AliasPattern} {dir : Path}
    (h : pattern.directories = [dir]) :
    r.patternPath? disk pattern specifier = pathBelow? pattern.lead dir specifier := by
  unfold patternPath? pathBelow? AliasPattern.tail?
  rw [h]
  cases dropLead? pattern.lead specifier with
  | none => rfl
  | some tail =>
    rw [Option.bind_some, Option.map_some]
    dsimp only
    rw [List.map_cons, List.map_nil, List.find?_cons, List.find?_nil]
    cases (Identity.locate? disk r.known (dir.join ⟨tail⟩).normalize).isSome <;> rfl

/-- A pattern has nothing for a specifier that another one starts. -/
theorem patternPath?_of_apart {pattern other : AliasPattern} (h : other.Apart pattern)
    (tail : String) : r.patternPath? disk other (pattern.lead ++ tail) = none := by
  have hlead : dropLead? other.lead (pattern.lead ++ tail) = none := by
    cases hdrop : dropLead? other.lead (pattern.lead ++ tail) with
    | none => rfl
    | some tail' =>
      exfalso
      have hchars := congrArg String.toList (dropLead?_eq_some_iff.1 hdrop)
      rw [String.toList_append, String.toList_append] at hchars
      obtain ⟨hcovers, hcovered⟩ := h
      rw [Text.startsWith, Bool.eq_false_iff, ne_eq, List.isPrefixOf_iff_prefix] at hcovers hcovered
      -- two leads of one text: the longer one starts with the shorter one
      rcases List.append_eq_append_iff.1 hchars with ⟨mid, hmid, -⟩ | ⟨mid, hmid, -⟩
      · exact hcovers ⟨mid, hmid.symm⟩
      · exact hcovered ⟨mid, hmid.symm⟩
  rw [patternPath?, AliasPattern.tail?, hlead, Option.bind_none]

/-- If no alias covers another, the one that a specifier starts with decides. -/
theorem aliasPath?_of_apart {table : AliasTable} {ahead behind : List AliasPattern}
    {pattern : AliasPattern} {dir : Path} (htable : r.nearestTable? file = some table)
    (hpatterns : table.patterns = ahead ++ pattern :: behind)
    (hapart : table.patterns.Pairwise AliasPattern.Apart) (hdir : pattern.directories = [dir])
    (tail : String) :
    r.aliasPath? disk file (pattern.lead ++ tail) = some (dir.join ⟨tail⟩).normalize := by
  have hahead : ahead.findSome? (fun other => r.patternPath? disk other (pattern.lead ++ tail)) =
      none := by
    rw [hpatterns, List.pairwise_append] at hapart
    refine List.findSome?_eq_none_iff.2 fun other hother => ?_
    exact patternPath?_of_apart (hapart.2.2 other hother pattern List.mem_cons_self) tail
  have hown : r.patternPath? disk pattern (pattern.lead ++ tail) =
      some (dir.join ⟨tail⟩).normalize := by
    rw [patternPath?_of_single hdir, pathBelow?, dropLead?_eq_some_iff.2 rfl, Option.map_some]
  rw [aliasPath?, htable, Option.bind_some, hpatterns, List.findSome?_append, hahead,
    Option.none_or, List.findSome?_cons, hown]

theorem exists_aliasMeans? {table : AliasTable} {pattern : AliasPattern} {dir : Path}
    (hpattern : pattern ∈ table.patterns) (hdir : dir ∈ pattern.directories)
    (h : encloses target dir = true) : ∃ means, aliasMeans? table target = some means := by
  rw [← Option.isSome_iff_exists, aliasMeans?, List.findSome?_isSome_iff]
  refine ⟨pattern, hpattern, ?_⟩
  rw [Option.isSome_map, List.find?_isSome]
  exact ⟨dir, hdir, h⟩

theorem aliasMeans?_eq_none {table : AliasTable}
    (h : ∀ pattern ∈ table.patterns, ∀ dir ∈ pattern.directories, encloses target dir ≠ true) :
    aliasMeans? table target = none := by
  rw [aliasMeans?, List.findSome?_eq_none_iff]
  intro pattern hpattern
  rw [Option.map_eq_none_iff, List.find?_eq_none]
  exact h pattern hpattern

/-- What neither an alias nor a package is there for is written as a relative path. -/
theorem meansFor_eq_relative
    (haliases : ∀ table ∈ r.nearestTable? file, ∀ pattern ∈ table.patterns,
      ∀ dir ∈ pattern.directories, encloses target dir ≠ true)
    (hpackages : r.packages.specifier? file target = none) :
    r.meansFor file target = .relative := by
  have hmapped : ((r.nearestTable? file).bind fun table => aliasMeans? table target) = none :=
    Option.bind_eq_none_iff.2 fun table htable => aliasMeans?_eq_none (haliases table htable)
  rw [specifier?_eq, Option.map_eq_none_iff] at hpackages
  rw [meansFor, hmapped, hpackages]
  rfl

end Resolver

/-- **A target inside a mapped directory is led back to by the alias that is written for it**, if no
alias covers another and each has one directory. -/
theorem alias_leads_back_to_target {r : Resolver} (disk : Disk) {file target : Path}
    {table : AliasTable} (hfile : file.isAbsolute = true)
    (htable : r.nearestTable? file = some table)
    (hapart : table.patterns.Pairwise AliasPattern.Apart)
    (hleads : ∀ pattern ∈ table.patterns, pattern.lead ≠ "" ∧
      Text.startsWith "." pattern.lead = false ∧ pattern.directories.length = 1)
    (htarget : target.isAbsolute = true) (hslash : '\\' ∉ target.text.toList)
    (hinside : ∃ pattern ∈ table.patterns, ∃ dir ∈ pattern.directories, dir.HoldsInside target) :
    r.resolvePath? disk file (r.specifierFor file target) = some target.normalize := by
  have hslashes := no_backslash_place htarget hslash
  rw [← place_normalize htarget] at hslashes
  obtain ⟨means, hmeans⟩ : ∃ means, aliasMeans? table target.normalize = some means := by
    obtain ⟨pattern, hpattern, dir, hdir, hholds⟩ := hinside
    refine exists_aliasMeans? hpattern hdir ?_
    rw [encloses_normalize, encloses_iff htarget hslash]
    exact hholds
  have hmeansFor : r.meansFor file target.normalize = means := by
    rw [meansFor, htable, Option.bind_some, hmeans]
    rfl
  have hpath := path?_write hfile (isAbsolute_normalize htarget) (normalize_normalize target)
    hslashes (r.suits_meansFor file target.normalize)
  obtain ⟨ahead, pattern, behind, passed, dir, others, rfl, hpatterns, hdirs, -⟩ :=
    aliasMeans?_eq_some hmeans
  obtain ⟨hlead, hdot, hsingle⟩ := hleads pattern (by simp [hpatterns])
  have hdir : pattern.directories = [dir] := by
    obtain ⟨only, honly⟩ := List.length_eq_one_iff.1 hsingle
    have hmem : dir ∈ [only] := honly ▸ hdirs ▸ by simp
    rw [honly, List.mem_singleton.1 hmem]
  rw [hmeansFor, Means.write, Means.path?, pathBelow?, dropLead?_eq_some_iff.2 rfl,
    Option.map_some] at hpath
  rw [specifierFor_eq_write, hmeansFor, Means.write, resolvePath?,
    startsWith_dot_append hlead hdot, if_neg (by simp),
    aliasPath?_of_apart htable hpatterns hapart hdir, hpath, Option.some_or]

namespace Mappings

/-- Two aliases of which the first maps a directory in that of the second. -/
def nestedTable : AliasTable :=
  ⟨⟨"/tsconfig.json"⟩, ⟨"/"⟩, [⟨"@lib/", [⟨"/src/lib"⟩]⟩, ⟨"@src/", [⟨"/src"⟩]⟩]⟩

/-- A resolver with these aliases. -/
def nested : Resolver := ⟨.standard, [(⟨"/"⟩, nestedTable)], .none⟩

end Mappings

/-- A mapped directory is no target of its own alias, but of that of the directory around it. -/
theorem alias_leads_back_to_target_around :
    Mappings.nested.specifierFor ⟨"/main.ts"⟩ ⟨"/src/lib"⟩ = "@src/lib" ∧
      Mappings.nested.specifierFor ⟨"/main.ts"⟩ ⟨"/src/lib/.new/x.ts"⟩ = "@lib/.new/x.ts" ∧
      Mappings.disk.contains ⟨"/src/lib"⟩ = false ∧
      Mappings.nested.resolvePath? Mappings.disk ⟨"/main.ts"⟩
        (Mappings.nested.specifierFor ⟨"/main.ts"⟩ ⟨"/src/lib"⟩) = some ⟨"/src/lib"⟩ := by
  have htable : Mappings.nested.nearestTable? ⟨"/main.ts"⟩ = some Mappings.nestedTable := by
    decide +kernel
  refine ⟨by decide +kernel, by decide +kernel, by decide +kernel, ?_⟩
  exact alias_leads_back_to_target Mappings.disk (by decide) htable (by decide) (by decide)
    (by decide) (by decide) (by decide +kernel)

/-- **A relative specifier leads back to its target**, however file and target are written and
whatever names are on the way. -/
theorem relative_specifier_leads_back_to_target (r : Resolver) (disk : Disk) {file target : Path}
    (hfile : file.isAbsolute = true) (htarget : target.isAbsolute = true)
    (hslash : '\\' ∉ target.text.toList)
    (haliases : ∀ table ∈ r.nearestTable? file, ∀ pattern ∈ table.patterns,
      ∀ dir ∈ pattern.directories, ¬ dir.HoldsInside target)
    (hpackages : r.packages.specifier? file target.normalize = none) :
    r.resolvePath? disk file (r.specifierFor file target) = some target.normalize ∧
      (r.specifierFor file target = "." ∨ r.specifierFor file target = ".." ∨
        Text.startsWith "./" (r.specifierFor file target) = true ∨
        Text.startsWith "../" (r.specifierFor file target) = true) := by
  have hmeans : r.meansFor file target.normalize = .relative := by
    refine meansFor_eq_relative (fun table htable pattern hpattern dir hdir => ?_) hpackages
    rw [encloses_normalize, ne_eq, encloses_iff htarget hslash]
    exact haliases table htable pattern hpattern dir hdir
  obtain ⟨place, above, names, hdir, hplace, hwritten⟩ :=
    relativeSpecifier_relative hfile htarget (no_backslash_place htarget hslash)
  have hplain := plain_place htarget
  rw [hplace] at hplain
  rw [specifierFor_eq_write, hmeans, Means.write, hwritten,
    resolvePath?_dotted r disk hfile hdir hplain.right, normalize_eq_ofPlace htarget, hplace]
  exact ⟨rfl, dotted_cases _ _⟩

/-- A name that starts with two dots is no step up, and neither path is in normal form. -/
theorem relative_specifier_leads_back_to_target_dots :
    Mappings.apart.specifierFor ⟨"/app/../main/./a.ts"⟩ ⟨"/main/x/../..foo"⟩ = "./..foo" ∧
      Mappings.apart.resolvePath? Mappings.disk ⟨"/app/../main/./a.ts"⟩
        (Mappings.apart.specifierFor ⟨"/app/../main/./a.ts"⟩ ⟨"/main/x/../..foo"⟩) =
          some ⟨"/main/..foo"⟩ := by
  have hfile : Path.isAbsolute ⟨"/app/../main/./a.ts"⟩ = true := by decide
  have htarget : Path.isAbsolute ⟨"/main/x/../..foo"⟩ = true := by decide
  refine ⟨by decide +kernel, ?_⟩
  exact (relative_specifier_leads_back_to_target Mappings.apart Mappings.disk hfile htarget
    (by decide) (by decide +kernel) (by decide +kernel)).1

namespace Packages

/-- The package holds the target and not the file that imports it, and none that does so lies
deeper. -/
structure Innermost (p : Packages) (source target : Path) (name : String) (root : Path) : Prop where
  mem : (name, root) ∈ p.roots
  holds : root.isInDir target = true
  not_holds_source : root.isInDir source = false
  deepest : ∀ other ∈ p.roots, other.2.isInDir target = true → other.2.isInDir source = false →
    other.2.components.length ≤ root.components.length

theorem innermost_of_specifier? {p : Packages} {source target : Path} {specifier : String}
    (h : p.specifier? source target = some specifier) :
    ∃ name root, p.Innermost source target name root ∧ (root.relative target).slashed ≠ "" ∧
      specifier = name ++ "/" ++ (root.relative target).slashed := by
  obtain ⟨⟨name, root⟩, hbest, hwritten⟩ := Option.bind_eq_some_iff.1 h
  dsimp only at hwritten
  split at hwritten
  · simp at hwritten
  · rename_i htail
    have hmem := mem_of_lastGreatest? hbest
    rw [List.mem_filter, Bool.and_eq_true, Bool.not_eq_true'] at hmem
    refine ⟨name, root, ⟨hmem.1, hmem.2.1, hmem.2.2, ?_⟩, htail, (Option.some.inj hwritten).symm⟩
    intro other hother hin hout
    have hholding : other ∈ p.roots.filter fun item =>
        item.2.isInDir target && !item.2.isInDir source :=
      List.mem_filter.2 ⟨hother, by simp [hin, hout]⟩
    exact le_of_lastGreatest? hbest hholding

end Packages

/-- **A package leads back to its target**, unless a longer name takes the specifier. -/
theorem package_leads_back_to_target (claims : List (String × Path)) {source target : Path}
    {specifier : String} (htarget : target.isAbsolute = true) (hslash : '\\' ∉ target.text.toList)
    (h : (Packages.ofClaims claims).specifier? source target = some specifier) :
    ∃ name root, (Packages.ofClaims claims).Innermost source target name root ∧
      specifier = name ++ "/" ++ (root.relative target).slashed ∧
      ((Packages.ofClaims claims).resolve? specifier = some target.normalize ∨
        ∃ other ∈ (Packages.ofClaims claims).roots, name.utf8ByteSize < other.1.utf8ByteSize ∧
          Text.startsWith (other.1 ++ "/") specifier = true) := by
  obtain ⟨name, root, hroot, htail, rfl⟩ := Packages.innermost_of_specifier? h
  refine ⟨name, root, hroot, rfl, ?_⟩
  have hencloses : encloses target root = true := by simp [encloses, hroot.holds, htail]
  obtain ⟨names, hdir, hnames, hwritten⟩ :=
    exists_names_of_encloses htarget (no_backslash_place htarget hslash) hencloses
  have hplain := plain_place htarget
  rw [hnames] at hplain
  have hpath : pathBelow? (name ++ "/") root (name ++ "/" ++ (root.relative target).slashed) =
      some target.normalize := by
    rw [hwritten, pathBelow?_append _ hdir hplain.right, ← hnames, normalize_eq_ofPlace htarget]
  rcases packages_resolve?_cases hroot.mem hpath with hback | ⟨other, hother, hlonger, hlead, -⟩
  · exact .inl hback
  · exact .inr ⟨other, hother, hlonger, hlead⟩

namespace Mappings

/-- Packages of which one bears the path of a directory in the other as its name. -/
def shadowing : Packages := .ofClaims [("@org/core", ⟨"/core"⟩), ("@org/core/util", ⟨"/util"⟩)]

end Mappings

/-- A target in a directory whose path is a longer name is not led back to. -/
theorem package_leads_back_to_target_unless_shadowed :
    Mappings.shadowing.specifier? ⟨"/main.ts"⟩ ⟨"/core/util/x.ts"⟩ = some "@org/core/util/x.ts" ∧
      Mappings.shadowing.resolve? "@org/core/util/x.ts" = some ⟨"/util/x.ts"⟩ ∧
      ∃ name root, Mappings.shadowing.Innermost ⟨"/main.ts"⟩ ⟨"/core/util/x.ts"⟩ name root ∧
        "@org/core/util/x.ts" = name ++ "/" ++ (root.relative ⟨"/core/util/x.ts"⟩).slashed ∧
        (Mappings.shadowing.resolve? "@org/core/util/x.ts" =
            some (Path.normalize ⟨"/core/util/x.ts"⟩) ∨
          ∃ other ∈ Mappings.shadowing.roots, name.utf8ByteSize < other.1.utf8ByteSize ∧
            Text.startsWith (other.1 ++ "/") "@org/core/util/x.ts" = true) := by
  refine ⟨by decide +kernel, by decide +kernel, ?_⟩
  exact package_leads_back_to_target [("@org/core", ⟨"/core"⟩), ("@org/core/util", ⟨"/util"⟩)]
    (by decide) (by decide) (by decide +kernel)

end Relocate
