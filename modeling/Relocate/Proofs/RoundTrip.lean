import Relocate.Proofs.FlatIndex
import Relocate.Proofs.ModulePaths
import Relocate.Proofs.NormalForms

/-! # Specifiers that are read back

A specifier is written with an alias if a mapped directory encloses the target, else with a package,
else as a relative path (`Resolver.meansFor`).  It is read by other rules: what starts with a dot is
relative, the first pattern of the alias table that takes a specifier decides, in the first of its
directories that holds such a module, and of the packages the one with the longest name.

So a specifier may be taken by something else before its own turn comes.  `Resolver.Undisputed` says
that whatever is tried before what the specifier was written with, and takes it, leads to the module
that is meant, and `Resolver.resolve?_of_undisputed` that reading then finds that module.  What is
written for a file is such a specifier for the file, and a relative one always is.
-/

namespace Relocate

open Text

/-! ## Leads of texts -/

namespace Text

theorem dropLead?_eq_some_iff {lead text tail : String} :
    dropLead? lead text = some tail ↔ lead ++ tail = text := by
  rw [dropLead?, Option.map_eq_some_iff]
  constructor
  · rintro ⟨back, hback, rfl⟩
    apply String.toList_inj.1
    rw [String.toList_append, String.toList_ofList]
    exact List.isPrefixOf?_eq_some_iff_append_eq.1 hback
  · rintro rfl
    refine ⟨tail.toList, ?_, String.ofList_toList⟩
    rw [List.isPrefixOf?_eq_some_iff_append_eq, String.toList_append]

theorem startsWith_eq_true_iff {lead text : String} :
    startsWith lead text = true ↔ ∃ tail, lead ++ tail = text := by
  rw [startsWith, List.isPrefixOf_iff_prefix]
  constructor
  · rintro ⟨back, hback⟩
    refine ⟨String.ofList back, String.toList_inj.1 ?_⟩
    rw [String.toList_append, String.toList_ofList, hback]
  · rintro ⟨tail, rfl⟩
    rw [String.toList_append]
    exact List.prefix_append _ _

/-- Two leads of a text that take up the same room are the same. -/
theorem eq_of_append_eq_append {lead lead' tail tail' : String}
    (hsize : lead.utf8ByteSize = lead'.utf8ByteSize) (h : lead ++ tail = lead' ++ tail') :
    lead = lead' ∧ tail = tail' := by
  have hchars := congrArg String.toList h
  rw [String.toList_append, String.toList_append] at hchars
  have hempty : ∀ a b : String, ∀ mid : List Char, a.utf8ByteSize = b.utf8ByteSize →
      b.toList = a.toList ++ mid → mid = [] := by
    intro a b mid hab hmid
    have hb : b = a ++ String.ofList mid := by
      apply String.toList_inj.1
      rw [hmid, String.toList_append, String.toList_ofList]
    rw [hb, String.utf8ByteSize_append] at hab
    have hzero : (String.ofList mid).utf8ByteSize = 0 := by omega
    have hofList := String.utf8ByteSize_eq_zero_iff.1 hzero
    simpa using congrArg String.toList hofList
  have hsame : lead.toList = lead'.toList := by
    rcases List.append_eq_append_iff.1 hchars with ⟨mid, hmid, -⟩ | ⟨mid, hmid, -⟩
    · rw [hmid, hempty lead lead' mid hsize hmid, List.append_nil]
    · rw [hmid, hempty lead' lead mid hsize.symm hmid, List.append_nil]
  refine ⟨String.toList_inj.1 hsame, String.toList_inj.1 ?_⟩
  rw [hsame] at hchars
  exact List.append_cancel_left hchars

end Text

/-! ## The first and the greatest of several -/

section

variable {α β : Type}

/-- What is found first has the property if all that may come before has it. -/
theorem exists_findSome?_append {f : α → Option β} {P : β → Prop} {front : List α} {item : α}
    (back : List α) (hfront : ∀ other ∈ front, ∀ found ∈ f other, P found)
    (hitem : ∃ found ∈ f item, P found) :
    ∃ found ∈ (front ++ item :: back).findSome? f, P found := by
  induction front with
  | nil =>
    obtain ⟨found, hfound, hP⟩ := hitem
    refine ⟨found, ?_, hP⟩
    rw [List.nil_append, List.findSome?_cons, Option.mem_def.1 hfound]
    rfl
  | cons first front ih =>
    rw [List.cons_append, List.findSome?_cons]
    cases hfirst : f first with
    | some found => exact ⟨found, rfl, hfront first List.mem_cons_self found hfirst⟩
    | none => exact ih fun other hother => hfront other (List.mem_cons_of_mem _ hother)

variable {measure : α → Nat} {items : List α} {best : α}

theorem lastGreatest?_cases (measure : α → Nat) (item : α) (items : List α) :
    (lastGreatest? measure items = none ∧ lastGreatest? measure (item :: items) = some item) ∨
      ∃ best, lastGreatest? measure items = some best ∧
        (measure best < measure item ∧ lastGreatest? measure (item :: items) = some item ∨
          measure item ≤ measure best ∧ lastGreatest? measure (item :: items) = some best) := by
  rw [lastGreatest?]
  cases lastGreatest? measure items with
  | none => exact .inl ⟨rfl, rfl⟩
  | some best =>
    refine .inr ⟨best, rfl, ?_⟩
    by_cases hlt : measure best < measure item
    · exact .inl ⟨hlt, if_pos hlt⟩
    · exact .inr ⟨Nat.le_of_not_lt hlt, if_neg hlt⟩

theorem mem_of_lastGreatest? (h : lastGreatest? measure items = some best) : best ∈ items := by
  induction items generalizing best with
  | nil => simp [lastGreatest?] at h
  | cons item items ih =>
    rcases lastGreatest?_cases measure item items with
      ⟨-, heq⟩ | ⟨other, hother, ⟨-, heq⟩ | ⟨-, heq⟩⟩
    · obtain rfl : item = best := by simpa [heq] using h
      exact List.mem_cons_self
    · obtain rfl : item = best := by simpa [heq] using h
      exact List.mem_cons_self
    · obtain rfl : other = best := by simpa [heq] using h
      exact List.mem_cons_of_mem _ (ih hother)

theorem exists_lastGreatest? (measure : α → Nat) {item : α} (h : item ∈ items) :
    ∃ best, lastGreatest? measure items = some best ∧ measure item ≤ measure best := by
  induction items with
  | nil => simp at h
  | cons first items ih =>
    rcases lastGreatest?_cases measure first items with
      ⟨hnone, heq⟩ | ⟨other, hother, ⟨hlt, heq⟩ | ⟨hle, heq⟩⟩
    · rcases List.mem_cons.1 h with rfl | h
      · exact ⟨_, heq, Nat.le_refl _⟩
      · obtain ⟨best, hbest, -⟩ := ih h
        rw [hnone] at hbest
        simp at hbest
    · refine ⟨_, heq, ?_⟩
      rcases List.mem_cons.1 h with rfl | h
      · exact Nat.le_refl _
      · obtain ⟨best, hbest, hle⟩ := ih h
        obtain rfl : other = best := Option.some.inj (hother.symm.trans hbest)
        omega
    · refine ⟨_, heq, ?_⟩
      rcases List.mem_cons.1 h with rfl | h
      · exact hle
      · obtain ⟨best, hbest, hle⟩ := ih h
        obtain rfl : other = best := Option.some.inj (hother.symm.trans hbest)
        exact hle

theorem le_of_lastGreatest? (h : lastGreatest? measure items = some best) {item : α}
    (hitem : item ∈ items) : measure item ≤ measure best := by
  obtain ⟨other, hother, hle⟩ := exists_lastGreatest? measure hitem
  obtain rfl : best = other := Option.some.inj (h.symm.trans hother)
  exact hle

end

namespace Packages

/-- No package has two directories. -/
theorem distinct_ofClaims (claims : List (String × Path)) :
    Distinct (Ordered.keys (ofClaims claims).roots) := by
  suffices key : ∀ start : Ordered String Path × List String, Distinct (Ordered.keys start.1) →
      Distinct (Ordered.keys (claims.foldl addClaim start).1) from
    key ([], []) List.Pairwise.nil
  induction claims with
  | nil => exact fun start h => h
  | cons claim claims ih =>
    intro start h
    refine ih _ ?_
    obtain ⟨roots, disputed⟩ := start
    obtain ⟨name, root⟩ := claim
    unfold addClaim
    dsimp only
    split
    · exact h
    · split
      · exact Ordered.distinct_put h _ _
      · split
        · exact h
        · exact Ordered.distinct_erase h _

theorem root_eq_of_mem {claims : List (String × Path)} {name : String} {root root' : Path}
    (h : (name, root) ∈ (ofClaims claims).roots) (h' : (name, root') ∈ (ofClaims claims).roots) :
    root = root' := by
  have hdistinct := distinct_ofClaims claims
  generalize (ofClaims claims).roots = roots at h h' hdistinct
  induction roots with
  | nil => simp at h
  | cons item roots ih =>
    rw [Ordered.keys_cons] at hdistinct
    obtain ⟨hitem, hrest⟩ := List.pairwise_cons.1 hdistinct
    have hother : ∀ root, (item.1, root) ∉ roots := by
      intro root hmem
      simpa using hitem item.1 (List.mem_map.2 ⟨_, hmem, rfl⟩)
    rcases List.mem_cons.1 h with rfl | hmem
    · rcases List.mem_cons.1 h' with heq | hmem'
      · exact (Prod.mk.inj heq).2.symm
      · exact absurd hmem' (hother root')
    · rcases List.mem_cons.1 h' with rfl | hmem'
      · exact absurd hmem (hother root)
      · exact ih hmem hmem' hrest

end Packages

namespace Resolver

open Relocate.Path

/-! ## What a specifier is written with -/

/-- What a specifier is written with. -/
inductive Means where
  /-- A directory of an alias pattern.  The patterns `ahead` of it in the table enclose the target
  in no directory, nor do the directories `passed` of the pattern itself. -/
  | mapped (ahead : List AliasPattern) (pattern : AliasPattern) (passed : List Path) (dir : Path)
  | package (name : String) (root : Path)
  | relative
  deriving DecidableEq, Repr

/-- The directory holds the target and is not the target. -/
def encloses (target dir : Path) : Bool := dir.isInDir target && (dir.relative target).slashed != ""

/-- The first directory of an alias table that encloses the target. -/
def aliasMeans? (table : AliasTable) (target : Path) : Option Means :=
  table.patterns.findSome? fun pattern =>
    (pattern.directories.find? (encloses target)).map fun dir =>
      .mapped (table.patterns.takeWhile fun other => !other.directories.any (encloses target))
        pattern (pattern.directories.takeWhile fun other => !encloses target other) dir

/-- The innermost package that holds the target and not the file. -/
def packageMeans? (packages : Packages) (file target : Path) : Option Means :=
  let holding := packages.roots.filter fun (_, root) => root.isInDir target && !root.isInDir file
  (lastGreatest? (fun (_, root) => root.components.length) holding).bind fun (name, root) =>
    if (root.relative target).slashed = "" then none else some (.package name root)

/-- What the specifier of a target is written with in a file. -/
def meansFor (r : Resolver) (file target : Path) : Means :=
  (((r.nearestTable? file).bind fun table => aliasMeans? table target).or
    (packageMeans? r.packages file target)).getD .relative

/-- The specifier of a target, written with the given means. -/
def Means.write (file target : Path) : Means → String
  | mapped _ pattern _ dir => pattern.lead ++ (dir.relative target).slashed
  | package name root => name ++ "/" ++ (root.relative target).slashed
  | relative => relativeSpecifier ((directoryOf file).relative target).slashed

theorem aliasSpecifier?_eq (table : AliasTable) (file target : Path) :
    aliasSpecifier? table target = (aliasMeans? table target).map (Means.write file target) := by
  have hdirs : ∀ (pattern : AliasPattern) (dirs : List Path),
      (dirs.findSome? fun dir =>
        if dir.isInDir target then
          let tail := (dir.relative target).slashed
          if tail = "" then none else some (pattern.lead ++ tail)
        else none) =
      (dirs.find? (encloses target)).map
        fun dir => pattern.lead ++ (dir.relative target).slashed := by
    intro pattern dirs
    induction dirs with
    | nil => rfl
    | cons dir dirs ih =>
      rw [List.findSome?_cons, List.find?_cons]
      by_cases hin : dir.isInDir target = true
      · by_cases htail : (dir.relative target).slashed = ""
        · simp [encloses, hin, htail, ih]
        · have hencloses : encloses target dir = true := by simp [encloses, hin, htail]
          simp [hencloses, hin, htail]
      · simp [encloses, hin, ih]
  rw [aliasSpecifier?, aliasMeans?, List.map_findSome?]
  congr 1
  funext pattern
  rw [hdirs, Function.comp_apply, Option.map_map]
  rfl

theorem specifier?_eq (packages : Packages) (file target : Path) :
    packages.specifier? file target =
      (packageMeans? packages file target).map (Means.write file target) := by
  unfold Packages.specifier? packageMeans?
  dsimp only
  rw [Option.map_bind]
  refine congrArg (Option.bind _) (funext fun item => ?_)
  obtain ⟨name, root⟩ := item
  dsimp only [Function.comp_apply]
  split
  · rfl
  · rfl

/-- **A specifier is written with its means.** -/
theorem specifierFor_eq_write (r : Resolver) (file target : Path) :
    r.specifierFor file target =
      (r.meansFor file target.normalize).write file target.normalize := by
  have hmeans : ((r.nearestTable? file).bind fun table => aliasSpecifier? table target.normalize).or
      (r.packages.specifier? file target.normalize) =
      (((r.nearestTable? file).bind fun table => aliasMeans? table target.normalize).or
        (packageMeans? r.packages file target.normalize)).map
          (Means.write file target.normalize) := by
    rw [Option.map_or, Option.map_bind, specifier?_eq]
    congr 2
    funext table
    exact aliasSpecifier?_eq table file _
  unfold specifierFor meansFor
  dsimp only
  rw [hmeans]
  cases ((r.nearestTable? file).bind fun table => aliasMeans? table target.normalize).or
      (packageMeans? r.packages file target.normalize) with
  | none => rfl
  | some means => rfl

theorem aliasMeans?_eq_some {table : AliasTable} {target : Path} {means : Means}
    (h : aliasMeans? table target = some means) :
    ∃ ahead pattern behind passed dir others, means = .mapped ahead pattern passed dir ∧
      table.patterns = ahead ++ pattern :: behind ∧
      pattern.directories = passed ++ dir :: others ∧ encloses target dir = true := by
  obtain ⟨ahead, pattern, behind, hpatterns, hmeans, hahead⟩ := List.findSome?_eq_some_iff.1 h
  obtain ⟨dir, hdir, rfl⟩ := Option.map_eq_some_iff.1 hmeans
  obtain ⟨henclosed, passed, others, hdirs, hpassed⟩ := List.find?_eq_some_iff_append.1 hdir
  have hreached : pattern.directories.any (encloses target) = true :=
    List.any_eq_true.2 ⟨dir, by simp [hdirs], henclosed⟩
  have hmissed : ∀ other ∈ ahead, (!other.directories.any (encloses target)) = true := by
    intro other hother
    have hnone := List.find?_eq_none.1 (Option.map_eq_none_iff.1 (hahead other hother))
    rw [Bool.not_eq_true', Bool.eq_false_iff, ne_eq, List.any_eq_true]
    rintro ⟨dir, hdir, hencloses⟩
    exact hnone dir hdir hencloses
  refine ⟨ahead, pattern, behind, passed, dir, others, ?_, hpatterns, hdirs, henclosed⟩
  have hfirst : (table.patterns.takeWhile fun other => !other.directories.any (encloses target)) =
      ahead := by
    rw [hpatterns, List.takeWhile_append_of_pos hmissed,
      List.takeWhile_cons_of_neg (by simp [hreached]), List.append_nil]
  have hnear : (pattern.directories.takeWhile fun other => !encloses target other) = passed := by
    rw [hdirs, List.takeWhile_append_of_pos hpassed,
      List.takeWhile_cons_of_neg (by simp [henclosed]), List.append_nil]
  rw [hfirst, hnear]

theorem packageMeans?_eq_some {packages : Packages} {file target : Path} {means : Means}
    (h : packageMeans? packages file target = some means) :
    ∃ name root, means = .package name root ∧ (name, root) ∈ packages.roots ∧
      encloses target root = true := by
  obtain ⟨⟨name, root⟩, hbest, hmeans⟩ := Option.bind_eq_some_iff.1 h
  dsimp only at hmeans
  split at hmeans
  · simp at hmeans
  · rename_i htail
    obtain ⟨hmem, hholds⟩ := List.mem_filter.1 (mem_of_lastGreatest? hbest)
    have hin : root.isInDir target = true := (Bool.and_eq_true_iff.1 hholds).1
    exact ⟨name, root, (Option.some.inj hmeans).symm, hmem, by simp [encloses, hin, htail]⟩

/-- The means are there, and a directory that is among them encloses the target. -/
inductive Suits (r : Resolver) (file target : Path) : Means → Prop
  | mapped {table : AliasTable} {ahead behind : List AliasPattern} {pattern : AliasPattern}
      {passed others : List Path} {dir : Path} (table_eq : r.nearestTable? file = some table)
      (patterns_eq : table.patterns = ahead ++ pattern :: behind)
      (directories_eq : pattern.directories = passed ++ dir :: others)
      (enclosed : encloses target dir = true) :
      Suits r file target (.mapped ahead pattern passed dir)
  | package {name : String} {root : Path} (mem : (name, root) ∈ r.packages.roots)
      (enclosed : encloses target root = true) : Suits r file target (.package name root)
  | relative : Suits r file target .relative

theorem suits_meansFor (r : Resolver) (file target : Path) :
    r.Suits file target (r.meansFor file target) := by
  unfold meansFor
  cases hmapped : (r.nearestTable? file).bind fun table => aliasMeans? table target with
  | some means =>
    obtain ⟨table, htable, hmeans⟩ := Option.bind_eq_some_iff.1 hmapped
    obtain ⟨ahead, pattern, behind, passed, dir, others, rfl, hpatterns, hdirs, hdir⟩ :=
      aliasMeans?_eq_some hmeans
    exact .mapped htable hpatterns hdirs hdir
  | none =>
    cases hpackage : packageMeans? r.packages file target with
    | some means =>
      obtain ⟨name, root, rfl, hmem, hroot⟩ := packageMeans?_eq_some hpackage
      exact .package hmem hroot
    | none => exact .relative

/-! ## What a specifier is read with -/

/-- The path that a specifier with the given lead means below a directory. -/
def pathBelow? (lead : String) (dir : Path) (specifier : String) : Option Path :=
  (dropLead? lead specifier).map fun tail => (dir.join ⟨tail⟩).normalize

/-- The path that a specifier means if it is read with the given means. -/
def Means.path? (file : Path) (specifier : String) : Means → Option Path
  | mapped _ pattern _ dir => pathBelow? pattern.lead dir specifier
  | package name root => pathBelow? (name ++ "/") root specifier
  | relative =>
    if startsWith "." specifier then some ((directoryOf file).join ⟨specifier⟩).normalize else none

/-- An import of the path means a file. -/
def holds (r : Resolver) (disk : Disk) (path : Path) : Bool :=
  (Identity.locate? disk r.known path).isSome

/-- If there is a path, an import of it means the module. -/
def LeadsTo (r : Resolver) (disk : Disk) (identity : Identity) (path? : Option Path) : Prop :=
  ∀ path ∈ path?, Identity.ofTarget disk r.known path = identity

instance (r : Resolver) (disk : Disk) (identity : Identity) (path? : Option Path) :
    Decidable (r.LeadsTo disk identity path?) := by
  unfold LeadsTo
  infer_instance

/-- What is tried before the given means leads to the module if it takes the specifier: the patterns
ahead and the directories passed; for a package all aliases and the packages with longer names.
What starts with a dot is read as relative before all of these, so a specifier that was written with
an alias or a package must not: the alias `*` of `src` writes `.cache/x` for `src/.cache/x`, which
leads elsewhere, and this leaves it out. -/
def Undisputed (r : Resolver) (disk : Disk) (file : Path) (identity : Identity)
    (specifier : String) : Means → Prop
  | .mapped ahead pattern passed _ =>
    startsWith "." specifier = false ∧
      (∀ other ∈ ahead, r.LeadsTo disk identity (r.patternPath? disk other specifier)) ∧
      ∀ dir ∈ passed, r.LeadsTo disk identity
        ((pathBelow? pattern.lead dir specifier).filter (r.holds disk))
  | .package name _ =>
    startsWith "." specifier = false ∧
      r.LeadsTo disk identity (r.aliasPath? disk file specifier) ∧
      ∀ other ∈ r.packages.roots, name.utf8ByteSize < other.1.utf8ByteSize →
        r.LeadsTo disk identity (pathBelow? (other.1 ++ "/") other.2 specifier)
  | .relative => True

instance (r : Resolver) (disk : Disk) (file : Path) (identity : Identity) (specifier : String)
    (means : Means) : Decidable (r.Undisputed disk file identity specifier means) := by
  cases means <;> unfold Undisputed <;> infer_instance

variable {r : Resolver} {disk : Disk} {file target path : Path} {identity : Identity}
  {specifier : String}

/-- A pattern takes the specifier in its turn. -/
theorem exists_patternPath? {pattern : AliasPattern} {passed others : List Path} {dir : Path}
    (hdirs : pattern.directories = passed ++ dir :: others)
    (hpassed : ∀ other ∈ passed, r.LeadsTo disk identity
      ((pathBelow? pattern.lead other specifier).filter (r.holds disk)))
    (hpath : pathBelow? pattern.lead dir specifier = some path)
    (hmeans : Identity.ofTarget disk r.known path = identity)
    (hholds : r.holds disk path = true ∨ pattern.directories = [dir]) :
    ∃ found ∈ r.patternPath? disk pattern specifier,
      Identity.ofTarget disk r.known found = identity := by
  obtain ⟨tail, htail, rfl⟩ := Option.map_eq_some_iff.1 hpath
  have hbelow : ∀ dir,
      pathBelow? pattern.lead dir specifier = some (dir.join ⟨tail⟩).normalize := by
    intro dir
    rw [pathBelow?, htail, Option.map_some]
  have hfind : ∀ dirs : List Path, (dirs.map fun dir => (dir.join ⟨tail⟩).normalize).find?
      (fun path => (Identity.locate? disk r.known path).isSome) = dirs.findSome? fun dir =>
        (pathBelow? pattern.lead dir specifier).filter (r.holds disk) := by
    intro dirs
    induction dirs with
    | nil => rfl
    | cons dir dirs ih =>
      rw [List.map_cons, List.find?_cons, List.findSome?_cons, ih, hbelow, Option.filter_some]
      have hheld : (Identity.locate? disk r.known (dir.join ⟨tail⟩).normalize).isSome =
          r.holds disk (dir.join ⟨tail⟩).normalize := rfl
      rw [hheld]
      cases r.holds disk (dir.join ⟨tail⟩).normalize <;> rfl
  unfold patternPath? AliasPattern.tail?
  rw [htail, Option.bind_some]
  dsimp only
  rw [hfind]
  by_cases hheld : r.holds disk (dir.join ⟨tail⟩).normalize = true
  · obtain ⟨found, hfound, hleads⟩ := exists_findSome?_append others hpassed
      ⟨_, by rw [hpath, Option.filter_some, if_pos hheld]; rfl, hmeans⟩
    rw [hdirs, Option.mem_def.1 hfound]
    exact ⟨found, rfl, hleads⟩
  · have honly := hholds.resolve_left hheld
    have hnone : (pathBelow? pattern.lead dir specifier).filter (r.holds disk) = none := by
      rw [hpath, Option.filter_some, if_neg hheld]
    rw [honly, List.findSome?_cons, hnone]
    exact ⟨_, rfl, hmeans⟩

theorem resolve?_of_exists (hdot : startsWith "." specifier = false)
    (h : ∃ path ∈ (r.aliasPath? disk file specifier).or (r.packages.resolve? specifier),
      Identity.ofTarget disk r.known path = identity) :
    r.resolve? disk file specifier = some identity := by
  obtain ⟨path, hpath, rfl⟩ := h
  rw [resolve?, resolvePath?, hdot, if_neg (by simp), Option.mem_def.1 hpath, Option.map_some]

/-- Of the packages whose names a specifier starts with, the longest decides. -/
theorem packages_resolve?_cases {claims : List (String × Path)} {name : String} {root : Path}
    (hmem : (name, root) ∈ (Packages.ofClaims claims).roots)
    (hpath : pathBelow? (name ++ "/") root specifier = some path) :
    (Packages.ofClaims claims).resolve? specifier = some path ∨
      ∃ other ∈ (Packages.ofClaims claims).roots, name.utf8ByteSize < other.1.utf8ByteSize ∧
        startsWith (other.1 ++ "/") specifier = true ∧
        (Packages.ofClaims claims).resolve? specifier =
          pathBelow? (other.1 ++ "/") other.2 specifier := by
  obtain ⟨tail, htail, rfl⟩ := Option.map_eq_some_iff.1 hpath
  have hmatching : (name, root, tail) ∈ (Packages.ofClaims claims).roots.filterMap fun item =>
      (dropLead? (item.1 ++ "/") specifier).map fun tail => (item.1, item.2, tail) :=
    List.mem_filterMap.2 ⟨_, hmem, by rw [htail, Option.map_some]⟩
  obtain ⟨best, hbest, hle⟩ := exists_lastGreatest? (fun item => item.1.utf8ByteSize) hmatching
  obtain ⟨other, hmem', hfound⟩ := List.mem_filterMap.1 (mem_of_lastGreatest? hbest)
  obtain ⟨tail', htail', rfl⟩ := Option.map_eq_some_iff.1 hfound
  have hresolve : (Packages.ofClaims claims).resolve? specifier =
      some (other.2.join ⟨tail'⟩).normalize :=
    congrArg (Option.map fun item : String × Path × String => (item.2.1.join ⟨item.2.2⟩).normalize)
      hbest
  dsimp only at hle
  rcases Nat.lt_or_eq_of_le hle with hlt | hsize
  · refine .inr ⟨other, hmem', hlt, ?_, ?_⟩
    · exact startsWith_eq_true_iff.2 ⟨tail', dropLead?_eq_some_iff.1 htail'⟩
    · rw [hresolve, pathBelow?, htail', Option.map_some]
  · -- names of one length that one specifier starts with are the same
    have hleads : name ++ "/" ++ tail = other.1 ++ "/" ++ tail' :=
      (dropLead?_eq_some_iff.1 htail).trans (dropLead?_eq_some_iff.1 htail').symm
    rw [String.append_assoc, String.append_assoc] at hleads
    obtain ⟨hname, htails⟩ := eq_of_append_eq_append hsize hleads
    obtain ⟨-, rfl⟩ := eq_of_append_eq_append rfl htails
    have hroot : (name, other.2) ∈ (Packages.ofClaims claims).roots := hname ▸ hmem'
    rw [hresolve, Packages.root_eq_of_mem hroot hmem]
    exact .inl rfl

/-- A package leads to the module if those with longer names do. -/
theorem exists_packages_resolve? {claims : List (String × Path)}
    (hpackages : r.packages = .ofClaims claims) {name : String} {root : Path}
    (hmem : (name, root) ∈ r.packages.roots)
    (hpath : pathBelow? (name ++ "/") root specifier = some path)
    (hmeans : Identity.ofTarget disk r.known path = identity)
    (hlonger : ∀ other ∈ r.packages.roots, name.utf8ByteSize < other.1.utf8ByteSize →
      r.LeadsTo disk identity (pathBelow? (other.1 ++ "/") other.2 specifier)) :
    ∃ found ∈ r.packages.resolve? specifier, Identity.ofTarget disk r.known found = identity := by
  rw [hpackages] at hmem hlonger ⊢
  rcases packages_resolve?_cases hmem hpath with hfound | ⟨other, hmem', hlt, hlead, hfound⟩
  · exact ⟨path, hfound, hmeans⟩
  · obtain ⟨tail, htail⟩ := startsWith_eq_true_iff.1 hlead
    have hbelow : pathBelow? (other.1 ++ "/") other.2 specifier =
        some (other.2.join ⟨tail⟩).normalize := by
      rw [pathBelow?, dropLead?_eq_some_iff.2 htail, Option.map_some]
    exact ⟨_, hfound.trans hbelow, hlonger other hmem' hlt _ hbelow⟩

/-- **An undisputed specifier is read as it was written**: it means the module that its own means
lead to.  A mapped directory that is not the only one of its pattern must hold the module. -/
theorem resolve?_of_undisputed {claims : List (String × Path)}
    (hpackages : r.packages = .ofClaims claims)
    (hpath : (r.meansFor file target).path? file specifier = some path)
    (hmeans : Identity.ofTarget disk r.known path = identity)
    (hholds : ∀ ahead pattern passed dir,
      r.meansFor file target = .mapped ahead pattern passed dir →
        r.holds disk path = true ∨ pattern.directories = [dir])
    (h : r.Undisputed disk file identity specifier (r.meansFor file target)) :
    r.resolve? disk file specifier = some identity := by
  have hsuits := r.suits_meansFor file target
  generalize r.meansFor file target = means at *
  cases hsuits with
  | mapped htable hpatterns hdirs henclosed =>
    obtain ⟨hdot, hahead, hpassed⟩ := h
    obtain ⟨found, hfound, hleads⟩ := exists_findSome?_append _ hahead
      (exists_patternPath? hdirs hpassed hpath hmeans (hholds _ _ _ _ rfl))
    refine resolve?_of_exists hdot ⟨found, ?_, hleads⟩
    rw [aliasPath?, htable, Option.bind_some, hpatterns, Option.mem_def.1 hfound]
    rfl
  | package hmem henclosed =>
    obtain ⟨hdot, halias, hlonger⟩ := h
    refine resolve?_of_exists hdot ?_
    cases hfound : r.aliasPath? disk file specifier with
    | some found => exact ⟨found, rfl, halias found hfound⟩
    | none =>
      rw [Option.none_or]
      exact exists_packages_resolve? hpackages hmem hpath hmeans hlonger
  | relative =>
    rw [Means.path?] at hpath
    split at hpath
    · rename_i hdot
      rw [resolve?, resolvePath?, if_pos hdot, hpath, Option.map_some, hmeans]
    · simp at hpath

/-! ## What is written for a file -/

theorem isInDir_of_encloses {dir : Path} (h : encloses target dir = true) :
    dir.isInDir target = true :=
  (Bool.and_eq_true_iff.1 h).1

/-- What is written behind the lead of an enclosing directory are the names that lead down to the
target. -/
theorem exists_names_of_encloses {dir : Path} (htarget : target.isAbsolute = true)
    (hslashes : ∀ name ∈ target.place, '\\' ∉ name.toList) (h : encloses target dir = true) :
    ∃ names, dir.isAbsolute = true ∧ target.place = dir.place ++ names ∧
      (dir.relative target).slashed = "/".intercalate names := by
  have hin := isInDir_of_encloses h
  have hdir := isAbsolute_of_isInDir htarget hin
  obtain ⟨names, hnames⟩ := exists_place_append htarget hin
  refine ⟨names, hdir, hnames, slashed_relative_below hdir htarget hnames ?_⟩
  exact fun name hname => hslashes name (hnames ▸ List.mem_append_right _ hname)

theorem pathBelow?_append (lead : String) {dir : Path} {names : Location}
    (hdir : dir.isAbsolute = true) (hnames : Plain names) :
    pathBelow? lead dir (lead ++ "/".intercalate names) = some (ofPlace (dir.place ++ names)) := by
  rw [pathBelow?, dropLead?_eq_some_iff.2 rfl, Option.map_some, normalize_join_names hdir hnames]

theorem path?_dotted {place above names : Location} (hfile : file.isAbsolute = true)
    (hdir : (directoryOf file).place = place ++ above) (hnames : Plain names) :
    Means.relative.path? file (dotted above.length names) = some (ofPlace (place ++ names)) := by
  have habsolute := isAbsolute_directoryOf hfile
  rw [Means.path?, startsWith_dotted, if_pos rfl,
    normalize_eq_ofPlace (isAbsolute_join habsolute _), place_join_dotted hdir hnames]

/-- Read with the means it was written with, a specifier means the target. -/
theorem path?_write {means : Means} (hfile : file.isAbsolute = true)
    (htarget : target.isAbsolute = true) (hnormal : target.normalize = target)
    (hslashes : ∀ name ∈ target.place, '\\' ∉ name.toList) (h : r.Suits file target means) :
    means.path? file (means.write file target) = some target := by
  have hplain := plain_place htarget
  have hself : ofPlace target.place = target := by rw [← normalize_eq_ofPlace htarget, hnormal]
  have hbelow : ∀ (lead : String) {dir : Path}, encloses target dir = true →
      pathBelow? lead dir (lead ++ (dir.relative target).slashed) = some target := by
    intro lead dir henclosed
    obtain ⟨names, hdir, hnames, hwritten⟩ := exists_names_of_encloses htarget hslashes henclosed
    rw [hnames] at hplain
    rw [hwritten, pathBelow?_append lead hdir hplain.right, ← hnames, hself]
  cases h with
  | mapped htable hpatterns hdirs henclosed => exact hbelow _ henclosed
  | package hmem henclosed => exact hbelow _ henclosed
  | relative =>
    obtain ⟨place, above, names, hdir, hplace, hwritten⟩ :=
      relativeSpecifier_relative hfile htarget hslashes
    rw [hnormal] at hwritten
    rw [hplace] at hplain
    rw [Means.write, hwritten, path?_dotted hfile hdir hplain.right, ← hplace, hself]

theorem locate?_of_isFile (h : disk.isFile path = true) :
    Identity.locate? disk r.known path = some path := by
  rw [Identity.locate?, Identity.candidates, List.cons_append, List.find?_cons, h]

end Resolver

/-- **What is written for a file is read as that file**, with any aliases and packages, unless
something else takes the specifier before what it was written with. -/
theorem written_specifier_is_read_back {r : Resolver} {claims : List (String × Path)}
    (hpackages : r.packages = .ofClaims claims) {disk : Disk} {file target : Path}
    (hfile : file.isAbsolute = true) (htarget : target.isAbsolute = true)
    (hnormal : target.normalize = target) (hslash : '\\' ∉ target.text.toList)
    (hthere : disk.isFile target = true)
    (hundisputed : r.Undisputed disk file (r.identityOf target) (r.specifierFor file target)
      (r.meansFor file target)) :
    r.resolve? disk file (r.specifierFor file target) = some (r.identityOf target) := by
  have hslashes : ∀ name ∈ target.place, '\\' ∉ name.toList :=
    fun name hname hmem => hslash (Path.mem_text_of_mem_place htarget hname hmem)
  have hwritten := r.specifierFor_eq_write file target
  rw [hnormal] at hwritten
  have hlocate := Resolver.locate?_of_isFile (r := r) hthere
  have hpath : (r.meansFor file target).path? file (r.specifierFor file target) = some target := by
    rw [hwritten]
    exact Resolver.path?_write hfile htarget hnormal hslashes (r.suits_meansFor file target)
  have hmeans : Identity.ofTarget disk r.known target = r.identityOf target := by
    rw [Identity.ofTarget, hlocate]
    rfl
  have hholds : r.holds disk target = true := by
    rw [Resolver.holds, hlocate]
    rfl
  exact Resolver.resolve?_of_undisputed hpackages hpath hmeans (fun _ _ _ _ _ => .inl hholds)
    hundisputed

namespace Mappings

/-- A configuration that maps two patterns, of which the first covers the second. -/
def config : String :=
  "\x7b\"compilerOptions\":\x7b\"paths\":" ++
    "\x7b\"@/*\":[\"src/*\"],\"@/lib/*\":[\"lib/*\"]\x7d\x7d\x7d"

/-- A project with that configuration. -/
def disk : Disk where
  entries :=
    [(["tsconfig.json"], .file (.text config)),
      (["src"], .directory), (["src", "app.ts"], .file (.text "")),
      (["lib"], .directory), (["lib", "log.ts"], .file (.text "")),
      (["core"], .directory), (["core", "set.ts"], .file (.text ""))]
  workingDir := []

/-- The aliases of the configuration. -/
def covering : Resolver := (Resolver.ofExtensions .standard).loadTables disk [⟨"/tsconfig.json"⟩]

/-- Patterns of which none covers the other, the second with two directories, and a package. -/
def apart : Resolver where
  known := .standard
  tables :=
    [(⟨"/"⟩, ⟨⟨"/tsconfig.json"⟩, ⟨"/"⟩,
      [⟨"@lib/", [⟨"/lib"⟩]⟩, ⟨"@/", [⟨"/generated"⟩, ⟨"/src"⟩]⟩]⟩)]
  packages := .ofClaims [("@org/core", ⟨"/core"⟩)]

end Mappings

/-- An alias whose pattern is not the first, and whose directory is not the first of it; and a
package. -/
theorem written_specifier_is_read_back_behind_others :
    Mappings.apart.specifierFor ⟨"/main.ts"⟩ ⟨"/src/app.ts"⟩ = "@/app.ts" ∧
      Mappings.apart.resolve? Mappings.disk ⟨"/main.ts"⟩
        (Mappings.apart.specifierFor ⟨"/main.ts"⟩ ⟨"/src/app.ts"⟩) =
          some (Mappings.apart.identityOf ⟨"/src/app.ts"⟩) ∧
      Mappings.apart.specifierFor ⟨"/main.ts"⟩ ⟨"/core/set.ts"⟩ = "@org/core/set.ts" ∧
      Mappings.apart.resolve? Mappings.disk ⟨"/main.ts"⟩
        (Mappings.apart.specifierFor ⟨"/main.ts"⟩ ⟨"/core/set.ts"⟩) =
          some (Mappings.apart.identityOf ⟨"/core/set.ts"⟩) := by
  have hpackages : Mappings.apart.packages = .ofClaims [("@org/core", ⟨"/core"⟩)] := rfl
  have hfile : Path.isAbsolute ⟨"/main.ts"⟩ = true := by decide
  refine ⟨by decide +kernel, ?_, by decide +kernel, ?_⟩
  · exact written_specifier_is_read_back hpackages hfile (by decide) (by decide) (by decide)
      (by decide +kernel) (by decide +kernel)
  · exact written_specifier_is_read_back hpackages hfile (by decide) (by decide) (by decide)
      (by decide +kernel) (by decide +kernel)

/-- A specifier that an earlier pattern covers is read by that pattern. -/
theorem written_specifier_is_taken_by_earlier_pattern :
    Mappings.disk.isFile ⟨"/lib/log.ts"⟩ = true ∧
      Mappings.covering.specifierFor ⟨"/main.ts"⟩ ⟨"/lib/log.ts"⟩ = "@/lib/log.ts" ∧
      Mappings.covering.identityOf ⟨"/lib/log.ts"⟩ = ⟨⟨"/lib/log"⟩⟩ ∧
      Mappings.covering.resolve? Mappings.disk ⟨"/main.ts"⟩
        (Mappings.covering.specifierFor ⟨"/main.ts"⟩ ⟨"/lib/log.ts"⟩) =
          some ⟨⟨"/src/lib/log"⟩⟩ := by
  decide +kernel

end Relocate
