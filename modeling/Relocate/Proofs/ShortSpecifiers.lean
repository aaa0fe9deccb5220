import Relocate.Proofs.Retargeting
import Relocate.Proofs.RoundTrip

/-! # Specifiers without ending and index

An import that is redirected gets the specifier of its target without the ending and without a final
`/index`.  Both are cut off from the text, whatever it was written with, so they may cut into the
lead of an alias or the name of a package: the index of a mapped directory `@app/*` gets `@app`,
which no longer matches the pattern.  `Resolver.Means.Keeps` says that this has not happened, and
`Resolver.shortened_eq` that then the cut has left the names down to the module.
-/

namespace Relocate

open Text Relocate.Path Identity

/-! ## Names one below the other -/

namespace Path

theorem intercalate_names_append (names : Location) (last ending : String) :
    "/".intercalate (names ++ [last ++ ending]) = "/".intercalate (names ++ [last]) ++ ending := by
  apply String.toList_inj.1
  rw [String.toList_append, toList_intercalate_names, toList_intercalate_names]
  cases names with
  | nil => simp
  | cons name names =>
    rw [List.map_append, List.map_append, List.map_singleton, List.map_singleton,
      intercalate_concat (by simp), intercalate_concat (by simp), String.toList_append]
    simp

theorem intercalate_names_concat {names : Location} (hne : names ≠ []) (last : String) :
    "/".intercalate (names ++ [last]) = "/".intercalate names ++ ("/" ++ last) := by
  apply String.toList_inj.1
  rw [toList_intercalate_names, List.map_append, List.map_singleton,
    intercalate_concat (by simpa using hne), String.toList_append, String.toList_append,
    toList_intercalate_names]
  rfl

/-- The end of a path without a separator is the end of its last name. -/
theorem suffix_of_suffix_names {tail : List Char} {names : Location} {last : String}
    (hslash : '/' ∉ tail) (h : tail <:+ ("/".intercalate (names ++ [last])).toList) :
    tail <:+ last.toList := by
  cases hnames : names with
  | nil => simpa [hnames] using h
  | cons name rest =>
    rw [intercalate_names_concat (by simp [hnames]), String.toList_append,
      String.toList_append] at h
    exact suffix_of_suffix_append_cons hslash h

end Path

namespace Resolver

variable {known : Extensions} {lead last ending : String} {names : Location}

/-! ## Behind a lead -/

theorem startsWith_of_withoutIndex {specifier : String}
    (h : startsWith lead (withoutIndex specifier) = true) : startsWith lead specifier = true := by
  rw [withoutIndex] at h
  cases hdrop : dropTail? "/index" specifier with
  | none =>
    rw [hdrop] at h
    exact h
  | some front =>
    rw [hdrop, Option.getD_some] at h
    obtain ⟨rest, rfl⟩ := startsWith_eq_true_iff.1 h
    refine startsWith_eq_true_iff.2 ⟨rest ++ "/index", ?_⟩
    rw [← String.append_assoc]
    exact dropTail?_eq_some_iff.1 hdrop

/-- What is cut off from the end, as far as the lead is kept, is the ending. -/
theorem strip_lead_append (hknown : known.Proper) (hending : ending ∈ known.endings)
    (hlast : ¬ ".d".toList <:+ last.toList)
    (hlead : startsWith lead (known.strip (lead ++ "/".intercalate (names ++ [last ++ ending]))) =
      true) :
    known.strip (lead ++ "/".intercalate (names ++ [last ++ ending])) =
      lead ++ "/".intercalate (names ++ [last]) := by
  rw [intercalate_names_append, ← String.append_assoc] at hlead ⊢
  refine Extensions.strip_append hknown.dotless hending fun hts hsuffix => hlast ?_
  -- the stem looks like that of a declaration, and is cut off before `.d`
  obtain ⟨front, hfront⟩ := hsuffix
  have hcut : String.ofList front ++ ".d" = lead ++ "/".intercalate (names ++ [last]) := by
    apply String.toList_inj.1
    rw [String.toList_append, String.toList_ofList, hfront]
  have hdeclaration : ".d.ts" ∈ known.endings := by
    rcases List.mem_append.1 hending with hmem | hmem
    · obtain ⟨name, hname, heq⟩ := List.mem_map.1 hmem
      have hdot : "." ++ name = "." ++ "ts" := heq.trans hts
      obtain ⟨-, rfl⟩ := eq_of_append_eq_append rfl hdot
      refine List.mem_append_right _ ?_
      rw [if_pos (List.contains_iff_mem.2 hname)]
      exact List.mem_singleton.2 rfl
    · split at hmem
      · rw [hts] at hmem
        simp at hmem
      · simp at hmem
  have hstrip : known.strip (lead ++ "/".intercalate (names ++ [last]) ++ ending) =
      String.ofList front := by
    rw [← hcut, hts, String.append_assoc]
    exact Extensions.strip_append hknown.dotless hdeclaration fun hne => absurd hne (by decide)
  rw [hstrip] at hlead
  obtain ⟨rest, hrest⟩ := startsWith_eq_true_iff.1 hlead
  rw [← hrest, String.append_assoc] at hcut
  obtain ⟨-, hrest'⟩ := eq_of_append_eq_append rfl hcut
  have hsuffix : ".d".toList <:+ ("/".intercalate (names ++ [last])).toList :=
    ⟨rest.toList, by rw [← hrest', String.toList_append]⟩
  exact suffix_of_suffix_names (by decide) hsuffix

/-- **What is left behind a lead that is kept**: the names down to the stem, without a final `index`
unless it is the only name. -/
theorem shortened_eq (hknown : known.Proper) (hending : ending ∈ known.endings)
    (hlast : IsName last) (hdeclaration : ¬ ".d".toList <:+ last.toList)
    (hlead : startsWith lead (withoutIndex (known.strip
      (lead ++ "/".intercalate (names ++ [last ++ ending])))) = true) :
    withoutIndex (known.strip (lead ++ "/".intercalate (names ++ [last ++ ending]))) =
      lead ++
        "/".intercalate (if last = indexName ∧ names ≠ [] then names else names ++ [last]) := by
  have hstrip := strip_lead_append hknown hending hdeclaration (startsWith_of_withoutIndex hlead)
  rw [hstrip] at hlead ⊢
  by_cases hindex : last = indexName ∧ names ≠ []
  · obtain ⟨rfl, hne⟩ := hindex
    have hslash : "/" ++ indexName = "/index" := by decide
    rw [if_pos ⟨rfl, hne⟩, intercalate_names_concat hne, hslash, ← String.append_assoc,
      withoutIndex, dropTail?_eq_some_iff.2 rfl, Option.getD_some]
  · rw [if_neg hindex]
    cases hdrop : dropTail? "/index" (lead ++ "/".intercalate (names ++ [last])) with
    | none => rw [withoutIndex, hdrop, Option.getD_none]
    | some front =>
      -- the cut would have to lie behind the lead, and so at the end of several names
      rw [withoutIndex, hdrop, Option.getD_some] at hlead
      obtain ⟨rest, rfl⟩ := startsWith_eq_true_iff.1 hlead
      have hcut := dropTail?_eq_some_iff.1 hdrop
      rw [String.append_assoc] at hcut
      obtain ⟨-, hnames⟩ := eq_of_append_eq_append rfl hcut
      refine absurd ?_ hindex
      have hchars := congrArg String.toList hnames
      cases hcase : names with
      | nil =>
        rw [hcase] at hchars
        have hmem : '/' ∈ (rest ++ "/index").toList := by simp
        rw [hchars] at hmem
        exact absurd (by simpa using hmem) hlast.no_separator
      | cons name others =>
        rw [intercalate_names_concat (by simp [hcase]), String.toList_append, String.toList_append,
          String.toList_append] at hchars
        refine ⟨String.toList_inj.1 ?_, by simp⟩
        exact (append_cons_inj (c := '/') (by decide) hlast.no_separator hchars).2.symm

/-! ## What the short specifier means -/

variable {r : Resolver} {disk : Disk} {p file target path : Path}

/-- The short specifier still starts with the lead that it was written with.  A declaration, which
is no file that an import is looked up in, is in the only directory of its pattern, and the
directory that it is the index of holds no directory `index`. -/
def Means.Keeps (disk : Disk) (p target : Path) (specifier : String) : Means → Prop
  | mapped _ pattern _ dir =>
    startsWith pattern.lead specifier = true ∧
      ((dropTail? ".d.ts" target.text).isSome = true →
        pattern.directories = [dir] ∧
          (dir.place = p.place → disk.entry? (p.place ++ [indexName]) ≠ some .directory))
  | package name _ => startsWith (name ++ "/") specifier = true
  | relative => True

instance (disk : Disk) (p target : Path) (specifier : String) (means : Means) :
    Decidable (means.Keeps disk p target specifier) :=
  match means with
  | .mapped .. =>
    @instDecidableAnd _ _ (decEq ..) (@instDecidableForall _ _ (decEq ..)
      (@instDecidableAnd _ _ (decEq ..) (@instDecidableForall _ _ (decEq ..) instDecidableNot)))
  | .package .. => decEq ..
  | .relative => .isTrue trivial

theorem holds_of_mem_candidates (hthere : disk.isFile target = true)
    (h : target ∈ candidates r.known path) : r.holds disk path = true :=
  List.find?_isSome.2 ⟨target, h, hthere⟩

/-- An ending is that of a declaration, or an extension that is tried. -/
theorem mem_endings_cases (h : ending ∈ known.endings) :
    ending = ".d.ts" ∨ ∃ name ∈ known.names, ending = "." ++ name := by
  rcases List.mem_append.1 h with h | h
  · obtain ⟨name, hname, rfl⟩ := List.mem_map.1 h
    exact .inr ⟨name, hname, rfl⟩
  · split at h
    · exact .inl (List.mem_singleton.1 h)
    · simp at h

/-- Below an enclosing directory, a module file is reached by the names down to its stem. -/
theorem exists_stem_of_encloses (hknown : r.known.Proper) (hp : IsModulePath r.known p)
    {front : Location} (hstem : ModuleStem p front last) (hending : ending ∈ r.known.endings)
    {dir : Path} (h : encloses (ofPlace (front ++ [last ++ ending])) dir = true) :
    ∃ names, dir.isAbsolute = true ∧ front = dir.place ++ names ∧ Plain (names ++ [last]) ∧
      (dir.relative (ofPlace (front ++ [last ++ ending]))).slashed =
        "/".intercalate (names ++ [last ++ ending]) := by
  have hplain := hstem.plain_append hknown.dotless hending
  obtain ⟨names, hdir, hnames, hwritten⟩ := exists_names_of_encloses (isAbsolute_ofPlace _)
    (by rw [place_ofPlace hplain]
        exact fun name hname => hstem.no_backslash_append hknown hp hending hname) h
  rw [place_ofPlace hplain] at hnames
  obtain rfl | ⟨names, rfl, rfl⟩ := eq_nil_or_concat_of_append_eq hnames
  · -- the path down to it is not empty
    have htail : (dir.relative (ofPlace (front ++ [last ++ ending]))).slashed ≠ "" := by
      simpa using (Bool.and_eq_true_iff.1 h).2
    exact absurd hwritten htail
  · have hplain := hstem.plain
    rw [List.append_assoc] at hplain
    exact ⟨names, hdir, rfl, hplain.right, hwritten⟩

/-- Behind a lead that is kept, the short specifier leads to the module path; or to `index` in the
enclosing directory itself, if the lead does not end in a separator. -/
theorem pathBelow?_shortened (hknown : r.known.Proper) (hp : IsModulePath r.known p)
    {front : Location} (hstem : ModuleStem p front last) (hending : ending ∈ r.known.endings)
    {dir : Path} (h : encloses (ofPlace (front ++ [last ++ ending])) dir = true)
    (hlead : startsWith lead (withoutIndex (r.withoutExtension
      (lead ++ (dir.relative (ofPlace (front ++ [last ++ ending]))).slashed))) = true) :
    let short := withoutIndex (r.withoutExtension
      (lead ++ (dir.relative (ofPlace (front ++ [last ++ ending]))).slashed))
    pathBelow? lead dir short = some p ∨
      (last = indexName ∧ dir.place = p.place ∧
        withoutIndex (lead ++ indexName) = lead ++ indexName ∧
        pathBelow? lead dir short = some (ofPlace (front ++ [last]))) := by
  obtain ⟨names, hdir, rfl, hplain, hwritten⟩ := exists_stem_of_encloses hknown hp hstem hending h
  dsimp only
  rw [hwritten] at hlead ⊢
  have hshort := shortened_eq hknown hending hplain.last hstem.not_declaration hlead
  have hstrip := strip_lead_append hknown hending hstem.not_declaration
    (startsWith_of_withoutIndex hlead)
  rw [withoutExtension] at hlead ⊢
  by_cases hindex : last = indexName ∧ names ≠ []
  · left
    rw [if_pos hindex] at hshort
    have hplace := (hstem.stem.resolve_left fun h => h.2 hindex.1).1
    rw [hshort, pathBelow?_append lead hdir hplain.left, ← hplace, ← hp.eq_ofPlace]
  · rw [if_neg hindex] at hshort
    rw [hshort, pathBelow?_append lead hdir hplain]
    rcases hstem.stem with ⟨hplace, -⟩ | ⟨hplace, rfl⟩
    · left
      rw [← List.append_assoc, ← hplace, ← hp.eq_ofPlace]
    · right
      obtain rfl : names = [] := by
        by_contra hne
        exact hindex ⟨rfl, hne⟩
      rw [List.append_nil] at hplace ⊢
      rw [hstrip] at hshort
      exact ⟨rfl, hplace.symm, by simpa using hshort, rfl⟩

/-! ### Relative specifiers -/

/-- What only climbs ends in a dot. -/
theorem exists_toList_climbing (up : Nat) : ∃ front, (dotted up []).toList = front ++ ['.'] := by
  cases up with
  | zero => exact ⟨[], rfl⟩
  | succ up =>
    have hpieces : (climbing (up + 1) ++ []).map String.toList =
        List.replicate up "..".toList ++ ["..".toList] := by
      rw [List.append_nil, climbing, if_neg (Nat.succ_ne_zero up), List.replicate_succ',
        List.map_append, List.map_replicate]
      rfl
    rw [toList_dotted, hpieces]
    cases up with
    | zero => exact ⟨['.'], rfl⟩
    | succ up =>
      rw [intercalate_concat (by simp)]
      exact ⟨_ ++ ['/', '.'], by rw [List.append_assoc]; rfl⟩

/-- What ends in a dot has nothing to be cut off. -/
theorem shortened_of_dot (hknown : known.Proper) {text : String} {front : List Char}
    (htext : text.toList = front ++ ['.']) : withoutIndex (known.strip text) = text := by
  have hnone : ∀ tail : String, tail.toList.getLast? ≠ some '.' → tail.toList ≠ [] →
      dropTail? tail text = none := by
    intro tail hlast hne
    rw [dropTail?_eq_none_iff, htext]
    rintro ⟨lead, hlead⟩
    have hend := congrArg List.getLast? hlead
    rw [List.getLast?_append_of_ne_nil _ hne, List.getLast?_concat] at hend
    exact hlast hend
  have hother : (known.names.findSome? fun name => dropTail? ("." ++ name) text) = none := by
    rw [List.findSome?_eq_none_iff]
    intro name hname
    obtain ⟨hne, hdot, -⟩ := hknown name hname
    have hne' : name.toList ≠ [] := fun heq => hne (String.toList_inj.1 heq)
    refine hnone _ ?_ (by simp)
    rw [String.toList_append, List.getLast?_append_of_ne_nil _ hne']
    exact fun hlast => hdot (List.mem_of_getLast? hlast)
  have hstrip : known.strip text = text := by
    rw [Extensions.strip, Extensions.stem?, hnone ".d.ts" (by decide) (by decide), hother]
    rfl
  rw [hstrip, withoutIndex, hnone "/index" (by decide) (by decide), Option.getD_none]

/-- A short relative specifier leads to the module path, or to the target if the file lies below
it. -/
theorem path?_shortened_relative (hknown : r.known.Proper) (hp : IsModulePath r.known p)
    {front : Location} (hstem : ModuleStem p front last) (hending : ending ∈ r.known.endings)
    (hfile : file.isAbsolute = true) :
    let short := withoutIndex (r.withoutExtension
      (Means.relative.write file (ofPlace (front ++ [last ++ ending]))))
    Means.relative.path? file short = some p ∨
      Means.relative.path? file short = some (ofPlace (front ++ [last ++ ending])) := by
  have hplain := hstem.plain_append hknown.dotless hending
  obtain ⟨place, above, names, hdir, hplace, hwritten⟩ :=
    relativeSpecifier_relative hfile (isAbsolute_ofPlace (front ++ [last ++ ending]))
      (by rw [place_ofPlace hplain]
          exact fun name hname => hstem.no_backslash_append hknown hp hending hname)
  rw [normalize_ofPlace hplain] at hwritten
  rw [place_ofPlace hplain] at hplace
  dsimp only
  rw [Means.write, hwritten, withoutExtension]
  obtain rfl | ⟨names, rfl, rfl⟩ := eq_nil_or_concat_of_append_eq hplace
  · right
    obtain ⟨chars, hchars⟩ := exists_toList_climbing above.length
    rw [shortened_of_dot hknown hchars, path?_dotted hfile hdir .nil, hplace]
  · left
    have hnames : Plain (names ++ [last]) := by
      have h := hstem.plain
      rw [List.append_assoc] at h
      exact h.right
    rw [strip_dotted hknown _ names hending hstem.not_declaration,
      withoutIndex_dotted_concat _ _ hnames.last]
    rcases hstem.stem with ⟨hplace', hindex⟩ | ⟨hplace', hindex⟩
    · rw [if_neg hindex, path?_dotted hfile hdir hnames, ← List.append_assoc, ← hplace',
        ← hp.eq_ofPlace]
    · rw [if_pos hindex, path?_dotted hfile hdir hnames.left, ← hplace', ← hp.eq_ofPlace]

/-- The name of a package is cut off from its index. -/
theorem withoutIndex_package (name : String) :
    withoutIndex (name ++ "/" ++ indexName) ≠ name ++ "/" ++ indexName := by
  have hslash : "/" ++ indexName = "/index" := by decide
  rw [String.append_assoc, hslash, withoutIndex, dropTail?_eq_some_iff.2 rfl, Option.getD_some]
  intro hsame
  have hlength := congrArg (fun text => text.toList.length) hsame
  rw [String.toList_append, List.length_append] at hlength
  have hindex : "/index".toList.length = 6 := by decide
  omega

/-- Read with the means it was written with, a short specifier means the module. -/
theorem exists_path?_shortened (hknown : r.known.Proper) (hp : IsModulePath r.known p)
    {front : Location} (hstem : ModuleStem p front last) (hending : ending ∈ r.known.endings)
    (hthere : disk.isFile (ofPlace (front ++ [last ++ ending])) = true)
    (hfile : file.isAbsolute = true) {means : Means}
    (hsuits : r.Suits file (ofPlace (front ++ [last ++ ending])) means)
    (hkept : means.Keeps disk p (ofPlace (front ++ [last ++ ending]))
      (withoutIndex (r.withoutExtension
        (means.write file (ofPlace (front ++ [last ++ ending])))))) :
    ∃ path, means.path? file (withoutIndex (r.withoutExtension
        (means.write file (ofPlace (front ++ [last ++ ending]))))) = some path ∧
      ofTarget disk r.known path = ⟨p⟩ ∧
      ∀ ahead pattern passed dir, means = .mapped ahead pattern passed dir →
        r.holds disk path = true ∨ pattern.directories = [dir] := by
  have hmodule := hp.ofTarget_eq hknown.dotless disk
  cases hsuits with
  | mapped htable hpatterns hdirs henclosed =>
    rename_i table ahead behind pattern passed others dir
    obtain ⟨hlead, honly⟩ := hkept
    -- only a declaration is not tried for its own module path
    have hdeclaration : ending = ".d.ts" → pattern.directories = [dir] ∧
        (dir.place = p.place → disk.entry? (p.place ++ [indexName]) ≠ some .directory) := by
      rintro rfl
      apply honly
      rw [← ofPlace_concat_append, dropTail?_eq_some_iff.2 rfl]
      rfl
    have hholds : ∀ {path}, (∀ name ∈ r.known.names, ending = "." ++ name →
        ofPlace (front ++ [last ++ ending]) ∈ candidates r.known path) →
        r.holds disk path = true ∨ pattern.directories = [dir] := by
      intro path hmem
      rcases mem_endings_cases hending with hdot | ⟨name, hname, hdot⟩
      · exact .inr (hdeclaration hdot).1
      · exact .inl (holds_of_mem_candidates hthere (hmem name hname hdot))
    rcases pathBelow?_shortened hknown hp hstem hending henclosed hlead with
      hpath | ⟨rfl, hplace, -, hpath⟩
    · refine ⟨p, hpath, hmodule, ?_⟩
      rintro _ _ _ _ ⟨⟩
      refine hholds ?_
      rintro name hname rfl
      exact hstem.mem_candidates hknown.dotless hp.toIsBarePath hname
    · refine ⟨_, hpath, hstem.ofTarget_eq hknown.dotless hp.toIsBarePath fun hindex => ?_, ?_⟩
      · rcases mem_endings_cases hending with hdot | ⟨name, hname, rfl⟩
        · have hfront : p.place = front := (hstem.stem.resolve_left fun h => h.2 rfl).1
          exact absurd (hfront ▸ hindex) ((hdeclaration hdot).2 hplace)
        · exact ⟨name, hname, hthere⟩
      · rintro _ _ _ _ ⟨⟩
        refine hholds ?_
        rintro name hname rfl
        refine List.mem_append_left _ (List.mem_cons_of_mem _ (List.mem_map.2 ⟨name, hname, ?_⟩))
        rw [String.append_assoc, ofPlace_concat_append]
  | package hmem henclosed =>
    rcases pathBelow?_shortened hknown hp hstem hending henclosed hkept with
      hpath | ⟨-, -, hcut, -⟩
    · exact ⟨p, hpath, hmodule, by simp⟩
    · exact absurd hcut (withoutIndex_package _)
  | relative =>
    rcases path?_shortened_relative hknown hp hstem hending hfile with hpath | hpath
    · exact ⟨p, hpath, hmodule, by simp⟩
    · refine ⟨_, hpath, ?_, by simp⟩
      rw [ofTarget, locate?_of_isFile hthere, Option.getD_some]
      exact hstem.ofPath_append hknown.dotless hp.toIsBarePath hending

end Resolver

/-- **A redirected import means the file it was redirected to**, with any aliases and packages, if
the cut has kept the lead of the new specifier and nothing takes the specifier before what it was
written with. -/
theorem short_specifier_means_target {r : Resolver} (hknown : r.known.Proper)
    {claims : List (String × Path)} (hpackages : r.packages = .ofClaims claims) {disk : Disk}
    {p file target : Path} (hp : IsModulePath r.known p) (htarget : IsModuleFile r.known p target)
    (hthere : disk.isFile target = true) (hfile : file.isAbsolute = true) (source : Path)
    (hkept : (r.meansFor file target).Keeps disk p target
      (Session.replacementFor r file source target).new)
    (hundisputed : r.Undisputed disk file (r.identityOf target)
      (Session.replacementFor r file source target).new (r.meansFor file target)) :
    r.resolve? disk file (Session.replacementFor r file source target).new =
      some (r.identityOf target) := by
  have hidentity : r.identityOf target = ⟨p⟩ := htarget.ofPath_eq hknown.dotless hp.toIsBarePath
  obtain ⟨front, last, ending, hstem, hending, rfl⟩ := htarget.exists_stem hp.toIsBarePath
  have hwritten := r.specifierFor_eq_write file (ofPlace (front ++ [last ++ ending]))
  rw [normalize_ofPlace (hstem.plain_append hknown.dotless hending)] at hwritten
  rw [Session.replacementFor] at hkept hundisputed ⊢
  dsimp only at hkept hundisputed ⊢
  rw [hwritten] at hkept hundisputed ⊢
  obtain ⟨path, hpath, hmeans, hholds⟩ := Resolver.exists_path?_shortened hknown hp hstem hending
    hthere hfile (r.suits_meansFor file _) hkept
  rw [hidentity] at hundisputed ⊢
  exact Resolver.resolve?_of_undisputed hpackages hpath hmeans hholds hundisputed

namespace Mappings

/-- A project with an index in a mapped directory, one below it and one in a package. -/
def indexed : Disk where
  entries :=
    [(["app"], .directory), (["app", "index.ts"], .file (.text "")),
      (["app", "ui"], .directory), (["app", "ui", "index.d.ts"], .file (.text "")),
      (["core"], .directory), (["core", "index.ts"], .file (.text ""))]
  workingDir := []

/-- One mapped directory and one package. -/
def single : Resolver where
  known := .standard
  tables := [(⟨"/"⟩, ⟨⟨"/tsconfig.json"⟩, ⟨"/"⟩, [⟨"@app/", [⟨"/app"⟩]⟩]⟩)]
  packages := .ofClaims [("@org/core", ⟨"/core"⟩)]

end Mappings

/-- The index of a directory below the mapped one. -/
theorem short_specifier_means_target_below :
    (Session.replacementFor Mappings.single ⟨"/main.ts"⟩ ⟨"/x.ts"⟩ ⟨"/app/ui/index.d.ts"⟩).new =
        "@app/ui" ∧
      Mappings.single.resolve? Mappings.indexed ⟨"/main.ts"⟩
        (Session.replacementFor Mappings.single ⟨"/main.ts"⟩ ⟨"/x.ts"⟩ ⟨"/app/ui/index.d.ts"⟩).new =
          some (Mappings.single.identityOf ⟨"/app/ui/index.d.ts"⟩) := by
  have hp : IsModulePath Mappings.single.known ⟨"/app/ui"⟩ := by decide
  have htarget : IsModuleFile Mappings.single.known ⟨"/app/ui"⟩ ⟨"/app/ui/index.d.ts"⟩ :=
    ⟨".d.ts", by decide, .inr (by decide)⟩
  have hpackages : Mappings.single.packages = .ofClaims [("@org/core", ⟨"/core"⟩)] := rfl
  refine ⟨by decide +kernel, ?_⟩
  exact short_specifier_means_target (by decide) hpackages hp htarget (by decide +kernel)
    (by decide) ⟨"/x.ts"⟩ (by decide +kernel) (by decide +kernel)

/-- The specifiers of the index of a mapped directory and of that of a package are cut down to
what no longer means anything. -/
theorem short_specifier_of_root_index_means_nothing :
    (Session.replacementFor Mappings.single ⟨"/main.ts"⟩ ⟨"/x.ts"⟩ ⟨"/app/index.ts"⟩).new = "@app" ∧
      Mappings.single.resolve? Mappings.indexed ⟨"/main.ts"⟩ "@app" = none ∧
      (Session.replacementFor Mappings.single ⟨"/main.ts"⟩ ⟨"/x.ts"⟩ ⟨"/core/index.ts"⟩).new =
        "@org/core" ∧
      Mappings.single.resolve? Mappings.indexed ⟨"/main.ts"⟩ "@org/core" = none := by
  decide +kernel

end Relocate
