import Mathlib.Data.List.Find
import Relocate.Move.Report
import Relocate.Proofs.Index
import Relocate.Proofs.Retargeting

/-! # The files that imports find

An import leads to a path, and of the files that are tried for the path it finds the first one that
is there.  This module says what imports find after a file went elsewhere.  It need not be known how
the file went: `Disk.FileWent` says of two disks that a file is gone from one place and there is one
at another, and that is all that changed.

Where a file goes, it may be in the way of others.  `Disk.Vacant` says that it is not: whatever path
it could be found by, nothing is found by that path yet.  Then the file is found by these paths
(`Disk.FileWent.locate?_target`), and every other file that was found still is
(`Disk.FileWent.locate?_other`).
-/

namespace Relocate

open Relocate.Path Identity Text

/-! ## Where imports lead -/

namespace Resolver

/-- The file that an import finds. -/
def found? (r : Resolver) (disk : Disk) (file : Path) (specifier : String) : Option Path :=
  (r.resolvePath? disk file specifier).bind (locate? disk r.known)

variable {known : Extensions} {disk : Disk} {file found : Path} {specifier : String}

/-- An import means the module of the file that it finds. -/
theorem resolve?_of_found? {r : Resolver} (h : r.found? disk file specifier = some found) :
    r.resolve? disk file specifier = some (r.identityOf found) := by
  obtain ⟨path, hpath, hlocate⟩ := Option.bind_eq_some_iff.1 h
  rw [resolve?, hpath, Option.map_some, ofTarget, hlocate]
  rfl

/-- Without aliases and packages, where an import leads does not depend on the disk. -/
theorem resolvePath?_disk (known : Extensions) (disk disk' : Disk) (file : Path)
    (specifier : String) :
    (ofExtensions known).resolvePath? disk' file specifier =
      (ofExtensions known).resolvePath? disk file specifier := by
  rw [resolvePath?_ofExtensions, resolvePath?_ofExtensions]

end Resolver

/-! ## A file goes elsewhere -/

theorem isName_dot_append {known : Extensions} (hknown : known.Dotless) {name : String}
    (hname : name ∈ known.names) : IsName ("." ++ name) := by
  obtain ⟨hslash, hlength⟩ :=
    Extensions.chars_of_mem_endings hknown (dot_append_mem_endings hname)
  have hlong : ∀ text : String, text.toList.length < 2 → "." ++ name ≠ text := by
    rintro text htext rfl
    omega
  refine ⟨hlong "" (by decide), hslash, hlong "." (by decide), fun hup => ?_⟩
  have hdot : name = "." := String.append_right_inj "." |>.1 hup
  exact (hknown name hname).2.1 (hdot ▸ List.mem_singleton_self _)

/-- The files that are tried for the path of a place are at places, too. -/
theorem exists_place_of_mem_candidates {known : Extensions} (hknown : known.Dotless)
    {place : Location} (hplain : Plain place) {path : Path}
    (h : path ∈ candidates known (ofPlace place)) : ∃ q, Plain q ∧ path = ofPlace q := by
  rcases List.mem_append.1 h with h | h
  · rcases List.mem_cons.1 h with rfl | h
    · exact ⟨place, hplain, rfl⟩
    · obtain ⟨name, hname, rfl⟩ := List.mem_map.1 h
      have hending := dot_append_mem_endings hname
      rw [String.append_assoc]
      rcases List.eq_nil_or_concat' place with rfl | ⟨front, last, rfl⟩
      · refine ⟨["." ++ name], Plain.nil.concat (isName_dot_append hknown hname), ?_⟩
        refine congrArg Path.mk (String.toList_inj.1 ?_)
        change _ = (ofPlace ["." ++ name]).text.toList
        rw [toList_ofPlace_singleton, String.toList_append]
        rfl
      · exact ⟨_, hplain.left.concat (hplain.last.append_ending hknown hending),
          ofPlace_concat_append front last _⟩
  · obtain ⟨name, hname, rfl⟩ := List.mem_map.1 h
    have hindex := isName_indexName.append_ending hknown (dot_append_mem_endings hname)
    refine ⟨_, hplain.concat hindex, ?_⟩
    rw [String.append_assoc, join_ofPlace hplain hindex]

/-- What is found for a path depends on where there are files. -/
theorem locate?_congr {known : Extensions} (hknown : known.Dotless) {d d' : Disk}
    (hfiles : ∀ q, Plain q → d'.isFile (ofPlace q) = d.isFile (ofPlace q)) {place : Location}
    (hplain : Plain place) :
    locate? d' known (ofPlace place) = locate? d known (ofPlace place) := by
  have hsame : ∀ path ∈ candidates known (ofPlace place), d'.isFile path = d.isFile path := by
    intro path hmem
    obtain ⟨q, hq, rfl⟩ := exists_place_of_mem_candidates hknown hplain hmem
    exact hfiles q hq
  exact List.find?_congr hsame

namespace Resolver

variable {known : Extensions} {d d' : Disk} {file : Path}

/-- Without aliases and packages, what imports mean and find depends on where there are files. -/
theorem resolve?_congr (hknown : known.Dotless)
    (hfiles : ∀ q, Plain q → d'.isFile (ofPlace q) = d.isFile (ofPlace q))
    (hfile : file.isAbsolute = true) (specifier : String) :
    (ofExtensions known).resolve? d' file specifier =
      (ofExtensions known).resolve? d file specifier := by
  rw [resolve?, resolve?, resolvePath?_disk known d]
  cases hpath : (ofExtensions known).resolvePath? d file specifier with
  | none => rw [Option.map_none, Option.map_none]
  | some path =>
    obtain ⟨place, hplain, rfl, -⟩ := exists_place_of_resolvePath? hfile hpath
    rw [Option.map_some, Option.map_some]
    refine congrArg some ?_
    rw [ofTarget, ofTarget]
    exact congrArg (fun found => ofPath known (Option.getD found (ofPlace place)))
      (locate?_congr hknown hfiles hplain)

/-- So do the edits for them. -/
theorem editsFor_congr (hknown : known.Dotless)
    (hfiles : ∀ q, Plain q → d'.isFile (ofPlace q) = d.isFile (ofPlace q))
    (hfile : file.isAbsolute = true) (references : List Reference)
    (replacements : List Replacement) :
    (ofExtensions known).editsFor d' file references replacements =
      (ofExtensions known).editsFor d file references replacements := by
  have hresolve := resolve?_congr hknown hfiles hfile
  have hfollow : Claims.follow (ofExtensions known) d' file =
      Claims.follow (ofExtensions known) d file := by
    funext found c replacement
    rw [Claims.follow, Claims.follow, hresolve]
  have htargets : (ofExtensions known).targets d' file references =
      (ofExtensions known).targets d file references := by
    rw [targets, targets]
    exact List.map_congr_left fun reference _ => by rw [hresolve]
  rw [editsFor, editsFor, hfollow, htargets]

end Resolver

/-- The places that a module file is tried for: its own, that of its stem and, if it is an index,
that of its directory. -/
theorem ModuleStem.eq_of_mem_candidates {known : Extensions} (hknown : known.Dotless) {p : Path}
    {front : Location} {last : String} (h : ModuleStem p front last) {name : String}
    (hname : name ∈ known.names) {place : Location} (hplain : Plain place)
    (hmem : ofPlace (front ++ [last ++ ("." ++ name)]) ∈ candidates known (ofPlace place)) :
    place = front ++ [last ++ ("." ++ name)] ∨ place = front ++ [last] ∨ place = p.place := by
  have hb := h.plain_append hknown (dot_append_mem_endings hname)
  rcases List.mem_append.1 hmem with hmem | hmem
  · rcases List.mem_cons.1 hmem with hself | hmem
    · exact .inl ((ofPlace_inj hb hplain).1 hself).symm
    · -- the same file without its extension
      obtain ⟨other, hother, hwritten⟩ := List.mem_map.1 hmem
      have htext : (ofPlace place).text.toList ++ '.' :: other.toList =
          (ofPlace (front ++ [last])).text.toList ++ '.' :: name.toList := by
        have hchars := congrArg (fun path : Path => path.text.toList) hwritten
        rw [← ofPlace_concat_append] at hchars
        simpa [String.toList_append] using hchars
      have hstems := (append_cons_inj (hknown other hother).2.1 (hknown name hname).2.1 htext).1
      exact .inr (.inl ((ofPlace_inj hplain h.plain).1
        (congrArg Path.mk (String.toList_inj.1 hstems))))
  · obtain ⟨other, hother, hwritten⟩ := List.mem_map.1 hmem
    have hindex := isName_indexName.append_ending hknown (dot_append_mem_endings hother)
    rw [String.append_assoc, join_ofPlace hplain hindex,
      ofPlace_inj (hplain.concat hindex) hb] at hwritten
    obtain ⟨rfl, hlast⟩ := List.append_inj' hwritten rfl
    have hnames := congrArg String.toList (List.singleton_inj.1 hlast)
    simp only [String.toList_append] at hnames
    have hindex' := (append_cons_inj (c := '.') (hknown other hother).2.1 (hknown name hname).2.1
      hnames).1
    exact .inr (.inr (h.stem.resolve_left fun h => h.2 (String.toList_inj.1 hindex').symm).1.symm)

/-- The path is that of a file of the module which is no declaration, and so is found by imports of
the module. -/
def IsModuleSource (known : Extensions) (p file : Path) : Prop :=
  ∃ name ∈ known.names, file = ⟨p.text ++ ("." ++ name)⟩ ∨
    file = ⟨p.text ++ "/index" ++ ("." ++ name)⟩

namespace IsModuleSource

variable {known : Extensions} {p file : Path}

theorem isModuleFile (h : IsModuleSource known p file) : IsModuleFile known p file := by
  obtain ⟨name, hname, hfile⟩ := h
  exact ⟨_, dot_append_mem_endings hname, hfile⟩

theorem exists_stem (hp : IsBarePath known p) (h : IsModuleSource known p file) :
    ∃ front last name, ModuleStem p front last ∧ name ∈ known.names ∧
      file = ofPlace (front ++ [last ++ ("." ++ name)]) := by
  obtain ⟨name, hname, hfile⟩ := h
  obtain ⟨front, last, hstem, hplace⟩ := hp.exists_stem hfile
  exact ⟨front, last, name, hstem, hname, hplace⟩

theorem mem_candidates (hknown : known.Dotless) (hp : IsBarePath known p)
    (h : IsModuleSource known p file) : file ∈ candidates known p := by
  obtain ⟨front, last, name, hstem, hname, rfl⟩ := h.exists_stem hp
  exact hstem.mem_candidates hknown hp hname

/-- A path that the file is tried for has the identity of the module. -/
theorem ofPath_eq_of_mem_candidates (hknown : known.Dotless) (hp : IsBarePath known p)
    (h : IsModuleSource known p file) {place : Location} (hplain : Plain place)
    (hmem : file ∈ candidates known (ofPlace place)) : ofPath known (ofPlace place) = ⟨p⟩ := by
  have hfile := h.isModuleFile.ofPath_eq hknown hp
  obtain ⟨front, last, name, hstem, hname, rfl⟩ := h.exists_stem hp
  rcases hstem.eq_of_mem_candidates hknown hname hplain hmem with rfl | rfl | rfl
  · exact hfile
  · exact hstem.ofPath_eq hknown hp
  · rw [← hp.eq_ofPlace, hp.ofPath_eq]

end IsModuleSource

namespace Disk

/-- The place is free for imports: whatever path it is tried for, nothing is found by that path. -/
def Vacant (d : Disk) (known : Extensions) (b : Location) : Prop :=
  ∀ place, Plain place → ofPlace b ∈ candidates known (ofPlace place) →
    locate? d known (ofPlace place) = none

/-- It is enough to look for the module that a file would belong to there. -/
theorem vacant_of_stem {d : Disk} {known : Extensions} (hknown : known.Dotless) {p : Path}
    (hp : IsBarePath known p) {front : Location} {last : String} (h : ModuleStem p front last)
    {name : String} (hname : name ∈ known.names)
    (hself : locate? d known (ofPlace (front ++ [last ++ ("." ++ name)])) = none)
    (hstem : locate? d known (ofPlace (front ++ [last])) = none)
    (hmodule : locate? d known p = none) :
    d.Vacant known (front ++ [last ++ ("." ++ name)]) := by
  intro place hplain hmem
  rcases h.eq_of_mem_candidates hknown hname hplain hmem with rfl | rfl | rfl
  · exact hself
  · exact hstem
  · rwa [← hp.eq_ofPlace]

/-- A file is gone from the place `a`, there is one at `b`, and nothing else has changed. -/
def FileWent (d : Disk) (a b : Location) (d' : Disk) : Prop :=
  ∀ q, Plain q → (d'.isFile (ofPlace q) = true ↔ q = b ∨ q ≠ a ∧ d.isFile (ofPlace q) = true)

namespace FileWent

variable {known : Extensions} {a b place : Location} {d d' : Disk}

/-- What is there is the file that went, or was there before. -/
theorem isFile_or_eq (h : d.FileWent a b d') (hknown : known.Dotless) (hplain : Plain place)
    {path : Path} (hmem : path ∈ candidates known (ofPlace place))
    (hfile : d'.isFile path = true) : path = ofPlace b ∨ d.isFile path = true := by
  obtain ⟨q, hq, rfl⟩ := exists_place_of_mem_candidates hknown hplain hmem
  rcases (h q hq).1 hfile with rfl | ⟨-, hold⟩
  · exact .inl rfl
  · exact .inr hold

/-- **The file is found where it went**, by every path that it is tried for. -/
theorem locate?_target (h : d.FileWent a b d') (hknown : known.Dotless) (hb : Plain b)
    (hvacant : d.Vacant known b) (hplain : Plain place)
    (hmem : ofPlace b ∈ candidates known (ofPlace place)) :
    locate? d' known (ofPlace place) = some (ofPlace b) := by
  have hnone := List.find?_eq_none.1 (hvacant _ hplain hmem)
  have hthere : d'.isFile (ofPlace b) = true := (h b hb).2 (.inl rfl)
  cases hfind : locate? d' known (ofPlace place) with
  | none => exact absurd hthere (List.find?_eq_none.1 hfind _ hmem)
  | some path =>
    have hpath := List.mem_of_find?_eq_some hfind
    rcases h.isFile_or_eq hknown hplain hpath (List.find?_some hfind) with rfl | hold
    · rfl
    · exact absurd hold (hnone path hpath)

/-- **Every other file that was found still is**, by the same path. -/
theorem locate?_other (h : d.FileWent a b d') (hknown : known.Dotless)
    (hvacant : d.Vacant known b) (hplain : Plain place) {found : Path}
    (hfound : locate? d known (ofPlace place) = some found) (hne : found ≠ ofPlace a) :
    locate? d' known (ofPlace place) = some found := by
  have hmiss : ofPlace b ∉ candidates known (ofPlace place) := fun hmem => by
    rw [hvacant _ hplain hmem] at hfound
    simp at hfound
  obtain ⟨hthere, before, after, hsplit, hbefore⟩ := List.find?_eq_some_iff_append.1 hfound
  refine List.find?_eq_some_iff_append.2 ⟨?_, before, after, hsplit, fun path hpath => ?_⟩
  · obtain ⟨q, hq, rfl⟩ := exists_place_of_mem_candidates hknown hplain
      (List.mem_of_find?_eq_some hfound)
    exact (h q hq).2 (.inr ⟨fun heq => hne (by rw [heq]), hthere⟩)
  · have hmem : path ∈ candidates known (ofPlace place) := by
      rw [hsplit]
      exact List.mem_append_left _ hpath
    simp only [Bool.not_eq_true']
    rw [Bool.eq_false_iff]
    intro hfile
    rcases h.isFile_or_eq hknown hplain hmem hfile with rfl | hold
    · exact hmiss hmem
    · simpa [hold] using hbefore path hpath

/-- A path by which nothing was found, and that does not lead to where the file went, finds nothing
afterwards. -/
theorem locate?_none (h : d.FileWent a b d') (hknown : known.Dotless) (hplain : Plain place)
    (hnone : locate? d known (ofPlace place) = none)
    (hmiss : ofPlace b ∉ candidates known (ofPlace place)) :
    locate? d' known (ofPlace place) = none := by
  refine List.find?_eq_none.2 fun path hmem hfile => ?_
  rcases h.isFile_or_eq hknown hplain hmem hfile with rfl | hold
  · exact hmiss hmem
  · exact List.find?_eq_none.1 hnone path hmem hold

/-- **An import that does not find the file that went means the same module**, on both disks. -/
theorem ofTarget_eq (h : d.FileWent a b d') (hknown : known.Dotless) (hb : Plain b)
    (hvacant : d.Vacant known b) {q : Path} (hq : IsBarePath known q)
    (htarget : IsModuleSource known q (ofPlace b)) (hplain : Plain place)
    (hother : locate? d known (ofPlace place) ≠ some (ofPlace a)) :
    ofTarget d' known (ofPlace place) = ofTarget d known (ofPlace place) := by
  rw [ofTarget, ofTarget]
  cases hlocate : locate? d known (ofPlace place) with
  | some found =>
    rw [h.locate?_other hknown hvacant hplain hlocate fun heq => hother (by rw [hlocate, heq])]
  | none =>
    by_cases hmem : ofPlace b ∈ candidates known (ofPlace place)
    · rw [h.locate?_target hknown hb hvacant hplain hmem, Option.getD_some, Option.getD_none,
        htarget.ofPath_eq_of_mem_candidates hknown hq hplain hmem]
      exact htarget.isModuleFile.ofPath_eq hknown hq
    · rw [h.locate?_none hknown hplain hlocate hmem]

end FileWent

end Disk

/-! ## What imports find afterwards -/

namespace Report

theorem relocated_source (source target : Path) : relocated source target source = target :=
  if_pos BEq.rfl

theorem relocated_of_ne {a c : Location} (ha : Plain a) (hc : Plain c) (hne : c ≠ a)
    (target : Path) : relocated (ofPlace a) target (ofPlace c) = ofPlace c := by
  refine if_neg fun heq => hne ?_
  exact (ofPlace_beq hc ha).1 heq

end Report

/-- The file at `a` can go to `b` without being mistaken for another one.  No other file belongs to
its module `p`; at `b` it belongs to another module `q`, and nothing is found there yet. -/
structure Relocation (known : Extensions) (d : Disk) (p q : Path) (a b : Location) : Prop where
  proper : known.Proper
  tree : d.IsTree
  index_free : ∀ place, d.entry? (place ++ [indexName]) ≠ some .directory
  source_plain : Plain a
  source_module : IsModulePath known p
  source : IsModuleFile known p (ofPlace a)
  there : ∃ content, d.entry? a = some (.file content)
  sole : ∀ c content, d.entry? c = some (.file content) →
    (ofPath known (ofPlace c) == ⟨p⟩) = true → c = a
  target_plain : Plain b
  target_module : IsModulePath known q
  target : IsModuleSource known q (ofPlace b)
  free : d.entry? b = none
  vacant : d.Vacant known b
  changes : p ≠ q

namespace Relocation

open Resolver Session

variable {known : Extensions} {d d' : Disk} {p q : Path} {a b c : Location} {found : Path}
  {specifier : String} {reference : Reference} {references : List Reference}

/-- A file that is there does not lie below a place without a directory. -/
theorem isInDir_directoryOf (htree : d.IsTree) {content : Content}
    (hc : d.entry? c = some (.file content)) (ha : Plain a)
    (hnodir : d.entry? a ≠ some .directory) :
    (ofPlace a).isInDir (directoryOf (ofPlace c)) = false := by
  have hne : c ≠ [] := by
    rintro rfl
    simp at hc
  obtain ⟨above, name, rfl⟩ := (List.eq_nil_or_concat' c).resolve_left hne
  have hplain := htree.plain hc
  rw [directoryOf, parent?_ofPlace_concat hplain, Option.getD_some, Bool.eq_false_iff, Ne,
    isInDir_ofPlace ha hplain.left]
  intro hpre
  refine hnodir (htree.directory_of_prefix hc (hpre.trans (List.prefix_append _ _)) ?_)
  rintro rfl
  have hlength := hpre.length_le
  rw [List.length_append, List.length_singleton] at hlength
  omega

theorem exists_place_of_found? (h : Relocation known d p q a b) {file : Path}
    (hfile : file.isAbsolute = true)
    (hfound : (ofExtensions known).found? d file specifier = some found) :
    ∃ place c content, Plain place ∧ Plain c ∧ found = ofPlace c ∧
      d.entry? c = some (.file content) ∧
      locate? d known (ofPlace place) = some (ofPlace c) ∧
      (ofExtensions known).resolvePath? d file specifier = some (ofPlace place) := by
  obtain ⟨path, hpath, hlocate⟩ := Option.bind_eq_some_iff.1 hfound
  obtain ⟨place, hplain, rfl, -⟩ := exists_place_of_resolvePath? hfile hpath
  obtain ⟨c, hc, rfl⟩ := exists_place_of_mem_candidates h.proper.dotless hplain
    (List.mem_of_find?_eq_some hlocate)
  obtain ⟨-, content, hentry⟩ := (h.tree.isFile_ofPlace hc).1 (List.find?_some hlocate)
  exact ⟨place, c, content, hplain, hc, rfl, hentry, hlocate, hpath⟩

/-- A file that is found and did not move is where it was. -/
theorem relocated_found {file : Path}
    (h : Relocation known d p q a b) (hfile : file.isAbsolute = true)
    (hfound : (ofExtensions known).found? d file specifier = some found)
    (hne : found ≠ ofPlace a) : Report.relocated (ofPlace a) (ofPlace b) found = found := by
  obtain ⟨_, c, _, -, hc, rfl, -⟩ := h.exists_place_of_found? hfile hfound
  exact Report.relocated_of_ne h.source_plain hc (fun heq => hne (by rw [heq])) (ofPlace b)

/-- An import that finds another file finds it afterwards, too. -/
theorem found?_other (h : Relocation known d p q a b) (hwent : d.FileWent a b d') {file : Path}
    (hfile : file.isAbsolute = true)
    (hfound : (ofExtensions known).found? d file specifier = some found)
    (hne : found ≠ ofPlace a) : (ofExtensions known).found? d' file specifier = some found := by
  obtain ⟨place, c, content, hplain, hc, rfl, hentry, hlocate, hpath⟩ :=
    h.exists_place_of_found? hfile hfound
  rw [found?, resolvePath?_disk known d, hpath, Option.bind_some]
  exact hwent.locate?_other h.proper.dotless h.vacant hplain hlocate hne

/-- An import that does not find the file that goes means afterwards what it meant. -/
theorem resolve?_other (h : Relocation known d p q a b) (hwent : d.FileWent a b d') {file : Path}
    (hfile : file.isAbsolute = true)
    (hother : (ofExtensions known).found? d file specifier ≠ some (ofPlace a)) :
    (ofExtensions known).resolve? d' file specifier =
      (ofExtensions known).resolve? d file specifier := by
  rw [found?] at hother
  rw [resolve?, resolve?, resolvePath?_disk known d]
  cases hpath : (ofExtensions known).resolvePath? d file specifier with
  | none => rw [Option.map_none, Option.map_none]
  | some path =>
    obtain ⟨place, hplain, rfl, -⟩ := exists_place_of_resolvePath? hfile hpath
    rw [hpath, Option.bind_some] at hother
    rw [Option.map_some, Option.map_some]
    exact congrArg some (hwent.ofTarget_eq h.proper.dotless h.target_plain h.vacant
      h.target_module.toIsBarePath h.target hplain hother)

/-- Only the file itself is found by an import of its module. -/
theorem eq_of_resolve? (h : Relocation known d p q a b) {file : Path}
    (hfile : file.isAbsolute = true)
    (hfound : (ofExtensions known).found? d file specifier = some found)
    (hmeans : ((ofExtensions known).resolve? d file specifier == some ⟨p⟩) = true) :
    found = ofPlace a := by
  obtain ⟨place, c, content, -, hc, rfl, hentry, -⟩ := h.exists_place_of_found? hfile hfound
  rw [resolve?_of_found? hfound, Option.some_beq_some] at hmeans
  rw [h.sole c content hentry hmeans]

theorem identityOf_source (h : Relocation known d p q a b) :
    (ofExtensions known).identityOf (ofPlace a) = ⟨p⟩ :=
  h.source.ofPath_eq h.proper.dotless h.source_module.toIsBarePath

/-- An import that does not mean the module of the file does not find the file. -/
theorem ne_source_of_resolve? (h : Relocation known d p q a b) {file : Path}
    (hfound : (ofExtensions known).found? d file specifier = some found)
    (hmeans : ((ofExtensions known).resolve? d file specifier == some ⟨p⟩) = false) :
    found ≠ ofPlace a := by
  rintro rfl
  rw [resolve?_of_found? hfound, h.identityOf_source] at hmeans
  simp at hmeans

/-- What a file that is there is redirected from means the module of the file that goes. -/
theorem resolve?_old (h : Relocation known d p q a b) {content : Content}
    (hc : d.entry? c = some (.file content)) :
    (ofExtensions known).resolve? d (ofPlace c)
      (replacementFor (.ofExtensions known) (ofPlace c) (ofPlace a) (ofPlace b)).old =
        some ⟨p⟩ := by
  obtain ⟨content', ha⟩ := h.there
  exact resolve?_replacementFor_old h.proper h.index_free h.source_module h.source
    (isAbsolute_ofPlace c)
    (isInDir_directoryOf h.tree hc h.source_plain (by simp [ha])) (ofPlace b)

/-- **A redirected import finds the file where it went, and any other the file that it found.** -/
theorem found?_redirectedSpelling (h : Relocation known d p q a b) (hwent : d.FileWent a b d')
    {content : Content} (hc : d.entry? c = some (.file content))
    (hdistinct : references.Pairwise fun a b => a.span ≠ b.span) (hmem : reference ∈ references)
    (hfound : (ofExtensions known).found? d (ofPlace c) reference.specifier = some found) :
    (ofExtensions known).found? d' (ofPlace c)
        (redirectedSpelling (.ofExtensions known) d (ofPlace c) (ofPlace a) (ofPlace b) references
          reference) =
      some (Report.relocated (ofPlace a) (ofPlace b) found) := by
  have hfile : (ofPlace c).isAbsolute = true := isAbsolute_ofPlace c
  have hout' := isInDir_directoryOf h.tree hc h.target_plain (by simp [h.free])
  have hold := h.resolve?_old hc
  have hnew := resolvePath?_replacementFor_new h.proper d' h.target_module h.target.isModuleFile
    hfile hout' (ofPlace a)
  rw [redirectedSpelling, spelling_editsFor hdistinct hmem, List.find?_singleton]
  by_cases hspeaks : (ofExtensions known).speaksOf d (ofPlace c) reference
      (replacementFor (.ofExtensions known) (ofPlace c) (ofPlace a) (ofPlace b)) = true
  · obtain ⟨-, wanted, hwanted, hmeans⟩ := speaksOf_iff.1 hspeaks
    obtain rfl : ⟨p⟩ = wanted := Option.some.inj (hold.symm.trans hwanted)
    obtain rfl := h.eq_of_resolve? hfile hfound hmeans
    rw [if_pos hspeaks, Option.map_some, Option.getD_some, found?, hnew, Option.bind_some,
      Report.relocated_source]
    have hq := h.target_module.toIsBarePath
    rw [hq.eq_ofPlace]
    refine hwent.locate?_target h.proper.dotless h.target_plain h.vacant hq.plain ?_
    rw [← hq.eq_ofPlace]
    exact h.target.mem_candidates h.proper.dotless hq
  · rw [if_neg hspeaks, Option.map_none, Option.getD_none]
    -- an import that finds the file is spoken of, since its module changes
    have hother : found ≠ ofPlace a := by
      rintro rfl
      refine hspeaks (speaksOf_iff.2 ⟨fun hsame => h.changes ?_, ⟨p⟩, hold, ?_⟩)
      · have hmeans := resolve?_replacementFor_new h.proper d h.target_module
          h.target.isModuleFile hfile hout' (ofPlace a)
        rw [← hsame, hold] at hmeans
        exact congrArg Identity.path (Option.some.inj hmeans)
      · rw [resolve?_of_found? hfound, h.identityOf_source]
        exact BEq.rfl
    rw [h.found?_other hwent hfile hfound hother, h.relocated_found hfile hfound hother]

theorem source_no_backslash (h : Relocation known d p q a b) :
    '\\' ∉ (ofPlace a).text.toList := by
  obtain ⟨ending, hending, hfile⟩ := h.source
  have hending' := Extensions.no_backslash_of_mem_endings h.proper hending
  rcases hfile with hfile | hfile
  · rw [hfile]
    simp [h.source_module.no_backslash, hending']
  · rw [hfile]
    simp [h.source_module.no_backslash, hending']

/-- What an import of the file that went found is found by the specifier that is written for it. -/
theorem found?_specifierFor (h : Relocation known d p q a b) (hwent : d.FileWent a b d')
    (hslash : '\\' ∉ specifier.toList) (hne : found ≠ ofPlace a)
    (hfound : (ofExtensions known).found? d (ofPlace a) specifier = some found) {path : Path}
    (hpath : (ofExtensions known).resolvePath? d' (ofPlace a) specifier = some path) :
    (ofExtensions known).found? d' (ofPlace b)
      ((ofExtensions known).specifierFor (ofPlace b) path) = some found := by
  have hfile : (ofPlace a).isAbsolute = true := isAbsolute_ofPlace a
  have hfound' := h.found?_other hwent hfile hfound hne
  obtain ⟨place, hplain, rfl, hslashes⟩ :=
    eq_ofPlace_of_resolvePath? hfile h.source_no_backslash hslash hpath
  have hround := resolvePath?_specifierFor known d' (isAbsolute_ofPlace b)
    (isAbsolute_ofPlace place) (by rwa [place_ofPlace hplain])
  rw [normalize_ofPlace hplain] at hround
  rw [found?, hpath] at hfound'
  rw [found?, hround, hfound']

/-- **An import of the file that went finds what it found**, if those that mean one module find one
file and none means the file's own module. -/
theorem found?_movedSpelling (h : Relocation known d p q a b) (hwent : d.FileWent a b d')
    (hdistinct : references.Pairwise fun a b => a.span ≠ b.span)
    (hslashes : ∀ other ∈ references, '\\' ∉ other.specifier.toList)
    (hself : ∀ other ∈ references,
      ((ofExtensions known).resolve? d (ofPlace a) other.specifier == some ⟨p⟩) = false)
    (hmem : reference ∈ references)
    (hagree : ∀ other ∈ references,
      ((ofExtensions known).resolve? d (ofPlace a) other.specifier ==
        (ofExtensions known).resolve? d (ofPlace a) reference.specifier) = true →
      (ofExtensions known).found? d (ofPlace a) other.specifier =
        (ofExtensions known).found? d (ofPlace a) reference.specifier)
    (hfound : (ofExtensions known).found? d (ofPlace a) reference.specifier = some found) :
    (ofExtensions known).found? d' (ofPlace b)
      (movedSpelling (.ofExtensions known) d' (ofPlace a) (ofPlace b) references reference) =
        some found := by
  have hfile : (ofPlace a).isAbsolute = true := isAbsolute_ofPlace a
  have hother : ∀ other ∈ references,
      (ofExtensions known).found? d (ofPlace a) other.specifier ≠ some (ofPlace a) := by
    intro other hmem' hfinds
    exact h.ne_source_of_resolve? hfinds (hself other hmem') rfl
  have hne := h.ne_source_of_resolve? hfound (hself reference hmem)
  rw [movedSpelling, spelling_editsFor hdistinct hmem]
  obtain ⟨place, _, _, -, -, -, -, -, hpath⟩ := h.exists_place_of_found? hfile hfound
  rw [← resolvePath?_disk known d d'] at hpath
  cases hfind : (movedReplacements (.ofExtensions known) d' (ofPlace a) (ofPlace b)
      references).find? ((ofExtensions known).speaksOf d' (ofPlace a) reference) with
  | some replacement =>
    obtain ⟨-, wanted, hwanted, hmeans⟩ := speaksOf_iff.1 (List.find?_some hfind)
    obtain ⟨specifier, hspecifier, hreplacement⟩ :=
      List.mem_filterMap.1 (List.mem_of_find?_eq_some hfind)
    obtain ⟨path, hpath', rfl⟩ := Option.map_eq_some_iff.1 hreplacement
    obtain ⟨other, hmem', rfl⟩ := mem_specifiersOf.1 hspecifier
    rw [Option.map_some, Option.getD_some]
    refine h.found?_specifierFor hwent (hslashes other hmem') hne
      ((hagree other hmem' ?_).trans hfound) hpath'
    rw [← h.resolve?_other hwent hfile (hother other hmem'),
      ← h.resolve?_other hwent hfile (hother reference hmem)]
    dsimp only at hwanted
    rw [hwanted]
    cases hreads : (ofExtensions known).resolve? d' (ofPlace a) reference.specifier with
    | none => simp [hreads] at hmeans
    | some identity =>
      rw [hreads, Option.some_beq_some] at hmeans
      rw [Option.some_beq_some]
      exact BEq.symm hmeans
  | none =>
    -- the import's own replacement speaks of it unless it is trivial
    have hown := mem_movedReplacements (ofPlace b) hmem hpath
    have htrivial : reference.specifier =
        (ofExtensions known).specifierFor (ofPlace b) (ofPlace place) := by
      by_contra hne
      have hmeans := h.resolve?_other hwent hfile (hother reference hmem)
      rw [resolve?_of_found? hfound] at hmeans
      exact List.find?_eq_none.1 hfind _ hown
        (speaksOf_iff.2 ⟨hne, _, hmeans, by rw [hmeans]; exact BEq.rfl⟩)
    rw [Option.map_none, Option.getD_none]
    conv_lhs => rw [htrivial]
    exact h.found?_specifierFor hwent (hslashes reference hmem) hne hfound hpath

end Relocation

end Relocate
