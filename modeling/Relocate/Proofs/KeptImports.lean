import Relocate.Proofs.Discovery
import Relocate.Proofs.Guarantees
import Relocate.Proofs.Rereading
import Relocate.Proofs.RewrittenTexts

/-! # Imports find their files after a move

What a file imports is kept by a move if the file is read to as many imports afterwards, and each
of them finds the file that it found, where it is now (`ImportsKept`).  A move of one file keeps the
imports of all sources (`file_move_keeps_imports`), as long as no alias and no package has a say,
the file is not mistaken for another one (`Relocation`), and what is rewritten can be read again
(`Source.Replaceable`).  There are three kinds of sources: those that have the module that moves
among their imports, those that do not, and the file itself.

The conditions are not idle.  A file that goes to a name with a backslash is lost to what imports it
(`move_to_backslash_loses_import`), and so is one that becomes the index of a directory that an
alias stands for (`move_to_alias_root_loses_import`). -/

namespace Relocate

open Relocate.Path Text

/-! ## Texts between quotes -/

namespace Source

/-- The text can stand between quotes of either kind. -/
def Quotable (text : String) : Prop :=
  ∀ c ∈ text.toList, c ≠ '\'' ∧ c ≠ '"' ∧ c ≠ '\\' ∧ c ≠ '\n' ∧ c ≠ '\r'

instance (text : String) : Decidable (Quotable text) := List.decidableBAll _ text.toList

/-- What stands at the span is between two quotes of one kind. -/
def QuotedAt (text : List Char) (span : Span) : Prop :=
  ∃ before q old after, IsQuote q ∧ text = before ++ q :: (old ++ q :: after) ∧
    byteLength before + 1 = span.start ∧ span.start + byteLength old = span.stop

/-- An edit between quotes fits if its text can stand between any. -/
theorem QuotedAt.fitsIn {text : List Char} {e : TextEdit} (h : QuotedAt text e.span)
    (hnew : Quotable e.newText) : FitsIn text e := by
  obtain ⟨before, q, old, after, hq, htext, hstart, hstop⟩ := h
  refine ⟨before, q, old, after, hq, htext, hstart, hstop, fun c hc => ?_⟩
  obtain ⟨hsingle, hdouble, hrest⟩ := hnew c hc
  rcases hq with rfl | rfl
  · exact ⟨hsingle, hrest⟩
  · exact ⟨hdouble, hrest⟩

theorem Quotable.no_backslash {text : String} (h : Quotable text) : '\\' ∉ text.toList :=
  fun hmem => (h _ hmem).2.2.1 rfl

/-- The names in a path can stand between quotes if the path can. -/
theorem Quotable.of_mem_place {path : Path} (h : Quotable path.text)
    (habsolute : path.isAbsolute = true) {name : String} (hname : name ∈ path.place) :
    Quotable name :=
  fun c hc => h c (mem_text_of_mem_place habsolute hname hc)

end Source

namespace Path

/-- The characters of a relative specifier are those of its names, dots and slashes. -/
theorem quotable_dotted (up : Nat) {names : Location} (h : ∀ name ∈ names, Source.Quotable name) :
    Source.Quotable (dotted up names) := by
  intro c hc
  rw [toList_dotted] at hc
  rcases mem_intercalate hc with rfl | ⟨piece, hpiece, hmem⟩
  · decide
  · obtain ⟨name, hname, rfl⟩ := List.mem_map.1 hpiece
    rcases List.mem_append.1 hname with hname | hname
    · have hdots : Source.Quotable "." ∧ Source.Quotable ".." := by decide
      rcases eq_of_mem_climbing hname with rfl | rfl
      · exact hdots.1 c hmem
      · exact hdots.2 c hmem
    · exact h name hname c hmem

end Path

theorem Extensions.quotable_strip (known : Extensions) {text : String} (h : Source.Quotable text) :
    Source.Quotable (known.strip text) := by
  have hstem : ∀ stem, known.stem? text = some stem → ∃ ending, stem ++ ending = text := by
    intro stem hstem
    have hother : ∀ found, (known.names.findSome? fun name => dropTail? ("." ++ name) text) =
        some found → ∃ ending, found ++ ending = text := by
      intro found hfound
      obtain ⟨name, -, hdrop⟩ := List.exists_of_findSome?_eq_some hfound
      exact ⟨_, dropTail?_eq_some_iff.1 hdrop⟩
    unfold stem? at hstem
    dsimp only at hstem
    split at hstem
    · rename_i declared hdrop
      split at hstem
      · exact ⟨_, dropTail?_eq_some_iff.1 (hdrop.trans hstem)⟩
      · exact hother stem hstem
    · exact hother stem hstem
  intro c hc
  rw [strip] at hc
  cases hfound : known.stem? text with
  | none =>
    rw [hfound] at hc
    exact h c hc
  | some stem =>
    rw [hfound] at hc
    obtain ⟨ending, rfl⟩ := hstem stem hfound
    exact h c (by rw [String.toList_append]; exact List.mem_append_left _ hc)

namespace Resolver

theorem quotable_withoutIndex {text : String} (h : Source.Quotable text) :
    Source.Quotable (withoutIndex text) := by
  intro c hc
  rw [withoutIndex] at hc
  cases hfound : dropTail? "/index" text with
  | none =>
    rw [hfound] at hc
    exact h c hc
  | some stem =>
    rw [hfound] at hc
    refine h c ?_
    rw [← dropTail?_eq_some_iff.1 hfound, String.toList_append]
    exact List.mem_append_left _ hc

variable {known : Extensions} {file : Path} {place : Location}

/-- What is written for a target can stand between quotes if the names of the target can. -/
theorem quotable_specifierFor (known : Extensions) (hfile : file.isAbsolute = true)
    (hplain : Plain place) (h : ∀ name ∈ place, Source.Quotable name) :
    Source.Quotable ((ofExtensions known).specifierFor file (ofPlace place)) := by
  have hslashes : ∀ name ∈ (ofPlace place).place, '\\' ∉ name.toList := by
    rw [place_ofPlace hplain]
    exact fun name hname => (h name hname).no_backslash
  obtain ⟨front, above, names, -, hplace, hwritten⟩ :=
    specifierFor_eq_dotted known hfile (isAbsolute_ofPlace place) hslashes
  rw [place_ofPlace hplain] at hplace
  rw [hwritten]
  refine quotable_dotted _ fun name hname => h name ?_
  rw [hplace]
  exact List.mem_append_right _ hname

theorem quotable_replacementFor (known : Extensions) (hfile : file.isAbsolute = true)
    (hplain : Plain place) (h : Source.Quotable (ofPlace place).text) (source : Path) :
    Source.Quotable
      (Session.replacementFor (.ofExtensions known) file source (ofPlace place)).new := by
  rw [Session.replacementFor]
  dsimp only
  rw [withoutExtension]
  apply quotable_withoutIndex
  apply Extensions.quotable_strip
  refine quotable_specifierFor known hfile hplain fun name hname => ?_
  rw [← place_ofPlace hplain] at hname
  exact h.of_mem_place (isAbsolute_ofPlace place) hname

/-- The specifiers that are written for what the imports of a file mean can stand between quotes if
those that are there and the file can. -/
theorem quotable_movedReplacements {disk : Disk} {source target : Path}
    {references : List Reference} (hsource : source.isAbsolute = true)
    (htarget : target.isAbsolute = true) (hquotable : Source.Quotable source.text)
    (hspecifiers : ∀ reference ∈ references, Source.Quotable reference.specifier)
    {replacement : Replacement} (h : replacement ∈
      Session.movedReplacements (.ofExtensions known) disk source target references) :
    Source.Quotable replacement.new := by
  obtain ⟨specifier, hspecifier, hreplacement⟩ := List.mem_filterMap.1 h
  obtain ⟨path, hpath, rfl⟩ := Option.map_eq_some_iff.1 hreplacement
  obtain ⟨reference, hmem, rfl⟩ := Session.mem_specifiersOf.1 hspecifier
  obtain ⟨place, hplain, rfl, hchars⟩ := exists_place_of_resolvePath? hsource hpath
  refine quotable_specifierFor known htarget hplain fun name hname c hc => ?_
  rcases hchars name hname c hc with rfl | hc | hc
  · decide
  · exact hquotable c hc
  · exact hspecifiers reference hmem c hc

/-- Without aliases and packages, replacements speak of relative imports only. -/
theorem startsWith_of_speaksOf {disk : Disk} {reference : Reference} {replacement : Replacement}
    (h : (ofExtensions known).speaksOf disk file reference replacement = true) :
    Text.startsWith "." reference.specifier = true := by
  obtain ⟨-, wanted, -, hmeans⟩ := speaksOf_iff.1 h
  rw [resolve?, resolvePath?_ofExtensions] at hmeans
  by_contra hother
  simp [hother] at hmeans

/-- An edit is made for an import that a replacement speaks of, and writes what the replacement
says. -/
theorem exists_of_mem_editsFor {r : Resolver} {disk : Disk} {references : List Reference}
    {replacements : List Replacement} (hdistinct : references.Pairwise fun a b => a.span ≠ b.span)
    {e : TextEdit} (he : e ∈ r.editsFor disk file references replacements) :
    ∃ reference ∈ references, ∃ replacement ∈ replacements, reference.span = e.span ∧
      replacement.new = e.newText ∧ r.speaksOf disk file reference replacement = true := by
  obtain ⟨reference, hmem, hspan⟩ := editsFor_span he
  refine ⟨reference, hmem, ?_⟩
  rw [show e = ⟨reference.span, e.newText⟩ by rw [hspan], mem_editsFor_iff hdistinct hmem,
    spelling_editsFor hdistinct hmem] at he
  obtain ⟨hspelled, hchanges⟩ := he
  cases hfind : replacements.find? (r.speaksOf disk file reference) with
  | none =>
    rw [hfind] at hspelled
    exact absurd hspelled hchanges
  | some replacement =>
    rw [hfind] at hspelled
    exact ⟨replacement, List.mem_of_find?_eq_some hfind, hspan, hspelled, List.find?_some hfind⟩

end Resolver

/-! ## Reading a rewritten file -/

namespace Source

/-- The import can be spelled anew: it stands in the head of the text, between two quotes. -/
structure Replaceable (path : Path) (text : String) (reference : Reference) : Prop where
  unmarked : ¬ DoublyMarked text
  head : ∃ head ∈ headImports path text, head.span = reference.span
  quoted : QuotedAt text.toList reference.span

/-- **A rewritten file is read to the imports it had**, spelled as the edits say, if the imports
that replacements speak of can be spelled anew. -/
theorem imports_applyAll {path readAs : Path} {text new : String} {references : List Reference}
    (himports : imports path text = some references) {r : Resolver} {disk : Disk}
    {replacements : List Replacement}
    (hreplaceable : ∀ reference ∈ references, ∀ replacement ∈ replacements,
      r.speaksOf disk readAs reference replacement = true → Replaceable path text reference)
    (hquotable : ∀ replacement ∈ replacements, Quotable replacement.new)
    (happly : TextEdit.applyAll text (r.editsFor disk readAs references replacements) = .ok new) :
    ∃ reread, imports path new = some reread ∧ reread.map Reference.specifier =
      references.map (spelling (r.editsFor disk readAs references replacements)) := by
  have hdistinct := Tools.readsApart_standard (fun _ => "") _ _ _ himports
  have hedits : ∀ e ∈ r.editsFor disk readAs references replacements,
      ∃ reference ∈ references, reference.span = e.span ∧ Replaceable path text reference ∧
        Quotable e.newText := by
    intro e he
    obtain ⟨reference, hmem, replacement, hreplacement, hspan, hnew, hspeaks⟩ :=
      Resolver.exists_of_mem_editsFor hdistinct he
    exact ⟨reference, hmem, hspan, hreplaceable reference hmem replacement hreplacement hspeaks,
      hnew ▸ hquotable replacement hreplacement⟩
  by_cases hnone : r.editsFor disk readAs references replacements = []
  · rw [hnone, TextEdit.applyAll_nil] at happly
    rw [hnone, ← Except.ok.inj happly]
    exact ⟨references, himports, rfl⟩
  · obtain ⟨e, he⟩ := List.exists_mem_of_ne_nil _ hnone
    obtain ⟨_, -, -, hfirst, -⟩ := hedits e he
    obtain ⟨rewritten, happly', hrespecified⟩ := Resolver.applyAll_editsFor
      (imports_standsIn himports hfirst.unmarked) (imports_apart himports) r disk readAs
      replacements
    obtain rfl : new = rewritten := Except.ok.inj (happly.symm.trans happly')
    refine imports_respecified himports hfirst.unmarked (fun e he => ?_) hrespecified
    obtain ⟨reference, -, hspan, hplaced, hnew⟩ := hedits e he
    exact ⟨hspan ▸ hplaced.head, QuotedAt.fitsIn (hspan ▸ hplaced.quoted) hnew⟩

end Source

/-! ## The files that import a module -/

namespace Session

variable {disk : Disk} {freshName : Nat → String}

/-- The graph has the imports of each of the files. -/
theorem mem_importGraph_iff {resolver : Resolver} {clock : Nat} {files : List Path} {i : Import} :
    i ∈ importGraph (.standard freshName) resolver disk clock files ↔
      i.site.file ∈ files ∧ i ∈ importsAt (.standard freshName) resolver disk 0 i.site.file := by
  induction files generalizing clock with
  | nil => simp [importGraph]
  | cons file files ih =>
    -- when a file is read makes no difference
    have hclock : importsAt (.standard freshName) resolver disk clock file =
        importsAt (.standard freshName) resolver disk 0 file := rfl
    rw [importGraph, List.mem_append, ih, List.mem_cons, hclock]
    constructor
    · rintro (hown | ⟨hmem, hothers⟩)
      · rw [file_of_mem_importsAt hown]
        exact ⟨.inl rfl, hown⟩
      · exact ⟨.inr hmem, hothers⟩
    · rintro ⟨heq | hmem, hi⟩
      · rw [heq] at hi
        exact .inl hi
      · exact .inr ⟨hmem, hi⟩

theorem ready_sound {tools : Tools} (hfiles : tools.files.Faithful) (htree : disk.IsTree)
    {root : Path} {scan : ScanSettings} {files : ProjectFiles}
    (hdiscover : ProjectFiles.discover disk (start disk root scan).root scan = .ok files) :
    Sound tools nowhere (ready tools disk root scan files) :=
  ((prepare_ensures hfiles (start_sound root scan htree)).of_ok
    (run_prepare_start tools hdiscover)).1

/-- The file of a site on record is on record, as the paths of sources are written in one way. -/
theorem mem_files_of_site {tools : Tools} (hfiles : tools.files.Faithful) (htree : disk.IsTree)
    {root : Path} {scan : ScanSettings} {files : ProjectFiles}
    (hdiscover : ProjectFiles.discover disk (start disk root scan).root scan = .ok files)
    {site : Site} (hfile : site.file ∈ files.sources) {target : Identity}
    (hsite : site ∈ (ready tools disk root scan files).index.sites target) :
    site.file ∈ (ready tools disk root scan files).index.files target := by
  have hcontains : ((ready tools disk root scan files).index.files target).contains site.file =
      true := by
    rw [Index.files_eq_eraseDups, contains_eraseDups]
    exact List.contains_iff_exists_mem_beq.2 ⟨_, List.mem_map_of_mem hsite, BEq.rfl⟩
  obtain ⟨other, hother, hlike⟩ := List.contains_iff_exists_mem_beq.1 hcontains
  obtain ⟨place, hplain, rfl, -⟩ := (ready_sound hfiles htree hdiscover).known hother
  obtain ⟨hroot, hplain'⟩ := absolutize_eq_ofPlace (isAbsolute_ofPlace disk.workingDir) root
  rw [show (start disk root scan).root = _ from hroot] at hdiscover
  obtain ⟨place', hplace', heq⟩ := sources_of_discover htree hplain' hdiscover site.file hfile
  rw [heq] at hlike ⊢
  rwa [(ofPlace_beq hplace' hplain).1 hlike]

/-- **A source is on record for a module exactly if one of its references means it.** -/
theorem mem_files_ready (freshName : Nat → String) (htree : disk.IsTree) {root : Path}
    {scan : ScanSettings} {files : ProjectFiles}
    (hdiscover : ProjectFiles.discover disk (start disk root scan).root scan = .ok files)
    {file : Path} (hfile : file ∈ files.sources) {text : String}
    (hread : disk.readText file = .ok text) {references : List Reference}
    (himports : Source.imports file text = some references) (target : Identity) :
    file ∈ (ready (.standard freshName) disk root scan files).index.files target ↔
      ∃ reference ∈ references,
        ((resolverFor disk scan files).resolve? disk file reference.specifier == some target) =
          true := by
  have hsites := sites_ready (Tools.readsApart_standard freshName) htree hdiscover target
  have hat : importsAt (.standard freshName) (resolverFor disk scan files) disk 0 file =
      importsAmong (resolverFor disk scan files) disk file references := by
    rw [importsAt_of_readText hread, show (Tools.standard freshName).importsOf file text = _ from
      himports]
    rfl
  constructor
  · intro h
    obtain ⟨site, hsite, rfl⟩ := Index.mem_of_mem_files h
    rw [hsites] at hsite
    obtain ⟨i, hi, rfl⟩ := List.mem_map.1 hsite
    obtain ⟨hi, htarget⟩ := List.mem_filter.1 hi
    have hi := (mem_importGraph_iff.1 hi).2
    rw [hat] at hi
    obtain ⟨reference, hmem, hi⟩ := List.mem_filterMap.1 hi
    obtain ⟨meant, hmeant, hsame⟩ := Option.map_eq_some_iff.1 hi
    rw [← congrArg Import.target hsame] at htarget
    refine ⟨reference, hmem, ?_⟩
    rw [hmeant, Option.some_beq_some]
    exact htarget
  · rintro ⟨reference, hmem, hmeans⟩
    cases hmeant : (resolverFor disk scan files).resolve? disk file reference.specifier with
    | none => simp [hmeant] at hmeans
    | some meant =>
      rw [hmeant, Option.some_beq_some] at hmeans
      have hi : ⟨meant, ⟨file, reference.span⟩⟩ ∈
          importGraph (.standard freshName) (resolverFor disk scan files) disk 0 files.sources := by
        refine mem_importGraph_iff.2 ⟨hfile, ?_⟩
        rw [hat]
        exact List.mem_filterMap.2 ⟨reference, hmem, by rw [hmeant]; rfl⟩
      have hsite : ⟨file, reference.span⟩ ∈
          (ready (.standard freshName) disk root scan files).index.sites target := by
        rw [hsites]
        exact List.mem_map.2 ⟨_, List.mem_filter.2 ⟨hi, hmeans⟩, rfl⟩
      exact mem_files_of_site FileSystem.plain_faithful htree hdiscover hfile hsite

end Session

/-! ## Moving a file in a project -/

/-- A move in a project whose files are known begins with the session that has read it. -/
theorem moveInProject_eq (freshName : Nat → String) {disk : Disk} {root : Path}
    {scan : ScanSettings} {files : ProjectFiles}
    (hdiscover : ProjectFiles.discover disk (Session.start disk root scan).root scan = .ok files)
    (source target : Path) :
    moveInProject freshName disk root scan source target =
      (((Move.move (.standard freshName) source target).run.run
          (Session.ready (.standard freshName) disk root scan files)).1,
        ((Move.move (.standard freshName) source target).run.run
          (Session.ready (.standard freshName) disk root scan files)).2.disk) := by
  have hrun := Session.run_prepare_start (.standard freshName) hdiscover
  unfold moveInProject
  dsimp only
  rw [Work.run_bind_ok hrun]
  rcases (Move.move (.standard freshName) source target).run.run
    (Session.ready (.standard freshName) disk root scan files) with ⟨outcome, s⟩
  rfl

theorem exists_run_of_moveInProject {freshName : Nat → String} {disk disk' : Disk} {root : Path}
    {scan : ScanSettings} {files : ProjectFiles}
    (hdiscover : ProjectFiles.discover disk (Session.start disk root scan).root scan = .ok files)
    {source target : Path} {outcome : Except Error Report}
    (h : moveInProject freshName disk root scan source target = (outcome, disk')) :
    ∃ s, (Move.move (.standard freshName) source target).run.run
        (Session.ready (.standard freshName) disk root scan files) = (outcome, s) ∧
      s.disk = disk' := by
  rw [moveInProject_eq freshName hdiscover] at h
  generalize (Move.move (.standard freshName) source target).run.run
    (Session.ready (.standard freshName) disk root scan files) = result at h ⊢
  obtain ⟨rfl, rfl⟩ := Prod.mk.inj h
  exact ⟨result.2, rfl, rfl⟩

namespace Move

open Disk Session Work

variable {tools : Tools} {s : Session} {a b : Location} {source target : Path}
  {P : Report → Session → Prop}

/-- A move of a file to a free place is that of `moveFile`. -/
theorem move_ensures_of_file (hfiles : tools.files.Honest) (htree : s.disk.IsTree)
    (hsource : s.root.absolutize source = ofPlace a)
    (htarget : s.root.absolutize target = ofPlace b) {content : Content}
    (ha : s.disk.entry? a = some (.file content)) (hb : Plain b) (hfree : s.disk.entry? b = none)
    (h : Ensures (moveFile tools (ofPlace a) (ofPlace b) {}) s P fun _ _ => True) :
    Ensures (move tools source target) s P fun _ _ => True := by
  have hplain := htree.plain ha
  have hne : (ofPlace a == ofPlace b) = false := by
    rw [Bool.eq_false_iff, Ne, ofPlace_beq hplain hb]
    rintro rfl
    simp [ha] at hfree
  have hfile : s.disk.isDir (ofPlace a) = false := by
    rw [Bool.eq_false_iff, Ne, htree.isDir_ofPlace hplain, ha]
    simp
  refine ensures_bind (ensures_get ?_)
  rw [hsource, htarget, show taskBound s.disk = 4 * s.disk.entries.length + 3 + 1 from rfl, run]
  refine ensures_bind ?_
  dsimp only [step]
  rw [hne]
  refine ensures_bind (ensures_bind (ensures_get (ensures_pure ?_)))
  split
  · exact ensures_throw trivial
  · refine ensures_bind (ensures_bind (ensures_get (ensures_pure ?_)))
    split
    · exact ensures_throw trivial
    · refine ensures_bind (ensures_bind (ensures_get (ensures_pure ?_)))
      rw [hfiles.isDir, hfile]
      refine ensures_bind (h.mono ?_ fun _ _ _ => trivial)
      intro report s' hP
      exact ensures_pure (ensures_pure hP)

end Move

/-- The file is read after the move of a file from `source` to `target`, wherever it is then.  It
has as many imports, and each of them finds the file that it found, wherever that is. -/
def ImportsKept (r : Resolver) (source target : Path) (d d' : Disk) (file : Path)
    (references : List Reference) : Prop :=
  ∃ text' references', d'.readText (Report.relocated source target file) = .ok text' ∧
    Source.imports (Report.relocated source target file) text' = some references' ∧
    references'.length = references.length ∧
    ∀ (i : Nat) (before after : Reference), references[i]? = some before →
      references'[i]? = some after → ∀ found, r.found? d file before.specifier = some found →
        r.found? d' (Report.relocated source target file) after.specifier =
          some (Report.relocated source target found)

/-- Imports that are read again, spelled in a new way, are kept if each new spelling finds the file
where it is. -/
theorem ImportsKept.of_reread {r : Resolver} {source target file : Path} {d d' : Disk}
    {references reread : List Reference} {spell : Reference → String} {text' : String}
    (hread : d'.readText (Report.relocated source target file) = .ok text')
    (himports : Source.imports (Report.relocated source target file) text' = some reread)
    (hspecifiers : reread.map Reference.specifier = references.map spell)
    (hfinds : ∀ reference ∈ references, ∀ found,
      r.found? d file reference.specifier = some found →
        r.found? d' (Report.relocated source target file) (spell reference) =
          some (Report.relocated source target found)) :
    ImportsKept r source target d d' file references := by
  refine ⟨text', reread, hread, himports, ?_, fun i before after hbefore hafter found hfound => ?_⟩
  · simpa using congrArg List.length hspecifiers
  · have hspelled : after.specifier = spell before := by
      have hat := congrArg (fun items => items[i]?) hspecifiers
      simpa [hbefore, hafter] using hat
    rw [hspelled]
    exact hfinds before (List.mem_of_getElem? hbefore) found hfound

/-- The move of `a` rewrites the import: it is a relative one of the file that moves, or it means
the module `p` of that file. -/
def Touched (known : Extensions) (d : Disk) (p : Path) (a : Location) (file : Path)
    (reference : Reference) : Prop :=
  file = ofPlace a ∧ Text.startsWith "." reference.specifier = true ∨
    ((Resolver.ofExtensions known).resolve? d file reference.specifier == some ⟨p⟩) = true

instance (known : Extensions) (d : Disk) (p : Path) (a : Location) (file : Path)
    (reference : Reference) : Decidable (Touched known d p a file reference) :=
  inferInstanceAs (Decidable (_ ∨ _))

/-- What is asked of the file that moves.  It is written in the same dialect where it goes, and its
place and its imports in characters that can stand between quotes; none of its imports means its own
module `p`, and those that mean one module find one file. -/
structure OwnImports (known : Extensions) (d : Disk) (p : Path) (a b : Location)
    (references : List Reference) : Prop where
  dialect : Source.dialectOf (ofPlace b) = Source.dialectOf (ofPlace a)
  place : Source.Quotable (ofPlace a).text
  quotable : ∀ reference ∈ references, Source.Quotable reference.specifier
  others : ∀ reference ∈ references,
    ((Resolver.ofExtensions known).resolve? d (ofPlace a) reference.specifier == some ⟨p⟩) = false
  agree : ∀ x ∈ references, ∀ y ∈ references,
    ((Resolver.ofExtensions known).resolve? d (ofPlace a) x.specifier ==
      (Resolver.ofExtensions known).resolve? d (ofPlace a) y.specifier) = true →
    (Resolver.ofExtensions known).found? d (ofPlace a) x.specifier =
      (Resolver.ofExtensions known).found? d (ofPlace a) y.specifier

namespace Relocation

open Session Move

variable {known : Extensions} {freshName : Nat → String} {s : Session} {d' : Disk} {p q : Path}
  {a b c : Location} {text : String} {references : List Reference}

/-- **A file that imports the module that moves.** -/
theorem importsKept_importing (h : Relocation known s.disk p q a b)
    (hresolver : s.resolver = .ofExtensions known) (hwent : s.disk.FileWent a b d')
    (htexts : TextsMoved (.standard freshName) s a b d')
    (hquotable : Source.Quotable (ofPlace b).text) (hc : Plain c) (hca : c ≠ a)
    (hread : s.disk.readText (ofPlace c) = .ok text)
    (himports : Source.imports (ofPlace c) text = some references)
    (hreplaceable : ∀ reference ∈ references,
      Touched known s.disk p a (ofPlace c) reference →
        Source.Replaceable (ofPlace c) text reference)
    (hmem : ofPlace c ∈ s.index.files (s.resolver.identityOf (ofPlace a))) :
    ImportsKept (.ofExtensions known) (ofPlace a) (ofPlace b) s.disk d' (ofPlace c)
      references := by
  obtain ⟨text₀, new, hread₀, ⟨references₀, himports₀, happly⟩, hread'⟩ :=
    htexts.importing c hc hca hmem
  obtain rfl : text = text₀ := Except.ok.inj (hread.symm.trans hread₀)
  obtain rfl : references = references₀ := Option.some.inj (himports.symm.trans himports₀)
  rw [hresolver] at happly
  have hentry := ((h.tree.readText_ofPlace hc).1 hread).2
  obtain ⟨reread, hreread, hspecifiers⟩ := Source.imports_applyAll himports (by
    intro reference hmem replacement hreplacement hspeaks
    rw [List.mem_singleton.1 hreplacement] at hspeaks
    obtain ⟨-, wanted, hwanted, hmeans⟩ := Resolver.speaksOf_iff.1 hspeaks
    rw [h.resolve?_old hentry] at hwanted
    rw [← Option.some.inj hwanted] at hmeans
    exact hreplaceable reference hmem (.inr hmeans)) (by
    intro replacement hreplacement
    rw [List.mem_singleton.1 hreplacement]
    exact Resolver.quotable_replacementFor known (isAbsolute_ofPlace c) h.target_plain hquotable _)
    happly
  have hstays := Report.relocated_of_ne h.source_plain hc hca (ofPlace b)
  refine .of_reread (by rw [hstays, hread']) (by rw [hstays, hreread]) hspecifiers ?_
  intro reference hmem found hfound
  rw [hstays]
  exact h.found?_redirectedSpelling hwent hentry
    (Tools.readsApart_standard freshName _ _ _ himports) hmem hfound

/-- **A file that does not import the module that moves.** -/
theorem importsKept_other {d : Disk} (h : Relocation known d p q a b)
    (hwent : d.FileWent a b d') (hc : Plain c) (hca : c ≠ a)
    (hread' : d'.readText (ofPlace c) = .ok text)
    (himports : Source.imports (ofPlace c) text = some references)
    (hothers : ∀ reference ∈ references,
      ((Resolver.ofExtensions known).resolve? d (ofPlace c) reference.specifier ==
        some ⟨p⟩) = false) :
    ImportsKept (.ofExtensions known) (ofPlace a) (ofPlace b) d d' (ofPlace c)
      references := by
  have hstays := Report.relocated_of_ne h.source_plain hc hca (ofPlace b)
  refine .of_reread (by rw [hstays, hread']) (by rw [hstays, himports]) rfl ?_
  intro reference hmem found hfound
  have hne := h.ne_source_of_resolve? hfound (hothers reference hmem)
  rw [hstays, h.found?_other hwent (isAbsolute_ofPlace c) hfound hne]
  exact congrArg some (h.relocated_found (isAbsolute_ofPlace c) hfound hne).symm

/-- **The file that moves.** -/
theorem importsKept_own (h : Relocation known s.disk p q a b)
    (hresolver : s.resolver = .ofExtensions known) (hwent : s.disk.FileWent a b d')
    (htexts : TextsMoved (.standard freshName) s a b d')
    (hread : s.disk.readText (ofPlace a) = .ok text)
    (himports : Source.imports (ofPlace a) text = some references)
    (hreplaceable : ∀ reference ∈ references,
      Touched known s.disk p a (ofPlace a) reference →
        Source.Replaceable (ofPlace a) text reference)
    (hown : OwnImports known s.disk p a b references)
    (hmem : ofPlace a ∉ s.index.files (s.resolver.identityOf (ofPlace a))) :
    ImportsKept (.ofExtensions known) (ofPlace a) (ofPlace b) s.disk d' (ofPlace a)
      references := by
  have hsame : ∀ text, Source.imports (ofPlace b) text = Source.imports (ofPlace a) text := by
    intro text
    rw [Source.imports, Source.imports, hown.dialect]
  obtain ⟨new, ⟨references₀, himports₀, happly⟩, hread'⟩ := htexts.own hmem text hread
  obtain rfl : references = references₀ :=
    Option.some.inj ((himports.symm.trans (hsame text).symm).trans himports₀)
  rw [hresolver] at happly
  obtain ⟨reread, hreread, hspecifiers⟩ := Source.imports_applyAll himports
    (fun reference hmem replacement _ hspeaks => hreplaceable reference hmem
      (.inl ⟨rfl, Resolver.startsWith_of_speaksOf hspeaks⟩))
    (fun replacement hreplacement => Resolver.quotable_movedReplacements (isAbsolute_ofPlace a)
      (isAbsolute_ofPlace b) hown.place hown.quotable hreplacement) happly
  refine .of_reread (by rw [Report.relocated_source, hread'])
    (by rw [Report.relocated_source, hsame, hreread]) hspecifiers ?_
  intro reference hmem found hfound
  have hne := h.ne_source_of_resolve? hfound (hown.others reference hmem)
  rw [Report.relocated_source, h.relocated_found (isAbsolute_ofPlace a) hfound hne]
  exact h.found?_movedSpelling hwent (Tools.readsApart_standard freshName _ _ _ himports)
    (fun other hmem => (hown.quotable other hmem).no_backslash) hown.others hmem
    (fun other hother => hown.agree other hother reference hmem) hfound

theorem isSource_target {d : Disk} (h : Relocation known d p q a b) :
    known.isSource (ofPlace b) = true := by
  obtain ⟨front, last, name, hstem, hname, hb⟩ := h.target.exists_stem h.target_module.toIsBarePath
  have hending := dot_append_mem_endings hname
  rw [hb, Extensions.isSource,
    fileName?_ofPlace_concat (hstem.plain_append h.proper.dotless hending)]
  dsimp only
  rw [Extensions.stem?_append h.proper.dotless hending fun _ => hstem.not_declaration]
  rfl

/-- Where the file is after a move, and what all files hold if nothing failed. -/
theorem move_ensures (h : Relocation known s.disk p q a b)
    (hresolver : s.resolver = .ofExtensions known) (hsound : Sound (.standard freshName) nowhere s)
    {source target : Path} (hsource : s.root.absolutize source = ofPlace a)
    (htarget : s.root.absolutize target = ofPlace b) :
    Work.Ensures (move (.standard freshName) source target) s
      (fun report s' => s.disk.FileWent a b s'.disk ∧
        (report.failed = [] → TextsMoved (.standard freshName) s a b s'.disk))
      fun _ _ => True := by
  obtain ⟨content, hthere⟩ := h.there
  have hne : b ≠ [] := by
    rintro rfl
    simpa using h.free
  have hmoves := moveFile_ensures FileSystem.plain_faithful hsound hthere h.target_plain hne
    (fun _ => h.free) {}
  have hrewrites := moveFile_rewrites FileSystem.plain_faithful FileSystem.plain_truthful
    FileSystem.plain_steady h.proper.dotless hresolver hsound hthere h.target_plain h.free
    h.isSource_target {}
  refine move_ensures_of_file FileSystem.plain_honest h.tree hsource htarget hthere h.target_plain
    h.free ((hmoves.and hrewrites).mono ?_ fun _ _ _ => trivial)
  rintro report s' ⟨⟨-, hmoved⟩, htexts⟩
  exact ⟨hmoved.fileWent h.tree, htexts⟩

end Relocation

/-- **Imports find their files after a file has moved.**  In a project without aliases and packages,
a file goes to a free place and no failure is reported.  Then every source that could be read can be
read where it is now.  It has as many imports, and if one of them found a file, the one in its place
finds that file where it is now.  What the move rewrites has to stand in the head of its text and
between quotes, and the place that the file goes to is written in characters that can stand there,
too. -/
theorem file_move_keeps_imports {freshName : Nat → String} {disk disk' : Disk} {root : Path}
    {scan : ScanSettings} {files : ProjectFiles} {source target p q : Path} {a b : Location}
    (hdiscover : ProjectFiles.discover disk (Session.start disk root scan).root scan = .ok files)
    (hresolver : Session.resolverFor disk scan files = .ofExtensions (.ofList scan.extensions))
    (hsource : (Session.start disk root scan).root.absolutize source = ofPlace a)
    (htarget : (Session.start disk root scan).root.absolutize target = ofPlace b)
    (h : Relocation (.ofList scan.extensions) disk p q a b)
    (hquotable : Source.Quotable (ofPlace b).text) {report : Report}
    (hmove : moveInProject freshName disk root scan source target = (.ok report, disk'))
    (hclean : report.failed = []) {file : Path} (hfile : file ∈ files.sources) {text : String}
    (hread : disk.readText file = .ok text) {references : List Reference}
    (himports : Source.imports file text = some references)
    (hreplaceable : ∀ reference ∈ references,
      Touched (.ofList scan.extensions) disk p a file reference →
        Source.Replaceable file text reference)
    (hown : file = ofPlace a → OwnImports (.ofList scan.extensions) disk p a b references) :
    ImportsKept (.ofExtensions (.ofList scan.extensions)) (ofPlace a) (ofPlace b) disk disk' file
      references := by
  let s := Session.ready (.standard freshName) disk root scan files
  have hs : Relocation (.ofList scan.extensions) s.disk p q a b := h
  have hknown : s.resolver = .ofExtensions (.ofList scan.extensions) := hresolver
  have hsound : Session.Sound (.standard freshName) Session.nowhere s :=
    Session.ready_sound FileSystem.plain_faithful h.tree hdiscover
  obtain ⟨s', hrun, rfl⟩ := exists_run_of_moveInProject hdiscover hmove
  obtain ⟨hwent, htexts⟩ := (hs.move_ensures hknown hsound hsource htarget).of_ok hrun
  have htexts := htexts hclean
  -- the index knows which sources import the module that moves
  have hindex := Session.mem_files_ready freshName h.tree hdiscover hfile hread himports
    (s.resolver.identityOf (ofPlace a))
  have hmodule : s.resolver.identityOf (ofPlace a) = ⟨p⟩ := by
    rw [hknown]
    exact h.identityOf_source
  rw [hresolver] at hindex
  obtain ⟨hroot, hplain⟩ := absolutize_eq_ofPlace (isAbsolute_ofPlace disk.workingDir) root
  rw [show (Session.start disk root scan).root = _ from hroot] at hdiscover
  obtain ⟨c, hc, rfl⟩ := Session.sources_of_discover h.tree hplain hdiscover file hfile
  by_cases hca : c = a
  · subst hca
    have hown := hown rfl
    refine hs.importsKept_own hknown hwent htexts hread himports hreplaceable hown fun hmem => ?_
    obtain ⟨reference, hreference, hmeans⟩ := hindex.1 hmem
    rw [hmodule, hown.others reference hreference] at hmeans
    cases hmeans
  · by_cases hmem : ofPlace c ∈ s.index.files (s.resolver.identityOf (ofPlace a))
    · exact hs.importsKept_importing hknown hwent htexts hquotable hc hca hread himports
        hreplaceable hmem
    · refine h.importsKept_other hwent hc hca (htexts.others c hc hca hmem text hread) himports ?_
      intro reference hreference
      rw [Bool.eq_false_iff]
      intro hmeans
      exact hmem (hindex.2 ⟨reference, hreference, by rw [hmodule]; exact hmeans⟩)

namespace Neighbours

/-- A project of three files, of which `main` has imports of both others, and `x` one of `y`. -/
def disk : Disk where
  entries :=
    [(["lib"], .directory), (["lib", "y.ts"], .file (.text "let n = 1;\n")),
      (["main.ts"], .file (.text "import './x';\nimport './lib/y';\n")),
      (["x.ts"], .file (.text "import './lib/y';\n"))]
  workingDir := []

def files : ProjectFiles where
  sources := [⟨"/lib/y.ts"⟩, ⟨"/main.ts"⟩, ⟨"/x.ts"⟩]

theorem discover_eq :
    ProjectFiles.discover disk (Session.start disk ⟨"."⟩ {}).root {} = .ok files := by
  have hwalk : ProjectFiles.walk disk [] ({} : ScanSettings).excludedDirs =
      [["lib", "y.ts"], ["main.ts"], ["x.ts"]] :=
    List.mergeSort_of_pairwise (by decide +kernel)
  rw [ProjectFiles.discover_of_walk (by decide +kernel) (by decide +kernel) hwalk]
  rfl

/-- What is left after `x` went into the directory of `y`, with a new name. -/
def moved : Except Error Report × Disk :=
  moveInProject (fun _ => "0") disk ⟨"."⟩ {} ⟨"x.ts"⟩ ⟨"lib/z.ts"⟩

theorem exists_moved : ∃ report, moved = (.ok report, moved.2) ∧ report.failed = [] := by
  have hclean : moved.1.toOption.map Report.failed = some [] := by
    rw [moved, moveInProject_eq _ discover_eq]
    decide +kernel
  cases houtcome : moved.1 with
  | error e => simp [houtcome, Except.toOption] at hclean
  | ok report =>
    refine ⟨report, Prod.ext houtcome rfl, ?_⟩
    simpa [houtcome, Except.toOption] using hclean

theorem isTree : disk.IsTree := by decide +kernel

theorem vacant : disk.Vacant .standard ["lib", "z.ts"] := by
  have hstem : ModuleStem ⟨"/lib/z"⟩ ["lib"] "z" := ⟨by decide, by decide, .inl (by decide)⟩
  have hknown : Extensions.standard.Proper := by decide
  rw [show (["lib", "z.ts"] : Location) = ["lib"] ++ ["z" ++ ("." ++ "ts")] by decide]
  exact Disk.vacant_of_stem hknown.dotless (by decide) hstem (by decide)
    (by decide +kernel) (by decide +kernel) (by decide +kernel)

theorem relocation : Relocation .standard disk ⟨"/x"⟩ ⟨"/lib/z"⟩ ["x.ts"] ["lib", "z.ts"] where
  proper := by decide
  tree := isTree
  index_free := Utilities.entry_index_ne (by decide)
  source_plain := by decide
  source_module := by decide
  source := ⟨".ts", by decide, .inl (by decide)⟩
  there := ⟨.text "import './lib/y';\n", by decide⟩
  sole := by
    intro c content hentry hmeans
    have hne : c ≠ [] := by
      rintro rfl
      simp at hentry
    have hsole : ∀ item ∈ disk.entries, item.2 ≠ .directory →
        (Identity.ofPath .standard (ofPlace item.1) == ⟨⟨"/x"⟩⟩) = true → item.1 = ["x.ts"] := by
      decide +kernel
    exact hsole _ ((isTree.entry_eq_some_iff hne).1 hentry) (by simp) hmeans
  target_plain := by decide
  target_module := by decide
  target := ⟨"ts", by decide, .inl (by decide)⟩
  free := by decide
  vacant := vacant
  changes := by decide

end Neighbours

/-- The imports of the file that went away follow it, and its own is spelled from where it is. -/
theorem file_move_keeps_imports_of_neighbours :
    ∃ report, Neighbours.moved = (.ok report, Neighbours.moved.2) ∧ report.failed = [] ∧
      ImportsKept (.ofExtensions .standard) ⟨"/x.ts"⟩ ⟨"/lib/z.ts"⟩ Neighbours.disk
        Neighbours.moved.2 ⟨"/main.ts"⟩ [⟨"./x", ⟨8, 11⟩⟩, ⟨"./lib/y", ⟨22, 29⟩⟩] ∧
      ImportsKept (.ofExtensions .standard) ⟨"/x.ts"⟩ ⟨"/lib/z.ts"⟩ Neighbours.disk
        Neighbours.moved.2 ⟨"/x.ts"⟩ [⟨"./lib/y", ⟨8, 15⟩⟩] := by
  obtain ⟨report, hmove, hclean⟩ := Neighbours.exists_moved
  have hkept := @file_move_keeps_imports _ _ _ _ _ _ _ _ _ _ _ _ Neighbours.discover_eq rfl
    (by decide +kernel) (by decide +kernel) Neighbours.relocation (by decide +kernel) _ hmove hclean
  refine ⟨report, hmove, hclean, ?_, ?_⟩
  · have hread : Neighbours.disk.readText ⟨"/main.ts"⟩ =
        .ok "import './x';\nimport './lib/y';\n" := by decide +kernel
    refine hkept (by simp [Neighbours.files]) hread (by decide +kernel) ?_
      fun h => absurd h (by decide)
    intro reference hmem htouched
    have hfirst : reference = ⟨"./x", ⟨8, 11⟩⟩ := by
      rcases List.mem_cons.1 hmem with hfirst | hmem
      · exact hfirst
      · rw [List.mem_singleton.1 hmem] at htouched
        exact absurd htouched (by decide +kernel)
    rw [hfirst]
    exact ⟨by decide, by decide +kernel, "import ".toList, '\'', "./x".toList,
      ";\nimport './lib/y';\n".toList, .inl rfl, by decide, by decide, by decide⟩
  · have hread : Neighbours.disk.readText ⟨"/x.ts"⟩ = .ok "import './lib/y';\n" := by
      decide +kernel
    refine hkept (by simp [Neighbours.files]) hread (by decide +kernel) ?_ fun _ => ?_
    · intro reference hmem _
      rw [List.mem_singleton.1 hmem]
      exact ⟨by decide, by decide +kernel, "import ".toList, '\'', "./lib/y".toList,
        ";\n".toList, .inl rfl, by decide, by decide, by decide⟩
    · exact ⟨by decide +kernel, by decide, by decide, by decide +kernel, by decide +kernel⟩

/-- The file that an import leads to, on a disk with the project that has one file. -/
def SelfImport.imported? (d : Disk) (file : Path) (specifier : String) : Option Path :=
  (prepared standard).resolver.found? d file specifier

/-- What is left after the file got a name with a backslash. -/
def SelfImport.renamed : Except Error Report × Disk :=
  moveInProject (fun _ => "0") disk ⟨"."⟩ {} ⟨"src/a.ts"⟩ ⟨"src/b\\c.ts"⟩

/-- Where the imports lead is not conserved.  Specifiers are written with slashes, so when a file
goes to a name with a backslash, what imports it speaks of a file in a directory; nothing is
reported. -/
theorem move_to_backslash_loses_import :
    SelfImport.imported? SelfImport.disk ⟨"/p/src/a.ts"⟩ "./a" = some ⟨"/p/src/a.ts"⟩ ∧
      SelfImport.renamed.1.toOption.map Report.failed = some [] ∧
      Disk.entry? SelfImport.renamed.2 ["p", "src", "b\\c.ts"] =
        some (.file (.text "import './b/c';\n")) ∧
      SelfImport.imported? SelfImport.renamed.2 ⟨"/p/src/b\\c.ts"⟩ "./b/c" = none := by
  decide +kernel

namespace AliasRoot

/-- A project in which `@app/*` stands for what is in a directory. -/
def disk : Disk where
  entries :=
    [(["p"], .directory), (["p", "src"], .directory),
      (["p", "src", "main.ts"], .file (.text "import './x';\n")),
      (["p", "src", "x.ts"], .file (.text "export \x7b\x7d;\n")),
      (["p", "tsconfig.json"], .file (.text ("\x7b\"compilerOptions\":\x7b\"baseUrl\":\".\"," ++
        "\"paths\":\x7b\"@app/*\":[\"src/app/*\"]\x7d\x7d\x7d")))]
  workingDir := ["p"]

def files : ProjectFiles where
  sources := [⟨"/p/src/main.ts"⟩, ⟨"/p/src/x.ts"⟩]
  configs := [⟨"/p/tsconfig.json"⟩]

theorem discover_eq :
    ProjectFiles.discover disk (Session.start disk ⟨"."⟩ {}).root {} = .ok files := by
  have hwalk : ProjectFiles.walk disk ["p"] ({} : ScanSettings).excludedDirs =
      [["src", "main.ts"], ["src", "x.ts"], ["tsconfig.json"]] :=
    List.mergeSort_of_pairwise (by decide +kernel)
  rw [ProjectFiles.discover_of_walk (by decide +kernel) (by decide +kernel) hwalk]
  rfl

/-- What is left after a file became the index of that directory. -/
def moved : Except Error Report × Disk :=
  moveInProject (fun _ => "0") disk ⟨"."⟩ {} ⟨"src/x.ts"⟩ ⟨"src/app/index.ts"⟩

end AliasRoot

/-- Nor is it conserved where no name is unusual.  When a file becomes the index of a directory that
an alias stands for, what imports it is cut down to the alias alone, which is no specifier of that
alias and means nothing; nothing is reported. -/
theorem move_to_alias_root_loses_import :
    (Session.resolverFor AliasRoot.disk {} AliasRoot.files).found? AliasRoot.disk
        ⟨"/p/src/main.ts"⟩ "./x" = some ⟨"/p/src/x.ts"⟩ ∧
      AliasRoot.moved.1.toOption.map Report.failed = some [] ∧
      Disk.entry? AliasRoot.moved.2 ["p", "src", "main.ts"] =
        some (.file (.text "import '@app';\n")) ∧
      (Session.resolverFor AliasRoot.disk {} AliasRoot.files).resolvePath? AliasRoot.moved.2
        ⟨"/p/src/main.ts"⟩ "@app" = none := by
  rw [AliasRoot.moved, moveInProject_eq _ AliasRoot.discover_eq]
  decide +kernel

end Relocate
