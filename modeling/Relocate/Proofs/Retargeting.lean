import Relocate.Proofs.FlatIndex
import Relocate.Proofs.ModulePaths
import Relocate.Proofs.Rewriting
import Relocate.Session.Redirection

/-! # Imports follow their modules

A replacement speaks of the imports that mean what its old specifier means.  Among imports with
distinct spans each is read on its own: it is spelled as the first replacement that speaks of it
says, and as before if there is none (`Resolver.spelling_editsFor`), so it is known which edits
there are (`Resolver.mem_editsFor_iff`).  With this the two rewrites of a move come down to what the
specifiers mean that they write.
-/

namespace Relocate

/-! ## What an import reads afterwards -/

namespace Resolver

/-- The replacement changes something, and the import means what its old specifier means. -/
def speaksOf (r : Resolver) (disk : Disk) (file : Path) (reference : Reference)
    (replacement : Replacement) : Bool :=
  !replacement.isTrivial && (r.resolve? disk file replacement.old).any fun wanted =>
    r.resolve? disk file reference.specifier == some wanted

theorem speaksOf_iff {r : Resolver} {disk : Disk} {file : Path} {reference : Reference}
    {replacement : Replacement} : r.speaksOf disk file reference replacement = true ↔
      replacement.old ≠ replacement.new ∧ ∃ wanted,
        r.resolve? disk file replacement.old = some wanted ∧
        (r.resolve? disk file reference.specifier == some wanted) = true := by
  simp [speaksOf, Replacement.isTrivial, Option.any_eq_true]

/-- The claims have given the import a new text, or none yet. -/
structure Claims.Reads (c : Claims) (reference : Reference) (chosen : Option String) : Prop where
  claimed : reference.span ∈ c.spans ↔ chosen.isSome = true
  spelled : spelling c.edits reference = chosen.getD reference.specifier
  untouched : chosen = none → ∀ e ∈ c.edits, e.span ≠ reference.span

variable {c : Claims} {reference : Reference} {references : List Reference}
  {chosen : Option String} {target : Option Identity} {wanted : Identity} {new : String}

theorem Claims.Reads.start (reference : Reference) : Claims.Reads ⟨[], []⟩ reference none where
  claimed := by simp
  spelled := rfl
  untouched := by simp

theorem spelling_append_other {edits : List TextEdit} {e : TextEdit} (h : e.span ≠ reference.span) :
    spelling (edits ++ [e]) reference = spelling edits reference := by
  have hnone : [e].find? (fun e => e.span = reference.span) = none := by simp [h]
  rw [spelling, spelling, List.find?_append, hnone, Option.or_none]

/-- What is claimed elsewhere does not concern the import. -/
theorem Claims.Reads.other {other : Reference} (h : c.Reads reference chosen)
    (hne : other.span ≠ reference.span) :
    (c.consider wanted new (other, target)).Reads reference chosen := by
  have hspans : reference.span ∈ other.span :: c.spans ↔ reference.span ∈ c.spans := by
    simp [hne.symm]
  unfold Claims.consider
  dsimp only
  split
  · split
    · exact ⟨hspans.trans h.claimed, h.spelled, h.untouched⟩
    · refine ⟨hspans.trans h.claimed, (spelling_append_other hne).trans h.spelled, ?_⟩
      intro hnone e he
      rcases List.mem_append.1 he with he | he
      · exact h.untouched hnone e he
      · rw [List.mem_singleton.1 he]
        exact hne
  · exact h

/-- The first claim on the import counts. -/
theorem Claims.Reads.self (h : c.Reads reference chosen) :
    (c.consider wanted new (reference, target)).Reads reference
      (chosen.or (if target == some wanted then some new else none)) := by
  unfold Claims.consider
  dsimp only
  by_cases htarget : (target == some wanted) = true
  · cases chosen with
    | some text =>
      have hclaimed : reference.span ∈ c.spans := h.claimed.2 rfl
      simpa [htarget, hclaimed] using h
    | none =>
      have hfree : reference.span ∉ c.spans := fun hmem => by simpa using h.claimed.1 hmem
      have hclaims : (target == some wanted && !c.spans.contains reference.span) = true := by
        simp [htarget, hfree]
      rw [if_pos hclaims, if_pos htarget, Option.none_or]
      refine ⟨by simp, ?_, by simp⟩
      split
      · rename_i hsame
        rw [h.spelled]
        exact hsame
      · have hnone : c.edits.find? (fun e => e.span = reference.span) = none := by
          rw [List.find?_eq_none]
          intro e he
          simpa using h.untouched rfl e he
        simp [spelling, List.find?_append, hnone]
  · simpa [htarget] using h

theorem Claims.Reads.foldl_other (h : c.Reads reference chosen)
    {found : List (Reference × Option Identity)}
    (hne : ∀ item ∈ found, item.1.span ≠ reference.span) :
    (found.foldl (Claims.consider wanted new) c).Reads reference chosen := by
  induction found generalizing c with
  | nil => exact h
  | cons item found ih =>
    refine ih (h.other (hne item List.mem_cons_self)) ?_
    exact fun item hitem => hne item (List.mem_cons_of_mem _ hitem)

theorem Claims.Reads.follow (h : c.Reads reference chosen)
    (hdistinct : references.Pairwise fun a b => a.span ≠ b.span) (hmem : reference ∈ references)
    (r : Resolver) (disk : Disk) (file : Path) (replacement : Replacement) :
    (c.follow r disk file (r.targets disk file references) replacement).Reads reference
      (chosen.or (if r.speaksOf disk file reference replacement then some replacement.new
        else none)) := by
  unfold Claims.follow speaksOf
  by_cases htrivial : replacement.isTrivial = true
  · simpa [htrivial] using h
  · cases hwanted : r.resolve? disk file replacement.old with
    | none => simpa [htrivial] using h
    | some wanted =>
      simp only [htrivial, Option.any_some, Bool.not_false, Bool.true_and]
      -- before the import and behind it are others, with other spans
      obtain ⟨front, back, rfl⟩ := List.append_of_mem hmem
      obtain ⟨-, hback, hfront⟩ := List.pairwise_append.1 hdistinct
      rw [targets, List.map_append, List.map_cons, List.foldl_append, List.foldl_cons]
      refine Claims.Reads.foldl_other (Claims.Reads.self (Claims.Reads.foldl_other h ?_)) ?_
      · intro item hitem
        obtain ⟨other, hother, rfl⟩ := List.mem_map.1 hitem
        exact hfront other hother reference List.mem_cons_self
      · intro item hitem
        obtain ⟨other, hother, rfl⟩ := List.mem_map.1 hitem
        exact (List.rel_of_pairwise_cons hback hother).symm

/-- **The first replacement that speaks of an import says how it is spelled.** -/
theorem spelling_editsFor (hdistinct : references.Pairwise fun a b => a.span ≠ b.span)
    (hmem : reference ∈ references) (r : Resolver) (disk : Disk) (file : Path)
    (replacements : List Replacement) :
    spelling (r.editsFor disk file references replacements) reference =
      ((replacements.find? (r.speaksOf disk file reference)).map Replacement.new).getD
        reference.specifier := by
  suffices key : ∀ (c : Claims) (chosen : Option String), c.Reads reference chosen →
      (replacements.foldl (Claims.follow r disk file (r.targets disk file references)) c).Reads
        reference (chosen.or
          ((replacements.find? (r.speaksOf disk file reference)).map Replacement.new)) from
    (key _ _ (.start reference)).spelled
  induction replacements with
  | nil =>
    intro c chosen h
    simpa using h
  | cons replacement replacements ih =>
    intro c chosen h
    have hstep := ih _ _ (h.follow hdistinct hmem r disk file replacement)
    by_cases hspeaks : r.speaksOf disk file reference replacement = true
    · simpa [hspeaks, Option.or_assoc] using hstep
    · simpa [hspeaks] using hstep

/-- There is an edit at the span of an import if it changes what the import reads. -/
theorem mem_editsFor_iff (hdistinct : references.Pairwise fun a b => a.span ≠ b.span)
    (hmem : reference ∈ references) (r : Resolver) (disk : Disk) (file : Path)
    (replacements : List Replacement) (text : String) :
    (⟨reference.span, text⟩ : TextEdit) ∈ r.editsFor disk file references replacements ↔
      spelling (r.editsFor disk file references replacements) reference = text ∧
        reference.specifier ≠ text := by
  have honce := r.editsFor_pairwise disk file references replacements
  rw [spelling]
  constructor
  · intro he
    refine ⟨?_, editsFor_changes hdistinct he hmem rfl⟩
    cases hfind : (r.editsFor disk file references replacements).find?
        fun e => e.span = reference.span with
    | none => simpa using List.find?_eq_none.1 hfind _ he
    | some e =>
      have hspan : e.span = reference.span := by simpa using List.find?_some hfind
      rw [TextEdit.eq_of_pairwise_ne honce (List.mem_of_find?_eq_some hfind) he hspan]
      rfl
  · rintro ⟨hspelled, hchanges⟩
    cases hfind : (r.editsFor disk file references replacements).find?
        fun e => e.span = reference.span with
    | none =>
      rw [hfind] at hspelled
      exact absurd hspelled hchanges
    | some e =>
      have hspan : e.span = reference.span := by simpa using List.find?_some hfind
      rw [hfind] at hspelled
      have he := List.mem_of_find?_eq_some hfind
      rwa [← hspan, ← hspelled]

/-- The replacement changes something, and its old specifier means the module. -/
def Renames (r : Resolver) (disk : Disk) (file : Path) (meant : Identity)
    (replacement : Replacement) : Prop :=
  replacement.old ≠ replacement.new ∧
    ∃ wanted, r.resolve? disk file replacement.old = some wanted ∧ (meant == wanted) = true

theorem renames_iff {r : Resolver} {disk : Disk} {file : Path} {meant : Identity}
    (hmeant : r.resolve? disk file reference.specifier = some meant) (replacement : Replacement) :
    r.Renames disk file meant replacement ↔ r.speaksOf disk file reference replacement = true := by
  rw [speaksOf_iff, hmeant]
  rfl

end Resolver

/-- **Each import follows the first replacement that speaks of it.**  Among imports with distinct
spans no span is edited twice, and only spans of imports are edited.  An import is edited if it
means a module, a replacement that changes something has an old specifier which means that module,
and the first of these replacements writes something else than what the import reads; the edit
writes what that replacement says.  Everything is read as it stood before any edit. -/
theorem edits_follow_first_replacement (r : Resolver) (disk : Disk) (file : Path)
    {references : List Reference} (hdistinct : references.Pairwise fun a b => a.span ≠ b.span)
    (replacements : List Replacement) :
    ((r.editsFor disk file references replacements).Pairwise fun a b => a.span ≠ b.span) ∧
      (∀ e ∈ r.editsFor disk file references replacements,
        ∃ reference ∈ references, reference.span = e.span) ∧
      ∀ reference ∈ references, ∀ text,
        (⟨reference.span, text⟩ : TextEdit) ∈ r.editsFor disk file references replacements ↔
          ∃ meant, r.resolve? disk file reference.specifier = some meant ∧
            ∃ before first after, replacements = before ++ first :: after ∧
              (∀ other ∈ before, ¬ r.Renames disk file meant other) ∧
              r.Renames disk file meant first ∧ first.new ≠ reference.specifier ∧
              text = first.new := by
  refine ⟨r.editsFor_pairwise disk file references replacements,
    fun e he => Resolver.editsFor_span he, fun reference hmem text => ?_⟩
  rw [Resolver.mem_editsFor_iff hdistinct hmem, Resolver.spelling_editsFor hdistinct hmem]
  constructor
  · rintro ⟨hspelled, hchanges⟩
    cases hfind : replacements.find? (r.speaksOf disk file reference) with
    | none =>
      rw [hfind] at hspelled
      exact absurd hspelled hchanges
    | some first =>
      rw [hfind] at hspelled
      obtain ⟨hspeaks, before, after, hsplit, hbefore⟩ := List.find?_eq_some_iff_append.1 hfind
      obtain ⟨-, wanted, -, hmeans⟩ := Resolver.speaksOf_iff.1 hspeaks
      cases hmeant : r.resolve? disk file reference.specifier with
      | none => simp [hmeant] at hmeans
      | some meant =>
        have hrenames := Resolver.renames_iff hmeant
        refine ⟨meant, rfl, before, first, after, hsplit, fun other hother => ?_,
          (hrenames first).2 hspeaks, ?_, hspelled.symm⟩
        · rw [hrenames]
          simpa using hbefore other hother
        · exact fun hsame => hchanges (hsame.symm.trans hspelled)
  · rintro ⟨meant, hmeant, before, first, after, hsplit, hbefore, hfirst, hchanges, rfl⟩
    have hrenames := Resolver.renames_iff hmeant
    have hfind : replacements.find? (r.speaksOf disk file reference) = some first := by
      refine List.find?_eq_some_iff_append.2 ⟨(hrenames first).1 hfirst, before, after, hsplit, ?_⟩
      intro other hother
      have hsilent := hbefore other hother
      rw [hrenames] at hsilent
      simpa using hsilent
    rw [hfind]
    exact ⟨rfl, hchanges.symm⟩

namespace Exchange

/-- Two modules, one of which is imported twice. -/
def references : List Reference :=
  [⟨"./a", ⟨8, 11⟩⟩, ⟨"./b", ⟨21, 24⟩⟩, ⟨"./b.ts", ⟨34, 40⟩⟩]

/-- The modules change places.  The first replacement changes nothing, and the last one comes too
late. -/
def replacements : List Replacement :=
  [⟨"./a", "./a"⟩, ⟨"./a.ts", "./b"⟩, ⟨"./b", "./a"⟩, ⟨"./a", "./c"⟩]

/-- The edits in a file beside the two modules. -/
def edits : List TextEdit :=
  (Resolver.ofExtensions .standard).editsFor default ⟨"/src/main.ts"⟩ references replacements

end Exchange

theorem edits_follow_first_replacement_exchanging :
    (Exchange.references.Pairwise fun a b => a.span ≠ b.span) ∧
      (⟨⟨8, 11⟩, "./b"⟩ : TextEdit) ∈ Exchange.edits ∧
      (⟨⟨34, 40⟩, "./a"⟩ : TextEdit) ∈ Exchange.edits ∧
      (⟨⟨8, 11⟩, "./c"⟩ : TextEdit) ∉ Exchange.edits := by
  have hdistinct : Exchange.references.Pairwise fun a b => a.span ≠ b.span := by decide
  obtain ⟨honce, -, hedits⟩ := edits_follow_first_replacement (.ofExtensions .standard) default
    ⟨"/src/main.ts"⟩ hdistinct Exchange.replacements
  have hfirst : (⟨⟨8, 11⟩, "./b"⟩ : TextEdit) ∈ Exchange.edits := by
    refine (hedits ⟨"./a", ⟨8, 11⟩⟩ (by decide) "./b").2 ⟨⟨⟨"/src/a"⟩⟩, by decide +kernel,
      [⟨"./a", "./a"⟩], ⟨"./a.ts", "./b"⟩, _, rfl, ?_, ?_, by decide, rfl⟩
    · exact List.forall_mem_singleton.2 fun htrivial => htrivial.1 rfl
    · exact ⟨by decide, ⟨⟨"/src/a"⟩⟩, by decide +kernel, BEq.rfl⟩
  refine ⟨hdistinct, hfirst, ?_, fun hlate => ?_⟩
  · refine (hedits ⟨"./b.ts", ⟨34, 40⟩⟩ (by decide) "./a").2 ⟨⟨⟨"/src/b"⟩⟩, by decide +kernel,
      [⟨"./a", "./a"⟩, ⟨"./a.ts", "./b"⟩], ⟨"./b", "./a"⟩, _, rfl, ?_, ?_, by decide, rfl⟩
    · refine List.forall_mem_cons.2 ⟨fun htrivial => htrivial.1 rfl, ?_⟩
      refine List.forall_mem_singleton.2 ?_
      rintro ⟨-, wanted, hwanted, hmeans⟩
      have hother : (Resolver.ofExtensions .standard).resolve? default ⟨"/src/main.ts"⟩ "./a.ts" =
          some ⟨⟨"/src/a"⟩⟩ := by decide +kernel
      rw [← Option.some.inj (hother.symm.trans hwanted)] at hmeans
      exact absurd hmeans (by decide +kernel)
    · exact ⟨by decide, ⟨⟨"/src/b"⟩⟩, by decide +kernel, BEq.rfl⟩
  · exact absurd (TextEdit.eq_of_pairwise_ne honce hfirst hlate rfl) (by decide)

/-! ## The imports of a file that has moved -/

namespace Session

open Resolver Relocate.Path

variable {known : Extensions} {disk : Disk} {source target : Path} {references : List Reference}

theorem specifiersOf_eq_eraseDups (references : List Reference) :
    specifiersOf references = (references.map Reference.specifier).eraseDups := by
  rw [eraseDups_eq_foldl, List.foldl_map]
  rfl

theorem mem_specifiersOf {specifier : String} :
    specifier ∈ specifiersOf references ↔ ∃ reference ∈ references,
      reference.specifier = specifier := by
  rw [specifiersOf_eq_eraseDups, ← List.contains_iff_mem, contains_eraseDups,
    List.contains_iff_mem, List.mem_map]

/-- Every import that means something has a replacement of its own. -/
theorem mem_movedReplacements {r : Resolver} {reference : Reference} {path : Path} (target : Path)
    (hmem : reference ∈ references)
    (hpath : r.resolvePath? disk source reference.specifier = some path) :
    ⟨reference.specifier, r.specifierFor target path⟩ ∈
      movedReplacements r disk source target references := by
  refine List.mem_filterMap.2 ⟨_, mem_specifiersOf.2 ⟨reference, hmem, rfl⟩, ?_⟩
  rw [hpath]
  rfl

/-- Read where the file is now, a new specifier means what the old one meant where the file was. -/
theorem resolve?_new_of_mem (hsource : source.isAbsolute = true)
    (htarget : target.isAbsolute = true) (hslash : '\\' ∉ source.text.toList)
    (hslashes : ∀ reference ∈ references, '\\' ∉ reference.specifier.toList)
    {replacement : Replacement} (hmem : replacement ∈
      movedReplacements (ofExtensions known) disk source target references) :
    (ofExtensions known).resolve? disk target replacement.new =
      (ofExtensions known).resolve? disk source replacement.old := by
  obtain ⟨specifier, hspecifier, hreplacement⟩ := List.mem_filterMap.1 hmem
  obtain ⟨path, hpath, rfl⟩ := Option.map_eq_some_iff.1 hreplacement
  obtain ⟨reference, hreference, rfl⟩ := mem_specifiersOf.1 hspecifier
  obtain ⟨place, hplain, rfl, hplace⟩ :=
    eq_ofPlace_of_resolvePath? hsource hslash (hslashes reference hreference) hpath
  have hround := resolvePath?_specifierFor known disk htarget (isAbsolute_ofPlace place)
    (by rwa [place_ofPlace hplain])
  rw [normalize_ofPlace hplain] at hround
  rw [resolve?, resolve?, hround, hpath]

end Session

/-- What an import of a file that moved from `source` to `target` reads afterwards. -/
def Session.movedSpelling (r : Resolver) (disk : Disk) (source target : Path)
    (references : List Reference) (reference : Reference) : String :=
  spelling (r.editsFor disk source references (movedReplacements r disk source target references))
    reference

/-- **The imports of a file that has moved keep their targets.**  Without aliases and packages, what
meant a module where the file was means it where the file is, whichever replacement spells it; and
what meant none is left as it is. -/
theorem moved_imports_keep_targets (known : Extensions) (disk : Disk) {source target : Path}
    (hsource : source.isAbsolute = true) (htarget : target.isAbsolute = true)
    (hslash : '\\' ∉ source.text.toList) {references : List Reference}
    (hdistinct : references.Pairwise fun a b => a.span ≠ b.span)
    (hslashes : ∀ reference ∈ references, '\\' ∉ reference.specifier.toList)
    (reference : Reference) (hmem : reference ∈ references) :
    (∀ identity,
      (Resolver.ofExtensions known).resolve? disk source reference.specifier = some identity →
      ((Resolver.ofExtensions known).resolve? disk target
        (Session.movedSpelling (.ofExtensions known) disk source target references reference) ==
          some identity) = true) ∧
    ((Resolver.ofExtensions known).resolve? disk source reference.specifier = none →
      Session.movedSpelling (.ofExtensions known) disk source target references reference =
        reference.specifier) := by
  have hnew : ∀ replacement ∈ Session.movedReplacements (.ofExtensions known) disk source target
      references, (Resolver.ofExtensions known).resolve? disk target replacement.new =
        (Resolver.ofExtensions known).resolve? disk source replacement.old :=
    fun _ => Session.resolve?_new_of_mem hsource htarget hslash hslashes
  rw [Session.movedSpelling, Resolver.spelling_editsFor hdistinct hmem]
  constructor
  · intro identity hidentity
    cases hfind : (Session.movedReplacements (.ofExtensions known) disk source target
        references).find? ((Resolver.ofExtensions known).speaksOf disk source reference) with
    | some replacement =>
      obtain ⟨-, wanted, hwanted, hmeans⟩ := Resolver.speaksOf_iff.1 (List.find?_some hfind)
      rw [Option.map_some, Option.getD_some, hnew _ (List.mem_of_find?_eq_some hfind), hwanted,
        Option.some_beq_some]
      rw [hidentity, Option.some_beq_some] at hmeans
      exact BEq.symm hmeans
    | none =>
      -- the import's own replacement speaks of it unless it is trivial
      obtain ⟨path, hpath, -⟩ := Option.map_eq_some_iff.1 hidentity
      have hown := Session.mem_movedReplacements target hmem hpath
      have htrivial :
          reference.specifier = (Resolver.ofExtensions known).specifierFor target path := by
        by_contra hne
        refine List.find?_eq_none.1 hfind _ hown (Resolver.speaksOf_iff.2 ?_)
        exact ⟨hne, identity, hidentity, hidentity ▸ BEq.rfl⟩
      have hmeans := hnew _ hown
      rw [← htrivial, hidentity] at hmeans
      rw [Option.map_none, Option.getD_none, hmeans]
      exact BEq.rfl
  · intro hnone
    have hfind :
        (Session.movedReplacements (.ofExtensions known) disk source target references).find?
          ((Resolver.ofExtensions known).speaksOf disk source reference) = none := by
      rw [List.find?_eq_none]
      intro replacement _ hspeaks
      obtain ⟨-, wanted, -, hmeans⟩ := Resolver.speaksOf_iff.1 hspeaks
      simp [hnone] at hmeans
    rw [hfind]
    rfl

namespace Utilities

/-- A project with utilities in the `index` of a directory. -/
def disk : Disk where
  entries :=
    [(["src"], .directory), (["src", "util"], .directory),
      (["src", "util", "index.ts"], .file (.text "")), (["src", "main.ts"], .file (.text ""))]
  workingDir := []

/-- Two imports of the utilities, and one from outside. -/
def references : List Reference :=
  [⟨"./util", ⟨8, 14⟩⟩, ⟨"./util/index", ⟨25, 37⟩⟩, ⟨"react", ⟨48, 53⟩⟩]

theorem distinct_references : references.Pairwise fun a b => a.span ≠ b.span := by decide

/-- No directory of a disk is named `index` if none of its entries is. -/
theorem entry_index_ne {d : Disk}
    (h : ∀ item ∈ d.entries, item.2 = .directory → item.1.getLast? ≠ some Identity.indexName)
    (place : Location) : d.entry? (place ++ [Identity.indexName]) ≠ some .directory := by
  intro hentry
  rw [Disk.entry_of_ne_nil (by simp)] at hentry
  obtain ⟨front, back, hentries, -⟩ := List.lookup_eq_some_iff.1 hentry
  have hmem : (place ++ [Identity.indexName], Entry.directory) ∈ d.entries := by simp [hentries]
  exact h _ hmem rfl (by simp)

end Utilities

/-- The file goes down one directory.  Its second import is spelled by the replacement for the
first. -/
theorem moved_imports_keep_targets_deeper :
    (Resolver.ofExtensions .standard).resolve? Utilities.disk ⟨"/src/main.ts"⟩ "./util/index" =
        some ⟨⟨"/src/util"⟩⟩ ∧
      ((Resolver.ofExtensions .standard).resolve? Utilities.disk ⟨"/src/app/main.ts"⟩
        (Session.movedSpelling (.ofExtensions .standard) Utilities.disk ⟨"/src/main.ts"⟩
          ⟨"/src/app/main.ts"⟩ Utilities.references ⟨"./util/index", ⟨25, 37⟩⟩) ==
            some ⟨⟨"/src/util"⟩⟩) = true ∧
      Session.movedSpelling (.ofExtensions .standard) Utilities.disk ⟨"/src/main.ts"⟩
        ⟨"/src/app/main.ts"⟩ Utilities.references ⟨"react", ⟨48, 53⟩⟩ = "react" := by
  have hmeans : (Resolver.ofExtensions .standard).resolve? Utilities.disk ⟨"/src/main.ts"⟩
      "./util/index" = some ⟨⟨"/src/util"⟩⟩ := by decide +kernel
  have hsource : Path.isAbsolute ⟨"/src/main.ts"⟩ = true := by decide
  have htarget : Path.isAbsolute ⟨"/src/app/main.ts"⟩ = true := by decide
  have hkeeps := moved_imports_keep_targets .standard Utilities.disk hsource htarget (by decide)
    Utilities.distinct_references (by decide)
  exact ⟨hmeans, (hkeeps _ (by decide)).1 _ hmeans, (hkeeps _ (by decide)).2 (by decide +kernel)⟩

/-! ## The imports of a file that is about to move -/

namespace Path

theorem dotted_concat (up : Nat) (names : Location) (name : String) :
    dotted up (names ++ [name]) = dotted up names ++ ("/" ++ name) := by
  apply String.toList_inj.1
  have hne : (climbing up ++ names).map String.toList ≠ [] := by simp [climbing_ne_nil]
  rw [toList_dotted, ← List.append_assoc, List.map_append, List.map_singleton,
    intercalate_concat hne, String.toList_append, String.toList_append, toList_dotted]
  rfl

end Path

namespace Resolver

open Relocate.Path Text Identity

theorem withoutIndex_dotted_concat (up : Nat) (names : Location) {last : String} (h : IsName last) :
    withoutIndex (dotted up (names ++ [last])) =
      if last = indexName then dotted up names else dotted up (names ++ [last]) := by
  rw [withoutIndex, dotted_concat]
  split
  · rename_i hindex
    have hslash : "/" ++ indexName = "/index" := by decide
    rw [hindex, hslash, dropTail?_eq_some_iff.2 rfl, Option.getD_some]
  · rename_i hindex
    have hnone : dropTail? "/index" (dotted up names ++ ("/" ++ last)) = none := by
      rw [dropTail?_eq_none_iff, String.toList_append, String.toList_append]
      rintro ⟨front, hfront⟩
      refine hindex (String.toList_inj.1 ?_)
      exact (append_cons_inj (c := '/') (by decide) h.no_separator hfront).2.symm
    rw [hnone, Option.getD_none]

variable {known : Extensions} {disk : Disk} {p file source target : Path}

theorem strip_dotted (hknown : known.Proper) (up : Nat) (names : Location) {last ending : String}
    (hending : ending ∈ known.endings) (hlast : ¬ ".d".toList <:+ last.toList) :
    known.strip (dotted up (names ++ [last ++ ending])) = dotted up (names ++ [last]) := by
  have hsplit : dotted up (names ++ [last ++ ending]) = dotted up (names ++ [last]) ++ ending := by
    rw [dotted_concat, dotted_concat, String.append_assoc, String.append_assoc]
  rw [hsplit]
  refine Extensions.strip_append hknown.dotless hending fun _ hsuffix => hlast ?_
  rw [dotted_concat, String.toList_append, String.toList_append] at hsuffix
  exact suffix_of_suffix_append_cons (by decide) hsuffix

/-- What is written for a module file, without its ending, climbs from the directory of the file and
goes down to the stem. -/
theorem withoutExtension_specifierFor (hknown : known.Proper) (hp : IsModulePath known p)
    (hsource : IsModuleFile known p source) (hfile : file.isAbsolute = true)
    (hout : source.isInDir (directoryOf file) = false) :
    ∃ place above names last, (directoryOf file).place = place ++ above ∧
      ModuleStem p (place ++ names) last ∧ Plain (names ++ [last]) ∧
      (ofExtensions known).withoutExtension ((ofExtensions known).specifierFor file source) =
        dotted above.length (names ++ [last]) := by
  obtain ⟨front, last, ending, hstem, hending, rfl⟩ := hsource.exists_stem hp.toIsBarePath
  have hplain := hstem.plain_append hknown.dotless hending
  have hslashes : ∀ name ∈ (ofPlace (front ++ [last ++ ending])).place, '\\' ∉ name.toList := by
    rw [place_ofPlace hplain]
    exact fun name hname => hstem.no_backslash_append hknown hp hending hname
  obtain ⟨place, above, names, hdir, hplace, hwritten⟩ :=
    specifierFor_eq_dotted known hfile (isAbsolute_ofPlace _) hslashes
  rw [place_ofPlace hplain] at hplace
  obtain rfl | ⟨names, rfl, rfl⟩ := eq_nil_or_concat_of_append_eq hplace
  · -- the file would be in a directory at or below the module file
    have hinside : (ofPlace (front ++ [last ++ ending])).isInDir (directoryOf file) = true := by
      rw [isInDir, normalize_ofPlace hplain, normalize_eq_ofPlace (isAbsolute_directoryOf hfile),
        startsWith_ofPlace (plain_place (isAbsolute_directoryOf hfile)) hplain, hdir, hplace,
        List.append_nil]
      exact List.prefix_append _ _
    rw [hinside] at hout
    simp at hout
  · refine ⟨place, above, names, last, hdir, hstem, ?_, ?_⟩
    · have hplain := hstem.plain
      rw [List.append_assoc] at hplain
      exact hplain.right
    · rw [hwritten]
      exact strip_dotted hknown _ names hending hstem.not_declaration

/-- The old specifier of a redirected import means the module that moves. -/
theorem resolve?_replacementFor_old (hknown : known.Proper)
    (hdisk : ∀ place, disk.entry? (place ++ [indexName]) ≠ some .directory)
    (hp : IsModulePath known p) (hsource : IsModuleFile known p source)
    (hfile : file.isAbsolute = true) (hout : source.isInDir (directoryOf file) = false)
    (target : Path) :
    (ofExtensions known).resolve? disk file
      (Session.replacementFor (ofExtensions known) file source target).old = some ⟨p⟩ := by
  obtain ⟨place, above, names, last, hdir, hstem, hnames, hwritten⟩ :=
    withoutExtension_specifierFor hknown hp hsource hfile hout
  rw [Session.replacementFor, hwritten, resolve?, resolvePath?_dotted _ disk hfile hdir hnames,
    ← List.append_assoc, Option.map_some]
  exact congrArg some
    (hstem.ofTarget_eq hknown.dotless hp.toIsBarePath fun hdir => absurd hdir (hdisk _))

/-- The new specifier leads to the path of the module that the file becomes. -/
theorem resolvePath?_replacementFor_new (hknown : known.Proper) (disk : Disk)
    (hp : IsModulePath known p) (htarget : IsModuleFile known p target)
    (hfile : file.isAbsolute = true) (hout : target.isInDir (directoryOf file) = false)
    (source : Path) :
    (ofExtensions known).resolvePath? disk file
      (Session.replacementFor (ofExtensions known) file source target).new = some p := by
  obtain ⟨place, above, names, last, hdir, hstem, hnames, hwritten⟩ :=
    withoutExtension_specifierFor hknown hp htarget hfile hout
  rw [Session.replacementFor, hwritten, withoutIndex_dotted_concat _ _ hnames.last]
  rcases hstem.stem with ⟨hplace, hindex⟩ | ⟨hplace, hindex⟩
  · rw [if_neg hindex, resolvePath?_dotted _ disk hfile hdir hnames, ← List.append_assoc,
      ← hplace, ← hp.eq_ofPlace]
  · rw [if_pos hindex, resolvePath?_dotted _ disk hfile hdir hnames.left, ← hplace,
      ← hp.eq_ofPlace]

/-- The new specifier means the module that the file becomes. -/
theorem resolve?_replacementFor_new (hknown : known.Proper) (disk : Disk)
    (hp : IsModulePath known p) (htarget : IsModuleFile known p target)
    (hfile : file.isAbsolute = true) (hout : target.isInDir (directoryOf file) = false)
    (source : Path) :
    (ofExtensions known).resolve? disk file
      (Session.replacementFor (ofExtensions known) file source target).new = some ⟨p⟩ := by
  rw [resolve?, resolvePath?_replacementFor_new hknown disk hp htarget hfile hout source]
  exact congrArg some (hp.ofTarget_eq hknown.dotless disk)

end Resolver

/-- What an import of `file` reads after the module file `source` was redirected to `target`. -/
def Session.redirectedSpelling (r : Resolver) (disk : Disk) (file source target : Path)
    (references : List Reference) (reference : Reference) : String :=
  spelling (r.editsFor disk file references [replacementFor r file source target]) reference

/-- **Redirected imports follow the module.**  Without aliases and packages, and as long as no
directory is named `index`, an import that meant the module of `source` means that of `target`
afterwards, and every other import is left as it is.  The file must not lie below one of the two:
the directory that its specifiers start from is neither of them and in neither of them. -/
theorem redirected_imports_follow {known : Extensions} (hknown : known.Proper) {disk : Disk}
    (hdisk : ∀ place, disk.entry? (place ++ [Identity.indexName]) ≠ some .directory)
    {p q file source target : Path} (hp : IsModulePath known p)
    (hsource : IsModuleFile known p source) (hq : IsModulePath known q)
    (htarget : IsModuleFile known q target) (hfile : file.isAbsolute = true)
    (hout : source.isInDir (Resolver.directoryOf file) = false)
    (hout' : target.isInDir (Resolver.directoryOf file) = false) {references : List Reference}
    (hdistinct : references.Pairwise fun a b => a.span ≠ b.span)
    (reference : Reference) (hmem : reference ∈ references) :
    (((Resolver.ofExtensions known).resolve? disk file reference.specifier ==
        some ((Resolver.ofExtensions known).identityOf source)) = true →
      ((Resolver.ofExtensions known).resolve? disk file
        (Session.redirectedSpelling (.ofExtensions known) disk file source target references
          reference) == some ((Resolver.ofExtensions known).identityOf target)) = true) ∧
    (¬ ((Resolver.ofExtensions known).resolve? disk file reference.specifier ==
        some ((Resolver.ofExtensions known).identityOf source)) = true →
      Session.redirectedSpelling (.ofExtensions known) disk file source target references
        reference = reference.specifier) := by
  have hold := Resolver.resolve?_replacementFor_old hknown hdisk hp hsource hfile hout target
  have hnew := Resolver.resolve?_replacementFor_new hknown disk hq htarget hfile hout' source
  have hfrom : (Resolver.ofExtensions known).identityOf source = ⟨p⟩ :=
    hsource.ofPath_eq hknown.dotless hp.toIsBarePath
  have hto : (Resolver.ofExtensions known).identityOf target = ⟨q⟩ :=
    htarget.ofPath_eq hknown.dotless hq.toIsBarePath
  rw [hfrom, hto, Session.redirectedSpelling, Resolver.spelling_editsFor hdistinct hmem,
    List.find?_singleton]
  by_cases hspeaks : (Resolver.ofExtensions known).speaksOf disk file reference
      (Session.replacementFor (.ofExtensions known) file source target) = true
  · obtain ⟨-, wanted, hwanted, hmeans⟩ := Resolver.speaksOf_iff.1 hspeaks
    obtain rfl : ⟨p⟩ = wanted := Option.some.inj (hold.symm.trans hwanted)
    rw [if_pos hspeaks, Option.map_some, Option.getD_some, hnew]
    exact ⟨fun _ => BEq.rfl, fun hother => absurd hmeans hother⟩
  · rw [if_neg hspeaks, Option.map_none, Option.getD_none]
    refine ⟨fun hmeans => ?_, fun _ => rfl⟩
    -- an import of the module is spoken of unless the module stays the same
    have hsame : (Session.replacementFor (.ofExtensions known) file source target).old =
        (Session.replacementFor (.ofExtensions known) file source target).new := by
      by_contra hne
      exact hspeaks (Resolver.speaksOf_iff.2 ⟨hne, _, hold, hmeans⟩)
    rw [← hsame, hold] at hnew
    rwa [← Option.some.inj hnew]

/-- The utilities become a declaration file elsewhere. -/
theorem redirected_imports_follow_index :
    ((Resolver.ofExtensions .standard).resolve? Utilities.disk ⟨"/src/main.ts"⟩ "./util/index" ==
        some ((Resolver.ofExtensions .standard).identityOf ⟨"/src/util/index.ts"⟩)) = true ∧
      ((Resolver.ofExtensions .standard).resolve? Utilities.disk ⟨"/src/main.ts"⟩
        (Session.redirectedSpelling (.ofExtensions .standard) Utilities.disk ⟨"/src/main.ts"⟩
          ⟨"/src/util/index.ts"⟩ ⟨"/lib/tools.d.ts"⟩ Utilities.references
          ⟨"./util/index", ⟨25, 37⟩⟩) ==
            some ((Resolver.ofExtensions .standard).identityOf ⟨"/lib/tools.d.ts"⟩)) = true ∧
      Session.redirectedSpelling (.ofExtensions .standard) Utilities.disk ⟨"/src/main.ts"⟩
        ⟨"/src/util/index.ts"⟩ ⟨"/lib/tools.d.ts"⟩ Utilities.references ⟨"react", ⟨48, 53⟩⟩ =
          "react" := by
  have hmeans : ((Resolver.ofExtensions .standard).resolve? Utilities.disk ⟨"/src/main.ts"⟩
      "./util/index" ==
        some ((Resolver.ofExtensions .standard).identityOf ⟨"/src/util/index.ts"⟩)) = true := by
    decide +kernel
  have hp : IsModulePath .standard ⟨"/src/util"⟩ := by decide
  have hsource : IsModuleFile .standard ⟨"/src/util"⟩ ⟨"/src/util/index.ts"⟩ :=
    ⟨".ts", by decide, .inr (by decide)⟩
  have hq : IsModulePath .standard ⟨"/lib/tools"⟩ := by decide
  have htarget : IsModuleFile .standard ⟨"/lib/tools"⟩ ⟨"/lib/tools.d.ts"⟩ :=
    ⟨".d.ts", by decide, .inl (by decide)⟩
  have hfile : Path.isAbsolute ⟨"/src/main.ts"⟩ = true := by decide
  have hdisk := Utilities.entry_index_ne (show ∀ item ∈ Utilities.disk.entries, _ by decide)
  have hfollow := redirected_imports_follow (by decide) hdisk hp hsource hq htarget hfile
    (by decide) (by decide) Utilities.distinct_references
  exact ⟨hmeans, (hfollow _ (by decide)).1 hmeans,
    (hfollow _ (by decide)).2 (by decide +kernel)⟩

end Relocate
