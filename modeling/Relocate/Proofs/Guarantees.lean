import Relocate.Proofs.Moves

/-! # What moves guarantee

Two guarantees hold of every move, in every session that can come about.  The index is never stale
(`index_is_current`): whatever moves have returned, each of its sites is where the disk has an
import.  And a move that succeeds conserves the tree (`move_conserves_tree`): it loses, duplicates
and overwrites nothing, and leaves nothing behind.
-/

namespace Relocate

open Relocate.Path Disk Session

/-! ## The index -/

/-- **No site is ever stale.**  In every session that has been prepared and in which any moves were
made, whatever each of them returned, the file of every site is there, its present text is a
source, and one of the imports in it has the span of the site.  The file system need only be
faithful, and the reader of imports can be any function. -/
theorem index_is_current {tools : Tools} (hfiles : tools.files.Faithful)
    (hnames : tools.HasPlainNames) {s : Session} (hs : Reached tools s) (target : Identity)
    (site : Site) (hsite : site ∈ s.index.sites target) :
    ∃ text references, s.disk.readText site.file = .ok text ∧
      tools.importsOf site.file text = some references ∧
      ∃ reference ∈ references, reference.span = site.span := by
  obtain ⟨place, -, -, hcurrent⟩ := (hs.sound hfiles hnames).placed target site hsite
  exact hcurrent.resolve_left id

namespace SelfImport

/-- A project with one file, which imports itself. -/
def disk : Disk where
  entries :=
    [(["p"], .directory), (["p", "src"], .directory),
      (["p", "src", "a.ts"], .file (.text "import './a';\n"))]
  workingDir := ["p"]

/-- Tools that fail when a directory is to be removed. -/
def failing : Tools where
  files := .withFaults { removeDir := [⟨"/p/src"⟩] }
  importsOf := Source.imports
  freshName _ := "0"

/-- Tools that do as they are asked. -/
def standard : Tools := .standard fun _ => "0"

theorem hasPlainNames_failing : failing.HasPlainNames := fun _ => by
  rw [show failing.freshName _ = "0" from rfl]
  decide

theorem hasPlainNames_standard : standard.HasPlainNames := fun _ => by
  rw [show standard.freshName _ = "0" from rfl]
  decide

/-- The session after the project was read. -/
def prepared (tools : Tools) : Session :=
  ((Session.prepare tools).run.run (Session.start disk ⟨"."⟩ {})).2

/-- What is left after the directory was to go into itself. -/
def moved (tools : Tools) : Except Error Report × Session :=
  (Move.move tools ⟨"src"⟩ ⟨"src/lib"⟩).run.run (prepared tools)

end SelfImport

/-- The move of a directory into itself fails half-way; the index follows the file to the temporary
place where it was left. -/
theorem index_is_current_after_failure :
    ∃ site ∈ (SelfImport.moved SelfImport.failing).2.index.sites ⟨⟨"/p/.tsmove-0/a"⟩⟩,
      (SelfImport.moved SelfImport.failing).1.isOk = false ∧
      ∃ text references,
        (SelfImport.moved SelfImport.failing).2.disk.readText site.file = .ok text ∧
        SelfImport.failing.importsOf site.file text = some references ∧
        ∃ reference ∈ references, reference.span = site.span := by
  have hreached : Reached SelfImport.failing (SelfImport.moved SelfImport.failing).2 :=
    .move _ _ (.prepare (.start _ _ (by decide +kernel)))
  have hrun : (SelfImport.moved SelfImport.failing).1.isOk = false ∧
      0 < ((SelfImport.moved SelfImport.failing).2.index.sites
        ⟨⟨"/p/.tsmove-0/a"⟩⟩).length := by decide +kernel
  obtain ⟨site, hsite⟩ := List.exists_mem_of_length_pos hrun.2
  refine ⟨site, hsite, hrun.1, ?_⟩
  exact index_is_current (FileSystem.withFaults_faithful rfl) SelfImport.hasPlainNames_failing
    hreached _ site hsite

/-! ## The tree -/

/-- The second disk is the first one with what was at `S` put at `T`.  The files are those there
were, each where it belongs, no two of them in one place, and one that the report does not name
holds what it held.  The directories are those there were, and those on the way to `T`.  So nothing
is left at `S` unless `T` lies there, and nothing is new but what is at `T` or on the way to it. -/
structure Conserved (S T : Location) (report : Report) (d d' : Disk) : Prop where
  files : ∀ q, (∃ content, d'.entry? q = some (.file content)) ↔
    ∃ p content, d.entry? p = some (.file content) ∧ q = shift S T p
  distinct : ∀ p q entry entry', d.entry? p = some entry → d.entry? q = some entry' →
    shift S T p = shift S T q → p = q
  unchanged : ∀ p content, d.entry? p = some (.file content) → ¬ report.Names (shift S T p) →
    d'.entry? (shift S T p) = some (.file content)
  directories : ∀ p, d.entry? p = some .directory → d'.entry? (shift S T p) = some .directory
  onTheWay : ∀ q, d'.entry? q = some .directory →
    q <+: T ∨ ∃ p, d.entry? p = some .directory ∧ q = shift S T p
  sourceGone : ¬ S <+: T → d'.entry? S = none
  nothingNew : ∀ q entry, d'.entry? q = some entry →
    (d.entry? q ≠ none ∧ ¬ S <+: q) ∨ T <+: q ∨ q <+: T

section

variable {d d' : Disk} {S T p q : Location} {entry entry' : Entry}

/-- What a tree has in two places comes to two places, if the target is free or lies inside the
source. -/
theorem shift_distinct (h : d.IsTree) (hfree : S <+: T ∨ d.entry? T = none)
    (hp : d.entry? p = some entry) (hq : d.entry? q = some entry')
    (heq : shift S T p = shift S T q) : p = q := by
  rcases hfree with hpre | hfree
  · -- what comes from inside the source stays there, so it meets nothing from outside
    have hinside : ∀ r, S <+: shift S T r ↔ S <+: r := by
      intro r
      by_cases hr : S <+: r
      · obtain ⟨rest, rfl⟩ := hr
        rw [shift_append]
        exact iff_of_true (hpre.trans (List.prefix_append T rest)) (List.prefix_append S rest)
      · rw [shift_outside hr]
    have hboth : S <+: p ↔ S <+: q := by rw [← hinside p, ← hinside q, heq]
    by_cases hSp : S <+: p
    · obtain ⟨rest, rfl⟩ := hSp
      obtain ⟨rest', rfl⟩ := hboth.1 (List.prefix_append S rest)
      rw [shift_append, shift_append] at heq
      rw [List.append_cancel_left heq]
    · rwa [shift_outside hSp, shift_outside (mt hboth.2 hSp)] at heq
  · have houtside : ∀ r entry, d.entry? r = some entry → ¬ T <+: r := by
      intro r entry hr hpre
      simp [h.none_of_prefix hfree hpre] at hr
    exact shift_inj (houtside p _ hp) (houtside q _ hq) heq

/-- Nothing comes to the source if the target is free. -/
theorem shift_ne_source (h : d.IsTree) (hfree : d.entry? T = none)
    (hp : d.entry? p = some entry) : shift S T p ≠ S := by
  intro heq
  by_cases hSp : S <+: p
  · -- then the target lies above the source, and is not free
    have hSp' := hSp
    obtain ⟨rest, rfl⟩ := hSp'
    rw [shift_append] at heq
    have hT : T <+: S := heq ▸ List.prefix_append T rest
    simp [h.none_of_prefix hfree (hT.trans hSp)] at hp
  · rw [shift_outside hSp] at heq
    exact hSp (heq ▸ List.prefix_refl S)

/-- Something shifted is at the target, or was there before and not at the source. -/
theorem shift_cases (hp : d.entry? p = some entry) :
    (d.entry? (shift S T p) ≠ none ∧ ¬ S <+: shift S T p) ∨ T <+: shift S T p := by
  by_cases hSp : S <+: p
  · obtain ⟨rest, rfl⟩ := hSp
    rw [shift_append]
    exact .inr (List.prefix_append T rest)
  · rw [shift_outside hSp]
    exact .inl ⟨by simp [hp], hSp⟩

/-- Where a file comes from when nothing is left to do. -/
theorem Move.Accounted.file_origin {fs : FileSystem} {report : Report}
    (hbalance : Accounted fs d S T d' [] report) {content : Content}
    (hq : d'.entry? q = some (.file content)) :
    ∃ p content', d.entry? p = some (.file content') ∧ q = shift S T p ∧
      (content = content' ∨ report.Names q) := by
  obtain ⟨p, content', hp, hfate, hsame⟩ := hbalance.files q content hq
  exact ⟨p, content', hp, Option.some.inj hfate, hsame⟩

/-- Where a directory comes from when nothing is left to do. -/
theorem Move.Accounted.directory_origin {fs : FileSystem} {report : Report} (hsteady : fs.Steady)
    (hbalance : Accounted fs d S T d' [] report) (hq : d'.entry? q = some .directory) :
    q <+: T ∨ ∃ p, d.entry? p = some .directory ∧ q = shift S T p := by
  obtain hnone | ⟨g, hfate, hg⟩ := hbalance.directories hsteady q hq
  · cases hnone
  · exact Option.some.inj hfate ▸ hg

/-- An even balance with nothing left to do means that the tree is conserved. -/
theorem Move.Accounted.conserved {fs : FileSystem} {report : Report} (hsteady : fs.Steady)
    (h : d.IsTree) (hbalance : Accounted fs d S T d' [] report)
    (hfree : S <+: T ∨ d.entry? T = none) : Conserved S T report d d' where
  files q := by
    constructor
    · rintro ⟨content, hq⟩
      obtain ⟨p, content', hp, heq, -⟩ := hbalance.file_origin hq
      exact ⟨p, content', hp, heq⟩
    · rintro ⟨p, content, hp, rfl⟩
      obtain ⟨q, content', hq, hfate⟩ := hbalance.allFiles p content hp
      exact ⟨content', Option.some.inj hfate ▸ hq⟩
  distinct p q _ _ hp hq heq := shift_distinct h hfree hp hq heq
  unchanged p content hp hunnamed := by
    obtain ⟨q, content', hq, hfate⟩ := hbalance.allFiles p content hp
    obtain rfl := Option.some.inj hfate
    obtain ⟨p', content'', hp', heq, hsame⟩ := hbalance.file_origin hq
    obtain rfl := shift_distinct h hfree hp hp' heq
    obtain rfl : content = content'' := by simpa [hp] using hp'
    rw [hq, hsame.resolve_right hunnamed]
  directories p hp := by
    obtain ⟨q, hq, hfate⟩ := hbalance.allDirectories hsteady p hp
    exact Option.some.inj hfate ▸ hq
  onTheWay q hq := hbalance.directory_origin hsteady hq
  sourceGone hpre := by
    have hfree' := hfree.resolve_left hpre
    cases hS : d'.entry? S with
    | none => rfl
    | some entry =>
      cases entry with
      | file content =>
        obtain ⟨p, content', hp, heq, -⟩ := hbalance.file_origin hS
        exact absurd heq.symm (shift_ne_source h hfree' hp)
      | directory =>
        obtain hway | ⟨p, hp, heq⟩ := hbalance.directory_origin hsteady hS
        · exact absurd hway hpre
        · exact absurd heq.symm (shift_ne_source h hfree' hp)
  nothingNew q entry hq := by
    cases entry with
    | file content =>
      obtain ⟨p, content', hp, rfl, -⟩ := hbalance.file_origin hq
      exact (shift_cases hp).imp_right .inl
    | directory =>
      obtain hway | ⟨p, hp, rfl⟩ := hbalance.directory_origin hsteady hq
      · exact .inr (.inr hway)
      · exact (shift_cases hp).imp_right .inl

end

/-- **A move that succeeds conserves the tree**: it loses, duplicates and overwrites nothing and
leaves nothing behind, whatever the tree, the ends of the move and the temporary names drawn for
it.  The places of its ends are read from the root of the project. -/
theorem move_conserves_tree {tools : Tools} (hfiles : tools.files.Faithful)
    (hsteady : tools.files.Steady) (hnames : tools.HasPlainNames) {s s' : Session}
    (hs : Reached tools s) (source target : Path) {report : Report}
    (hmove : (Move.move tools source target).run.run s = (.ok report, s')) :
    Conserved (s.root.absolutize source).place (s.root.absolutize target).place report s.disk
      s'.disk := by
  have hsound := hs.sound hfiles hnames
  obtain ⟨S, hS, hsource⟩ := hsound.absolutize source
  obtain ⟨T, hT, htarget⟩ := hsound.absolutize target
  obtain ⟨-, hbalance, hfree⟩ :=
    (Move.move_ensures hfiles hnames hsound hS hT hsource htarget).of_ok hmove
  rw [hsource, htarget, place_ofPlace hS, place_ofPlace hT]
  exact hbalance.conserved hsteady hsound.tree hfree

namespace SelfImport

theorem reached_standard : Reached standard (prepared standard) :=
  .prepare (.start _ _ (by decide +kernel))

theorem disk_standard : (prepared standard).disk = disk := by
  have hstart : Reached standard (Session.start disk ⟨"."⟩ {}) := .start _ _ (by decide +kernel)
  exact (prepare_ensures FileSystem.plain_faithful
    (hstart.sound FileSystem.plain_faithful hasPlainNames_standard)).session.2

/-- The directory can go into itself. -/
theorem exists_moved_standard : ∃ report s', moved standard = (.ok report, s') := by
  have hok : (moved standard).1.isOk = true := by decide +kernel
  cases hmoved : moved standard with
  | mk outcome s' =>
    rw [hmoved] at hok
    cases outcome with
    | error e => simp [Except.isOk, Except.toBool] at hok
    | ok report => exact ⟨report, s', rfl⟩

end SelfImport

/-- The directory goes into itself, by way of a temporary place. -/
theorem move_conserves_tree_into_itself :
    ∃ report, (SelfImport.moved SelfImport.standard).1 = .ok report ∧
      Conserved ["p", "src"] ["p", "src", "lib"] report SelfImport.disk
        (SelfImport.moved SelfImport.standard).2.disk := by
  have hsource : ((SelfImport.prepared SelfImport.standard).root.absolutize ⟨"src"⟩).place =
      ["p", "src"] := by decide +kernel
  have htarget : ((SelfImport.prepared SelfImport.standard).root.absolutize ⟨"src/lib"⟩).place =
      ["p", "src", "lib"] := by decide +kernel
  obtain ⟨report, s', hmoved⟩ := SelfImport.exists_moved_standard
  rw [hmoved]
  refine ⟨report, rfl, ?_⟩
  rw [← SelfImport.disk_standard, ← hsource, ← htarget]
  exact move_conserves_tree FileSystem.plain_faithful FileSystem.plain_steady
    SelfImport.hasPlainNames_standard SelfImport.reached_standard _ _ hmoved

end Relocate
