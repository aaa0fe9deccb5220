import Relocate.Proofs.FileMoves

/-! # The fate of a place

While a move runs, the disk is in between and the tasks left to do say how it will end.  `Move.fate`
reads that off the tasks: where the thing at a place will be once they are done, or that it will be
gone.  A directory that is taken apart into the tasks for its children, and a directory that goes by
way of a temporary place, change the tasks without changing the fate of anything there is.

`Move.Accounted` is the balance of a move from `S` to `T`: every file there is will be where a file
of the first disk belongs, every file of the first disk has one that will be there, and so for the
directories.  `Move.Live.advance` proves that each step of a move keeps the balance; it needs to
know which tasks can come next, which is what `Move.Stage` says.
-/

namespace Relocate.Move

open Relocate.Path Disk

/-! ## Fates -/

/-- Where a task puts what is at a place, unless it removes it. -/
def fateOf : Task → Location → Option Location
  | .move source target, p => some (shift source.place target.place p)
  | .remove dir, p => if dir.place <+: p then none else some p

/-- Where tasks put what is at a place, unless one of them removes it. -/
def fate : List Task → Location → Option Location
  | [], p => some p
  | task :: tasks, p => (fateOf task p).bind (fate tasks)

variable {a b p q : Location} {tasks : List Task}

theorem fate_append (tasks rest : List Task) (p : Location) :
    fate (tasks ++ rest) p = (fate tasks p).bind (fate rest) := by
  induction tasks generalizing p with
  | nil => rfl
  | cons task tasks ih =>
    simp only [List.cons_append, fate]
    cases fateOf task p with
    | none => rfl
    | some q => exact ih q

@[simp] theorem fate_move (ha : Plain a) (hb : Plain b) (tasks : List Task) (p : Location) :
    fate (.move (ofPlace a) (ofPlace b) :: tasks) p = fate tasks (shift a b p) := by
  simp [fate, fateOf, ha, hb]

@[simp] theorem fate_remove (ha : Plain a) (tasks : List Task) (p : Location) :
    fate (.remove (ofPlace a) :: tasks) p = if a <+: p then none else fate tasks p := by
  by_cases h : a <+: p
  · simp [fate, fateOf, ha, h]
  · simp [fate, fateOf, ha, h]

/-! ## Taking a directory apart -/

/-- The tasks that move the named children of one directory to another. -/
def childTasks (a b : Location) (names : List String) : List Task :=
  names.map fun name => .move (ofPlace (a ++ [name])) (ofPlace (b ++ [name]))

theorem ofDirectory_ofPlace (ha : Plain a) (hb : Plain b) {names : List String}
    (hnames : ∀ name ∈ names, IsName name) :
    Task.ofDirectory (ofPlace a) (ofPlace b) (names.map fun name => ofPlace (a ++ [name])) =
      childTasks a b names ++ [.remove (ofPlace a)] := by
  have hchildren : (names.map fun name => ofPlace (a ++ [name])).filterMap (fun child =>
      child.fileName?.map fun name => Task.move child ((ofPlace b).join ⟨name⟩)) =
        childTasks a b names := by
    rw [List.filterMap_map, childTasks, ← List.filterMap_eq_map]
    refine List.filterMap_congr ?_
    intro name hname
    have hname' := hnames name hname
    simp [ha.concat hname', hb, hname']
  rw [Task.ofDirectory, hchildren]

/-- What lies below none of the children stays. -/
theorem fate_childTasks_outside (ha : Plain a) (hb : Plain b) {names : List String}
    (hnames : ∀ name ∈ names, IsName name) (h : ∀ name ∈ names, ¬ a ++ [name] <+: p) :
    fate (childTasks a b names) p = some p := by
  induction names with
  | nil => rfl
  | cons name names ih =>
    have hname := hnames name List.mem_cons_self
    rw [childTasks, List.map_cons, fate_move (ha.concat hname) (hb.concat hname),
      shift_outside (h name List.mem_cons_self)]
    exact ih (fun n hn => hnames n (List.mem_cons_of_mem _ hn))
      fun n hn => h n (List.mem_cons_of_mem _ hn)

/-- What lies below one of the children goes with it. -/
theorem fate_childTasks (ha : Plain a) (hb : Plain b) (hapart : Apart a b) {names : List String}
    (hnames : ∀ name ∈ names, IsName name) {name : String} (hmem : name ∈ names)
    (rest : Location) :
    fate (childTasks a b names) (a ++ name :: rest) = some (b ++ name :: rest) := by
  -- Once there, it is not below any child any more.
  have hstays : ∀ n : String, ¬ a ++ [n] <+: b ++ name :: rest := by
    intro n hpre
    exact hapart.not_prefix (List.prefix_append b _) ((List.prefix_append a [n]).trans hpre)
  induction names with
  | nil => simp at hmem
  | cons first names ih =>
    have hfirst := hnames first List.mem_cons_self
    have hrest : ∀ n ∈ names, IsName n := fun n hn => hnames n (List.mem_cons_of_mem _ hn)
    rw [childTasks, List.map_cons, fate_move (ha.concat hfirst) (hb.concat hfirst)]
    by_cases heq : first = name
    · subst heq
      have hshift := shift_append (a ++ [first]) (b ++ [first]) rest
      simp only [List.append_assoc, List.singleton_append] at hshift
      rw [hshift]
      exact fate_childTasks_outside ha hb hrest fun n _ => hstays n
    · rw [shift_outside]
      · exact ih hrest ((List.mem_cons.1 hmem).resolve_left (Ne.symm heq))
      · intro hpre
        rw [List.prefix_append_right_inj] at hpre
        simp [heq] at hpre

/-- **Taking a directory apart** changes the fate of nothing in it or elsewhere; the directory
itself is removed in the end. -/
theorem fate_ofDirectory (ha : Plain a) (hb : Plain b) (hapart : Apart a b) {names : List String}
    (hnames : ∀ name ∈ names, IsName name) (tasks : List Task) :
    (∀ p, ¬ a <+: p →
      fate (childTasks a b names ++ [.remove (ofPlace a)] ++ tasks) p = fate tasks p) ∧
    fate (childTasks a b names ++ [.remove (ofPlace a)] ++ tasks) a = none ∧
    ∀ name ∈ names, ∀ rest,
      fate (childTasks a b names ++ [.remove (ofPlace a)] ++ tasks) (a ++ name :: rest) =
        fate tasks (b ++ name :: rest) := by
  simp only [List.append_assoc, fate_append, List.singleton_append]
  refine ⟨?_, ?_, ?_⟩
  · intro p hp
    rw [fate_childTasks_outside ha hb hnames]
    · simp [ha, hp]
    · exact fun n _ hpre => hp ((List.prefix_append a [n]).trans hpre)
  · rw [fate_childTasks_outside ha hb hnames]
    · simp [ha]
    · intro n _ hpre
      have hlength := hpre.length_le
      rw [List.length_append, List.length_singleton] at hlength
      omega
  · intro name hname rest
    rw [fate_childTasks ha hb hapart hnames hname]
    have hpre := hapart.not_prefix (List.prefix_append b (name :: rest))
    simp [ha, hpre]

/-- Whatever there is, the directory itself apart, has the fate that it had before the directory was
taken apart. -/
theorem fate_expand {d : Disk} (htree : d.IsTree) (ha : Plain a) (hb : Plain b)
    (hapart : Apart a b) {entry : Entry} (he : d.entry? p = some entry) (hne : p ≠ a)
    (tasks : List Task) :
    fate (childTasks a b (d.namesIn a) ++ [.remove (ofPlace a)] ++ tasks) p =
      fate (.move (ofPlace a) (ofPlace b) :: tasks) p := by
  have hnames : ∀ name ∈ d.namesIn a, IsName name := fun _ => htree.isName_of_mem_namesIn
  obtain ⟨helsewhere, -, hbelow⟩ := fate_ofDirectory ha hb hapart hnames tasks
  rw [fate_move ha hb]
  by_cases hpre : a <+: p
  · obtain ⟨rest, rfl⟩ := hpre
    cases rest with
    | nil => simp at hne
    | cons name rest =>
      rw [shift_append, hbelow name (htree.mem_namesIn_of_below he) rest]
  · rw [helsewhere p hpre, shift_outside hpre]

/-! ## Going by way of a temporary place -/

/-- A detour over a free place changes the fate of nothing there is. -/
theorem fate_byWayOf {d : Disk} (htree : d.IsTree) (ha : Plain a) (hb : Plain b) {c : Location}
    (hc : Plain c) (hfree : d.entry? c = none) {entry : Entry} (he : d.entry? p = some entry)
    (tasks : List Task) :
    fate (.move (ofPlace a) (ofPlace c) :: .move (ofPlace c) (ofPlace b) :: tasks) p =
      fate (.move (ofPlace a) (ofPlace b) :: tasks) p := by
  rw [fate_move ha hc, fate_move hc hb, fate_move ha hb]
  by_cases hp : a <+: p
  · obtain ⟨rest, rfl⟩ := hp
    rw [shift_append, shift_append, shift_append]
  · have hp' : ¬ c <+: p := by
      intro hpre
      simp [htree.none_of_prefix hfree hpre] at he
    rw [shift_outside hp, shift_outside hp', shift_outside hp]

/-- Two places in one directory are apart, unless they are the same. -/
theorem prefix_beside {name : String} (hne : a ≠ []) :
    (a <+: a.dropLast ++ [name] ↔ a = a.dropLast ++ [name]) ∧
      (a.dropLast ++ [name] <+: a ↔ a = a.dropLast ++ [name]) := by
  have hlength : (a.dropLast ++ [name]).length = a.length := by
    have hpos := List.length_pos_iff.2 hne
    simp only [List.length_append, List.length_dropLast, List.length_singleton]
    omega
  refine ⟨⟨fun h => h.eq_of_length hlength.symm, fun h => ?_⟩,
    ⟨fun h => (h.eq_of_length hlength).symm, fun h => ?_⟩⟩
  · exact h ▸ List.prefix_refl _
  · exact h ▸ List.prefix_refl _

/-! ## The balance of a move -/

/-- Every file there is will be where a file of the first disk, `d₀`, belongs, and holds what that
one held unless the report names it; no file of the first disk is forgotten.  On a steady file
system directories are accounted for as well; one that is neither removed nor stems from the first
disk will be on the way to `T`. -/
structure Accounted (fs : FileSystem) (d₀ : Disk) (S T : Location) (d : Disk) (tasks : List Task)
    (report : Report) : Prop where
  files : ∀ p content, d.entry? p = some (.file content) →
    ∃ p₀ content₀, d₀.entry? p₀ = some (.file content₀) ∧ fate tasks p = some (shift S T p₀) ∧
      (content = content₀ ∨ report.Names p)
  allFiles : ∀ p₀ content₀, d₀.entry? p₀ = some (.file content₀) →
    ∃ p content, d.entry? p = some (.file content) ∧ fate tasks p = some (shift S T p₀)
  directories : fs.Steady → ∀ p, d.entry? p = some .directory → fate tasks p = none ∨
    ∃ g, fate tasks p = some g ∧
      (g <+: T ∨ ∃ p₀, d₀.entry? p₀ = some .directory ∧ g = shift S T p₀)
  allDirectories : fs.Steady → ∀ p₀, d₀.entry? p₀ = some .directory →
    ∃ p, d.entry? p = some .directory ∧ fate tasks p = some (shift S T p₀)

namespace Accounted

variable {fs : FileSystem} {d₀ d d' : Disk} {S T : Location} {report report' : Report}

/-- In the beginning everything is where it was and the one task says where it belongs. -/
theorem start (hS : Plain S) (hT : Plain T) (d₀ : Disk) (report : Report) :
    Accounted fs d₀ S T d₀ [.move (ofPlace S) (ofPlace T)] report where
  files p content he := ⟨p, content, he, fate_move hS hT [] p, .inl rfl⟩
  allFiles p content he := ⟨p, content, he, fate_move hS hT [] p⟩
  directories _ p he := .inr ⟨shift S T p, fate_move hS hT [] p, .inr ⟨p, he, rfl⟩⟩
  allDirectories _ p he := ⟨p, he, fate_move hS hT [] p⟩

/-- Tasks may be exchanged for others under which everything there is has the same fate. -/
theorem of_fate (h : Accounted fs d₀ S T d tasks report) {tasks' : List Task}
    (hfate : ∀ p entry, d.entry? p = some entry → fate tasks' p = fate tasks p) :
    Accounted fs d₀ S T d tasks' report where
  files p content he := by
    rw [hfate p _ he]
    exact h.files p content he
  allFiles p₀ content₀ he := by
    obtain ⟨p, content, hp, hfate'⟩ := h.allFiles p₀ content₀ he
    exact ⟨p, content, hp, (hfate p _ hp).trans hfate'⟩
  directories hsteady p he := by
    rw [hfate p _ he]
    exact h.directories hsteady p he
  allDirectories hsteady p₀ he := by
    obtain ⟨p, hp, hfate'⟩ := h.allDirectories hsteady p₀ he
    exact ⟨p, hp, (hfate p _ hp).trans hfate'⟩

/-- A directory that is due for removal holds no file any more. -/
theorem no_file_below (h : Accounted fs d₀ S T d (.remove (ofPlace a) :: tasks) report)
    (ha : Plain a) (hpre : a <+: p) (content : Content) :
    d.entry? p ≠ some (.file content) := by
  intro he
  obtain ⟨p₀, content₀, -, hfate, -⟩ := h.files p content he
  simp [ha, hpre] at hfate

/-- Removing a directory removes nothing that has a future. -/
theorem remove (h : Accounted fs d₀ S T d (.remove (ofPlace a) :: tasks) report) (ha : Plain a)
    (hne : a ≠ []) : Accounted fs d₀ S T (d.eraseTree a) tasks report := by
  have hkept : ∀ p entry, Disk.entry? (d.eraseTree a) p = some entry →
      d.entry? p = some entry ∧ fate (.remove (ofPlace a) :: tasks) p = fate tasks p := by
    intro p entry he
    rw [entry_eraseTree hne] at he
    split at he
    · simp at he
    · rename_i hpre
      exact ⟨he, by simp [ha, hpre]⟩
  have hlives : ∀ p g, fate (.remove (ofPlace a) :: tasks) p = some g →
      Disk.entry? (d.eraseTree a) p = d.entry? p ∧ fate tasks p = some g := by
    intro p g hfate
    by_cases hpre : a <+: p
    · simp [ha, hpre] at hfate
    · rw [fate_remove ha, if_neg hpre] at hfate
      exact ⟨by rw [entry_eraseTree hne, if_neg hpre], hfate⟩
  refine ⟨?_, ?_, ?_, ?_⟩
  · intro p content he
    obtain ⟨he, hfate⟩ := hkept p _ he
    rw [← hfate]
    exact h.files p content he
  · intro p₀ content₀ he
    obtain ⟨p, content, hp, hfate⟩ := h.allFiles p₀ content₀ he
    obtain ⟨hsame, hfate⟩ := hlives p _ hfate
    exact ⟨p, content, hsame.trans hp, hfate⟩
  · intro hsteady p he
    obtain ⟨he, hfate⟩ := hkept p _ he
    rw [← hfate]
    exact h.directories hsteady p he
  · intro hsteady p₀ he
    obtain ⟨p, hp, hfate⟩ := h.allDirectories hsteady p₀ he
    obtain ⟨hsame, hfate⟩ := hlives p _ hfate
    exact ⟨p, hsame.trans hp, hfate⟩

/-- Moving a file keeps the balance, if the directories it adds will be on the way to `T`. -/
theorem fileMoved (h : Accounted fs d₀ S T d (.move (ofPlace a) (ofPlace b) :: tasks) report)
    (htree : d.IsTree) (ha : Plain a) (hb : Plain b)
    (hmoved : FileMoved fs a b report report' d d')
    (hnew : fs.Steady → ∀ q, q <+: b → q ≠ b → d.entry? q ≠ some .directory →
      ∃ g, fate tasks q = some g ∧ g <+: T) :
    Accounted fs d₀ S T d' tasks report' := by
  obtain ⟨content, hfile⟩ := hmoved.file
  have hfate : ∀ p, fate (.move (ofPlace a) (ofPlace b) :: tasks) p = fate tasks (shift a b p) :=
    fun p => fate_move ha hb tasks p
  -- A directory does not lie below the file, so it stays where it is.
  have hstays : ∀ p, d.entry? p = some .directory → shift a b p = p := by
    intro p hp
    rw [shift_of_file htree hfile hp, if_neg]
    rintro rfl
    simp [hfile] at hp
  have hup : ∀ q, q <+: b.dropLast → q <+: b ∧ q ≠ b := by
    intro q hpre
    refine ⟨hpre.trans (List.dropLast_prefix b), ?_⟩
    rintro rfl
    have hne : q ≠ [] := by
      rintro rfl
      simpa using hmoved.free
    have hlength := hpre.length_le
    have hpos := List.length_pos_iff.2 hne
    rw [List.length_dropLast] at hlength
    omega
  refine ⟨?_, ?_, ?_, ?_⟩
  · intro q c hq
    obtain ⟨p, c', hp, rfl⟩ := hmoved.old q c hq
    obtain ⟨p₀, c₀, hp₀, hfate₀, hsame₀⟩ := h.files p c' hp
    refine ⟨p₀, c₀, hp₀, (hfate p).symm.trans hfate₀, ?_⟩
    obtain ⟨c'', hq', hsame⟩ := hmoved.kept p c' hp
    rw [hq] at hq'
    cases hq'
    rcases hsame with rfl | hnames
    · exact hsame₀.imp id (hmoved.named p c hp)
    · exact .inr hnames
  · intro p₀ c₀ hp₀
    obtain ⟨p, c, hp, hfate₀⟩ := h.allFiles p₀ c₀ hp₀
    obtain ⟨c', hp', -⟩ := hmoved.kept p c hp
    exact ⟨shift a b p, c', hp', (hfate p).symm.trans hfate₀⟩
  · intro hsteady q hq
    rcases (hmoved.directories hsteady q).1 hq with hold | hpre
    · have hfate' := hfate q
      rw [hstays q hold] at hfate'
      rw [← hfate']
      exact h.directories hsteady q hold
    · obtain ⟨hpre, hne⟩ := hup q hpre
      by_cases hold : d.entry? q = some .directory
      · have hfate' := hfate q
        rw [hstays q hold] at hfate'
        rw [← hfate']
        exact h.directories hsteady q hold
      · obtain ⟨g, hg, hgT⟩ := hnew hsteady q hpre hne hold
        exact .inr ⟨g, hg, .inl hgT⟩
  · intro hsteady p₀ hp₀
    obtain ⟨p, hp, hfate₀⟩ := h.allDirectories hsteady p₀ hp₀
    refine ⟨p, (hmoved.directories hsteady p).2 (.inl hp), ?_⟩
    rw [hfate, hstays p hp] at hfate₀
    exact hfate₀

/-- Taking a directory apart keeps the balance, if the directories it adds will be on the way to
`T`: its stand-in has the fate it had itself. -/
theorem expand (h : Accounted fs d₀ S T d (.move (ofPlace a) (ofPlace b) :: tasks) report)
    (ha : Plain a) (hb : Plain b) (hapart : Apart a b) (hdir : d.entry? a = some .directory)
    (hgrown : Grown b d d') (hmade : d'.entry? b = some .directory)
    (hnew : fs.Steady → ∀ q, q <+: b → q ≠ b → d.entry? q ≠ some .directory →
      ∃ g, fate tasks q = some g ∧ g <+: T) :
    Accounted fs d₀ S T d'
      (childTasks a b (d'.namesIn a) ++ [.remove (ofPlace a)] ++ tasks) report := by
  have hnames : ∀ name ∈ d'.namesIn a, IsName name := fun _ => hgrown.tree.isName_of_mem_namesIn
  obtain ⟨helsewhere, hself, -⟩ := fate_ofDirectory ha hb hapart hnames tasks
  have hmove : ∀ p, fate (.move (ofPlace a) (ofPlace b) :: tasks) p = fate tasks (shift a b p) :=
    fun p => fate_move ha hb tasks p
  have hfate : ∀ p entry, d'.entry? p = some entry → p ≠ a →
      fate (childTasks a b (d'.namesIn a) ++ [.remove (ofPlace a)] ++ tasks) p =
        fate (.move (ofPlace a) (ofPlace b) :: tasks) p :=
    fun p entry he hne => fate_expand hgrown.tree ha hb hapart he hne tasks
  have hself' : fate (childTasks a b (d'.namesIn a) ++ [.remove (ofPlace a)] ++ tasks) b =
      fate (.move (ofPlace a) (ofPlace b) :: tasks) a := by
    rw [helsewhere b hapart.1, hmove, shift_source]
  have hfiles := hgrown.sameFiles
  have hnotfile : ∀ p content, d'.entry? p = some (.file content) → p ≠ a := by
    rintro p content hp rfl
    rw [hfiles] at hp
    simp [hdir] at hp
  have hkeeps : ∀ p, d.entry? p = some .directory → d'.entry? p = some .directory := by
    intro p hp
    rcases hgrown.entries p with hq | ⟨hq, -, -⟩
    · exact hq.trans hp
    · simp [hp] at hq
  -- Files keep their fate.  Of directories, `a` is to be removed and `b` takes its place.
  refine ⟨?_, ?_, ?_, ?_⟩
  · intro p content hp
    rw [hfate p _ hp (hnotfile p content hp)]
    exact h.files p content ((hfiles p content).1 hp)
  · intro p₀ content₀ hp₀
    obtain ⟨p, content, hp, hfate₀⟩ := h.allFiles p₀ content₀ hp₀
    have hp' := (hfiles p content).2 hp
    exact ⟨p, content, hp', (hfate p _ hp' (hnotfile p content hp')).trans hfate₀⟩
  · intro hsteady p hp
    by_cases hpa : p = a
    · exact .inl (hpa ▸ hself)
    · by_cases hpb : p = b
      · subst hpb
        rw [hself']
        exact h.directories hsteady a hdir
      · by_cases hold : d.entry? p = some .directory
        · rw [hfate p _ hp hpa]
          exact h.directories hsteady p hold
        · have hpre : p <+: b := by
            rcases hgrown.entries p with hq | ⟨-, hpre, -⟩
            · exact absurd (hq.symm.trans hp) hold
            · exact hpre
          obtain ⟨g, hg, hgT⟩ := hnew hsteady p hpre hpb hold
          refine .inr ⟨g, ?_, .inl hgT⟩
          rw [helsewhere p, hg]
          exact fun hpre' => hapart.1 (hpre'.trans hpre)
  · intro hsteady p₀ hp₀
    obtain ⟨p, hp, hfate₀⟩ := h.allDirectories hsteady p₀ hp₀
    by_cases hpa : p = a
    · subst hpa
      exact ⟨b, hmade, hself'.trans hfate₀⟩
    · exact ⟨p, hkeeps p hp, (hfate p _ (hkeeps p hp) hpa).trans hfate₀⟩

end Accounted

/-! ## What one step can do -/

variable {fs : FileSystem} {d₀ d d' : Disk} {S T : Location} {report report' : Report}

/-- Doing a task on the disk `d` may add tasks and leave the disk `d'` and another report. -/
inductive Advance (fs : FileSystem) : Task → Disk → Report → List Task → Disk → Report → Prop
  /-- What stays in place is not moved. -/
  | skip {a : Location} {d : Disk} {report : Report} (ha : Plain a) :
    Advance fs (.move (ofPlace a) (ofPlace a)) d report [] d report
  | file {a b : Location} {d d' : Disk} {report report' : Report} (ha : Plain a) (hb : Plain b)
    (hmoved : FileMoved fs a b report report' d d') :
    Advance fs (.move (ofPlace a) (ofPlace b)) d report [] d' report'
  /-- A directory that goes into itself goes by way of a temporary place beside it. -/
  | detour {a b : Location} {name : String} {d : Disk} {report : Report} (ha : Plain a)
    (hb : Plain b) (hne : a ≠ b) (hpre : a <+: b) (hdir : d.entry? a = some .directory)
    (hwritable : Writable a) (hname : IsName name)
    (hfree : Writable (a.dropLast ++ [name]) → d.entry? (a.dropLast ++ [name]) = none) :
    Advance fs (.move (ofPlace a) (ofPlace b)) d report
      [.move (ofPlace a) (ofPlace (a.dropLast ++ [name])),
        .move (ofPlace (a.dropLast ++ [name])) (ofPlace b)] d report
  /-- Any other directory is made anew and taken apart. -/
  | expand {a b : Location} {d d' : Disk} {report : Report} (ha : Plain a) (hb : Plain b)
    (hpre : ¬ a <+: b) (hdir : d.entry? a = some .directory) (hwritable : Writable b)
    (hfree : d.entry? b = none) (hgrown : Grown b d d')
    (hmade : d'.entry? b = some .directory) :
    Advance fs (.move (ofPlace a) (ofPlace b)) d report
      (childTasks a b (d'.namesIn a) ++ [.remove (ofPlace a)]) d' report
  | remove {a : Location} {d : Disk} {report : Report} (ha : Plain a) :
    Advance fs (.remove (ofPlace a)) d report [] (d.eraseTree a) report

/-- The places of a step are those of its task. -/
theorem places_of_eq {S T : Location} (hS : Plain S) (hT : Plain T) (ha : Plain a) (hb : Plain b)
    (h : Task.move (ofPlace S) (ofPlace T) = .move (ofPlace a) (ofPlace b)) : a = S ∧ b = T := by
  obtain ⟨hsource, htarget⟩ := Task.move.inj h
  exact ⟨((ofPlace_inj hS ha).1 hsource).symm, ((ofPlace_inj hT hb).1 htarget).symm⟩

/-! ## Which tasks can come next -/

/-- The task takes something on from `A` to the same place in `B`, whose directory is there
already, or removes what was left of it in `A`. -/
inductive Within (fs : FileSystem) (d : Disk) (A B : Location) : Task → Prop
  | move (rest : Location) (ha : Plain (A ++ rest)) (hb : Plain (B ++ rest))
    (hdir : fs.Steady → d.entry? (B ++ rest).dropLast = some .directory) :
    Within fs d A B (.move (ofPlace (A ++ rest)) (ofPlace (B ++ rest)))
  | remove (rest : Location) (ha : Plain (A ++ rest)) :
    Within fs d A B (.remove (ofPlace (A ++ rest)))

theorem Within.of_move {A B : Location} (ha : Plain a) (hb : Plain b)
    (h : Within fs d A B (.move (ofPlace a) (ofPlace b))) :
    ∃ rest, a = A ++ rest ∧ b = B ++ rest ∧
      (fs.Steady → d.entry? b.dropLast = some .directory) := by
  generalize htask : Task.move (ofPlace a) (ofPlace b) = task at h
  cases h with
  | move rest ha' hb' hdir =>
    obtain ⟨hsource, htarget⟩ := Task.move.inj htask
    have heq := (ofPlace_inj ha ha').1 hsource
    have heq' := (ofPlace_inj hb hb').1 htarget
    exact ⟨rest, heq, heq', heq' ▸ hdir⟩
  | remove rest ha' => simp at htask

theorem Within.of_remove {A B : Location} (ha : Plain a)
    (h : Within fs d A B (.remove (ofPlace a))) : ∃ rest, a = A ++ rest := by
  generalize htask : Task.remove (ofPlace a) = task at h
  cases h with
  | move rest ha' hb' hdir => simp at htask
  | remove rest ha' => exact ⟨rest, (ofPlace_inj ha ha').1 (Task.remove.inj htask)⟩

/-- Directories that stay where they are keep a task within its bounds. -/
theorem Within.of_directories {A B : Location} {task : Task} (h : Within fs d A B task)
    (hdirs : fs.Steady → ∀ q, ¬ A <+: q → d.entry? q = some .directory →
      d'.entry? q = some .directory) (hapart : Apart A B) : Within fs d' A B task := by
  cases h with
  | move rest ha hb hdir =>
    refine .move rest ha hb fun hsteady => hdirs hsteady _ ?_ (hdir hsteady)
    exact fun hpre => hapart.not_prefix (List.prefix_append B rest)
      (hpre.trans (List.dropLast_prefix _))
  | remove rest ha => exact .remove rest ha

/-- The tasks that a directory is taken apart into stay within its bounds. -/
theorem Within.children {A B rest : Location} (htree : d.IsTree) (ha : Plain (A ++ rest))
    (hb : Plain (B ++ rest)) (hmade : d.entry? (B ++ rest) = some .directory) :
    ∀ task ∈ childTasks (A ++ rest) (B ++ rest) (d.namesIn (A ++ rest)) ++
      [.remove (ofPlace (A ++ rest))], Within fs d A B task := by
  intro task htask
  rcases List.mem_append.1 htask with htask | htask
  · obtain ⟨name, hname, rfl⟩ := List.mem_map.1 htask
    obtain ⟨entry, he⟩ := htree.mem_namesIn.1 hname
    have hplain := htree.plain he
    have hb' := hb.concat hplain.last
    rw [List.append_assoc] at hplain hb' ⊢
    rw [List.append_assoc]
    refine .move (rest ++ [name]) hplain hb' fun _ => ?_
    rw [← List.append_assoc, List.dropLast_concat, hmade]
  · rw [List.mem_singleton.1 htask]
    exact .remove rest ha

/-- **One step inside a directory that is being moved** adds tasks of the same kind, and takes no
directory away but from that one. -/
theorem Within.advance {A B : Location} (hapart : Apart A B) {task : Task} {added : List Task}
    (hwithin : Within fs d A B task) (hadvance : Advance fs task d report added d' report') :
    (∀ task ∈ added, Within fs d' A B task) ∧
      (fs.Steady → ∀ q, ¬ A <+: q → d.entry? q = some .directory →
        d'.entry? q = some .directory) := by
  cases hadvance with
  | skip ha =>
    obtain ⟨rest, heq, heq', -⟩ := hwithin.of_move ha ha
    exact absurd (List.prefix_refl _) (heq ▸ heq' ▸ (hapart.append rest).1)
  | file ha hb hmoved =>
    exact ⟨by simp, fun hsteady q _ hq => (hmoved.directories hsteady q).2 (.inl hq)⟩
  | detour ha hb hne hpre hdir hwritable hname hfree =>
    obtain ⟨rest, rfl, rfl, -⟩ := hwithin.of_move ha hb
    exact absurd hpre (hapart.append rest).1
  | expand ha hb hpre hdir hwritable hfree hgrown hmade =>
    obtain ⟨rest, rfl, rfl, hdir'⟩ := hwithin.of_move ha hb
    refine ⟨Within.children hgrown.tree ha hb hmade, ?_⟩
    intro _ q _ hq
    rcases hgrown.entries q with hsame | ⟨hnone, -, -⟩
    · exact hsame.trans hq
    · simp [hq] at hnone
  | remove ha =>
    obtain ⟨rest, rfl⟩ := hwithin.of_remove ha
    refine ⟨by simp, ?_⟩
    intro _ q hq he
    have hne : A ++ rest ≠ [] := by
      intro hnil
      exact hapart.1 ((List.append_eq_nil_iff.1 hnil).1 ▸ List.nil_prefix)
    rw [entry_eraseTree hne, if_neg, he]
    exact fun hpre => hq ((List.prefix_append A rest).trans hpre)

/-- What there is is apart from a free place that it does not lie above. -/
theorem apart_of_free (htree : d.IsTree) {entry : Entry} (he : d.entry? a = some entry)
    (hfree : d.entry? b = none) (hpre : ¬ a <+: b) : Apart a b := by
  refine ⟨hpre, fun hpre' => ?_⟩
  simp [htree.none_of_prefix hfree hpre'] at he

/-- A directory is apart from a place beside it that looks free. -/
theorem apart_beside {name : String} (hne : a ≠ []) (hdir : d.entry? a = some .directory)
    (hwritable : Writable a)
    (hfree : Writable (a.dropLast ++ [name]) → d.entry? (a.dropLast ++ [name]) = none) :
    Apart a (a.dropLast ++ [name]) := by
  have hother : a ≠ a.dropLast ++ [name] := by
    intro heq
    have hnone := hfree (heq ▸ hwritable)
    rw [← heq, hdir] at hnone
    simp at hnone
  exact ⟨fun h => hother ((prefix_beside hne).1.1 h), fun h => hother ((prefix_beside hne).2.1 h)⟩

/-- To go to a place beside is a task within bounds. -/
theorem within_beside {name : String} (htree : d.IsTree) (ha : Plain a) (hname : IsName name)
    (hdir : d.entry? a = some .directory) :
    Within fs d a (a.dropLast ++ [name])
      (.move (ofPlace a) (ofPlace (a.dropLast ++ [name]))) := by
  have hbeside := (ha.of_prefix (List.dropLast_prefix a)).concat hname
  have hwithin : Within fs d a (a.dropLast ++ [name])
      (.move (ofPlace (a ++ [])) (ofPlace (a.dropLast ++ [name] ++ []))) :=
    .move [] (by simpa using ha) (by simpa using hbeside) fun _ => by
      simpa using htree.parent hdir
  simpa using hwithin

/-- What is missing on the way to a place is missing at its directory already. -/
theorem directory_above {b q : Location} (htree : d.IsTree)
    (hdir : d.entry? b.dropLast = some .directory) (hpre : q <+: b) (hne : q ≠ b) :
    d.entry? q = some .directory := by
  have hpre' : q <+: b.dropLast := by
    have hb : b ≠ [] := by
      rintro rfl
      exact hne (List.prefix_nil.1 hpre)
    rw [← List.dropLast_concat_getLast hb, List.prefix_concat_iff] at hpre
    exact hpre.resolve_left fun heq => hne (heq.trans (List.dropLast_concat_getLast hb))
  by_cases heq : q = b.dropLast
  · exact heq ▸ hdir
  · exact htree.directory_of_prefix hdir hpre' heq

/-- One step inside a directory that is being moved keeps the balance. -/
theorem Accounted.carry {A B : Location} (hapart : Apart A B) {task : Task} {added : List Task}
    (hwithin : Within fs d A B task) (htree : d.IsTree)
    (h : Accounted fs d₀ S T d (task :: tasks) report)
    (hadvance : Advance fs task d report added d' report') :
    Accounted fs d₀ S T d' (added ++ tasks) report' := by
  -- The directory of the target is there, so no directory has to be added above it.
  have hnew : ∀ {b : Location}, (fs.Steady → d.entry? b.dropLast = some .directory) →
      fs.Steady → ∀ q, q <+: b → q ≠ b → d.entry? q ≠ some .directory →
        ∃ g, fate tasks q = some g ∧ g <+: T := by
    intro b hdir hsteady q hpre hne hq
    exact absurd (directory_above htree (hdir hsteady) hpre hne) hq
  cases hadvance with
  | skip ha =>
    obtain ⟨rest, heq, heq', -⟩ := hwithin.of_move ha ha
    exact absurd (List.prefix_refl _) (heq ▸ heq' ▸ (hapart.append rest).1)
  | file ha hb hmoved =>
    obtain ⟨rest, rfl, rfl, hdir⟩ := hwithin.of_move ha hb
    exact h.fileMoved htree ha hb hmoved (hnew hdir)
  | detour ha hb hne hpre hdir hwritable hname hfree =>
    obtain ⟨rest, rfl, rfl, -⟩ := hwithin.of_move ha hb
    exact absurd hpre (hapart.append rest).1
  | expand ha hb hpre hdir hwritable hfree hgrown hmade =>
    obtain ⟨rest, rfl, rfl, hdir'⟩ := hwithin.of_move ha hb
    exact h.expand ha hb (hapart.append rest) hdir hgrown hmade (hnew hdir')
  | remove ha =>
    obtain ⟨rest, rfl⟩ := hwithin.of_remove ha
    refine h.remove ha ?_
    intro hnil
    exact hapart.1 ((List.append_eq_nil_iff.1 hnil).1 ▸ List.nil_prefix)

/-! ## The legs of a move -/

/-- The tasks carry what lies at `A` to `B`, a place apart from it. -/
structure Leg (fs : FileSystem) (d : Disk) (A B : Location) (tasks : List Task) : Prop where
  apart : Apart A B
  within : ∀ task ∈ tasks, Within fs d A B task

/-- A step of a leg leaves tasks of the same leg. -/
theorem Leg.advance {A B : Location} {task : Task} {added : List Task}
    (h : Leg fs d A B (task :: tasks)) (hadvance : Advance fs task d report added d' report') :
    Leg fs d' A B (added ++ tasks) := by
  obtain ⟨hadded, hdirs⟩ := (h.within task List.mem_cons_self).advance h.apart hadvance
  refine ⟨h.apart, fun task' htask' => ?_⟩
  rcases List.mem_append.1 htask' with htask' | htask'
  · exact hadded task' htask'
  · exact (h.within task' (List.mem_cons_of_mem _ htask')).of_directories hdirs h.apart

/-- A directory that was taken apart is being carried. -/
theorem Leg.of_expand (htree : d.IsTree) (ha : Plain a) (hb : Plain b) (hapart : Apart a b)
    (hmade : d.entry? b = some .directory) :
    Leg fs d a b (childTasks a b (d.namesIn a) ++ [.remove (ofPlace a)]) := by
  have hchildren : ∀ task ∈ childTasks (a ++ []) (b ++ []) (d.namesIn (a ++ [])) ++
      [.remove (ofPlace (a ++ []))], Within fs d a b task :=
    Within.children htree (by simpa using ha) (by simpa using hb) (by simpa using hmade)
  exact ⟨hapart, by simpa only [List.append_nil] using hchildren⟩

/-- What a move to `T` has to do after a leg to `B`: nothing if it has arrived, and else to go on,
which does not lead into `B` itself. -/
inductive Onward (T : Location) : (B : Location) → List Task → Prop
  | arrived : Onward T T []
  | goOn {B : Location} (hB : Plain B) (hBT : ¬ B <+: T) :
    Onward T B [.move (ofPlace B) (ofPlace T)]

/-- Where a move to `T` stands after its first step: it is finished, or on a leg to `T` or to a
temporary place. -/
inductive Stage (fs : FileSystem) (d : Disk) (T : Location) : List Task → Prop
  | finished : Stage fs d T []
  | leg {A B : Location} {tasks later : List Task} (hleg : Leg fs d A B tasks)
    (hlater : Onward T B later) : Stage fs d T (tasks ++ later)

/-- The next task of a stage is to go on from a temporary place, or one of a leg. -/
theorem Stage.head {task : Task} (h : Stage fs d T (task :: tasks)) :
    (∃ B, Plain B ∧ B ≠ [] ∧ ¬ B <+: T ∧ task = .move (ofPlace B) (ofPlace T) ∧ tasks = []) ∨
      ∃ A B inner later, Leg fs d A B (task :: inner) ∧ Onward T B later ∧
        tasks = inner ++ later := by
  generalize hall : task :: tasks = all at h
  cases h with
  | finished => simp at hall
  | @leg A B inner later hleg hlater =>
    cases inner with
    | cons first inner =>
      rw [List.cons_append] at hall
      obtain ⟨rfl, rfl⟩ := List.cons.inj hall
      exact .inr ⟨A, B, inner, later, hleg, hlater, rfl⟩
    | nil =>
      cases hlater with
      | arrived => simp at hall
      | goOn hB hBT =>
        obtain ⟨rfl, rfl⟩ := List.cons.inj hall
        refine .inl ⟨B, hB, ?_, hBT, rfl, rfl⟩
        rintro rfl
        exact hleg.apart.2 List.nil_prefix

/-- **The first step** of a move, or of going on from a temporary place, leaves a stage. -/
theorem Advance.stage {B : Location} (htree : d.IsTree) (hB : Plain B) (hT : Plain T) (hne : B ≠ [])
    {added : List Task}
    (hadvance : Advance fs (.move (ofPlace B) (ofPlace T)) d report added d' report') :
    Stage fs d' T added := by
  generalize htask : Task.move (ofPlace B) (ofPlace T) = task at hadvance
  cases hadvance with
  | skip ha => exact .finished
  | file ha hb hmoved => exact .finished
  | @detour a' b' name _ _ ha hb _ hpre hdir hwritable hname hfree =>
    obtain ⟨rfl, rfl⟩ := places_of_eq hB hT ha hb htask
    have hapart := apart_beside hne hdir hwritable hfree
    have hbeside := (ha.of_prefix (List.dropLast_prefix a')).concat hname
    have hleg : Leg fs d a' (a'.dropLast ++ [name])
        [.move (ofPlace a') (ofPlace (a'.dropLast ++ [name]))] :=
      ⟨hapart, by simpa using within_beside htree ha hname hdir⟩
    -- the target lies in the source, so not in a place beside it
    refine .leg hleg (.goOn hbeside fun hpre' => ?_)
    rcases List.prefix_or_prefix_of_prefix hpre hpre' with hpre'' | hpre''
    · exact hapart.1 hpre''
    · exact hapart.2 hpre''
  | expand ha hb hpre hdir hwritable hfree hgrown hmade =>
    obtain ⟨rfl, rfl⟩ := places_of_eq hB hT ha hb htask
    have hapart := apart_of_free htree hdir hfree hpre
    have hstage := Stage.leg (@Leg.of_expand _ _ fs _ hgrown.tree ha hb hapart hmade) .arrived
    rwa [List.append_nil] at hstage
  | remove ha => simp at htask

/-- **Every later step** leaves a stage again. -/
theorem Stage.advance {task : Task} {added : List Task} (hT : Plain T) (htree : d.IsTree)
    (h : Stage fs d T (task :: tasks)) (hadvance : Advance fs task d report added d' report') :
    Stage fs d' T (added ++ tasks) := by
  rcases h.head with ⟨B, hB, hne, -, rfl, rfl⟩ | ⟨A, B, inner, later, hleg, hlater, rfl⟩
  · rw [List.append_nil]
    exact hadvance.stage htree hB hT hne
  · rw [← List.append_assoc]
    exact .leg (hleg.advance hadvance) hlater

/-- A move that goes on: the balance is kept, and the move is about to begin or at a stage. -/
structure Live (fs : FileSystem) (d₀ : Disk) (S T : Location) (d : Disk) (tasks : List Task)
    (report : Report) : Prop where
  stage : (∃ B, Plain B ∧ B ≠ [] ∧ B ≠ T ∧ tasks = [.move (ofPlace B) (ofPlace T)]) ∨
    Stage fs d T tasks
  accounted : Accounted fs d₀ S T d tasks report

/-- A move that cannot end well: its next task takes the root directory, or a directory to a place
whose path cannot be written. -/
def Doomed (d : Disk) (tasks : List Task) : Prop :=
  ∃ a b rest, Plain a ∧ Plain b ∧ tasks = .move (ofPlace a) (ofPlace b) :: rest ∧ a ≠ b ∧
    (a = [] ∨ ¬ a <+: b ∧ ¬ Writable b ∧ d.entry? a = some .directory)

/-- A move by way of a temporary place whose path cannot be written is doomed. -/
theorem doomed_beside {name : String} (ha : Plain a) (hname : IsName name)
    (hdir : d.entry? a = some .directory) (hwritable : Writable a)
    (hbeside : ¬ Writable (a.dropLast ++ [name])) (tasks : List Task) :
    Doomed d (.move (ofPlace a) (ofPlace (a.dropLast ++ [name])) :: tasks) := by
  have hplain := (ha.of_prefix (List.dropLast_prefix a)).concat hname
  have hother : a ≠ a.dropLast ++ [name] := fun heq => hbeside (heq ▸ hwritable)
  refine ⟨a, _, tasks, ha, hplain, rfl, hother, ?_⟩
  by_cases hne : a = []
  · exact .inl hne
  · exact .inr ⟨fun hpre => hother ((prefix_beside hne).1.1 hpre), hbeside, hdir⟩

/-- A doomed move stays doomed: a step can only put off its end. -/
theorem Doomed.advance {task : Task} {added : List Task} (h : Doomed d (task :: tasks))
    (hadvance : Advance fs task d report added d' report') : Doomed d' (added ++ tasks) := by
  obtain ⟨a, b, rest, ha, hb, htasks, hne, hcause⟩ := h
  obtain ⟨htask, -⟩ := List.cons.inj htasks
  cases hadvance with
  | skip ha' =>
    obtain ⟨rfl, rfl⟩ := places_of_eq ha hb ha' ha' htask.symm
    exact absurd rfl hne
  | file ha' hb' hmoved =>
    obtain ⟨rfl, rfl⟩ := places_of_eq ha hb ha' hb' htask.symm
    obtain ⟨content, hfile⟩ := hmoved.file
    rcases hcause with rfl | ⟨-, -, hdir⟩
    · simp at hfile
    · simp [hdir] at hfile
  | @detour a' b' name _ _ ha' hb' hne' hpre hdir hwritable hname hfree =>
    obtain ⟨rfl, rfl⟩ := places_of_eq ha hb ha' hb' htask.symm
    rcases hcause with rfl | ⟨hpre', -, -⟩
    · exact ⟨[], _, _, ha, Plain.nil.concat hname, rfl, by simp, .inl rfl⟩
    · exact absurd hpre hpre'
  | expand ha' hb' hpre hdir hwritable hfree hgrown hmade =>
    obtain ⟨rfl, rfl⟩ := places_of_eq ha hb ha' hb' htask.symm
    rcases hcause with rfl | ⟨-, hwritable', -⟩
    · exact absurd List.nil_prefix hpre
    · exact absurd hwritable hwritable'
  | remove ha' => simp at htask

/-- The step that opens a move, or takes it up again at a temporary place. -/
theorem Accounted.open_advance {B : Location} (hB : Plain B) (hT : Plain T) (hne : B ≠ [])
    (hBT : B ≠ T) (htree : d.IsTree) {added : List Task}
    (h : Accounted fs d₀ S T d [.move (ofPlace B) (ofPlace T)] report)
    (hadvance : Advance fs (.move (ofPlace B) (ofPlace T)) d report added d' report') :
    Live fs d₀ S T d' added report' ∨ Doomed d' added := by
  have hnew : fs.Steady → ∀ q, q <+: T → q ≠ T → d.entry? q ≠ some .directory →
      ∃ g, fate [] q = some g ∧ g <+: T :=
    fun _ q hpre _ _ => ⟨q, rfl, hpre⟩
  have hstage := hadvance.stage htree hB hT hne
  generalize htask : Task.move (ofPlace B) (ofPlace T) = task at hadvance
  cases hadvance with
  | skip ha =>
    obtain ⟨rfl, rfl⟩ := places_of_eq hB hT ha ha htask
    exact absurd rfl hBT
  | file ha hb hmoved =>
    obtain ⟨rfl, rfl⟩ := places_of_eq hB hT ha hb htask
    exact .inl ⟨.inr hstage, h.fileMoved htree ha hb hmoved hnew⟩
  | @detour a' b' name _ _ ha hb _ hpre hdir hwritable hname hfree =>
    obtain ⟨rfl, rfl⟩ := places_of_eq hB hT ha hb htask
    have hbeside := (ha.of_prefix (List.dropLast_prefix a')).concat hname
    by_cases hwritable' : Writable (a'.dropLast ++ [name])
    · exact .inl ⟨.inr hstage, h.of_fate fun p entry he =>
        fate_byWayOf htree ha hb hbeside (hfree hwritable') he []⟩
    · exact .inr (doomed_beside ha hname hdir hwritable hwritable' _)
  | expand ha hb hpre hdir hwritable hfree hgrown hmade =>
    obtain ⟨rfl, rfl⟩ := places_of_eq hB hT ha hb htask
    have hapart := apart_of_free htree hdir hfree hpre
    have haccounted := h.expand ha hb hapart hdir hgrown hmade hnew
    rw [List.append_nil] at haccounted
    exact .inl ⟨.inr hstage, haccounted⟩
  | remove ha => simp at htask

/-- **Every step of a move keeps the balance**, unless the move is doomed from then on. -/
theorem Live.advance {task : Task} {added : List Task} (hT : Plain T) (htree : d.IsTree)
    (h : Live fs d₀ S T d (task :: tasks) report)
    (hadvance : Advance fs task d report added d' report') :
    Live fs d₀ S T d' (added ++ tasks) report' ∨ Doomed d' (added ++ tasks) := by
  obtain ⟨⟨B, hB, hne, hBT, hall⟩ | hstage, haccounted⟩ := h
  · obtain ⟨rfl, rfl⟩ := List.cons.inj hall
    rw [List.append_nil]
    exact haccounted.open_advance hB hT hne hBT htree hadvance
  · have hstage' := hstage.advance hT htree hadvance
    rcases hstage.head with ⟨B, hB, hne, hBT, rfl, rfl⟩ | ⟨A, B, inner, later, hleg, -, rfl⟩
    · -- all is aside now, and the way from there begins like a move of its own
      rw [List.append_nil]
      refine haccounted.open_advance hB hT hne (fun heq => hBT ?_) htree hadvance
      exact heq ▸ List.prefix_refl _
    · exact .inl ⟨.inr hstage', haccounted.carry hleg.apart (hleg.within _ List.mem_cons_self)
        htree hadvance⟩

theorem not_doomed_nil : ¬ Doomed d [] := by
  rintro ⟨a, b, rest, -, -, htasks, -, -⟩
  simp at htasks

end Relocate.Move
