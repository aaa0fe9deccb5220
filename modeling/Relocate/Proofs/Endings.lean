import Mathlib.Algebra.Order.BigOperators.Group.Finset
import Relocate.Proofs.Guarantees
import Relocate.Proofs.Loops

/-! # The loop of a move ends

A turn of the loop may add more tasks than it does, so their number says nothing.  What falls with
every turn is `Move.load`: for each place that holds something, two turns for every time that the
tasks move what is there (`Move.toil`: one to move it, one to remove what is left of it), and one
for each removal that is already a task.

A directory goes by way of a temporary place only at the first turn.  From then on the tasks are
those of a `Move.Stage`, none of which takes a directory into itself.  The first turn leaves at most
four turns for each place (`Move.Advance.load_le`), and each later one takes one of them
(`Move.Stage.load_lt`).
-/

namespace Relocate

/-! ## The places of a disk -/

namespace Disk

variable {d : Disk} {p : Location}

/-- The places that hold something, the root directory apart. -/
def places (d : Disk) : Finset Location := (d.entries.map Prod.fst).toFinset

theorem IsTree.mem_places (h : d.IsTree) :
    p ∈ d.places ↔ p ≠ [] ∧ ∃ entry, d.entry? p = some entry := by
  rw [places, List.mem_toFinset, List.mem_map]
  constructor
  · rintro ⟨⟨p, entry⟩, hmem, rfl⟩
    have hne := (h.listed _ _ hmem).1
    exact ⟨hne, entry, (h.entry_eq_some_iff hne).2 hmem⟩
  · rintro ⟨hne, entry, he⟩
    exact ⟨(p, entry), (h.entry_eq_some_iff hne).1 he, rfl⟩

theorem card_places_le (d : Disk) : d.places.card ≤ d.entries.length :=
  (List.toFinset_card_le _).trans_eq (List.length_map _)

end Disk

namespace Move

open Relocate.Path Work Disk Session

/-! ## What is left to do -/

/-- The turns that the tasks may take for the thing at a place: two for each time that they move
it, one to move it and one to remove what is left of it. -/
def toil : List Task → Location → Nat
  | [], _ => 0
  | .move source target :: tasks, p =>
    toil tasks (shift source.place target.place p) + if source.place <+: p then 2 else 0
  | .remove dir :: tasks, p => if dir.place <+: p then 0 else toil tasks p

/-- How many of the tasks are removals. -/
def removals : List Task → Nat
  | [] => 0
  | .move _ _ :: tasks => removals tasks
  | .remove _ :: tasks => removals tasks + 1

/-- The turns that the tasks may take on a disk. -/
def load (d : Disk) (tasks : List Task) : Nat := ∑ p ∈ d.places, toil tasks p + removals tasks

variable {a b p q : Location} {tasks : List Task}

@[simp] theorem toil_move (ha : Plain a) (hb : Plain b) (tasks : List Task) (p : Location) :
    toil (.move (ofPlace a) (ofPlace b) :: tasks) p =
      toil tasks (shift a b p) + if a <+: p then 2 else 0 := by
  simp [toil, ha, hb]

theorem toil_move_source (ha : Plain a) (hb : Plain b) (tasks : List Task) :
    toil (.move (ofPlace a) (ofPlace b) :: tasks) a = toil tasks b + 2 := by
  rw [toil_move ha hb, if_pos (List.prefix_refl a), shift_source]

@[simp] theorem toil_remove (ha : Plain a) (tasks : List Task) (p : Location) :
    toil (.remove (ofPlace a) :: tasks) p = if a <+: p then 0 else toil tasks p := by
  simp [toil, ha]

theorem toil_append (tasks rest : List Task) (p : Location) :
    toil (tasks ++ rest) p = toil tasks p + (fate tasks p).elim 0 (toil rest) := by
  induction tasks generalizing p with
  | nil => simp [toil, fate]
  | cons task tasks ih =>
    cases task with
    | move source target =>
      simp only [List.cons_append, toil, fate, fateOf, Option.bind_some, ih]
      omega
    | remove dir =>
      by_cases h : dir.place <+: p
      · simp [toil, fate, fateOf, h]
      · simp [toil, fate, fateOf, h, ih]

theorem toil_le (tasks : List Task) (p : Location) : toil tasks p ≤ 2 * tasks.length := by
  induction tasks generalizing p with
  | nil => simp [toil]
  | cons task tasks ih =>
    cases task with
    | move source target =>
      have hle := ih (shift source.place target.place p)
      rw [toil, List.length_cons]
      split <;> omega
    | remove dir =>
      have hle := ih p
      rw [toil, List.length_cons]
      split <;> omega

theorem removals_append (tasks rest : List Task) :
    removals (tasks ++ rest) = removals tasks + removals rest := by
  induction tasks with
  | nil => simp [removals]
  | cons task tasks ih =>
    cases task with
    | move source target => exact ih
    | remove dir =>
      simp only [List.cons_append, removals, ih]
      omega

theorem removals_childTasks (a b : Location) (names : List String) :
    removals (childTasks a b names) = 0 := by
  induction names with
  | nil => rfl
  | cons name names ih => exact ih

/-- With no removals among them, tasks take at most two turns each for a place. -/
theorem load_le (d : Disk) (h : removals tasks = 0) :
    load d tasks ≤ 2 * tasks.length * d.entries.length := by
  have hsum : ∑ p ∈ d.places, toil tasks p ≤ d.places.card * (2 * tasks.length) :=
    Finset.sum_le_card_nsmul _ _ _ fun p _ => toil_le tasks p
  have hcard := Nat.mul_le_mul_right (2 * tasks.length) d.card_places_le
  rw [load, h, Nat.add_zero, Nat.mul_comm]
  exact hsum.trans hcard

/-! ## Taking a directory apart -/

theorem toil_childTasks_outside (ha : Plain a) (hb : Plain b) {names : List String}
    (hnames : ∀ name ∈ names, IsName name) (h : ∀ name ∈ names, ¬ a ++ [name] <+: p) :
    toil (childTasks a b names) p = 0 := by
  induction names with
  | nil => rfl
  | cons name names ih =>
    have hname := hnames name List.mem_cons_self
    have hp := h name List.mem_cons_self
    rw [childTasks, List.map_cons, toil_move (ha.concat hname) (hb.concat hname), if_neg hp,
      shift_outside hp]
    exact ih (fun n hn => hnames n (List.mem_cons_of_mem _ hn))
      fun n hn => h n (List.mem_cons_of_mem _ hn)

theorem toil_childTasks_le (ha : Plain a) (hb : Plain b) (hapart : Apart a b)
    {names : List String} (hnames : ∀ name ∈ names, IsName name) (p : Location) :
    toil (childTasks a b names) p ≤ 2 := by
  induction names with
  | nil => exact Nat.zero_le 2
  | cons name names ih =>
    have hname := hnames name List.mem_cons_self
    have hrest : ∀ n ∈ names, IsName n := fun n hn => hnames n (List.mem_cons_of_mem _ hn)
    rw [childTasks, List.map_cons, toil_move (ha.concat hname) (hb.concat hname)]
    by_cases hp : a ++ [name] <+: p
    · -- once it has gone with one child, it lies below no other
      obtain ⟨rest, rfl⟩ := hp
      rw [shift_append, if_pos (List.prefix_append _ rest)]
      have hzero : toil (childTasks a b names) (b ++ [name] ++ rest) = 0 := by
        refine toil_childTasks_outside ha hb hrest fun n _ hpre => ?_
        rw [List.append_assoc] at hpre
        exact hapart.not_prefix (List.prefix_append b _) ((List.prefix_append a [n]).trans hpre)
      exact (Nat.add_le_add_right hzero.le 2)
    · rw [if_neg hp, shift_outside hp]
      exact ih hrest

/-- Taking a directory apart asks nothing more of what is in it, and nothing of what is not. -/
theorem toil_ofDirectory (ha : Plain a) (hb : Plain b) (hapart : Apart a b) {names : List String}
    (hnames : ∀ name ∈ names, IsName name) (tasks : List Task) :
    (∀ p, ¬ a <+: p →
      toil (childTasks a b names ++ [.remove (ofPlace a)] ++ tasks) p = toil tasks p) ∧
    toil (childTasks a b names ++ [.remove (ofPlace a)] ++ tasks) a = 0 ∧
    ∀ name ∈ names, ∀ rest,
      toil (childTasks a b names ++ [.remove (ofPlace a)] ++ tasks) (a ++ name :: rest) ≤
        toil tasks (b ++ name :: rest) + 2 := by
  have houtside : ∀ p, (∀ name ∈ names, ¬ a ++ [name] <+: p) →
      toil (childTasks a b names ++ [.remove (ofPlace a)] ++ tasks) p =
        toil (.remove (ofPlace a) :: tasks) p := by
    intro p hp
    rw [List.append_assoc, toil_append, fate_childTasks_outside ha hb hnames hp,
      toil_childTasks_outside ha hb hnames hp, Nat.zero_add]
    rfl
  refine ⟨?_, ?_, ?_⟩
  · intro p hp
    rw [houtside p fun n _ hpre => hp ((List.prefix_append a [n]).trans hpre), toil_remove ha,
      if_neg hp]
  · rw [houtside a, toil_remove ha, if_pos (List.prefix_refl a)]
    intro n _ hpre
    have hlength := hpre.length_le
    rw [List.length_append, List.length_singleton] at hlength
    omega
  · intro name hname rest
    have hpre := hapart.not_prefix (List.prefix_append b (name :: rest))
    rw [List.append_assoc, toil_append, fate_childTasks ha hb hapart hnames hname rest,
      Nat.add_comm]
    refine Nat.add_le_add ?_ (toil_childTasks_le ha hb hapart hnames _)
    simp [ha, hpre]

/-! ## What a step takes off the load -/

variable {fs : FileSystem} {d d' : Disk} {S T : Location} {report report' : Report}

/-- Where only `b` may weigh more than before, a sum over places grows by no more than what `b`
weighs over what `a`, which is left, did. -/
theorem sum_add_le {P P' : Finset Location} {f f' : Location → Nat} (ha : a ∈ P)
    (h : ∀ q ∈ P', q ≠ b → f' q = 0 ∨ q ∈ P.erase a ∧ f' q ≤ f q) :
    ∑ q ∈ P', f' q + f a ≤ ∑ q ∈ P, f q + f' b := by
  have hweigh : ∀ q ∈ (P'.erase b).filter (f' · ≠ 0), q ∈ P.erase a ∧ f' q ≤ f q := by
    intro q hq
    obtain ⟨hq, hne⟩ := Finset.mem_filter.1 hq
    obtain ⟨hqb, hq⟩ := Finset.mem_erase.1 hq
    exact (h q hq hqb).resolve_left hne
  have hothers : ∑ q ∈ P'.erase b, f' q ≤ ∑ q ∈ P.erase a, f q :=
    calc ∑ q ∈ P'.erase b, f' q
        = ∑ q ∈ (P'.erase b).filter (f' · ≠ 0), f' q := (Finset.sum_filter_ne_zero _).symm
      _ ≤ ∑ q ∈ (P'.erase b).filter (f' · ≠ 0), f q :=
          Finset.sum_le_sum fun q hq => (hweigh q hq).2
      _ ≤ ∑ q ∈ P.erase a, f q := Finset.sum_le_sum_of_subset fun q hq => (hweigh q hq).1
  have hall : ∑ q ∈ P', f' q ≤ ∑ q ∈ P'.erase b, f' q + f' b := by
    by_cases hb : b ∈ P'
    · exact (Finset.sum_erase_add P' f' hb).ge
    · rw [Finset.erase_eq_of_notMem hb]
      exact Nat.le_add_right _ _
  have hwhole := Finset.sum_erase_add P f ha
  omega

/-- A file that has arrived takes two turns off the load. -/
theorem load_file (hsteady : fs.Steady) (htree : d.IsTree) (ha : Plain a) (hb : Plain b)
    (hmoved : FileMoved fs a b report report' d d')
    (hnew : ∀ q, q <+: b → q ≠ b → d.entry? q ≠ some .directory → toil tasks q = 0) :
    load d' tasks + 2 ≤ load d (.move (ofPlace a) (ofPlace b) :: tasks) := by
  obtain ⟨content, hfile⟩ := hmoved.file
  have hne : a ≠ [] := by
    rintro rfl
    simp at hfile
  -- What is not the file itself does not lie below it, and stays.
  have hstays : ∀ q entry, d.entry? q = some entry → q ≠ a →
      toil (.move (ofPlace a) (ofPlace b) :: tasks) q = toil tasks q := by
    intro q entry hq hqa
    have hpre : ¬ a <+: q := fun hpre => hqa (htree.eq_of_file_prefix hfile hq hpre).symm
    rw [toil_move ha hb, if_neg hpre, shift_outside hpre, Nat.add_zero]
  have hweigh : ∀ q ∈ d'.places, q ≠ b → toil tasks q = 0 ∨ q ∈ d.places.erase a ∧
      toil tasks q ≤ toil (.move (ofPlace a) (ofPlace b) :: tasks) q := by
    intro q hq hqb
    obtain ⟨hroot, entry, he⟩ := hmoved.tree.mem_places.1 hq
    by_cases hold : (∃ entry, d.entry? q = some entry) ∧ q ≠ a
    · obtain ⟨⟨entry', he'⟩, hqa⟩ := hold
      exact .inr ⟨Finset.mem_erase.2 ⟨hqa, htree.mem_places.2 ⟨hroot, entry', he'⟩⟩,
        (hstays q entry' he' hqa).ge⟩
    · -- then it is a directory that was made on the way
      left
      cases entry with
      | file content' =>
        obtain ⟨p, content'', hp, rfl⟩ := hmoved.old q content' he
        rw [shift_of_file htree hfile hp] at hold hqb
        split at hqb
        · exact absurd rfl hqb
        · rename_i hpa
          rw [if_neg hpa] at hold
          exact absurd ⟨⟨_, hp⟩, hpa⟩ hold
      | directory =>
        have hnodir : d.entry? q ≠ some .directory := by
          intro hdir
          refine hold ⟨⟨_, hdir⟩, ?_⟩
          rintro rfl
          simp [hfile] at hdir
        have hpre := ((hmoved.directories hsteady q).1 he).resolve_left hnodir
        exact hnew q (hpre.trans (List.dropLast_prefix b)) hqb hnodir
  have hsum := sum_add_le (htree.mem_places.2 ⟨hne, _, hfile⟩) hweigh
  rw [toil_move_source ha hb] at hsum
  simp only [load, removals]
  omega

/-- A directory that was taken apart takes a turn off the load. -/
theorem load_expand (htree : d.IsTree) (ha : Plain a) (hb : Plain b) (hapart : Apart a b)
    (hdir : d.entry? a = some .directory) (hgrown : Grown b d d')
    (hnew : ∀ q, q <+: b → q ≠ b → d.entry? q ≠ some .directory → toil tasks q = 0) :
    load d' (childTasks a b (d'.namesIn a) ++ [.remove (ofPlace a)] ++ tasks) + 1 ≤
      load d (.move (ofPlace a) (ofPlace b) :: tasks) := by
  have hnames : ∀ name ∈ d'.namesIn a, IsName name := fun _ => hgrown.tree.isName_of_mem_namesIn
  obtain ⟨helsewhere, hself, hbelow⟩ := toil_ofDirectory ha hb hapart hnames tasks
  have hne : a ≠ [] := by
    rintro rfl
    exact hapart.1 List.nil_prefix
  have hweigh : ∀ q ∈ d'.places, q ≠ b →
      toil (childTasks a b (d'.namesIn a) ++ [.remove (ofPlace a)] ++ tasks) q = 0 ∨
        q ∈ d.places.erase a ∧
          toil (childTasks a b (d'.namesIn a) ++ [.remove (ofPlace a)] ++ tasks) q ≤
            toil (.move (ofPlace a) (ofPlace b) :: tasks) q := by
    intro q hq hqb
    obtain ⟨hroot, entry, he⟩ := hgrown.tree.mem_places.1 hq
    by_cases hqa : q = a
    · exact .inl (hqa ▸ hself)
    rcases hgrown.entries q with hsame | ⟨hnone, hpre, -⟩
    · refine .inr ⟨Finset.mem_erase.2 ⟨hqa, htree.mem_places.2 ⟨hroot, entry, hsame ▸ he⟩⟩, ?_⟩
      rw [toil_move ha hb]
      by_cases hpre : a <+: q
      · obtain ⟨rest, rfl⟩ := hpre
        cases rest with
        | nil => simp at hqa
        | cons name rest =>
          rw [if_pos (List.prefix_append a _), shift_append]
          exact hbelow name (hgrown.tree.mem_namesIn_of_below he) rest
      · rw [if_neg hpre, shift_outside hpre, helsewhere q hpre, Nat.add_zero]
    · left
      rw [helsewhere q fun hpre' => hapart.1 (hpre'.trans hpre)]
      exact hnew q hpre hqb (by simp [hnone])
  have hsum := sum_add_le (htree.mem_places.2 ⟨hne, _, hdir⟩) hweigh
  rw [toil_move_source ha hb, helsewhere b hapart.1] at hsum
  simp only [load, removals, removals_append, removals_childTasks]
  omega

/-- A removal takes itself off the load. -/
theorem load_remove (htree : d.IsTree) (ha : Plain a) (hne : a ≠ []) (tasks : List Task) :
    load (d.eraseTree a) tasks + 1 ≤ load d (.remove (ofPlace a) :: tasks) := by
  have hsum : ∑ q ∈ (d.eraseTree a).places, toil tasks q ≤
      ∑ q ∈ d.places, toil (.remove (ofPlace a) :: tasks) q := by
    have hkept : ∀ q ∈ (d.eraseTree a).places, q ∈ d.places ∧ ¬ a <+: q := by
      intro q hq
      obtain ⟨hroot, entry, he⟩ := (htree.eraseTree a).mem_places.1 hq
      rw [entry_eraseTree hne] at he
      split at he
      · simp at he
      · rename_i hpre
        exact ⟨htree.mem_places.2 ⟨hroot, entry, he⟩, hpre⟩
    calc ∑ q ∈ (d.eraseTree a).places, toil tasks q
        = ∑ q ∈ (d.eraseTree a).places, toil (.remove (ofPlace a) :: tasks) q :=
          Finset.sum_congr rfl fun q hq => by rw [toil_remove ha, if_neg (hkept q hq).2]
      _ ≤ ∑ q ∈ d.places, toil (.remove (ofPlace a) :: tasks) q :=
          Finset.sum_le_sum_of_subset fun q hq => (hkept q hq).1
  simp only [load, removals]
  omega

/-- One step inside a directory that is being moved takes a turn off the load. -/
theorem Within.load_lt {A B : Location} (hsteady : fs.Steady) (hapart : Apart A B) {task : Task}
    {added : List Task} (hwithin : Within fs d A B task) (htree : d.IsTree)
    (hadvance : Advance fs task d report added d' report') (tasks : List Task) :
    load d' (added ++ tasks) < load d (task :: tasks) := by
  -- The directory of the target is there, so no directory has to be added above it.
  have hnew : ∀ {b : Location}, (fs.Steady → d.entry? b.dropLast = some .directory) →
      ∀ q, q <+: b → q ≠ b → d.entry? q ≠ some .directory → toil tasks q = 0 := by
    intro b hdir q hpre hne hq
    exact absurd (directory_above htree (hdir hsteady) hpre hne) hq
  cases hadvance with
  | skip ha =>
    obtain ⟨rest, heq, heq', -⟩ := hwithin.of_move ha ha
    exact absurd (List.prefix_refl _) (heq ▸ heq' ▸ (hapart.append rest).1)
  | file ha hb hmoved =>
    obtain ⟨rest, rfl, rfl, hdir⟩ := hwithin.of_move ha hb
    have hload := load_file hsteady htree ha hb hmoved (hnew hdir)
    rw [List.nil_append]
    omega
  | detour ha hb hne hpre hdir hwritable hname hfree =>
    obtain ⟨rest, rfl, rfl, -⟩ := hwithin.of_move ha hb
    exact absurd hpre (hapart.append rest).1
  | expand ha hb hpre hdir hwritable hfree hgrown hmade =>
    obtain ⟨rest, rfl, rfl, hdir'⟩ := hwithin.of_move ha hb
    exact load_expand htree ha hb (hapart.append rest) hdir hgrown (hnew hdir')
  | remove ha =>
    obtain ⟨rest, rfl⟩ := hwithin.of_remove ha
    refine load_remove htree ha ?_ tasks
    intro hnil
    exact hapart.1 ((List.append_eq_nil_iff.1 hnil).1 ▸ List.nil_prefix)

/-! ## The stages of a move -/

/-- At a stage nothing goes into itself. -/
theorem Stage.not_inside (hT : Plain T) (h : Stage fs d T tasks) {source target : Path}
    (htask : .move source target ∈ tasks) : source.isInDir target = false := by
  cases h with
  | finished => simp at htask
  | @leg A B inner later hleg hlater =>
    rcases List.mem_append.1 htask with htask | htask
    · have hwithin := hleg.within _ htask
      generalize heq : Task.move source target = task at hwithin
      cases hwithin with
      | move rest ha hb hdir =>
        obtain ⟨rfl, rfl⟩ := Task.move.inj heq
        rw [Bool.eq_false_iff, ne_eq, isInDir_ofPlace ha hb]
        exact (hleg.apart.append rest).1
      | remove rest ha => simp at heq
    · cases hlater with
      | arrived => simp at htask
      | goOn hB hBT =>
        obtain ⟨rfl, rfl⟩ := Task.move.inj (List.mem_singleton.1 htask)
        rw [Bool.eq_false_iff, ne_eq, isInDir_ofPlace hB hT]
        exact hBT

/-- Taking a directory apart takes a turn off the load. -/
theorem load_apart (htree : d.IsTree) (ha : Plain a) (hb : Plain b) (hpre : ¬ a <+: b)
    (hdir : d.entry? a = some .directory) (hfree : d.entry? b = none) (hgrown : Grown b d d') :
    load d' (childTasks a b (d'.namesIn a) ++ [.remove (ofPlace a)]) <
      load d [.move (ofPlace a) (ofPlace b)] := by
  have hapart := apart_of_free htree hdir hfree hpre
  have hload : load d' (childTasks a b (d'.namesIn a) ++ [.remove (ofPlace a)] ++ []) + 1 ≤
      load d [.move (ofPlace a) (ofPlace b)] :=
    load_expand htree ha hb hapart hdir hgrown fun _ _ _ _ => rfl
  rwa [List.append_nil] at hload

/-- **The first turn** leaves at most four turns for each place. -/
theorem Advance.load_le (htree : d.IsTree) {added : List Task}
    (hadvance : Advance fs (.move (ofPlace S) (ofPlace T)) d report added d' report') :
    load d' added ≤ 4 * d.entries.length := by
  have hnothing : load d' [] ≤ 4 * d.entries.length := by simp [load, toil, removals]
  generalize htask : Task.move (ofPlace S) (ofPlace T) = task at hadvance
  cases hadvance with
  | skip ha => exact hnothing
  | file ha hb hmoved => exact hnothing
  | detour ha hb hne hpre hdir hwritable hname hfree => exact Move.load_le d rfl
  | @expand a' b' _ _ _ ha hb hpre hdir hwritable hfree hgrown hmade =>
    have hle : load d [.move (ofPlace a') (ofPlace b')] ≤ 2 * 1 * d.entries.length :=
      Move.load_le d rfl
    have hload := load_apart htree ha hb hpre hdir hfree hgrown
    omega
  | remove ha => simp at htask

/-- **Every later turn** takes a turn off the load. -/
theorem Stage.load_lt (hsteady : fs.Steady) (hT : Plain T) (htree : d.IsTree) {task : Task}
    {added : List Task} (h : Stage fs d T (task :: tasks))
    (hadvance : Advance fs task d report added d' report') :
    load d' (added ++ tasks) < load d (task :: tasks) := by
  rcases h.head with ⟨B, hB, -, hBT, rfl, rfl⟩ | ⟨A, B, inner, later, hleg, -, rfl⟩
  · rw [List.append_nil]
    generalize htask : Task.move (ofPlace B) (ofPlace T) = task at hadvance
    cases hadvance with
    | skip ha =>
      obtain ⟨rfl, rfl⟩ := places_of_eq hB hT ha ha htask
      exact absurd (List.prefix_refl _) hBT
    | file ha hb hmoved =>
      have hload : load d' [] + 2 ≤ load d [.move _ _] :=
        load_file hsteady htree ha hb hmoved fun _ _ _ _ => rfl
      omega
    | detour ha hb hne hpre hdir hwritable hname hfree =>
      obtain ⟨rfl, rfl⟩ := places_of_eq hB hT ha hb htask
      exact absurd hpre hBT
    | expand ha hb hpre hdir hwritable hfree hgrown hmade =>
      exact load_apart htree ha hb hpre hdir hfree hgrown
    | remove ha => simp at htask
  · exact (hleg.within _ List.mem_cons_self).load_lt hsteady hleg.apart htree hadvance _

/-! ## The loop as a whole -/

variable {tools : Tools} {s t t' : Session} {n : Nat} {progress progress' : Progress}

/-- Only a directory that goes into itself is given a temporary place. -/
theorem step_temporary (tools : Tools) (task : Task) (progress : Progress) :
    Ensures (step tools task progress) s
      (fun progress' _ => progress'.temporary = progress.temporary ∨
        ∃ source target place, task = .move source target ∧ source.isInDir target = true ∧
          progress'.temporary = place :: progress.temporary)
      fun _ _ => True := by
  -- The rest of each branch returns, whatever the work before it did.
  have hthen : ∀ {α β : Type} {work : Work α} {rest : α → Work β} {s : Session}
      {ok : β → Session → Prop}, (∀ value s', Ensures (rest value) s' ok fun _ _ => True) →
      Ensures (work >>= rest) s ok fun _ _ => True := fun hrest =>
    ensures_bind (ensures_run.mono (fun value s' _ => hrest value s') fun _ _ _ => trivial)
  cases task with
  | remove dir => exact hthen fun _ _ => ensures_pure (.inl rfl)
  | move source target =>
    unfold step
    dsimp only
    split
    · exact ensures_pure (.inl rfl)
    refine hthen fun _ _ => ?_
    split
    · exact ensures_throw trivial
    refine hthen fun _ _ => ?_
    split
    · exact ensures_throw trivial
    refine hthen fun _ _ => ?_
    split
    · exact hthen fun _ _ => ensures_pure (.inl rfl)
    split
    · rename_i hinside
      exact hthen fun place _ => ensures_pure (.inr ⟨source, target, place, rfl, hinside, rfl⟩)
    · exact hthen fun _ _ => hthen fun _ _ => ensures_pure (.inl rfl)

/-- **Where the loop stands**: at its start, or at a stage, with turns left that add up with those
taken to no more than one and four for each place. -/
theorem Turns.stage (hfiles : tools.files.Faithful) (hsteady : tools.files.Steady)
    (hnames : tools.HasPlainNames) (hsound : Sound tools nowhere s) (hS : Plain S) (hT : Plain T)
    (hne : S ≠ []) (h : Turns tools (.move (ofPlace S) (ofPlace T)) s n (.ok progress) t) :
    (n = 0 ∧ t = s ∧ progress = { tasks := [.move (ofPlace S) (ofPlace T)] }) ∨
      (0 < n ∧ Stage tools.files t.disk T progress.tasks ∧ progress.temporary.length ≤ 1 ∧
        n + load t.disk progress.tasks ≤ 4 * s.disk.entries.length + 1) := by
  generalize houtcome : Except.ok progress = outcome at h
  induction h generalizing progress with
  | start =>
    cases houtcome
    exact .inl ⟨rfl, rfl, rfl⟩
  | @turn n before t t' task tasks outcome h htasks hstep ih =>
    subst houtcome
    obtain ⟨htree, -, added, hadded, hadvance⟩ :=
      h.advanced hfiles hnames hsound hS hT htasks hstep
    have htemporary := (step_temporary tools task _).of_ok hstep
    right
    rw [hadded]
    rcases ih rfl with ⟨rfl, rfl, rfl⟩ | ⟨hpos, hstage, hlength, hbound⟩
    · obtain ⟨rfl, rfl⟩ := List.cons.inj htasks
      have hload := hadvance.load_le htree
      rw [List.append_nil]
      refine ⟨Nat.one_pos, hadvance.stage htree hS hT hne, ?_, by omega⟩
      rcases htemporary with heq | ⟨_, _, _, _, _, heq⟩
      · simp [heq]
      · simp [heq]
    · rw [htasks] at hstage hbound
      have hload := hstage.load_lt hsteady hT htree hadvance
      refine ⟨Nat.succ_pos n, hstage.advance hT htree hadvance, ?_, by omega⟩
      rcases htemporary with heq | ⟨source, target, -, rfl, hinside, -⟩
      · rw [heq]
        exact hlength
      · rw [hstage.not_inside hT List.mem_cons_self] at hinside
        exact absurd hinside Bool.false_ne_true

end Move

open Relocate.Path Session Work

/-- **The loop of a move ends.**  Whatever the tree, the ends of the move and the temporary names
drawn for it, unless the root directory itself is to be moved: the loop comes to a point where no
task is left or one has failed, and that is what the move returns; no run of it takes more than
`Move.taskBound` turns.  At no point has it more than one temporary place, and after its first turn
no task, whether a directory was taken apart for it or sent by way of a temporary place, takes a
directory into itself. -/
theorem move_loop_ends {tools : Tools} (hfiles : tools.files.Faithful)
    (hsteady : tools.files.Steady) (hnames : tools.HasPlainNames) {s : Session}
    (hs : Reached tools s) (source target : Path)
    (hroot : (s.root.absolutize source).place ≠ []) :
    (∃ n outcome t,
      Move.Turns tools (.move (s.root.absolutize source) (s.root.absolutize target)) s n outcome t ∧
        (∀ p, outcome = .ok p → p.tasks = []) ∧
        (Move.move tools source target).run.run s = (outcome.map Progress.report, t)) ∧
    ∀ n outcome t,
      Move.Turns tools (.move (s.root.absolutize source) (s.root.absolutize target)) s n outcome t →
        n ≤ Move.taskBound s.disk ∧
        ∀ p, outcome = .ok p → p.temporary.length ≤ 1 ∧
          (0 < n → ∀ a b, .move a b ∈ p.tasks → a.isInDir b = false) := by
  have hsound := hs.sound hfiles hnames
  obtain ⟨S, hS, hsource⟩ := hsound.absolutize source
  obtain ⟨T, hT, htarget⟩ := hsound.absolutize target
  rw [hsource, place_ofPlace hS] at hroot
  rw [hsource, htarget]
  have hbound : ∀ n p t, Move.Turns tools (.move (ofPlace S) (ofPlace T)) s n (.ok p) t →
      n ≤ 4 * s.disk.entries.length + 1 := by
    intro n p t h
    rcases h.stage hfiles hsteady hnames hsound hS hT hroot with ⟨rfl, -, -⟩ | ⟨-, -, -, hle⟩
    · exact Nat.zero_le _
    · omega
  constructor
  · have hends := Move.move_ends tools source target s
    rw [hsource, htarget] at hends
    cases hmove : (Move.move tools source target).run.run s with
    | mk result t =>
      cases result with
      | ok report =>
        obtain ⟨n, p, hturns, hnil, rfl⟩ := hends.of_ok hmove
        refine ⟨n, .ok p, t, hturns, fun p' heq => ?_, rfl⟩
        cases heq
        exact hnil
      | error cause =>
        -- the fuel does not run out before the loop ends
        have hfuel : ¬ ∃ p, Move.Turns tools (.move (ofPlace S) (ofPlace T)) s
            (Move.taskBound s.disk) (.ok p) t := by
          rintro ⟨p, hturns⟩
          have hle := hbound _ p t hturns
          rw [Move.taskBound] at hle
          omega
        obtain ⟨n, hturns⟩ := (hends.of_error hmove).resolve_right hfuel
        refine ⟨n, .error cause, t, hturns, fun p' heq => ?_, rfl⟩
        cases heq
  · intro n outcome t h
    constructor
    · cases h with
      | start => exact Nat.zero_le _
      | turn h htasks hstep =>
        have hle := hbound _ _ _ h
        rw [Move.taskBound]
        omega
    · rintro p rfl
      rcases h.stage hfiles hsteady hnames hsound hS hT hroot with
        ⟨rfl, -, rfl⟩ | ⟨-, hstage, hlength, -⟩
      · exact ⟨Nat.zero_le _, fun hpos => absurd hpos (Nat.lt_irrefl 0)⟩
      · exact ⟨hlength, fun _ a b htask => hstage.not_inside hT htask⟩

/-- The loop that takes the directory into itself ends after at most sixteen turns. -/
theorem move_loop_ends_into_itself :
    (∃ n outcome t,
      Move.Turns SelfImport.standard (.move ⟨"/p/src"⟩ ⟨"/p/src/lib"⟩)
          (SelfImport.prepared SelfImport.standard) n outcome t ∧
        (∀ p, outcome = .ok p → p.tasks = []) ∧
        SelfImport.moved SelfImport.standard = (outcome.map Progress.report, t)) ∧
    ∀ n outcome t,
      Move.Turns SelfImport.standard (.move ⟨"/p/src"⟩ ⟨"/p/src/lib"⟩)
          (SelfImport.prepared SelfImport.standard) n outcome t →
        n ≤ 16 ∧
        ∀ p, outcome = .ok p → p.temporary.length ≤ 1 ∧
          (0 < n → ∀ a b, .move a b ∈ p.tasks → a.isInDir b = false) := by
  have hsource : (SelfImport.prepared SelfImport.standard).root.absolutize ⟨"src"⟩ =
      ⟨"/p/src"⟩ := by decide +kernel
  have htarget : (SelfImport.prepared SelfImport.standard).root.absolutize ⟨"src/lib"⟩ =
      ⟨"/p/src/lib"⟩ := by decide +kernel
  have hbound : Move.taskBound (SelfImport.prepared SelfImport.standard).disk = 16 := by
    decide +kernel
  have hroot : ((SelfImport.prepared SelfImport.standard).root.absolutize ⟨"src"⟩).place ≠ [] := by
    rw [hsource]
    decide +kernel
  rw [← hsource, ← htarget, ← hbound]
  exact move_loop_ends FileSystem.plain_faithful FileSystem.plain_steady
    SelfImport.hasPlainNames_standard SelfImport.reached_standard _ _ hroot

end Relocate
