import Relocate.Proofs.Guarantees
import Relocate.Proofs.Shapes

/-! # Refused moves

A move is refused when there is something at its target or nothing at its source.  Each task of a
move asks both, so it has to be shown that the answer is no for every task but the first: a refused
move has then done nothing yet.

The tasks of a move are `Chore`s: what lies at `rest` below one place goes to `rest` below another,
or what is left at `rest` is cleared away.  `Move.Carrying` says of the chores left to do that each
of them finds its source and a free target whatever is done before it.  `Move.Smooth` covers the
rest: a directory that goes aside first, and the root, which goes aside for ever.
`Move.Smooth.step_ensures` is what a step keeps, and `Move.Smooth.run_ensures` what a run keeps.

All this is about trees whose paths can be handed to the operating system.  An entry whose path is
too long is found in its directory but not by its path, so the tasks before it are done and then the
move is refused (`Move.run_refused_late`, `move_refused_after_directories_were_made`).
-/

namespace Relocate

open Relocate.Path Work

/-- The error refuses a move: there is something at the target, or nothing at the source. -/
def Error.isRefusal : Error → Bool
  | targetExists _ => true
  | sourceNotFound _ => true
  | _ => false

theorem Error.isRefusal_of_isIo {e : Error} (h : e.isIo = true) : e.isRefusal = false := by
  cases e with
  | io path cause => rfl
  | _ => simp [isIo] at h

/-! ## Disks whose entries can be named -/

/-- What a place's path starts with names the places above it. -/
theorem Path.text_ofPlace_prefix {p q : Location} (h : p <+: q) :
    (ofPlace p).text.toList <+: (ofPlace q).text.toList := by
  obtain ⟨rest, rfl⟩ := h
  induction rest using List.reverseRecOn with
  | nil => simp
  | append_singleton rest name ih =>
    rw [← List.append_assoc]
    refine ih.trans ?_
    by_cases hnil : p ++ rest = []
    · rw [hnil, List.nil_append, toList_ofPlace_singleton]
      exact ⟨name.toList, by rw [toList_ofPlace]; rfl⟩
    · rw [toList_ofPlace_concat hnil]
      exact List.prefix_append _ _

namespace Disk

variable {d d' : Disk} {p q : Location}

theorem writable_iff : Writable p ↔
    '\x00' ∉ (ofPlace p).text.toList ∧ ¬ 4095 < (ofPlace p).text.utf8ByteSize := by
  unfold Writable checkText checkCharacters checkLength
  by_cases hnull : '\x00' ∈ (ofPlace p).text.toList
  · simp [hnull, Except.bind]
  · by_cases hlong : 4095 < (ofPlace p).text.utf8ByteSize
    · simp [hnull, hlong, Except.bind]
    · simp [hnull, hlong, Except.bind]

instance (p : Location) : Decidable (Writable p) := decidable_of_iff _ writable_iff.symm

theorem Writable.of_prefix (h : Writable q) (hpre : p <+: q) : Writable p := by
  rw [writable_iff] at h ⊢
  obtain ⟨tail, htail⟩ := text_ofPlace_prefix hpre
  refine ⟨fun hmem => h.1 (htail ▸ List.mem_append_left _ hmem), ?_⟩
  have htext : (ofPlace q).text = (ofPlace p).text ++ String.ofList tail := by
    rw [← String.toList_inj, String.toList_append, String.toList_ofList, htail]
  have hlength := h.2
  rw [htext, String.utf8ByteSize_append] at hlength
  omega

/-- The disk is a tree, and every entry has a path that can be handed to the operating system. -/
structure Walkable (d : Disk) : Prop extends d.IsTree where
  addressable : ∀ place, d.Holds place → Writable place

/-- Whether a disk is walkable can be read off its entries one by one. -/
theorem walkable_iff : d.Walkable ↔ d.IsTree ∧ ∀ item ∈ d.entries, Writable item.1 := by
  constructor
  · refine fun h => ⟨h.toIsTree, fun item hitem => h.addressable item.1 ⟨item.2, ?_⟩⟩
    exact (h.entry_eq_some_iff (h.listed _ _ hitem).1).2 hitem
  · rintro ⟨htree, hentries⟩
    refine ⟨htree, ?_⟩
    rintro place ⟨entry, he⟩
    by_cases hne : place = []
    · subst hne
      rfl
    · exact hentries (place, entry) ((htree.entry_eq_some_iff hne).1 he)

instance (d : Disk) : Decidable d.Walkable := decidable_of_iff _ walkable_iff.symm

theorem Walkable.contains_iff (h : d.Walkable) (hp : Plain p) :
    d.contains (ofPlace p) = true ↔ d.Holds p := by
  rw [h.contains_ofPlace hp]
  exact ⟨fun hthere => hthere.2, fun hthere => ⟨h.addressable p hthere, hthere⟩⟩

theorem holds_eraseTree (hne : p ≠ []) (q : Location) :
    (d.eraseTree p).Holds q ↔ ¬ p <+: q ∧ d.Holds q := by
  rw [Holds, entry_eraseTree hne]
  by_cases hpre : p <+: q
  · simp [hpre]
  · simp [hpre, Holds]

theorem apart_concat {name name' : String} (h : name ≠ name') (place : Location) :
    Apart (place ++ [name]) (place ++ [name']) := by
  simp [Apart, List.prefix_append_right_inj, h, h.symm]

/-- What lies below one of two places apart is apart from the other. -/
theorem Apart.below {r : Location} (h : Apart p q) (hpre : p <+: r) : Apart r q :=
  ⟨fun hpre' => h.1 (hpre.trans hpre'), h.symm.not_prefix hpre⟩

/-- Going to the first name in each directory, `rest` leads on from a place. -/
inductive FirstPath (d : Disk) : (place rest : Location) → Prop
  | last {place : Location} {name : String} {more : List String}
    (h : d.namesIn place = name :: more) : FirstPath d place [name]
  | step {place rest : Location} {name : String} {more : List String}
    (h : d.namesIn place = name :: more) (hrest : FirstPath d (place ++ [name]) rest) :
    FirstPath d place (name :: rest)

/-- The first path is the same on a disk that has one entry more, away from it. -/
theorem FirstPath.put {rest : Location} (h : FirstPath d q rest) (entry : Entry)
    (hfree : d.entries.lookup p = none) (hout : ¬ q <+: p) :
    FirstPath (d.put p entry) q rest := by
  induction h with
  | last h => exact .last ((namesIn_put_outside entry hfree hout).trans h)
  | step h _ ih =>
    refine .step ((namesIn_put_outside entry hfree hout).trans h) (ih fun hpre => hout ?_)
    exact (List.prefix_append _ _).trans hpre

end Disk

namespace Move

open Disk Session

variable {tools : Tools} {s : Session} {d d' : Disk} {a b A B T : Location} {added : List Task}

/-! ## What one task does -/

/-- What moving `a` to `b` does to the places that hold something, and the tasks that it adds. -/
inductive Moving (d : Disk) (a b : Location) : Disk → List Task → Prop
  | file {d' : Disk} (hout : ¬ a <+: b) (hwritable : Writable b)
    (hholds : ∀ q, d'.Holds q ↔ q <+: b ∨ q ≠ a ∧ d.Holds q) : Moving d a b d' []
  | expand {d' : Disk} (hout : ¬ a <+: b) (hwritable : Writable b)
    (hholds : ∀ q, d'.Holds q ↔ q <+: b ∨ d.Holds q) :
    Moving d a b d' (childTasks a b (d'.namesIn a) ++ [.remove (ofPlace a)])
  | detour {name : String} (hin : a <+: b) (hname : IsName name)
    (hfree : ¬ d.Holds (a.dropLast ++ [name])) :
    Moving d a b d (Task.byWayOf (ofPlace (a.dropLast ++ [name])) (ofPlace a) (ofPlace b))

/-- No place that is left out of the way to the target comes to hold something. -/
theorem Moving.holds_of_holds (h : Moving d a b d' added) {q : Location} (hq : d'.Holds q)
    (hout : ¬ q <+: b) : d.Holds q := by
  cases h with
  | file _ _ hholds => exact (((hholds q).1 hq).resolve_left hout).2
  | expand _ _ hholds => exact ((hholds q).1 hq).resolve_left hout
  | detour => exact hq

theorem Moving.walkable (h : Moving d a b d' added) (hdisk : d.Walkable) (htree : d'.IsTree) :
    d'.Walkable where
  toIsTree := htree
  addressable q hq := by
    by_cases hpre : q <+: b
    · cases h with
      | file _ hwritable _ => exact hwritable.of_prefix hpre
      | expand _ hwritable _ => exact hwritable.of_prefix hpre
      | detour => exact hdisk.addressable q hq
    · exact hdisk.addressable q (h.holds_of_holds hq hpre)

/-- A directory is made at the target and taken apart. -/
theorem step_expand_moving (hfiles : tools.files.Truthful) (htree : s.disk.IsTree) (ha : Plain a)
    (hb : Plain b) (hout : ¬ a <+: b) (p : Progress) :
    Ensures
      (do
        Session.ensureDir tools (ofPlace b)
        let children ← Session.readDir tools (ofPlace a)
        return { p with tasks := Task.ofDirectory (ofPlace a) (ofPlace b) children ++ p.tasks }) s
      (fun p' s' => s'.disk.IsTree ∧
        ∃ added, p'.tasks = added ++ p.tasks ∧ Moving s.disk a b s'.disk added)
      fun e _ => e.isRefusal = false := by
  refine ensures_bind (ensures_perform ?_ fun _ _ _ => rfl)
  intro d hmake
  have hmake' := hfiles.ensureDir _ _ _ _ hmake
  have hmade := htree.ensureDir_made hb
  rw [hmake'] at hmade
  have htree' := hmade.grown.tree
  have hwritable : Writable b := writable_of_ensureDir hb (by rw [hmake'])
  refine ensures_bind (ensures_inquire ?_ fun _ _ => rfl)
  intro children hread
  obtain ⟨-, hchildren⟩ := htree'.readDir_ofPlace ha (hfiles.readDir _ _ _ _ hread)
  have hnames : ∀ name ∈ d.namesIn a, IsName name := by
    intro name hname
    obtain ⟨entry, he⟩ := htree'.mem_namesIn.1 hname
    exact (htree'.plain he).last
  refine ensures_pure ⟨htree', _, ?_, .expand hout hwritable fun q => ?_⟩
  · rw [hchildren, ofDirectory_ofPlace ha hb hnames]
  · change (∃ entry, d.entry? q = some entry) ↔ _
    rw [hmade.grown.entry_eq (hmade.directory rfl)]
    by_cases hpre : q <+: b
    · simp [hpre]
    · simp [hpre, Holds]

/-- Whatever kind of entry there is at the source, no refusal comes once the two questions are
answered. -/
theorem step_begun_moving (hfiles : tools.files.Truthful) (hsteady : tools.files.Steady)
    (hnames : tools.HasPlainNames) (hdisk : s.disk.Walkable) (ha : Plain a) (hb : Plain b)
    (hthere : s.disk.Holds a) (hfree : ¬ s.disk.Holds b) (p : Progress) :
    Ensures
      (do
        if !(← Session.isDir tools (ofPlace a)) then
          return { p with report := ← moveFile tools (ofPlace a) (ofPlace b) p.report }
        if (ofPlace a).isInDir (ofPlace b) then
          let place ← temporaryPlace tools ((ofPlace a).parent?.getD Path.top) p.temporary attempts
          return { p with
            tasks := Task.byWayOf place (ofPlace a) (ofPlace b) ++ p.tasks
            temporary := place :: p.temporary }
        Session.ensureDir tools (ofPlace b)
        let children ← Session.readDir tools (ofPlace a)
        return { p with tasks := Task.ofDirectory (ofPlace a) (ofPlace b) children ++ p.tasks }) s
      (fun p' s' => s'.disk.IsTree ∧
        ∃ added, p'.tasks = added ++ p.tasks ∧ Moving s.disk a b s'.disk added)
      fun e _ => e.isRefusal = false := by
  have htree := hdisk.toIsTree
  obtain ⟨entry, hentry⟩ := hthere
  refine ensures_bind (ensures_bind (ensures_get (ensures_pure ?_)))
  rw [hfiles.isDir]
  cases entry with
  | file content =>
    have hfile : s.disk.isDir (ofPlace a) = false := by
      rw [Bool.eq_false_iff, ne_eq, htree.isDir_ofPlace ha, hentry]
      simp
    rw [hfile]
    have hne : b ≠ [] := by
      rintro rfl
      exact hfree ⟨.directory, entry_nil _⟩
    refine ensures_bind ((moveFile_shape hfiles hsteady htree hentry hb hne hfree _).mono ?_
      fun _ _ => Error.isRefusal_of_isIo)
    rintro report' s₁ ⟨htree₁, hwritable, hout, hholds⟩
    exact ensures_pure ⟨htree₁, [], rfl, .file hout hwritable hholds⟩
  | directory =>
    rw [(htree.isDir_ofPlace ha).2 ⟨hdisk.addressable a ⟨_, hentry⟩, hentry⟩]
    by_cases hpre : a <+: b
    · have hinside : (ofPlace a).isInDir (ofPlace b) = true := (isInDir_ofPlace ha hb).2 hpre
      have hplain := ha.of_prefix (List.dropLast_prefix a)
      rw [hinside, parent?_getD_ofPlace ha]
      refine ensures_bind ((temporaryPlace_fresh hnames hplain _ _).mono ?_ ?_)
      · rintro _ _ ⟨⟨k, rfl⟩, name, hname, rfl, hplace⟩
        refine ensures_pure ⟨htree, _, rfl, .detour hpre hname fun hholds => ?_⟩
        rw [hfiles.contains, (hdisk.contains_iff (hplain.concat hname)).2 hholds] at hplace
        simp at hplace
      · rintro _ _ ⟨-, rfl⟩
        rfl
    · have houtside : (ofPlace a).isInDir (ofPlace b) = false := by
        rw [Bool.eq_false_iff, ne_eq, isInDir_ofPlace ha hb]
        exact hpre
      rw [houtside]
      exact step_expand_moving hfiles htree ha hb hpre p

/-- **One move.**  It is refused only if there is something at the target or nothing at the source,
and then nothing has changed. -/
theorem step_move_moving (hfiles : tools.files.Truthful) (hsteady : tools.files.Steady)
    (hnames : tools.HasPlainNames) (hdisk : s.disk.Walkable) (ha : Plain a) (hb : Plain b)
    (p : Progress) :
    Ensures (step tools (.move (ofPlace a) (ofPlace b)) p) s
      (fun p' s' => a = b ∧ p'.tasks = p.tasks ∨
        s.disk.Holds a ∧ ¬ s.disk.Holds b ∧ s'.disk.IsTree ∧
          ∃ added, p'.tasks = added ++ p.tasks ∧ Moving s.disk a b s'.disk added)
      fun e s' => e.isRefusal = true → s' = s ∧ (s.disk.Holds b ∨ ¬ s.disk.Holds a) := by
  unfold step
  dsimp only
  split
  · rename_i hsame
    exact ensures_pure (.inl ⟨(ofPlace_beq ha hb).1 hsame, rfl⟩)
  refine ensures_bind (ensures_bind (ensures_get (ensures_pure ?_)))
  rw [hfiles.contains]
  split
  · rename_i hthere
    exact ensures_throw fun _ => ⟨rfl, .inl ((hdisk.contains_iff hb).1 hthere)⟩
  rename_i hfree
  rw [hdisk.contains_iff hb] at hfree
  refine ensures_bind (ensures_bind (ensures_get (ensures_pure ?_)))
  rw [hfiles.contains]
  split
  · rename_i hmissing
    refine ensures_throw fun _ => ⟨rfl, .inr ?_⟩
    rw [← hdisk.contains_iff ha]
    simpa using hmissing
  rename_i hfound
  have hthere : s.disk.Holds a := by
    rw [← hdisk.contains_iff ha]
    simpa using hfound
  refine (step_begun_moving hfiles hsteady hnames hdisk ha hb hthere hfree p).mono ?_ ?_
  · exact fun _ _ h => .inr ⟨hthere, hfree, h⟩
  · intro e _ he hrefusal
    simp [he] at hrefusal

/-- A move of what is there to a free place is not refused. -/
theorem step_ready_moving (hfiles : tools.files.Truthful) (hsteady : tools.files.Steady)
    (hnames : tools.HasPlainNames) (hdisk : s.disk.Walkable) (hb : Plain b)
    (hthere : s.disk.Holds a) (hfree : ¬ s.disk.Holds b) (p : Progress) :
    Ensures (step tools (.move (ofPlace a) (ofPlace b)) p) s
      (fun p' s' => s'.disk.IsTree ∧
        ∃ added, p'.tasks = added ++ p.tasks ∧ Moving s.disk a b s'.disk added)
      fun e _ => e.isRefusal = false := by
  have ha : Plain a := by
    obtain ⟨entry, he⟩ := hthere
    exact hdisk.plain he
  refine (step_move_moving hfiles hsteady hnames hdisk ha hb p).mono ?_ ?_
  · rintro p' s' (⟨rfl, -⟩ | ⟨-, -, hmoving⟩)
    · exact absurd hthere hfree
    · exact hmoving
  · intro e s' hrefused
    rw [Bool.eq_false_iff]
    intro he
    rcases (hrefused he).2 with hholds | hmissing
    · exact hfree hholds
    · exact hmissing hthere

theorem step_remove_clears (hfiles : tools.files.Truthful) (htree : s.disk.IsTree) (ha : Plain a)
    (hne : a ≠ []) (p : Progress) :
    Ensures (step tools (.remove (ofPlace a)) p) s
      (fun p' s' => p' = p ∧ s'.disk = s.disk.eraseTree a) fun e _ => e.isRefusal = false := by
  refine ensures_bind (ensures_perform ?_ fun _ _ _ => rfl)
  intro d hremove
  have hremove' := hfiles.removeTree _ _ _ _ hremove
  refine ensures_pure ⟨rfl, ?_⟩
  rcases htree.removeTree_ofPlace ha hne with ⟨cause, hplain⟩ | hplain
  · rw [hplain] at hremove'
    simp at hremove'
  · rw [hplain] at hremove'
    exact (congrArg Prod.snd hremove').symm

/-! ## Chores -/

/-- What is to be done to carry one place to another: to carry over what lies at `rest` below it,
or to clear away what is left there. -/
inductive Chore where
  | carry (rest : Location)
  | clear (rest : Location)

/-- The task that a chore is. -/
def Chore.task (A B : Location) : Chore → Task
  | carry rest => .move (ofPlace (A ++ rest)) (ofPlace (B ++ rest))
  | clear rest => .remove (ofPlace (A ++ rest))

/-- A chore can be done before another one, whose source and target it spares. -/
def Chore.Spares : Chore → Chore → Prop
  | carry rest, carry rest' => Apart rest rest'
  | clear rest, carry rest' => ¬ rest <+: rest'
  | _, clear _ => True

/-- The chores left to carry `A` to `B`: what is to be carried is there, its place is free, and no
chore gets in the way of a later one. -/
structure Carrying (d : Disk) (A B : Location) (chores : List Chore) : Prop where
  source : Plain A
  target : Plain B
  apart : Apart A B
  ready : ∀ rest, .carry rest ∈ chores → d.Holds (A ++ rest) ∧ ¬ d.Holds (B ++ rest)
  plain : ∀ rest, .clear rest ∈ chores → Plain rest
  spared : chores.Pairwise Chore.Spares

variable {chore : Chore} {chores : List Chore}

theorem Carrying.ne_nil (h : Carrying d A B chores) (rest : Location) : A ++ rest ≠ [] := by
  intro hnil
  exact h.apart.1 ((List.append_eq_nil_iff.1 hnil).1 ▸ List.nil_prefix)

theorem Carrying.single (htree : d.IsTree) (hB : Plain B) (hapart : Apart A B)
    (hthere : d.Holds A) (hfree : ¬ d.Holds B) : Carrying d A B [.carry []] where
  source := by
    obtain ⟨entry, he⟩ := hthere
    exact htree.plain he
  target := hB
  apart := hapart
  ready rest hmem := by
    obtain rfl : rest = [] := by simpa using hmem
    rw [List.append_nil, List.append_nil]
    exact ⟨hthere, hfree⟩
  plain rest hmem := by simp at hmem
  spared := List.pairwise_singleton _ _

/-- The later chores can still be done when what they need was spared. -/
theorem Carrying.later (h : Carrying d A B (chore :: chores))
    (hthere : ∀ rest, chore.Spares (.carry rest) → d.Holds (A ++ rest) → d'.Holds (A ++ rest))
    (hfree : ∀ rest, chore.Spares (.carry rest) → d'.Holds (B ++ rest) → d.Holds (B ++ rest)) :
    Carrying d' A B chores where
  source := h.source
  target := h.target
  apart := h.apart
  ready rest hmem := by
    have hspared := List.rel_of_pairwise_cons h.spared hmem
    obtain ⟨hholds, hnot⟩ := h.ready rest (List.mem_cons_of_mem _ hmem)
    exact ⟨hthere rest hspared hholds, fun hholds' => hnot (hfree rest hspared hholds')⟩
  plain rest hmem := h.plain rest (List.mem_cons_of_mem _ hmem)
  spared := h.spared.tail

theorem Carrying.clear {rest : Location} (h : Carrying d A B (.clear rest :: chores)) :
    Carrying (d.eraseTree (A ++ rest)) A B chores := by
  have herased := holds_eraseTree (d := d) (h.ne_nil rest)
  refine h.later (fun rest' hspared hholds => ?_) fun rest' _ hholds => ((herased _).1 hholds).2
  refine (herased _).2 ⟨fun hpre => hspared ?_, hholds⟩
  exact (List.prefix_append_right_inj A).1 hpre

/-! ## Doing one chore -/

/-- The chores that carry over the named children of what lies at `rest`, and clear it away. -/
def childChores (rest : Location) (names : List String) : List Chore :=
  names.map (fun name => .carry (rest ++ [name])) ++ [.clear rest]

theorem map_task_childChores (A B rest : Location) (names : List String) :
    (childChores rest names).map (Chore.task A B) =
      childTasks (A ++ rest) (B ++ rest) names ++ [.remove (ofPlace (A ++ rest))] := by
  simp [childChores, childTasks, Chore.task, Function.comp_def]

theorem Carrying.file {rest : Location} (h : Carrying d A B (.carry rest :: chores))
    (hholds : ∀ q, d'.Holds q ↔ q <+: B ++ rest ∨ q ≠ A ++ rest ∧ d.Holds q) :
    Carrying d' A B chores := by
  refine h.later (fun rest' hspared hthere => ?_) fun rest' hspared hthere => ?_
  · refine (hholds _).2 (.inr ⟨fun heq => hspared.2 ?_, hthere⟩)
    exact List.append_cancel_left heq ▸ List.prefix_refl rest
  · refine (((hholds _).1 hthere).resolve_left fun hpre => hspared.2 ?_).2
    exact (List.prefix_append_right_inj B).1 hpre

/-- Two children are apart, and so are a child and what is apart from its directory: the chores of a
directory can stand in its place before the later ones. -/
theorem pairwise_spares_childChores {rest : Location} {names : List String} (hnodup : names.Nodup)
    (hspared : (Chore.carry rest :: chores).Pairwise Chore.Spares) :
    (childChores rest names ++ chores).Pairwise Chore.Spares := by
  obtain ⟨hrest, hlater⟩ := List.pairwise_cons.1 hspared
  rw [childChores, List.append_assoc, List.pairwise_append]
  refine ⟨?_, ?_, ?_⟩
  · rw [List.pairwise_map]
    refine hnodup.imp ?_
    intro name name' hne
    exact apart_concat hne rest
  · refine List.pairwise_cons.2 ⟨fun chore' hmem => ?_, hlater⟩
    cases chore' with
    | carry rest' => exact (hrest _ hmem).1
    | clear rest' => trivial
  · intro chore hmem chore' hmem'
    obtain ⟨name, -, rfl⟩ := List.mem_map.1 hmem
    rcases List.mem_cons.1 hmem' with rfl | hmem'
    · trivial
    · cases chore' with
      | carry rest' => exact (hrest _ hmem').below (List.prefix_append _ _)
      | clear rest' => trivial

/-- Taking a directory apart leaves chores that can be done: its children are there and apart from
each other, and nothing is at the places that they go to. -/
theorem Carrying.expand {rest : Location} (htree : d.IsTree) (htree' : d'.IsTree)
    (h : Carrying d A B (.carry rest :: chores))
    (hholds : ∀ q, d'.Holds q ↔ q <+: B ++ rest ∨ d.Holds q) :
    Carrying d' A B (childChores rest (d'.namesIn (A ++ rest)) ++ chores) := by
  have hlater : Carrying d' A B chores := by
    refine h.later (fun _ _ hthere => (hholds _).2 (.inr hthere)) fun rest' hspared hthere => ?_
    refine ((hholds _).1 hthere).resolve_left fun hpre => hspared.2 ?_
    exact (List.prefix_append_right_inj B).1 hpre
  obtain ⟨hthere, hfree⟩ := h.ready rest List.mem_cons_self
  have hchild : ∀ name, ¬ d'.Holds (B ++ (rest ++ [name])) := by
    intro name hchild
    rw [hholds, ← List.append_assoc] at hchild
    rcases hchild with hpre | hchild
    · exact concat_not_below _ _ hpre
    · exact hfree (htree.holds_of_prefix hchild (List.prefix_append _ _))
  have hplain : Plain rest := by
    obtain ⟨entry, he⟩ := hthere
    exact (htree.plain he).right
  refine ⟨h.source, h.target, h.apart, ?_, ?_,
    pairwise_spares_childChores (htree'.nodup_namesIn _) h.spared⟩
  · intro rest' hmem
    rcases List.mem_append.1 hmem with hmem | hmem
    · obtain ⟨name, hname, rfl⟩ : ∃ name ∈ d'.namesIn (A ++ rest), rest ++ [name] = rest' := by
        simpa [childChores] using hmem
      rw [htree'.mem_namesIn, List.append_assoc] at hname
      exact ⟨hname, hchild name⟩
    · exact hlater.ready rest' hmem
  · intro rest' hmem
    rcases List.mem_append.1 hmem with hmem | hmem
    · obtain rfl : rest' = rest := by simpa [childChores] using hmem
      exact hplain
    · exact hlater.plain rest' hmem

/-- What doing a chore comes to: the new chores and the later ones are left, nothing came to be
away from the target, and there is something at the target. -/
structure Carried (d : Disk) (A B : Location) (chore : Chore) (chores new : List Chore)
    (d' : Disk) : Prop where
  disk : d'.Walkable
  carrying : Carrying d' A B (new ++ chores)
  away : ∀ q, Apart B q → d'.Holds q → d.Holds q
  there : d.Holds B ∨ (∃ rest, chore = .carry rest) → d'.Holds B

theorem Carrying.moving {rest : Location} (hdisk : d.Walkable) (htree : d'.IsTree)
    (h : Carrying d A B (.carry rest :: chores))
    (hmoving : Moving d (A ++ rest) (B ++ rest) d' added) :
    ∃ new, added = new.map (Chore.task A B) ∧ Carried d A B (.carry rest) chores new d' := by
  have hwalkable := hmoving.walkable hdisk htree
  have haway : ∀ q, Apart B q → d'.Holds q → d.Holds q := by
    intro q hapart hq
    exact hmoving.holds_of_holds hq (hapart.symm.not_prefix (List.prefix_append B rest))
  cases hmoving with
  | file hout hwritable hholds =>
    refine ⟨[], rfl, hwalkable, h.file hholds, haway, fun _ => ?_⟩
    exact (hholds B).2 (.inl (List.prefix_append B rest))
  | expand hout hwritable hholds =>
    refine ⟨_, (map_task_childChores A B rest _).symm, hwalkable,
      h.expand hdisk.toIsTree htree hholds, haway, fun _ => ?_⟩
    exact (hholds B).2 (.inl (List.prefix_append B rest))
  | detour hin =>
    have hpre := (List.prefix_append A rest).trans hin
    exact absurd hpre (h.apart.not_prefix (List.prefix_append B rest))

theorem Carrying.step_ensures (hfiles : tools.files.Truthful) (hsteady : tools.files.Steady)
    (hnames : tools.HasPlainNames) (hdisk : s.disk.Walkable)
    (h : Carrying s.disk A B (chore :: chores)) (p : Progress) :
    Ensures (step tools (chore.task A B) p) s
      (fun p' s' => ∃ new, p'.tasks = new.map (Chore.task A B) ++ p.tasks ∧
        Carried s.disk A B chore chores new s'.disk)
      fun e _ => e.isRefusal = false := by
  cases chore with
  | carry rest =>
    obtain ⟨hthere, hfree⟩ := h.ready rest List.mem_cons_self
    have hplain : Plain (A ++ rest) := by
      obtain ⟨entry, he⟩ := hthere
      exact hdisk.plain he
    refine (step_ready_moving hfiles hsteady hnames hdisk (h.target.append hplain.right) hthere
      hfree p).mono ?_ fun _ _ he => he
    rintro p' s' ⟨htree, added, htasks, hmoving⟩
    obtain ⟨new, rfl, hcarried⟩ := h.moving hdisk htree hmoving
    exact ⟨new, htasks, hcarried⟩
  | clear rest =>
    have hplain := h.source.append (h.plain rest List.mem_cons_self)
    refine (step_remove_clears hfiles hdisk.toIsTree hplain (h.ne_nil rest) p).mono ?_
      fun _ _ he => he
    rintro _ s' ⟨rfl, hd⟩
    have hless : ∀ q, s'.disk.Holds q → s.disk.Holds q := by
      intro q hq
      rw [hd] at hq
      exact ((holds_eraseTree (h.ne_nil rest) q).1 hq).2
    refine ⟨[], rfl, ⟨?_, ?_⟩, ?_, fun q _ => hless q, ?_⟩
    · rw [hd]
      exact hdisk.toIsTree.eraseTree _
    · exact fun q hq => hdisk.addressable q (hless q hq)
    · rw [hd]
      exact h.clear
    · rintro (hthere | ⟨rest', heq⟩)
      · rw [hd]
        refine (holds_eraseTree (h.ne_nil rest) B).2 ⟨fun hpre => h.apart.1 ?_, hthere⟩
        exact (List.prefix_append A rest).trans hpre
      · simp at heq

/-! ## A whole run -/

/-- The tasks left to do, none of which will be refused: one place is carried to the target, or it
is carried aside first, or the root is to go into itself. -/
inductive Smooth (d : Disk) (T : Location) : List Task → Prop
  | carrying {A : Location} {chores : List Chore} (h : Carrying d A T chores) :
    Smooth d T (chores.map (Chore.task A T))
  | aside {A B : Location} {chores : List Chore} (h : Carrying d A B chores)
    (hthere : d.Holds B ∨ chores = [.carry []]) (hapart : Apart B T) (hT : Plain T)
    (hfree : ¬ d.Holds T) :
    Smooth d T (chores.map (Chore.task A B) ++ [.move (ofPlace B) (ofPlace T)])
  | endless {C : Location} {tasks : List Task} (hC : Plain C) (hfree : ¬ d.Holds C) :
    Smooth d T (.move (ofPlace []) (ofPlace C) :: tasks)

/-- A move that was not refused goes on smoothly after its first step. -/
theorem Moving.smooth (hdisk : d.Walkable) (htree : d'.IsTree) (ha : Plain a) (hb : Plain b)
    (hthere : d.Holds a) (hfree : ¬ d.Holds b) (h : Moving d a b d' added) :
    Smooth d' b added := by
  by_cases hin : a <+: b
  · cases h with
    | file hout => exact absurd hin hout
    | expand hout => exact absurd hin hout
    | @detour name _ hname hname' =>
      obtain rfl | ⟨above, last, rfl⟩ := List.eq_nil_or_concat' a
      · exact .endless (Plain.nil.concat hname) hname'
      · rw [List.dropLast_concat] at hname' ⊢
        have hne : last ≠ name := by
          rintro rfl
          exact hname' hthere
        have hapart := apart_concat hne above
        have hplain : Plain (above ++ [name]) := ha.left.concat hname
        have haside := Smooth.aside (.single htree hplain hapart hthere hname') (.inr rfl)
          (hapart.below hin).symm hb hfree
        simpa [Chore.task, Task.byWayOf] using haside
  · have hapart : Apart a b := ⟨hin, fun hpre => hfree (hdisk.holds_of_prefix hthere hpre)⟩
    have hsingle := Carrying.single hdisk.toIsTree hb hapart hthere hfree
    obtain ⟨new, rfl, hcarried⟩ := hsingle.moving hdisk htree (by simpa using h)
    have hcarrying := hcarried.carrying
    rw [List.append_nil] at hcarrying
    exact .carrying hcarrying

/-- Nothing stops the root from going aside but the end of the names or of the fuel. -/
theorem step_endless_ensures (hfiles : tools.files.Truthful) (hsteady : tools.files.Steady)
    (hnames : tools.HasPlainNames) (hdisk : s.disk.Walkable) {C : Location} (hC : Plain C)
    (hfree : ¬ s.disk.Holds C) (p : Progress) :
    Ensures (step tools (.move (ofPlace []) (ofPlace C)) p) s
      (fun p' s' => s'.disk.Walkable ∧ Smooth s'.disk T p'.tasks)
      fun e _ => e.isRefusal = false := by
  have hthere : s.disk.Holds [] := ⟨.directory, entry_nil _⟩
  refine (step_ready_moving hfiles hsteady hnames hdisk hC hthere hfree p).mono ?_
    fun _ _ he => he
  rintro p' s' ⟨htree, added, htasks, hmoving⟩
  refine ⟨hmoving.walkable hdisk htree, ?_⟩
  rw [htasks]
  generalize s'.disk = d' at hmoving ⊢
  cases hmoving with
  | file hout => exact absurd List.nil_prefix hout
  | expand hout => exact absurd List.nil_prefix hout
  | detour _ hname hname' => exact .endless (Plain.nil.concat hname) hname'

/-- Carrying on to the target goes on smoothly, from wherever it is. -/
theorem Carrying.step_smooth (hfiles : tools.files.Truthful) (hsteady : tools.files.Steady)
    (hnames : tools.HasPlainNames) (hdisk : s.disk.Walkable) {task : Task} {p : Progress}
    (h : Carrying s.disk A T chores) (hall : chores.map (Chore.task A T) = task :: p.tasks) :
    Ensures (step tools task p) s
      (fun p' s' => s'.disk.Walkable ∧ Smooth s'.disk T p'.tasks)
      fun e _ => e.isRefusal = false := by
  cases chores with
  | nil => simp at hall
  | cons chore chores =>
    obtain ⟨rfl, htasks⟩ := List.cons.inj hall
    refine (h.step_ensures hfiles hsteady hnames hdisk p).mono ?_ fun _ _ he => he
    rintro p' s' ⟨new, hnew, hcarried⟩
    refine ⟨hcarried.disk, ?_⟩
    rw [hnew, ← htasks, ← List.map_append]
    exact .carrying hcarried.carrying

/-- **One step** of a move that goes on smoothly is not refused, and the move goes on smoothly. -/
theorem Smooth.step_ensures (hfiles : tools.files.Truthful) (hsteady : tools.files.Steady)
    (hnames : tools.HasPlainNames) (hdisk : s.disk.Walkable) {task : Task} {p : Progress}
    (h : Smooth s.disk T (task :: p.tasks)) :
    Ensures (step tools task p) s
      (fun p' s' => s'.disk.Walkable ∧ Smooth s'.disk T p'.tasks)
      fun e _ => e.isRefusal = false := by
  generalize hall : task :: p.tasks = all at h
  cases h with
  | carrying hcarrying =>
    exact hcarrying.step_smooth hfiles hsteady hnames hdisk hall.symm
  | @aside A B chores hcarrying hthere hapart hT hfree =>
    cases chores with
    | nil =>
      -- the directory is aside, and what is left is to carry it to the target
      have hholds : s.disk.Holds B := hthere.resolve_right (by simp)
      refine (Carrying.single hdisk.toIsTree hT hapart hholds hfree).step_smooth hfiles hsteady
        hnames hdisk ?_
      rw [hall]
      simp [Chore.task]
    | cons chore chores =>
      rw [List.map_cons, List.cons_append] at hall
      obtain ⟨rfl, htasks⟩ := List.cons.inj hall
      refine (hcarrying.step_ensures hfiles hsteady hnames hdisk p).mono ?_ fun _ _ he => he
      rintro p' s' ⟨new, hnew, hcarried⟩
      refine ⟨hcarried.disk, ?_⟩
      have hthere' : s'.disk.Holds B := by
        refine hcarried.there (hthere.imp_right fun heq => ?_)
        exact ⟨[], (List.cons.inj heq).1⟩
      rw [hnew, htasks, ← List.append_assoc, ← List.map_append]
      exact .aside hcarried.carrying (.inl hthere') hapart hT fun hholds =>
        hfree (hcarried.away T hapart hholds)
  | endless hC hfree =>
    obtain ⟨rfl, -⟩ := List.cons.inj hall
    exact step_endless_ensures hfiles hsteady hnames hdisk hC hfree p

/-- **A run** that starts smoothly is not refused at any task. -/
theorem Smooth.run_ensures (hfiles : tools.files.Truthful) (hsteady : tools.files.Steady)
    (hnames : tools.HasPlainNames) (fuel : Nat) {p : Progress} (hdisk : s.disk.Walkable)
    (h : Smooth s.disk T p.tasks) :
    Ensures (run tools fuel p) s (fun _ _ => True) fun e _ => e.isRefusal = false := by
  induction fuel generalizing p s with
  | zero =>
    rw [run]
    split
    · exact ensures_pure trivial
    · exact ensures_throw rfl
  | succ fuel ih =>
    cases htasks : p.tasks with
    | nil => exact ensures_run_nil (fuel + 1) htasks trivial
    | cons task tasks =>
      rw [run, htasks]
      rw [htasks] at h
      refine ensures_bind ((Smooth.step_ensures hfiles hsteady hnames hdisk h).mono ?_
        fun _ _ he => he)
      rintro p' s' ⟨hdisk', hsmooth⟩
      exact ih hdisk' hsmooth

/-- The first step of a move changes nothing if it is refused, and otherwise no later one is. -/
theorem first_step_ensures (hfiles : tools.files.Truthful) (hsteady : tools.files.Steady)
    (hnames : tools.HasPlainNames) (hdisk : s.disk.Walkable) (ha : Plain a) (hb : Plain b)
    {p : Progress} (hp : p.tasks = []) :
    Ensures (step tools (.move (ofPlace a) (ofPlace b)) p) s
      (fun p₁ s₁ => ∀ fuel, Ensures (run tools fuel p₁) s₁ (fun _ _ => True)
        fun e _ => e.isRefusal = false)
      fun e s' => e.isRefusal = true → s' = s := by
  refine (step_move_moving hfiles hsteady hnames hdisk ha hb p).mono ?_
    fun _ _ hrefused he => (hrefused he).1
  rintro p₁ s₁ (⟨-, htasks⟩ | ⟨hthere, hfree, htree, added, htasks, hmoving⟩) fuel
  · exact ensures_run_nil fuel (htasks.trans hp) trivial
  · refine Smooth.run_ensures (T := b) hfiles hsteady hnames fuel (hmoving.walkable hdisk htree) ?_
    rw [htasks, hp, List.append_nil]
    exact hmoving.smooth hdisk htree ha hb hthere hfree

/-! ## Late refusals -/

/-- A move of a directory to a free place makes the directory there and goes on with what the first
one holds. -/
theorem step_expand_plain (htools : tools.files = .plain) (htree : s.disk.IsTree) {above : Location}
    {last name : String} {more : List String} (ha : s.disk.entry? a = some .directory)
    (hsource : Writable a) (htarget : Writable (above ++ [last])) (hlast : IsEntryName last)
    (habove : s.disk.entry? above = some .directory)
    (hfree : s.disk.entry? (above ++ [last]) = none) (hout : ¬ a <+: above ++ [last])
    (hfirst : s.disk.namesIn a = name :: more) (p : Progress) :
    Ensures (step tools (.move (ofPlace a) (ofPlace (above ++ [last]))) p) s
      (fun p' s' => s'.disk = s.disk.put (above ++ [last]) .directory ∧
        ∃ tasks, p'.tasks =
          .move (ofPlace (a ++ [name])) (ofPlace (above ++ [last] ++ [name])) :: tasks)
      fun _ _ => False := by
  have hfiles : tools.files.Truthful := htools ▸ FileSystem.plain_truthful
  have hplain := htree.plain ha
  have hb : Plain (above ++ [last]) := (htree.plain habove).concat hlast.toIsName
  have hsame : ¬ ((ofPlace a) == (ofPlace (above ++ [last]))) = true := by
    rw [ofPlace_beq hplain hb]
    rintro rfl
    exact hout (List.prefix_refl _)
  have htaken : s.disk.contains (ofPlace (above ++ [last])) = false := by
    rw [Bool.eq_false_iff, ne_eq, htree.contains_ofPlace hb]
    simp [hfree]
  have hthere : s.disk.contains (ofPlace a) = true :=
    (htree.contains_ofPlace hplain).2 ⟨hsource, _, ha⟩
  have hdir : s.disk.isDir (ofPlace a) = true := (htree.isDir_ofPlace hplain).2 ⟨hsource, ha⟩
  have houtside : (ofPlace a).isInDir (ofPlace (above ++ [last])) = false := by
    rw [Bool.eq_false_iff, ne_eq, isInDir_ofPlace hplain hb]
    exact hout
  have hmake : ∀ clock, tools.files.ensureDir clock s.disk (ofPlace (above ++ [last])) =
      (.ok (), s.disk.put (above ++ [last]) .directory) := by
    intro clock
    rw [htools]
    exact htree.ensureDir_free hb htarget hlast.short habove hfree
  have hmade := (htree.ensureDir_made hb).grown
  rw [htree.ensureDir_free hb htarget hlast.short habove hfree] at hmade
  have hlist : ∀ clock, tools.files.readDir clock (s.disk.put (above ++ [last]) .directory)
      (ofPlace a) = .ok ((name :: more).map fun name => ofPlace (a ++ [name])) := by
    intro clock
    have hstill : Disk.entry? (s.disk.put (above ++ [last]) .directory) a = some .directory := by
      rw [entry_put (by simp), if_neg (by rintro rfl; simp [hfree] at ha), ha]
    rw [htools, ← hfirst, ← namesIn_put_outside .directory
      ((entry_of_ne_nil (by simp)).symm.trans hfree) hout]
    exact hmade.tree.readDir_directory hsource hstill
  have hnames : ∀ n ∈ name :: more, IsName n := fun n hn =>
    htree.isName_of_mem_namesIn (hfirst ▸ hn)
  unfold step
  dsimp only
  rw [if_neg hsame]
  refine ensures_bind (ensures_bind (ensures_get (ensures_pure ?_)))
  rw [hfiles.contains, if_neg (by simp [htaken])]
  refine ensures_bind (ensures_bind (ensures_get (ensures_pure ?_)))
  rw [hfiles.contains, if_neg (by simp [hthere])]
  refine ensures_bind (ensures_bind (ensures_get (ensures_pure ?_)))
  rw [hfiles.isDir, if_neg (by simp [hdir]), if_neg (by simp [houtside])]
  refine ensures_bind (ensures_perform ?_ fun _ _ h => by simp [hmake] at h)
  intro d hd
  obtain rfl : _ = d := (Prod.mk.inj ((hmake _).symm.trans hd)).2
  refine ensures_bind (ensures_inquire ?_ fun _ h => by simp [hlist] at h)
  intro children hchildren
  obtain rfl : _ = children := Except.ok.inj ((hlist _).symm.trans hchildren)
  rw [ofDirectory_ofPlace hplain hb hnames]
  exact ensures_pure ⟨rfl, _, rfl⟩

/-- What lies at a path that cannot be handed to the operating system is not found. -/
theorem step_source_missing (hfiles : tools.files.Truthful) (htree : s.disk.IsTree) (ha : Plain a)
    (hb : Plain b) (hne : a ≠ b) (hbeyond : ¬ Writable a) (hfree : s.disk.entry? b = none)
    (p : Progress) :
    Ensures (step tools (.move (ofPlace a) (ofPlace b)) p) s (fun _ _ => False)
      fun e s' => e = .sourceNotFound (ofPlace a) ∧ s' = s := by
  have hmissing : s.disk.contains (ofPlace a) = false := by
    rw [Bool.eq_false_iff, ne_eq, htree.contains_ofPlace ha]
    exact fun h => hbeyond h.1
  have htaken : s.disk.contains (ofPlace b) = false := by
    rw [Bool.eq_false_iff, ne_eq, htree.contains_ofPlace hb]
    simp [hfree]
  unfold step
  dsimp only
  rw [if_neg (by rw [ofPlace_beq ha hb]; exact hne)]
  refine ensures_bind (ensures_bind (ensures_get (ensures_pure ?_)))
  rw [hfiles.contains, if_neg (by simp [htaken])]
  refine ensures_bind (ensures_bind (ensures_get (ensures_pure ?_)))
  rw [hfiles.contains, if_pos (by simp [hmissing])]
  exact ensures_throw ⟨rfl, rfl⟩

/-- **A late refusal.**  The first path below a directory leads to an entry whose path cannot be
handed to the operating system.  When the directory is moved, everything on the way there is made at
the target first, and then the entry is said not to be there.  The induction is on the first
path. -/
theorem run_refused_late (htools : tools.files = .plain) (htree : s.disk.IsTree)
    (hfirst : FirstPath s.disk a rest) (hthere : Writable (a ++ rest.dropLast))
    (hbeyond : ¬ Writable (a ++ rest)) {above : Location} {last : String}
    (htarget : Writable (above ++ [last] ++ rest.dropLast)) (hlast : IsEntryName last)
    (habove : s.disk.entry? above = some .directory)
    (hfree : s.disk.entry? (above ++ [last]) = none) (hapart : Apart a (above ++ [last]))
    {fuel : Nat} (hfuel : rest.length < fuel) {p : Progress} {tasks : List Task}
    (hp : p.tasks = .move (ofPlace a) (ofPlace (above ++ [last])) :: tasks) :
    Ensures (run tools fuel p) s (fun _ _ => False) fun e s' =>
      e = .sourceNotFound (ofPlace (a ++ rest)) ∧ s'.disk.IsTree ∧
        s'.disk.entry? (above ++ [last] ++ rest.dropLast) = some .directory := by
  have hfiles : tools.files.Truthful := htools ▸ FileSystem.plain_truthful
  induction rest generalizing s a above last fuel p tasks with
  | nil => cases hfirst
  | cons name rest ih =>
    obtain ⟨fuel, rfl⟩ : ∃ left, fuel = left + 1 := ⟨fuel - 1, by omega⟩
    obtain ⟨more, hnames⟩ : ∃ more, s.disk.namesIn a = name :: more := by
      cases hfirst with
      | last h => exact ⟨_, h⟩
      | step h _ => exact ⟨_, h⟩
    obtain ⟨entry, hentry⟩ := htree.mem_namesIn.1 (hnames ▸ List.mem_cons_self : name ∈ _)
    have ha : s.disk.entry? a = some .directory := by simpa using htree.parent hentry
    have hb : Plain (above ++ [last]) := (htree.plain habove).concat hlast.toIsName
    have hmade := (htree.ensureDir_made hb).grown
    rw [htree.ensureDir_free hb (htarget.of_prefix (List.prefix_append _ _)) hlast.short habove
      hfree] at hmade
    rw [run, hp]
    refine ensures_bind ((step_expand_plain htools htree ha
      (hthere.of_prefix (List.prefix_append _ _)) (htarget.of_prefix (List.prefix_append _ _)) hlast
      habove hfree hapart.1 hnames _).mono ?_ fun _ _ h => h.elim)
    rintro p' s' ⟨hdisk, tasks', htasks⟩
    have htree' : s'.disk.IsTree := hdisk ▸ hmade.tree
    have hdir : s'.disk.entry? (above ++ [last]) = some .directory := by
      rw [hdisk, entry_put (by simp), if_pos rfl]
    have hname := htree.entryName hentry name (by simp)
    have hchild : s'.disk.entry? (above ++ [last] ++ [name]) = none := by
      rw [hdisk, entry_put (by simp), if_neg (by simp)]
      exact htree.none_of_prefix hfree (List.prefix_append _ _)
    have hapart' : Apart (a ++ [name]) (above ++ [last] ++ [name]) := hapart.append [name]
    cases rest with
    | nil =>
      obtain ⟨fuel, rfl⟩ : ∃ left, fuel = left + 1 := ⟨fuel - 1, by simp at hfuel; omega⟩
      rw [run, htasks]
      refine ensures_bind ((step_source_missing hfiles htree' (htree.plain hentry)
        (hb.concat hname.toIsName) (fun h => hapart'.1 (h ▸ List.prefix_refl _)) hbeyond hchild
        _).mono (fun _ _ h => h.elim) ?_)
      rintro e s'' ⟨rfl, rfl⟩
      exact ⟨rfl, htree', by simpa using hdir⟩
    | cons next rest =>
      have hfirst' : FirstPath s'.disk (a ++ [name]) (next :: rest) := by
        cases hfirst with
        | step _ h =>
          rw [hdisk]
          refine h.put .directory ((entry_of_ne_nil (by simp)).symm.trans hfree) fun hpre => ?_
          exact hapart.1 ((List.prefix_append _ _).trans hpre)
      have hmid : ∀ front : Location,
          front ++ (name :: next :: rest).dropLast =
            front ++ [name] ++ (next :: rest).dropLast := by
        intro front
        simp
      have hend : a ++ name :: next :: rest = a ++ [name] ++ next :: rest := by simp
      rw [hmid] at hthere htarget
      rw [hend] at hbeyond ⊢
      rw [hmid]
      exact ih htree' hfirst' hthere hbeyond htarget hname hdir hchild hapart'
        (by simp only [List.length_cons] at hfuel ⊢; omega) htasks

end Move

/-- **Refused moves change nothing.**  If a move ends with the answer that its target exists or that
its source does not, the session is what it was, with its disk and its index.  The reason is that
only the first task of a move can be refused: once it is done, a run of what it leaves to do ends in
no such answer, however long it goes on.  This holds of every session on a tree of files whose
paths can be handed to the operating system. -/
theorem refused_move_changes_nothing {tools : Tools} {s : Session}
    (hfiles : tools.files.Truthful) (hsteady : tools.files.Steady)
    (hnames : tools.HasPlainNames) (hdisk : s.disk.Walkable) (hroot : s.root.isAbsolute = true)
    (source target : Path) :
    (∀ e s', (Move.move tools source target).run.run s = (.error e, s') → e.isRefusal = true →
      s' = s) ∧
    ∀ p₁ s₁, (Move.step tools (.move (s.root.absolutize source) (s.root.absolutize target))
        { tasks := [] }).run.run s = (.ok p₁, s₁) →
      ∀ fuel e s', (Move.run tools fuel p₁).run.run s₁ = (.error e, s') → e.isRefusal = false := by
  obtain ⟨hsource, ha⟩ := absolutize_eq_ofPlace hroot source
  obtain ⟨htarget, hb⟩ := absolutize_eq_ofPlace hroot target
  have hfirst := fun p hp => Move.first_step_ensures hfiles hsteady hnames hdisk ha hb (p := p) hp
  rw [← hsource, ← htarget] at hfirst
  constructor
  · intro e s' hrun
    have hmove : Ensures (Move.move tools source target) s (fun _ _ => True)
        fun e s' => e.isRefusal = true → s' = s := by
      refine ensures_bind (ensures_get ?_)
      obtain ⟨fuel, hfuel⟩ : ∃ fuel, Move.taskBound s.disk = fuel + 1 := ⟨_, rfl⟩
      rw [hfuel, Move.run]
      refine ensures_bind ((hfirst _ rfl).mono ?_ fun _ _ he => he)
      intro p₁ s₁ hlater
      refine (hlater fuel).mono (fun _ _ _ => trivial) ?_
      intro e _ he hrefusal
      simp [he] at hrefusal
    exact hmove.of_error hrun
  · intro p₁ s₁ hstep fuel e s' hrun
    exact (((hfirst _ rfl).of_ok hstep) fuel).of_error hrun

/-- A directory cannot be moved to where there is a file; and once it is on its way into itself,
nothing is refused any more. -/
theorem refused_move_changes_nothing_onto_file :
    (∃ e, ((Move.move SelfImport.standard ⟨"src"⟩ ⟨"src/a.ts"⟩).run.run
        (SelfImport.prepared SelfImport.standard)).1 = .error e ∧ e.isRefusal = true) ∧
    ((Move.move SelfImport.standard ⟨"src"⟩ ⟨"src/a.ts"⟩).run.run
        (SelfImport.prepared SelfImport.standard)).2 = SelfImport.prepared SelfImport.standard ∧
    ∃ p₁ s₁, (Move.step SelfImport.standard (.move ⟨"/p/src"⟩ ⟨"/p/src/lib"⟩)
        { tasks := [] }).run.run (SelfImport.prepared SelfImport.standard) = (.ok p₁, s₁) ∧
      ∀ fuel e s', (Move.run SelfImport.standard fuel p₁).run.run s₁ = (.error e, s') →
        e.isRefusal = false := by
  have hstart : Session.Reached SelfImport.standard (Session.start SelfImport.disk ⟨"."⟩ {}) :=
    .start _ _ (by decide +kernel)
  have hdisk : (SelfImport.prepared SelfImport.standard).disk.Walkable := by
    rw [show (SelfImport.prepared SelfImport.standard).disk = SelfImport.disk from
      (Session.prepare_ensures FileSystem.plain_faithful
        (hstart.sound FileSystem.plain_faithful SelfImport.hasPlainNames_standard)).session.2]
    decide +kernel
  have hroot : (SelfImport.prepared SelfImport.standard).root.isAbsolute = true := by
    decide +kernel
  have hrefuses : ∃ e, ((Move.move SelfImport.standard ⟨"src"⟩ ⟨"src/a.ts"⟩).run.run
      (SelfImport.prepared SelfImport.standard)).1 = .error e ∧ e.isRefusal = true := by
    have hanswer : ((Move.move SelfImport.standard ⟨"src"⟩ ⟨"src/a.ts"⟩).run.run
        (SelfImport.prepared SelfImport.standard)).1.map (fun _ => ()) =
          .error (.targetExists ⟨"/p/src/a.ts"⟩) := by decide +kernel
    generalize ((Move.move SelfImport.standard ⟨"src"⟩ ⟨"src/a.ts"⟩).run.run
      (SelfImport.prepared SelfImport.standard)).1 = outcome at hanswer ⊢
    cases outcome with
    | ok report => simp [Except.map] at hanswer
    | error e =>
      obtain rfl : e = .targetExists ⟨"/p/src/a.ts"⟩ := by simpa [Except.map] using hanswer
      exact ⟨_, rfl, rfl⟩
  have hends : (SelfImport.prepared SelfImport.standard).root.absolutize ⟨"src"⟩ = ⟨"/p/src"⟩ ∧
      (SelfImport.prepared SelfImport.standard).root.absolutize ⟨"src/lib"⟩ = ⟨"/p/src/lib"⟩ := by
    decide +kernel
  have hfirst : ((Move.step SelfImport.standard (.move ⟨"/p/src"⟩ ⟨"/p/src/lib"⟩)
      { tasks := [] }).run.run (SelfImport.prepared SelfImport.standard)).1.isOk = true := by
    decide +kernel
  refine ⟨hrefuses, ?_, ?_⟩
  · obtain ⟨e, herror, hrefusal⟩ := hrefuses
    exact (refused_move_changes_nothing FileSystem.plain_truthful FileSystem.plain_steady
      SelfImport.hasPlainNames_standard hdisk hroot ⟨"src"⟩ ⟨"src/a.ts"⟩).1 e _
      (Prod.ext herror rfl) hrefusal
  · have hlater := (refused_move_changes_nothing FileSystem.plain_truthful
      FileSystem.plain_steady SelfImport.hasPlainNames_standard hdisk hroot ⟨"src"⟩
      ⟨"src/lib"⟩).2
    rw [hends.1, hends.2] at hlater
    cases hstep : (Move.step SelfImport.standard (.move ⟨"/p/src"⟩ ⟨"/p/src/lib"⟩)
      { tasks := [] }).run.run (SelfImport.prepared SelfImport.standard) with
    | mk outcome s₁ =>
      rw [hstep] at hfirst
      cases outcome with
      | error e => simp [Except.isOk, Except.toBool] at hfirst
      | ok p₁ => exact ⟨p₁, s₁, rfl, hlater p₁ s₁ hstep⟩

/-! ## A tree too deep -/

namespace DeepTree

/-- A name of 250 bytes. -/
def name : String := .ofList (.replicate 250 'n')

/-- A directory of the root and `depth` names below it. -/
def place (top : String) (depth : Nat) : Location := top :: .replicate depth name

/-- A directory in which directories go down until there is a file whose path has 4269 bytes. -/
def disk : Disk where
  entries := (List.range 18).map fun depth =>
    (place "d" depth, if depth < 17 then .directory else .file (.text ""))
  workingDir := []

theorem utf8ByteSize_name : name.utf8ByteSize = 250 := by
  have hreplicate : ∀ n, (String.ofList (List.replicate n 'n')).utf8ByteSize = n := by
    intro n
    induction n with
    | zero => rfl
    | succ n ih =>
      rw [List.replicate_succ, String.ofList_cons, String.utf8ByteSize_append, ih,
        String.utf8ByteSize_singleton]
      exact Nat.add_comm 1 n
  exact hreplicate 250

theorem toList_name : name.toList = List.replicate 250 'n' := String.toList_ofList

theorem mem_name {c : Char} (h : c ∈ name.toList) : c = 'n' := by
  rw [toList_name] at h
  exact List.eq_of_mem_replicate h

theorem isEntryName_name : Disk.IsEntryName name := by
  have hne : ∀ other : String, other.utf8ByteSize ≠ 250 → name ≠ other := by
    rintro other hsize rfl
    exact hsize utf8ByteSize_name
  refine ⟨⟨hne "" (by decide), fun h => ?_, hne "." (by decide), hne ".." (by decide)⟩, ?_⟩
  · exact absurd (mem_name h) (by decide)
  · rw [utf8ByteSize_name]
    decide

variable {top : String} {depth : Nat}

theorem place_succ (top : String) (depth : Nat) :
    place top (depth + 1) = place top depth ++ [name] := by
  rw [place, place, List.replicate_succ', List.cons_append]

theorem isEntryName_place (htop : Disk.IsEntryName top) :
    ∀ n ∈ place top depth, Disk.IsEntryName n := by
  intro n hn
  rcases List.mem_cons.1 hn with rfl | hn
  · exact htop
  · exact List.eq_of_mem_replicate hn ▸ isEntryName_name

/-- The path of a place takes 251 bytes for each name below the first. -/
theorem utf8ByteSize_place (top : String) (depth : Nat) :
    (Path.ofPlace (place top depth)).text.utf8ByteSize = 1 + top.utf8ByteSize + 251 * depth := by
  induction depth with
  | zero =>
    have htext : (Path.ofPlace (place top 0)).text = "/" ++ top := by
      rw [← String.toList_inj, String.toList_append]
      exact Path.toList_ofPlace_singleton top
    rw [htext, String.utf8ByteSize_append]
    rfl
  | succ depth ih =>
    have htext : (Path.ofPlace (place top (depth + 1))).text =
        (Path.ofPlace (place top depth)).text ++ ("/" ++ name) := by
      rw [← String.toList_inj, place_succ, Path.toList_ofPlace_concat (by simp [place]),
        String.toList_append, String.toList_append]
      rfl
    rw [htext, String.utf8ByteSize_append, String.utf8ByteSize_append, ih, utf8ByteSize_name,
      show "/".utf8ByteSize = 1 from rfl]
    omega

theorem writable_place (depth : Nat) (htop : '\x00' ∉ top.toList) :
    Disk.Writable (place top depth) ↔ 1 + top.utf8ByteSize + 251 * depth ≤ 4095 := by
  have hnull : '\x00' ∉ (Path.ofPlace (place top depth)).text.toList := by
    induction depth with
    | zero =>
      rw [place, List.replicate_zero, Path.toList_ofPlace_singleton]
      simpa using htop
    | succ depth ih =>
      rw [place_succ, Path.toList_ofPlace_concat (by simp [place])]
      simp only [List.mem_append, List.mem_cons, not_or]
      exact ⟨ih, by decide, fun h => absurd (mem_name h) (by decide)⟩
  rw [Disk.writable_iff, utf8ByteSize_place]
  exact ⟨fun h => Nat.le_of_not_lt h.2, fun h => ⟨hnull, Nat.not_lt.2 h⟩⟩

theorem length_place (top : String) (depth : Nat) : (place top depth).length = depth + 1 := by
  rw [place, List.length_cons, List.length_replicate]

theorem place_prefix (top : String) {depth' : Nat} (h : depth ≤ depth') :
    place top depth <+: place top depth' := by
  obtain ⟨more, rfl⟩ := Nat.exists_eq_add_of_le h
  rw [place, place, List.replicate_add]
  exact List.prefix_append _ _

theorem place_inj {depth' : Nat} (h : place top depth = place top depth') : depth = depth' := by
  simpa [length_place] using congrArg List.length h

theorem mem_entries {p : Location} {entry : Entry} : (p, entry) ∈ disk.entries ↔
    ∃ depth < 18, p = place "d" depth ∧
      entry = if depth < 17 then .directory else .file (.text "") := by
  simp only [disk, List.mem_map, List.mem_range, Prod.mk.injEq]
  exact ⟨fun ⟨k, hk, hp, he⟩ => ⟨k, hk, hp.symm, he.symm⟩,
    fun ⟨k, hk, hp, he⟩ => ⟨k, hk, hp.symm, he.symm⟩⟩

theorem nodup_entries : (disk.entries.map Prod.fst).Nodup := by
  rw [disk, List.map_map]
  exact List.Pairwise.map _ (fun _ _ hne heq => hne (place_inj heq)) List.nodup_range

theorem entry_place (hdepth : depth < 17) : disk.entry? (place "d" depth) = some .directory := by
  rw [Disk.entry_of_ne_nil (by simp [place]), Disk.lookup_eq_some_iff_mem nodup_entries,
    mem_entries]
  exact ⟨depth, by omega, rfl, by rw [if_pos hdepth]⟩

theorem isTree_disk : disk.IsTree := by
  refine ⟨nodup_entries, fun p entry h => ?_, fun p entry h => ?_⟩
  · obtain ⟨depth, -, rfl, -⟩ := mem_entries.1 h
    exact ⟨by simp [place], isEntryName_place (by decide)⟩
  · obtain ⟨depth, hdepth, rfl, -⟩ := mem_entries.1 h
    cases depth with
    | zero => rfl
    | succ depth =>
      rw [place_succ, List.dropLast_concat]
      exact entry_place (by omega)

/-- There is one name in each directory. -/
theorem namesIn_place (hdepth : depth < 17) : ∃ more,
    disk.namesIn (place "d" depth) = name :: more := by
  have hall : ∀ n ∈ disk.namesIn (place "d" depth), n = name := by
    intro n hn
    obtain ⟨entry, hentry⟩ := isTree_disk.mem_namesIn.1 hn
    obtain ⟨depth', -, hplace, -⟩ :=
      mem_entries.1 ((isTree_disk.entry_eq_some_iff (by simp)).1 hentry)
    have hlength := congrArg List.length hplace
    rw [List.length_append, length_place, length_place] at hlength
    obtain rfl : depth' = depth + 1 := by simpa using hlength.symm
    rw [place_succ] at hplace
    simpa using hplace
  have hsome : name ∈ disk.namesIn (place "d" depth) := by
    rw [isTree_disk.mem_namesIn, ← place_succ]
    exact ⟨_, (isTree_disk.entry_eq_some_iff (by simp [place])).2
      (mem_entries.2 ⟨depth + 1, by omega, rfl, rfl⟩)⟩
  cases hnames : disk.namesIn (place "d" depth) with
  | nil => simp [hnames] at hsome
  | cons n more => exact ⟨more, by rw [hall n (hnames ▸ List.mem_cons_self)]⟩

theorem firstPath_place (depth : Nat) {count : Nat} (h : depth + count < 17) :
    disk.FirstPath (place "d" depth) (.replicate (count + 1) name) := by
  induction count generalizing depth with
  | zero =>
    obtain ⟨more, hnames⟩ := namesIn_place (show depth < 17 by omega)
    exact .last hnames
  | succ count ih =>
    obtain ⟨more, hnames⟩ := namesIn_place (show depth < 17 by omega)
    rw [List.replicate_succ]
    exact .step hnames (place_succ "d" depth ▸ ih (depth + 1) (by omega))

theorem not_below_e (p : Location) : disk.entry? ("e" :: p) = none := by
  cases hentry : disk.entry? ("e" :: p) with
  | none => rfl
  | some entry =>
    obtain ⟨depth, -, hplace, -⟩ :=
      mem_entries.1 ((isTree_disk.entry_eq_some_iff (by simp)).1 hentry)
    exact absurd (List.cons.inj hplace).1 (by decide)

end DeepTree

/-- A move is refused half-way.  Below the directory there is a file whose path is too long: it is
said not to be there, after all seventeen directories above it were made at the target. -/
theorem move_refused_after_directories_were_made :
    DeepTree.disk.IsTree ∧ ∃ s',
      (Move.move SelfImport.standard ⟨"d"⟩ ⟨"e"⟩).run.run (Session.start DeepTree.disk ⟨"/"⟩ {}) =
        (.error (.sourceNotFound (ofPlace (DeepTree.place "d" 17))), s') ∧
      ∀ depth ≤ 16, DeepTree.disk.entry? (DeepTree.place "e" depth) = none ∧
        s'.disk.entry? (DeepTree.place "e" depth) = some .directory := by
  have hpaths : (Session.start DeepTree.disk ⟨"/"⟩ {}).root.absolutize ⟨"d"⟩ = ofPlace ["d"] ∧
      (Session.start DeepTree.disk ⟨"/"⟩ {}).root.absolutize ⟨"e"⟩ = ofPlace ["e"] := by
    decide +kernel
  have hmove : Work.Ensures (Move.move SelfImport.standard ⟨"d"⟩ ⟨"e"⟩)
      (Session.start DeepTree.disk ⟨"/"⟩ {}) (fun _ _ => False) fun e s' =>
        e = .sourceNotFound (ofPlace (DeepTree.place "d" 17)) ∧ s'.disk.IsTree ∧
          s'.disk.entry? (DeepTree.place "e" 16) = some .directory := by
    have hplace : ∀ top, [top] ++ (List.replicate 17 DeepTree.name).dropLast =
        DeepTree.place top 16 := by
      intro top
      rw [List.dropLast_replicate]
      rfl
    refine ensures_bind (ensures_get ?_)
    rw [hpaths.1, hpaths.2, ← hplace "e"]
    have hapart : Disk.Apart ["d"] ([] ++ ["e"]) := by simp [Disk.Apart]
    have hname : Disk.IsEntryName "e" := by decide
    have hfirst := DeepTree.firstPath_place 0 (show 0 + 16 < 17 by decide)
    refine Move.run_refused_late rfl DeepTree.isTree_disk hfirst ?_ ?_ ?_ hname rfl
      (DeepTree.not_below_e []) hapart ?_ rfl
    · exact hplace "d" ▸ (DeepTree.writable_place 16 (by decide)).2 (by decide)
    · exact mt (DeepTree.writable_place 17 (by decide)).1 (by decide)
    · exact hplace "e" ▸ (DeepTree.writable_place 16 (by decide)).2 (by decide)
    · rw [List.length_cons, List.length_replicate]
      decide
  refine ⟨DeepTree.isTree_disk, ?_⟩
  rcases hrun : (Move.move SelfImport.standard ⟨"d"⟩ ⟨"e"⟩).run.run
      (Session.start DeepTree.disk ⟨"/"⟩ {}) with ⟨e | report, s'⟩
  · obtain ⟨rfl, htree, hlast⟩ := hmove.of_error hrun
    refine ⟨s', rfl, fun depth hdepth => ⟨DeepTree.not_below_e _, ?_⟩⟩
    have hpre : DeepTree.place "e" depth <+: DeepTree.place "e" 16 :=
      DeepTree.place_prefix "e" hdepth
    by_cases hne : DeepTree.place "e" depth = DeepTree.place "e" 16
    · rw [hne, hlast]
    · exact htree.directory_of_prefix hlast hpre hne
  · exact (hmove.of_ok hrun).elim

end Relocate
