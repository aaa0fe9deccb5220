import Relocate.Proofs.Overriding
import Relocate.Proofs.WrittenTargets

/-! # Names of packages

Manifests lay claim to names, one after the other, and a name that two directories claim is given to
neither.  Which packages there are depends on the claims and not on their order:
`Packages.rootOf?_ofClaims` says for each name by itself that it belongs to the directory that all
of its claims agree on.  The order in which packages are listed does depend on the order of claims,
and reading a specifier goes through that list; but of two names of one length only one can start a
specifier, so the longest name is found wherever it is listed.

Writing a specifier goes through the list as well, and passes over the packages that hold the file
that imports.  It never falls back on a package farther out: the packages that hold a target lie in
one another, so whatever holds the file along with one of them holds it along with those around.
-/

namespace Relocate

open Text Relocate.Path

namespace Path

/-- Normal forms that are the same path have the same text. -/
theorem normalize_beq_normalize {p q : Path} :
    (p.normalize == q.normalize) = true ↔ p.normalize = q.normalize := by
  refine ⟨fun h => ?_, fun h => h ▸ BEq.rfl⟩
  rw [← ofComponents_components_normalize p, beq_iff_components.1 h,
    ofComponents_components_normalize]

/-- Of two directories that hold a path, the one with fewer components holds all that the other
holds. -/
theorem isInDir_of_length_le {outer inner target path : Path} (houter : outer.isInDir target = true)
    (hinner : inner.isInDir target = true)
    (hle : outer.normalize.components.length ≤ inner.normalize.components.length)
    (h : inner.isInDir path = true) : outer.isInDir path = true := by
  rw [isInDir_iff] at houter hinner h ⊢
  exact (List.prefix_of_prefix_length_le houter hinner hle).trans h

/-- Two directories that hold a path and have as many components are the same. -/
theorem normalize_eq_of_isInDir {dir other target : Path} (hdir : dir.isInDir target = true)
    (hother : other.isInDir target = true)
    (hlength : dir.normalize.components.length = other.normalize.components.length) :
    dir.normalize = other.normalize := by
  rw [isInDir_iff] at hdir hother
  have hpre := List.prefix_of_prefix_length_le hdir hother (Nat.le_of_eq hlength)
  exact normalize_beq_normalize.1 (beq_iff_components.2 (hpre.eq_of_length hlength))

/-- Nothing is left to write only for the directory itself. -/
theorem slashed_relative_eq_empty_iff {dir target : Path} (htarget : target.isAbsolute = true)
    (h : dir.isInDir target = true) :
    (dir.relative target).slashed = "" ↔ dir.normalize = target.normalize := by
  have hdir := isAbsolute_of_isInDir htarget h
  obtain ⟨names, hnames⟩ := exists_place_append htarget h
  have hplain := plain_place htarget
  rw [hnames] at hplain
  have hempty : ∀ p : Path, p.slashed = "" ↔ p.text = "" := by
    intro p
    rw [slashed, ← String.toList_inj, ← String.toList_inj, String.toList_ofList]
    exact List.map_eq_nil_iff
  have htext : (dir.relative target).text = "/".intercalate names := by
    apply String.toList_inj.1
    have hchars := toList_ofComponents_steps 0 names
    rw [List.replicate_zero, List.nil_append, List.replicate_zero, List.nil_append] at hchars
    rw [relative_below hdir htarget hnames, hchars, toList_intercalate_names]
  rw [hempty, htext, intercalate_eq_empty_iff hplain.right, normalize_eq_ofPlace hdir,
    normalize_eq_ofPlace htarget, ofPlace_inj (plain_place hdir) (plain_place htarget), hnames]
  exact ⟨fun hnil => by rw [hnil, List.append_nil], fun heq => by simpa using heq⟩

end Path

namespace Packages

/-! ## Claims -/

/-- The name is claimed, and for this directory only. -/
def Belongs (claims : List (String × Path)) (name : String) (root : Path) : Prop :=
  (∃ claim ∈ claims, claim.1 = name) ∧
    ∀ claim ∈ claims, claim.1 = name → claim.2.normalize = root

/-- The name is claimed, and not for one directory only. -/
def Contested (claims : List (String × Path)) (name : String) : Prop :=
  (∃ claim ∈ claims, claim.1 = name) ∧ ∀ root, ¬ Belongs claims name root

variable {claims : List (String × Path)} {name : String} {root root' : Path}

theorem Belongs.eq (h : Belongs claims name root) (h' : Belongs claims name root') :
    root = root' := by
  obtain ⟨claim, hclaim, hname⟩ := h.1
  rw [← h.2 claim hclaim hname, h'.2 claim hclaim hname]

theorem Belongs.normalize_eq (h : Belongs claims name root) : root.normalize = root := by
  obtain ⟨claim, hclaim, hname⟩ := h.1
  rw [← h.2 claim hclaim hname, normalize_normalize]

theorem belongs_concat_self :
    Belongs (claims ++ [(name, root)]) name root' ↔
      root.normalize = root' ∧ ∀ claim ∈ claims, claim.1 = name → claim.2.normalize = root' := by
  constructor
  · rintro ⟨-, hall⟩
    exact ⟨hall (name, root) (by simp) rfl,
      fun claim hclaim => hall claim (List.mem_append_left _ hclaim)⟩
  · rintro ⟨hroot, hall⟩
    refine ⟨⟨(name, root), by simp, rfl⟩, fun claim hclaim hname => ?_⟩
    rcases List.mem_append.1 hclaim with hclaim | hclaim
    · exact hall claim hclaim hname
    · rw [List.mem_singleton.1 hclaim, hroot]

/-- What is known once the claims are heard: which names are given away, and which are contested
and never will be. -/
structure Heard (claims : List (String × Path)) (state : Ordered String Path × List String) :
    Prop where
  root_iff : ∀ name root, state.1.get? name = some root ↔ Belongs claims name root
  contested_iff : ∀ name, name ∈ state.2 ↔ Contested claims name

/-- A claim matters to the name that is claimed only. -/
theorem Heard.of_own {state state' : Ordered String Path × List String} (h : Heard claims state)
    (hroots : ∀ other, other ≠ name → state'.1.get? other = state.1.get? other)
    (hcontested : ∀ other, other ≠ name → (other ∈ state'.2 ↔ other ∈ state.2))
    (hroot : ∀ root', state'.1.get? name = some root' ↔
      Belongs (claims ++ [(name, root)]) name root')
    (hown : name ∈ state'.2 ↔ Contested (claims ++ [(name, root)]) name) :
    Heard (claims ++ [(name, root)]) state' := by
  have hclaimed : ∀ other, other ≠ name →
      ((∃ claim ∈ claims ++ [(name, root)], claim.1 = other) ↔
        ∃ claim ∈ claims, claim.1 = other) := by
    intro other hne
    simp [hne.symm]
  have hbelongs : ∀ other, other ≠ name → ∀ root',
      (Belongs (claims ++ [(name, root)]) other root' ↔ Belongs claims other root') := by
    intro other hne root'
    rw [Belongs, Belongs, hclaimed other hne, List.forall_mem_append, List.forall_mem_singleton]
    simp only [hne.symm, false_implies, and_true]
  constructor
  · intro other root'
    by_cases hother : other = name
    · rw [hother, hroot]
    · rw [hroots other hother, h.root_iff, hbelongs other hother]
  · intro other
    by_cases hother : other = name
    · rw [hother, hown]
    · rw [hcontested other hother, h.contested_iff, Contested, Contested, hclaimed other hother]
      simp only [hbelongs other hother]

section Step

variable {state state' : Ordered String Path × List String}

/-- The name that is claimed is given away. -/
theorem Heard.given (h : Heard claims state)
    (hroots : ∀ other, other ≠ name → state'.1.get? other = state.1.get? other)
    (hcontested : ∀ other, other ≠ name → (other ∈ state'.2 ↔ other ∈ state.2))
    (hget : state'.1.get? name = some root') (hfree : name ∉ state'.2)
    (hown : Belongs (claims ++ [(name, root)]) name root') :
    Heard (claims ++ [(name, root)]) state' := by
  refine h.of_own hroots hcontested (fun other => ?_) ?_
  · rw [hget, Option.some.injEq]
    exact ⟨fun heq => heq ▸ hown, fun hother => hown.eq hother⟩
  · exact iff_of_false hfree fun hnone => hnone.2 _ hown

/-- The name that is claimed is given to no one. -/
theorem Heard.withheld (h : Heard claims state)
    (hroots : ∀ other, other ≠ name → state'.1.get? other = state.1.get? other)
    (hcontested : ∀ other, other ≠ name → (other ∈ state'.2 ↔ other ∈ state.2))
    (hget : state'.1.get? name = .none) (hmem : name ∈ state'.2)
    (hnone : ∀ root', ¬ Belongs (claims ++ [(name, root)]) name root') :
    Heard (claims ++ [(name, root)]) state' := by
  refine h.of_own hroots hcontested (fun other => ?_) ?_
  · rw [hget]
    exact iff_of_false (by simp) (hnone other)
  · exact iff_of_true hmem ⟨⟨(name, root), by simp, rfl⟩, hnone⟩

/-- A name without a directory belongs to none. -/
theorem Heard.not_belongs (h : Heard claims state) (hget : state.1.get? name = .none)
    (root : Path) : ¬ Belongs claims name root := by
  intro hroot
  rw [(h.root_iff name root).2 hroot] at hget
  simp at hget

end Step

/-- One more claim. -/
theorem Heard.addClaim {state : Ordered String Path × List String} (h : Heard claims state)
    (claim : String × Path) : Heard (claims ++ [claim]) (addClaim state claim) := by
  obtain ⟨roots, disputed⟩ := state
  obtain ⟨name, root⟩ := claim
  unfold Packages.addClaim
  dsimp only
  split
  · -- a contested name remains so
    rename_i hdisputed
    have hmem : name ∈ disputed := by simpa using hdisputed
    obtain ⟨hne, hnone⟩ := (h.contested_iff name).1 hmem
    have hget : roots.get? name = .none :=
      Option.eq_none_iff_forall_ne_some.2 fun root' hget => hnone root' ((h.root_iff _ _).1 hget)
    exact h.withheld (fun _ _ => rfl) (fun _ _ => Iff.rfl) hget hmem
      fun root' hroot' => hnone root' ⟨hne, (belongs_concat_self.1 hroot').2⟩
  · rename_i hdisputed
    have hmem : name ∉ disputed := by simpa using hdisputed
    split
    · -- a new name is given to its claimant
      rename_i hget
      have hnew : ∀ claim ∈ claims, claim.1 ≠ name := fun claim hclaim hname =>
        hmem ((h.contested_iff name).2 ⟨⟨claim, hclaim, hname⟩, h.not_belongs hget⟩)
      have hown : Belongs (claims ++ [(name, root)]) name root.normalize :=
        belongs_concat_self.2 ⟨rfl, fun claim hclaim hname => absurd hname (hnew claim hclaim)⟩
      refine h.given (fun other hother => ?_) (fun _ _ => Iff.rfl) ?_ hmem hown
      · rw [Ordered.get?_put, if_neg (by simpa using hother.symm)]
      · rw [Ordered.get?_put, if_pos BEq.rfl]
    · rename_i known hget
      have hknown := (h.root_iff name known).1 hget
      split
      · -- the same claim once more
        rename_i hsame
        rw [← hknown.normalize_eq, normalize_beq_normalize, hknown.normalize_eq] at hsame
        exact h.given (fun _ _ => rfl) (fun _ _ => Iff.rfl) hget hmem
          (belongs_concat_self.2 ⟨hsame.symm, hknown.2⟩)
      · -- a claim for another directory
        rename_i hdiffer
        have hnone : ∀ root', ¬ Belongs (claims ++ [(name, root)]) name root' := by
          intro root' hroot'
          obtain ⟨rfl, hothers⟩ := belongs_concat_self.1 hroot'
          exact hdiffer (hknown.eq ⟨hknown.1, hothers⟩ ▸ BEq.rfl)
        refine h.withheld (fun other hother => ?_) (fun other hother => ?_) ?_
          List.mem_cons_self hnone
        · rw [Ordered.get?_erase, if_neg (by simpa using hother.symm)]
        · simp [hother]
        · rw [Ordered.get?_erase, if_pos BEq.rfl]

theorem heard_foldl (claims : List (String × Path)) :
    Heard claims (claims.foldl Packages.addClaim ([], [])) := by
  induction claims using List.reverseRecOn with
  | nil => exact ⟨fun name root => by simp [Ordered.get?, Belongs], fun name => by simp [Contested]⟩
  | append_singleton claims claim ih =>
    rw [List.foldl_append, List.foldl_cons, List.foldl_nil]
    exact ih.addClaim claim

/-- **A package has the name that all claims to it agree on.** -/
theorem rootOf?_ofClaims : (ofClaims claims).rootOf? name = some root ↔ Belongs claims name root :=
  (heard_foldl claims).root_iff name root

/-- A name belongs to the same directory in whatever order the claims come. -/
theorem rootOf?_perm {claims' : List (String × Path)} (h : claims.Perm claims') (name : String) :
    (ofClaims claims).rootOf? name = (ofClaims claims').rootOf? name := by
  apply Option.ext
  intro root
  rw [rootOf?_ofClaims, rootOf?_ofClaims, Belongs, Belongs]
  simp only [h.mem_iff]

theorem mem_roots_iff :
    (name, root) ∈ (ofClaims claims).roots ↔ (ofClaims claims).rootOf? name = some root := by
  refine ⟨Ordered.get?_of_mem (distinct_ofClaims claims), fun h => ?_⟩
  obtain ⟨entry, hentry, rfl⟩ := Option.map_eq_some_iff.1 h
  have hname : entry.1 = name := by simpa using List.find?_some hentry
  exact hname ▸ List.mem_of_find?_eq_some hentry

/-! ## Reading specifiers -/

/-- Of the names of packages that the specifier starts with, the name is the longest. -/
structure LongestName (p : Packages) (specifier name : String) : Prop where
  registered : (p.rootOf? name).isSome = true
  starts : Text.startsWith (name ++ "/") specifier = true
  longest : ∀ other, (p.rootOf? other).isSome = true →
    Text.startsWith (other ++ "/") specifier = true → other ≠ name →
    other.utf8ByteSize < name.utf8ByteSize

variable {specifier tail : String} {path : Path}

/-- Names of one length that a specifier starts with are the same. -/
theorem eq_of_startsWith {name other : String} (hsize : name.utf8ByteSize = other.utf8ByteSize)
    (h : Text.startsWith (name ++ "/") specifier = true)
    (h' : Text.startsWith (other ++ "/") specifier = true) : name = other := by
  obtain ⟨tail, htail⟩ := startsWith_eq_true_iff.1 h
  obtain ⟨tail', htail'⟩ := startsWith_eq_true_iff.1 h'
  have hleads := htail.trans htail'.symm
  rw [String.append_assoc, String.append_assoc] at hleads
  exact (eq_of_append_eq_append hsize hleads).1

/-- The longest name decides. -/
theorem LongestName.resolve? (h : (ofClaims claims).LongestName specifier name)
    (hroot : (ofClaims claims).rootOf? name = some root) (htail : name ++ "/" ++ tail = specifier) :
    (ofClaims claims).resolve? specifier = some (root.join ⟨tail⟩).normalize := by
  have hbelow : Resolver.pathBelow? (name ++ "/") root specifier =
      some (root.join ⟨tail⟩).normalize := by
    rw [Resolver.pathBelow?, dropLead?_eq_some_iff.2 htail, Option.map_some]
  rcases Resolver.packages_resolve?_cases (mem_roots_iff.2 hroot) hbelow with
    hfound | ⟨other, hother, hlonger, hlead, -⟩
  · exact hfound
  · have hsome : ((ofClaims claims).rootOf? other.1).isSome = true := by
      rw [mem_roots_iff.1 hother, Option.isSome_some]
    have hshorter := h.longest other.1 hsome hlead fun heq => by simp [heq] at hlonger
    omega

/-- Where some name starts a specifier, one of them is the longest. -/
theorem exists_longestName (hsome : ((ofClaims claims).rootOf? name).isSome = true)
    (hstarts : Text.startsWith (name ++ "/") specifier = true) :
    ∃ longest, (ofClaims claims).LongestName specifier longest := by
  obtain ⟨root, hroot⟩ := Option.isSome_iff_exists.1 hsome
  have hmatching : (name, root) ∈ (ofClaims claims).roots.filter fun item =>
      Text.startsWith (item.1 ++ "/") specifier :=
    List.mem_filter.2 ⟨mem_roots_iff.2 hroot, hstarts⟩
  obtain ⟨best, hbest, -⟩ := exists_lastGreatest? (fun item => item.1.utf8ByteSize) hmatching
  obtain ⟨hmem, hlead⟩ := List.mem_filter.1 (mem_of_lastGreatest? hbest)
  refine ⟨best.1, by rw [mem_roots_iff.1 hmem, Option.isSome_some], hlead, ?_⟩
  intro other hother hlead' hne
  obtain ⟨root', hroot'⟩ := Option.isSome_iff_exists.1 hother
  have hle : other.utf8ByteSize ≤ best.1.utf8ByteSize :=
    le_of_lastGreatest? hbest (List.mem_filter.2 ⟨mem_roots_iff.2 hroot', hlead'⟩)
  exact Nat.lt_of_le_of_ne hle fun hsize => hne (eq_of_startsWith hsize hlead' hlead)

/-- A specifier has a path if the name of some package starts it. -/
theorem isSome_resolve?_iff :
    ((ofClaims claims).resolve? specifier).isSome = true ↔
      ∃ name, ((ofClaims claims).rootOf? name).isSome = true ∧
        Text.startsWith (name ++ "/") specifier = true := by
  constructor
  · intro h
    obtain ⟨path, hpath⟩ := Option.isSome_iff_exists.1 h
    obtain ⟨best, hbest, -⟩ := Option.map_eq_some_iff.1 hpath
    obtain ⟨entry, hentry, hmatch⟩ := List.mem_filterMap.1 (mem_of_lastGreatest? hbest)
    obtain ⟨tail, htail, -⟩ := Option.map_eq_some_iff.1 hmatch
    refine ⟨entry.1, by rw [mem_roots_iff.1 hentry, Option.isSome_some], ?_⟩
    exact startsWith_eq_true_iff.2 ⟨tail, dropLead?_eq_some_iff.1 htail⟩
  · rintro ⟨name, hsome, hstarts⟩
    obtain ⟨longest, hlongest⟩ := exists_longestName hsome hstarts
    obtain ⟨root, hroot⟩ := Option.isSome_iff_exists.1 hlongest.registered
    obtain ⟨tail, htail⟩ := startsWith_eq_true_iff.1 hlongest.starts
    rw [hlongest.resolve? hroot htail, Option.isSome_some]

/-- **What a specifier means** is read from the directory of the longest name that starts it. -/
theorem resolve?_eq_some_iff :
    (ofClaims claims).resolve? specifier = some path ↔
      ∃ name root tail, (ofClaims claims).LongestName specifier name ∧
        (ofClaims claims).rootOf? name = some root ∧ name ++ "/" ++ tail = specifier ∧
        path = (root.join ⟨tail⟩).normalize := by
  constructor
  · intro h
    obtain ⟨name, hsome, hstarts⟩ := isSome_resolve?_iff.1 (by rw [h, Option.isSome_some])
    obtain ⟨longest, hlongest⟩ := exists_longestName hsome hstarts
    obtain ⟨root, hroot⟩ := Option.isSome_iff_exists.1 hlongest.registered
    obtain ⟨tail, htail⟩ := startsWith_eq_true_iff.1 hlongest.starts
    rw [hlongest.resolve? hroot htail, Option.some.injEq] at h
    exact ⟨longest, root, tail, hlongest, hroot, htail, h.symm⟩
  · rintro ⟨name, root, tail, hlongest, hroot, htail, rfl⟩
    exact hlongest.resolve? hroot htail

/-- A specifier means the same in whatever order the claims come. -/
theorem resolve?_perm {claims' : List (String × Path)} (h : claims.Perm claims')
    (specifier : String) :
    (ofClaims claims).resolve? specifier = (ofClaims claims').resolve? specifier := by
  have hlongest : ∀ name, (ofClaims claims).LongestName specifier name ↔
      (ofClaims claims').LongestName specifier name := by
    intro name
    constructor
    · rintro ⟨hsome, hstarts, hmax⟩
      simp only [rootOf?_perm h] at hsome hmax
      exact ⟨hsome, hstarts, hmax⟩
    · rintro ⟨hsome, hstarts, hmax⟩
      simp only [← rootOf?_perm h] at hsome hmax
      exact ⟨hsome, hstarts, hmax⟩
  apply Option.ext
  intro path
  rw [resolve?_eq_some_iff, resolve?_eq_some_iff]
  simp only [hlongest, rootOf?_perm h]

/-! ## Writing specifiers -/

/-- The directory is that of a package and holds the target, and no package that holds it lies
deeper. -/
structure Owner (p : Packages) (target root : Path) : Prop where
  registered : ∃ name, p.rootOf? name = some root
  holds : root.isInDir target = true
  deepest : ∀ name other, p.rootOf? name = some other → other.isInDir target = true →
    other.components.length ≤ root.components.length

variable {source target : Path}

/-- The directory of a package is in normal form. -/
theorem normalize_rootOf? (h : (ofClaims claims).rootOf? name = some root) :
    root.normalize = root :=
  (rootOf?_ofClaims.1 h).normalize_eq

/-- Of two packages that hold a target, the one with fewer components holds all that the other
holds. -/
theorem isInDir_of_root {name' : String} (h : (ofClaims claims).rootOf? name = some root)
    (h' : (ofClaims claims).rootOf? name' = some root') (hholds : root.isInDir target = true)
    (hholds' : root'.isInDir target = true)
    (hle : root.components.length ≤ root'.components.length)
    (hsource : root'.isInDir source = true) : root.isInDir source = true := by
  refine isInDir_of_length_le hholds hholds' ?_ hsource
  rw [normalize_rootOf? h, normalize_rootOf? h']
  exact hle

theorem Owner.eq (h : (ofClaims claims).Owner target root)
    (h' : (ofClaims claims).Owner target root') : root = root' := by
  obtain ⟨name, hroot⟩ := h.registered
  obtain ⟨name', hroot'⟩ := h'.registered
  have hle := h'.deepest name root hroot h.holds
  have hle' := h.deepest name' root' hroot' h'.holds
  have heq := normalize_eq_of_isInDir h.holds h'.holds (by
    rw [normalize_rootOf? hroot, normalize_rootOf? hroot']
    omega)
  rwa [normalize_rootOf? hroot, normalize_rootOf? hroot'] at heq

/-- What some package holds has an owner. -/
theorem exists_owner (hroot : (ofClaims claims).rootOf? name = some root)
    (hholds : root.isInDir target = true) : ∃ owner, (ofClaims claims).Owner target owner := by
  have hholding : (name, root) ∈ (ofClaims claims).roots.filter fun item => item.2.isInDir target :=
    List.mem_filter.2 ⟨mem_roots_iff.2 hroot, hholds⟩
  obtain ⟨best, hbest, -⟩ := exists_lastGreatest? (fun item => item.2.components.length) hholding
  obtain ⟨hmem, hheld⟩ := List.mem_filter.1 (mem_of_lastGreatest? hbest)
  refine ⟨best.2, ⟨best.1, mem_roots_iff.1 hmem⟩, hheld, fun name other hother hin => ?_⟩
  exact le_of_lastGreatest? hbest (List.mem_filter.2 ⟨mem_roots_iff.2 hother, hin⟩)

/-- The innermost package that holds the target and not the file owns the target: one that lies
deeper and holds the file would have its own file held by the other. -/
theorem Innermost.owner (h : (ofClaims claims).Innermost source target name root) :
    (ofClaims claims).Owner target root := by
  have hroot := mem_roots_iff.1 h.mem
  refine ⟨⟨name, hroot⟩, h.holds, fun name' other hother hin => ?_⟩
  cases hsource : other.isInDir source with
  | false => exact h.deepest (name', other) (mem_roots_iff.2 hother) hin hsource
  | true =>
    by_contra hlt
    have hheld := isInDir_of_root hroot hother h.holds hin (by omega) hsource
    rw [h.not_holds_source] at hheld
    exact Bool.noConfusion hheld

/-- There is something to write for what its owner holds, and not the file. -/
theorem Owner.isSome_specifier? (h : (ofClaims claims).Owner target root)
    (htarget : target.isAbsolute = true) (hsource : root.isInDir source = false)
    (hne : root ≠ target.normalize) :
    ((ofClaims claims).specifier? source target).isSome = true := by
  obtain ⟨name, hroot⟩ := h.registered
  have hholding : (name, root) ∈ (ofClaims claims).roots.filter fun item =>
      item.2.isInDir target && !item.2.isInDir source :=
    List.mem_filter.2 ⟨mem_roots_iff.2 hroot, by simp [h.holds, hsource]⟩
  obtain ⟨best, hbest, hle⟩ := exists_lastGreatest? (fun item => item.2.components.length) hholding
  obtain ⟨hmem, hheld⟩ := List.mem_filter.1 (mem_of_lastGreatest? hbest)
  rw [Bool.and_eq_true] at hheld
  have howner : (ofClaims claims).Owner target best.2 := by
    refine ⟨⟨best.1, mem_roots_iff.1 hmem⟩, hheld.1, fun name' other hother hin => ?_⟩
    exact Nat.le_trans (h.deepest name' other hother hin) hle
  have hbest_eq : best.2 = root := howner.eq h
  have htail : (best.2.relative target).slashed ≠ "" := by
    rw [hbest_eq, ne_eq, slashed_relative_eq_empty_iff htarget h.holds, normalize_rootOf? hroot]
    exact hne
  have hwritten : (ofClaims claims).specifier? source target =
      some (best.1 ++ "/" ++ (best.2.relative target).slashed) := by
    unfold specifier?
    dsimp only
    rw [show lastGreatest? _ _ = some best from hbest, Option.bind_some, if_neg htail]
  rw [hwritten, Option.isSome_some]

end Packages

/-- **The packages are the claims that are not contested**, in whatever order these come.  A name
belongs to a directory if it is claimed and all its claims agree on the directory; a specifier has a
path if the name of a package starts it, and is read from the directory of the longest such name. -/
theorem packages_are_uncontested_claims (claims : List (String × Path)) :
    (∀ name root, (Packages.ofClaims claims).rootOf? name = some root ↔
      Packages.Belongs claims name root) ∧
    (∀ specifier, ((Packages.ofClaims claims).resolve? specifier).isSome = true ↔
      ∃ name, ((Packages.ofClaims claims).rootOf? name).isSome = true ∧
        Text.startsWith (name ++ "/") specifier = true) ∧
    (∀ specifier path, (Packages.ofClaims claims).resolve? specifier = some path ↔
      ∃ name root tail, (Packages.ofClaims claims).LongestName specifier name ∧
        (Packages.ofClaims claims).rootOf? name = some root ∧ name ++ "/" ++ tail = specifier ∧
        path = (root.join ⟨tail⟩).normalize) ∧
    ∀ claims', claims.Perm claims' →
      (∀ name, (Packages.ofClaims claims).rootOf? name = (Packages.ofClaims claims').rootOf? name) ∧
      ∀ specifier, (Packages.ofClaims claims).resolve? specifier =
        (Packages.ofClaims claims').resolve? specifier := by
  refine ⟨fun name root => Packages.rootOf?_ofClaims, fun specifier => Packages.isSome_resolve?_iff,
    fun specifier path => Packages.resolve?_eq_some_iff, fun claims' hperm => ?_⟩
  exact ⟨Packages.rootOf?_perm hperm, Packages.resolve?_perm hperm⟩

namespace Mappings

/-- Claims of which those to `ui` agree, and those to `core` do not although the first comes
back. -/
def repeated : List (String × Path) :=
  [("core", ⟨"/core"⟩), ("ui", ⟨"/old/../ui"⟩), ("core", ⟨"/old"⟩), ("ui", ⟨"/ui/"⟩),
    ("core", ⟨"/core"⟩), ("ui/kit", ⟨"/kit"⟩)]

end Mappings

/-- Claims that come back, and a name that continues another. -/
theorem packages_are_uncontested_claims_repeated :
    (Packages.ofClaims Mappings.repeated).rootOf? "core" = none ∧
      Packages.Belongs Mappings.repeated "ui" ⟨"/ui"⟩ ∧
      (Packages.ofClaims Mappings.repeated.reverse).rootOf? "ui" = some ⟨"/ui"⟩ ∧
      (Packages.ofClaims Mappings.repeated.reverse).resolve? "ui/kit/x" = some ⟨"/kit/x"⟩ := by
  obtain ⟨hroot, -, -, hperm⟩ := packages_are_uncontested_claims Mappings.repeated
  obtain ⟨hroots, hresolve⟩ := hperm _ (List.reverse_perm _).symm
  have hui : (Packages.ofClaims Mappings.repeated).rootOf? "ui" = some ⟨"/ui"⟩ := by decide +kernel
  refine ⟨by decide +kernel, (hroot _ _).1 hui, (hroots "ui").symm.trans hui, ?_⟩
  rw [← hresolve]
  decide +kernel

/-- **Only the package that owns the target is named.**  A target has an owner if some package holds
it, and only one.  There is a specifier for it if the owner does not hold the file that imports and
is not the target itself, and then it is written with a name of the owner.  Files with one owner
never import each other by a package. -/
theorem only_owner_is_named (claims : List (String × Path)) (source : Path) {target : Path}
    (htarget : target.isAbsolute = true) :
    (∀ root root', (Packages.ofClaims claims).Owner target root →
      (Packages.ofClaims claims).Owner target root' → root = root') ∧
    ((∃ root, (Packages.ofClaims claims).Owner target root) ↔
      ∃ name root, (Packages.ofClaims claims).rootOf? name = some root ∧
        root.isInDir target = true) ∧
    (((Packages.ofClaims claims).specifier? source target).isSome = true ↔
      ∃ root, (Packages.ofClaims claims).Owner target root ∧ root.isInDir source = false ∧
        root ≠ target.normalize) ∧
    (∀ specifier, (Packages.ofClaims claims).specifier? source target = some specifier →
      ∃ name root, (Packages.ofClaims claims).Owner target root ∧
        (Packages.ofClaims claims).rootOf? name = some root ∧
        specifier = name ++ "/" ++ (root.relative target).slashed) ∧
    ∀ root, (Packages.ofClaims claims).Owner source root →
      (Packages.ofClaims claims).Owner target root →
      (Packages.ofClaims claims).specifier? source target = none := by
  have hwritten : ((Packages.ofClaims claims).specifier? source target).isSome = true ↔
      ∃ root, (Packages.ofClaims claims).Owner target root ∧ root.isInDir source = false ∧
        root ≠ target.normalize := by
    constructor
    · intro h
      obtain ⟨specifier, hspecifier⟩ := Option.isSome_iff_exists.1 h
      obtain ⟨name, root, hroot, htail, -⟩ := Packages.innermost_of_specifier? hspecifier
      refine ⟨root, hroot.owner, hroot.not_holds_source, ?_⟩
      rwa [ne_eq, slashed_relative_eq_empty_iff htarget hroot.holds,
        Packages.normalize_rootOf? (Packages.mem_roots_iff.1 hroot.mem)] at htail
    · rintro ⟨root, howner, hsource, hne⟩
      exact howner.isSome_specifier? htarget hsource hne
  refine ⟨fun root root' h h' => h.eq h', ⟨?_, ?_⟩, hwritten, ?_, ?_⟩
  · rintro ⟨root, howner⟩
    obtain ⟨name, hroot⟩ := howner.registered
    exact ⟨name, root, hroot, howner.holds⟩
  · rintro ⟨name, root, hroot, hholds⟩
    exact Packages.exists_owner hroot hholds
  · intro specifier hspecifier
    obtain ⟨name, root, hroot, -, rfl⟩ := Packages.innermost_of_specifier? hspecifier
    exact ⟨name, root, hroot.owner, Packages.mem_roots_iff.1 hroot.mem, rfl⟩
  · intro root hsource howner
    rw [← Option.not_isSome_iff_eq_none, hwritten]
    rintro ⟨root', howner', hnot, -⟩
    rw [← howner.eq howner', hsource.holds] at hnot
    exact Bool.noConfusion hnot

namespace Mappings

/-- A package in another. -/
def workspace : List (String × Path) := [("mono", ⟨"/repo"⟩), ("@mono/core", ⟨"/repo/pkg/core"⟩)]

end Mappings

/-- Between files of the inner package nothing is written, although the outer one holds both. -/
theorem only_owner_is_named_nested :
    (Packages.ofClaims Mappings.workspace).specifier? ⟨"/repo/a.ts"⟩ ⟨"/repo/pkg/core/x"⟩ =
        some "@mono/core/x" ∧
      (∃ root, (Packages.ofClaims Mappings.workspace).Owner ⟨"/repo/pkg/core/x"⟩ root ∧
        root.isInDir ⟨"/repo/a.ts"⟩ = false ∧ root ≠ Path.normalize ⟨"/repo/pkg/core/x"⟩) ∧
      ¬ ∃ root, (Packages.ofClaims Mappings.workspace).Owner ⟨"/repo/pkg/core/x"⟩ root ∧
        root.isInDir ⟨"/repo/pkg/core/a.ts"⟩ = false ∧
        root ≠ Path.normalize ⟨"/repo/pkg/core/x"⟩ := by
  have hspecifier : (Packages.ofClaims Mappings.workspace).specifier? ⟨"/repo/a.ts"⟩
      ⟨"/repo/pkg/core/x"⟩ = some "@mono/core/x" := by decide +kernel
  have houter := only_owner_is_named Mappings.workspace ⟨"/repo/a.ts"⟩
    (show Path.isAbsolute ⟨"/repo/pkg/core/x"⟩ = true by decide)
  have hinner := only_owner_is_named Mappings.workspace ⟨"/repo/pkg/core/a.ts"⟩
    (show Path.isAbsolute ⟨"/repo/pkg/core/x"⟩ = true by decide)
  refine ⟨hspecifier, houter.2.2.1.1 (by rw [hspecifier, Option.isSome_some]), ?_⟩
  rw [← hinner.2.2.1]
  decide +kernel

end Relocate
