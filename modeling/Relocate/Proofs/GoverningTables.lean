import Relocate.Proofs.RoundTrip

/-! # The table that governs a file

Configurations are registered one after the other, each with the directory that holds it, and a
directory keeps the preferred one of those it is given.  A file is governed by the table of the
nearest directory above it that has one.

Neither depends on the order of registration.  A directory may hold two configurations of one rank
only if they have the same path, so among configurations with distinct paths the preferred one of a
directory is the only one of its rank (`Resolver.DistinctConfigurations.eq`).  The directories above
a file are the proper beginnings of its path, of which no two have the same length, so the nearest
one with a configuration is the only one of its length (`Resolver.Governs.eq`).
-/

namespace Relocate

open Text

namespace Path

/-! ## The directory that holds a path -/

/-- The component that the start of a text stands for. -/
def leadParts : List Char → List Component
  | ['/'] => [.root]
  | ['.'] => [.here]
  | _ => []

theorem leadParts_cases (lead : List Char) :
    leadParts lead = [.root] ∨ leadParts lead = [.here] ∨ leadParts lead = [] := by
  unfold leadParts
  split
  · exact .inl rfl
  · exact .inr (.inl rfl)
  · exact .inr (.inr rfl)

theorem components_eq_leadParts (p : Path) :
    p.components = leadParts (leadAndPieces p.text.toList).1 ++
      (leadAndPieces p.text.toList).2.filterMap Component.ofPiece? := by
  rw [components]
  unfold componentsOf leadAndPieces
  split
  · rfl
  · split
    · rfl
    · rfl

/-- A text without a start of its own starts with a piece that counts. -/
def Leads (lead : List Char) (pieces : List (List Char)) : Prop :=
  lead = ['/'] ∨ lead = ['.'] ∨ lead = [] ∧ ∀ piece ∈ pieces.head?, isIdle piece = false

theorem Leads.of_prefix {lead : List Char} {pieces front : List (List Char)} (h : Leads lead pieces)
    (hpre : front <+: pieces) : Leads lead front := by
  rcases h with hroot | hhere | ⟨hnil, hhead⟩
  · exact .inl hroot
  · exact .inr (.inl hhere)
  · refine .inr (.inr ⟨hnil, fun piece hpiece => hhead piece ?_⟩)
    obtain ⟨rest, rfl⟩ := hpre
    rw [Option.mem_def] at hpiece ⊢
    rw [List.head?_append, hpiece, Option.some_or]

/-- Start and pieces come back from the path that they make up. -/
theorem components_ofPieces {lead : List Char} {pieces : List (List Char)}
    (hlead : Leads lead pieces) (hpieces : ∀ piece ∈ pieces, '/' ∉ piece) :
    (ofPieces lead pieces).components =
      leadParts lead ++ pieces.filterMap Component.ofPiece? := by
  cases pieces with
  | nil =>
    rcases hlead with rfl | rfl | ⟨rfl, -⟩
    · rfl
    · rfl
    · rfl
  | cons piece pieces =>
    have hsplit : splitAt '/' (['/'].intercalate (piece :: pieces)) = piece :: pieces :=
      splitAt_intercalate (by simp) hpieces
    rcases hlead with rfl | rfl | ⟨rfl, hhead⟩
    · have htext : (ofPieces ['/'] (piece :: pieces)).text.toList =
          '/' :: ['/'].intercalate (piece :: pieces) := by
        simp [ofPieces]
      rw [components, htext, componentsOf, hsplit]
      rfl
    · have htext : (ofPieces ['.'] (piece :: pieces)).text.toList =
          ['.'] ++ '/' :: ['/'].intercalate (piece :: pieces) := by
        simp [ofPieces]
      rw [components, htext, componentsOf_append (by simp), stepsIn, hsplit]
      rfl
    · have htext : (ofPieces [] (piece :: pieces)).text.toList =
          ['/'].intercalate (piece :: pieces) := by
        simp [ofPieces]
      rw [components, htext, componentsOf_of_split hsplit (hhead piece rfl)]
      rfl

theorem withoutIdleEnd_isPrefix (pieces : List (List Char)) : withoutIdleEnd pieces <+: pieces := by
  have hsuffix := List.dropWhile_suffix (l := pieces.reverse) isIdle
  rw [← List.reverse_prefix] at hsuffix
  rwa [List.reverse_reverse] at hsuffix

theorem filterMap_withoutIdleEnd (pieces : List (List Char)) :
    (withoutIdleEnd pieces).filterMap Component.ofPiece? =
      pieces.filterMap Component.ofPiece? := by
  induction pieces using List.reverseRecOn with
  | nil => rfl
  | append_singleton pieces last ih =>
    cases hlast : isIdle last with
    | false => simp [withoutIdleEnd, hlast]
    | true =>
      have hnone : Component.ofPiece? last = none := by simpa [isIdle] using hlast
      have hdrop : withoutIdleEnd (pieces ++ [last]) = withoutIdleEnd pieces := by
        simp [withoutIdleEnd, hlast]
      rw [hdrop, ih, List.filterMap_append, List.filterMap_cons_none hnone, List.filterMap_nil,
        List.append_nil]

/-- The last of the pieces that are kept counts. -/
theorem exists_component_of_last {pieces front : List (List Char)} {last : List Char}
    (h : withoutIdleEnd pieces = front ++ [last]) :
    ∃ part, Component.ofPiece? last = some part := by
  have hreverse : pieces.reverse.dropWhile isIdle = last :: front.reverse := by
    rw [← List.reverse_reverse (pieces.reverse.dropWhile isIdle), ← withoutIdleEnd, h]
    simp
  have hcounts := List.head?_dropWhile_not isIdle pieces.reverse
  rw [hreverse] at hcounts
  exact Option.isSome_iff_exists.1 (by simpa [isIdle] using hcounts)

theorem isIdle_iff {piece : List Char} : isIdle piece = true ↔ piece = [] ∨ piece = ['.'] := by
  rw [isIdle, Option.isNone_iff_eq_none]
  unfold Component.ofPiece?
  split
  · simp
  · simp
  · simp
  · rename_i hnil hdot _
    exact iff_of_false (by simp) (not_or.2 ⟨hnil, hdot⟩)

/-- How a text starts, once the pieces at its end that do not count are left out. -/
theorem leads_leadAndPieces (chars : List Char) :
    Leads (leadAndPieces chars).1 (withoutIdleEnd (leadAndPieces chars).2) := by
  unfold leadAndPieces
  split
  · exact .inl rfl
  · rename_i hslash
    split
    · exact .inr (.inl rfl)
    · rename_i hdot
      refine .inr (.inr ⟨rfl, fun piece hpiece => ?_⟩)
      obtain ⟨others, hothers⟩ := List.head?_eq_some_iff.1 hpiece
      obtain ⟨rest, hrest⟩ := withoutIdleEnd_isPrefix (splitAt '/' chars)
      have hsplit : splitAt '/' chars = piece :: (others ++ rest) := by
        rw [← hrest, hothers, List.cons_append]
      rw [Bool.eq_false_iff]
      intro hidle
      rcases isIdle_iff.1 hidle with rfl | rfl
      · cases chars with
        | nil =>
          have hnone : withoutIdleEnd (splitAt '/' []) = [] := rfl
          rw [hnone] at hothers
          simp at hothers
        | cons c chars =>
          have hc : (c == '/') = false := by simpa using fun heq => hslash chars (by rw [heq])
          rw [splitAt, hc, if_neg (by simp)] at hsplit
          split at hsplit
          · simp at hsplit
          · simp at hsplit
      · exact hdot _ hsplit

theorem no_separator_leadAndPieces (chars : List Char) :
    ∀ piece ∈ (leadAndPieces chars).2, '/' ∉ piece := by
  intro piece hpiece
  unfold leadAndPieces at hpiece
  split at hpiece
  · exact not_mem_of_mem_splitAt hpiece
  · split at hpiece
    · rename_i pieces hsplit
      exact not_mem_of_mem_splitAt (hsplit ▸ List.mem_cons_of_mem _ hpiece)
    · exact not_mem_of_mem_splitAt hpiece

/-- **The components of the directory that holds a path** are those of the path but the last. -/
theorem components_parent? {p dir : Path} (h : p.parent? = some dir) :
    dir.components = p.components.dropLast := by
  have hleads := leads_leadAndPieces p.text.toList
  have hpieces := no_separator_leadAndPieces p.text.toList
  have hparts := p.components_eq_leadParts
  rw [← filterMap_withoutIdleEnd] at hparts
  unfold parent? at h
  generalize leadAndPieces p.text.toList = start at h hleads hpieces hparts
  dsimp only at h
  split at h
  · rename_i hnil hdot
    rw [hparts, hnil, hdot, ← Option.some.inj h]
    rfl
  · simp at h
  · rename_i hne _
    obtain hnil | ⟨front, last, hkept⟩ := List.eq_nil_or_concat' (withoutIdleEnd start.2)
    · exact absurd hnil (by simpa using hne)
    · obtain ⟨part, hpart⟩ := exists_component_of_last hkept
      have hfront : front <+: withoutIdleEnd start.2 := hkept ▸ List.prefix_append _ _
      have hkeep := withoutIdleEnd_isPrefix front
      have hmem := (hkeep.trans (hfront.trans (withoutIdleEnd_isPrefix start.2))).subset
      rw [hkept, List.dropLast_concat] at h
      rw [← Option.some.inj h, components_ofPieces (hleads.of_prefix (hkeep.trans hfront))
        fun piece hpiece => hpieces piece (hmem hpiece), filterMap_withoutIdleEnd, hparts, hkept,
        List.filterMap_append, List.filterMap_cons_some hpart, List.filterMap_nil,
        ← List.append_assoc, List.dropLast_concat]

theorem isSome_parent? {p : Path} {name : String} (h : p.fileName? = some name) :
    p.parent?.isSome = true := by
  have hparts := p.components_eq_leadParts
  rw [← filterMap_withoutIdleEnd] at hparts
  unfold parent?
  generalize leadAndPieces p.text.toList = start at hparts
  dsimp only
  split
  · rfl
  · -- a start alone is no name
    rename_i hnil _
    rw [hnil, List.filterMap_nil, List.append_nil] at hparts
    rw [fileName?, hparts] at h
    rcases leadParts_cases start.1 with hlead | hlead | hlead
    · simp [hlead] at h
    · simp [hlead] at h
    · simp [hlead] at h
  · rfl

/-- A path that ends in a name is that of its directory and the name. -/
theorem components_of_fileName? {p : Path} {name : String} (h : p.fileName? = some name) :
    p.components = (p.parent?.getD top).components ++ [.name name] := by
  obtain ⟨dir, hdir⟩ := Option.isSome_iff_exists.1 (isSome_parent? h)
  have hlast : p.components.getLast? = some (.name name) := by
    unfold fileName? at h
    split at h
    · rename_i text hlast
      rw [hlast, Option.some.inj h]
    · simp at h
  obtain ⟨front, hfront⟩ := List.getLast?_eq_some_iff.1 hlast
  rw [hdir, Option.getD_some, components_parent? hdir, hfront, List.dropLast_concat]

/-! ## The directories above a path -/

/-- The directory lies above the path: the path goes on where it ends. -/
def IsAbove (dir path : Path) : Prop :=
  dir.isAbsolute = path.isAbsolute ∧ dir.components <+: path.components ∧
    dir.components ≠ path.components

/-- The components of an absolute path come back from its plainest form. -/
theorem components_ofComponents_root {steps : List Component}
    (h : ∀ part ∈ steps, part = .up ∨ ∃ name, part = .name name ∧ IsName name) :
    (ofComponents (.root :: steps)).components = .root :: steps := by
  have hof : ofComponents (.root :: steps) =
      ofPieces ['/'] (steps.map fun part => part.text.toList) := by
    apply congrArg Path.mk
    apply String.toList_inj.1
    simp [String.toList_intercalate, Function.comp_def]
  have hparts : (steps.map fun part => part.text.toList).filterMap Component.ofPiece? = steps := by
    rw [List.filterMap_map]
    refine (List.filterMap_congr fun part hpart => ?_).trans List.filterMap_some
    rcases h part hpart with rfl | ⟨name, rfl, hname⟩
    · rfl
    · exact Component.ofPiece?_toList hname
  rw [hof, components_ofPieces (.inl rfl), hparts]
  · rfl
  · intro piece hpiece
    obtain ⟨part, hpart, rfl⟩ := List.mem_map.1 hpiece
    rcases h part hpart with rfl | ⟨name, rfl, hname⟩
    · decide
    · exact hname.no_separator

theorem components_ofComponents_take {p : Path} (h : p.isAbsolute = true) {kept : Nat}
    (hkept : 0 < kept) :
    (ofComponents (p.components.take kept)).components = p.components.take kept := by
  obtain ⟨parts, hparts, hsteps⟩ := components_of_isAbsolute h
  obtain ⟨count, rfl⟩ := Nat.exists_eq_succ_of_ne_zero (Nat.ne_of_gt hkept)
  rw [hparts, List.take_succ_cons]
  exact components_ofComponents_root fun part hpart => hsteps part (List.mem_of_mem_take hpart)

theorem mem_ancestors {p dir : Path} (h : p.isAbsolute = true) (hdir : dir ∈ p.ancestors) :
    ∃ kept, 0 < kept ∧ kept < p.components.length ∧ dir.components = p.components.take kept := by
  obtain ⟨kept, hkept, hdir⟩ := List.mem_filterMap.1 hdir
  rw [List.mem_reverse, List.mem_range] at hkept
  rw [if_pos h] at hdir
  split at hdir
  · simp at hdir
  · refine ⟨kept, by omega, hkept, ?_⟩
    rw [← Option.some.inj hdir, components_ofComponents_take h (by omega)]

/-- Every directory above a path is found on the way up from it. -/
theorem exists_mem_ancestors {p dir : Path} (h : p.isAbsolute = true) (hdir : dir.IsAbove p) :
    ∃ above ∈ p.ancestors, (dir == above) = true := by
  obtain ⟨habsolute, hpre, hne⟩ := hdir
  have htake := List.prefix_iff_eq_take.1 hpre
  have hlength : dir.components.length < p.components.length :=
    Nat.lt_of_le_of_ne hpre.length_le fun heq => hne (hpre.eq_of_length heq)
  have hpositive : 0 < dir.components.length := by
    obtain ⟨parts, hparts, -⟩ := components_of_isAbsolute (habsolute.trans h)
    rw [hparts, List.length_cons]
    omega
  refine ⟨ofComponents (p.components.take dir.components.length), ?_, ?_⟩
  · refine List.mem_filterMap.2 ⟨dir.components.length, ?_, ?_⟩
    · rwa [List.mem_reverse, List.mem_range]
    · rw [if_pos h, if_neg (by omega)]
  · rw [beq_iff_components, components_ofComponents_take h hpositive]
    exact htake

theorem isAbove_of_mem_ancestors {p dir above : Path} (h : p.isAbsolute = true)
    (habove : above ∈ p.ancestors) (hdir : (dir == above) = true) : dir.IsAbove p := by
  obtain ⟨kept, hpositive, hkept, hparts⟩ := mem_ancestors h habove
  rw [beq_iff_components, hparts] at hdir
  have hpre : dir.components <+: p.components := hdir ▸ List.take_prefix _ _
  refine ⟨?_, hpre, ?_⟩
  · obtain ⟨parts, hroot, -⟩ := components_of_isAbsolute h
    obtain ⟨count, rfl⟩ := Nat.exists_eq_succ_of_ne_zero (Nat.ne_of_gt hpositive)
    rw [h, isAbsolute_iff_head?, hdir, hroot, List.take_succ_cons, List.head?_cons]
  · intro heq
    have hlength := congrArg List.length (hdir.symm.trans heq)
    rw [List.length_take] at hlength
    omega

/-- The way up goes from the longer to the shorter. -/
theorem ancestors_pairwise {p : Path} (h : p.isAbsolute = true) :
    p.ancestors.Pairwise fun a b => b.components.length < a.components.length := by
  refine List.Pairwise.filterMap _ ?_ (List.pairwise_reverse.2
    (List.pairwise_lt_range.imp_of_mem (S := fun a b => a < b ∧ b < p.components.length) ?_))
  · rintro longer shorter ⟨hlt, hlonger⟩ a ha b hb
    rw [if_pos h] at ha hb
    split at ha
    · simp at ha
    · split at hb
      · simp at hb
      · rw [← Option.some.inj ha, ← Option.some.inj hb,
          components_ofComponents_take h (by omega), components_ofComponents_take h (by omega),
          List.length_take, List.length_take]
        omega
  · intro a b _ hb hlt
    exact ⟨hlt, List.mem_range.1 hb⟩

end Path

theorem AliasTable.components_configPath {table : AliasTable} {name : String}
    (h : table.configPath.fileName? = some name) :
    table.configPath.components = table.configDir.components ++ [.name name] :=
  Path.components_of_fileName? h

namespace Resolver

/-! ## Registering configurations -/

/-- The resolver with the configurations registered, one after the other. -/
def addTables (r : Resolver) (tables : List AliasTable) : Resolver := tables.foldl addTable r

theorem addTables_concat (r : Resolver) (tables : List AliasTable) (table : AliasTable) :
    r.addTables (tables ++ [table]) = (r.addTables tables).addTable table := by
  rw [addTables, List.foldl_append, List.foldl_cons, List.foldl_nil]
  rfl

/-- Of the configurations of the directory, none is preferred to this one. -/
structure Preferred (tables : List AliasTable) (dir : Path) (table : AliasTable) : Prop where
  mem : table ∈ tables
  held : (table.configDir == dir) = true
  first : ∀ other ∈ tables, (other.configDir == dir) = true → rank table ≤ rank other

/-- The directories have the tables that they should have of the configurations so far. -/
structure Registered (tables : List AliasTable) (r : Resolver) : Prop where
  preferred : ∀ dir table, r.tables.get? dir = some table → Preferred tables dir table
  none_of : ∀ dir, r.tables.get? dir = none →
    ∀ table ∈ tables, (table.configDir == dir) = false

variable {r : Resolver} {tables tables' : List AliasTable} {table table' : AliasTable}
  {dir file : Path}

theorem get?_addTable_of_ne (h : (table.configDir == dir) = false) :
    (r.addTable table).tables.get? dir = r.tables.get? dir := by
  unfold addTable
  split
  · split
    · rfl
    · rw [Ordered.get?_put, h, if_neg (by simp)]
  · rw [Ordered.get?_put, h, if_neg (by simp)]

/-- What the directory of a configuration has once it is registered. -/
theorem get?_addTable_cases (h : (table.configDir == dir) = true) :
    (r.tables.get? dir = none ∧ (r.addTable table).tables.get? dir = some table) ∨
      ∃ old, r.tables.get? dir = some old ∧
        (rank old ≤ rank table ∧ (r.addTable table).tables.get? dir = some old ∨
          rank table < rank old ∧ (r.addTable table).tables.get? dir = some table) := by
  rw [← Ordered.get?_congr _ h, ← Ordered.get?_congr _ h]
  unfold addTable
  cases hold : r.tables.get? table.configDir with
  | none => exact .inl ⟨rfl, by rw [Ordered.get?_put, if_pos BEq.rfl]⟩
  | some old =>
    refine .inr ⟨old, rfl, ?_⟩
    dsimp only
    by_cases hrank : rank old ≤ rank table
    · exact .inl ⟨hrank, by rw [if_pos hrank, hold]⟩
    · refine .inr ⟨Nat.lt_of_not_le hrank, ?_⟩
      rw [if_neg hrank, Ordered.get?_put, if_pos BEq.rfl]

/-- One more configuration. -/
theorem Registered.addTable (h : Registered tables r) (table : AliasTable) :
    Registered (tables ++ [table]) (r.addTable table) := by
  have hconcat : ∀ {P : AliasTable → Prop}, (∀ other ∈ tables, P other) → P table →
      ∀ other ∈ tables ++ [table], P other := fun htables htable =>
    List.forall_mem_append.2 ⟨htables, List.forall_mem_singleton.2 htable⟩
  have hmem : ∀ {other : AliasTable}, other ∈ tables → other ∈ tables ++ [table] :=
    List.mem_append_left _
  constructor
  · intro dir found hfound
    cases hdir : table.configDir == dir with
    | false =>
      rw [get?_addTable_of_ne hdir] at hfound
      obtain ⟨hfound, hheld, hfirst⟩ := h.preferred dir found hfound
      exact ⟨hmem hfound, hheld, hconcat hfirst fun htable => by simp [hdir] at htable⟩
    | true =>
      rcases get?_addTable_cases (r := r) hdir with
        ⟨hnone, hnew⟩ | ⟨old, hold, ⟨hrank, hnew⟩ | ⟨hrank, hnew⟩⟩
      · obtain rfl : table = found := Option.some.inj (hnew.symm.trans hfound)
        have hothers := h.none_of dir hnone
        refine ⟨by simp, hdir, hconcat (fun other hother hheld => ?_) fun _ => Nat.le_refl _⟩
        rw [hothers other hother] at hheld
        exact Bool.noConfusion hheld
      · obtain rfl : old = found := Option.some.inj (hnew.symm.trans hfound)
        obtain ⟨hold, hheld, hfirst⟩ := h.preferred dir old hold
        exact ⟨hmem hold, hheld, hconcat hfirst fun _ => hrank⟩
      · obtain rfl : table = found := Option.some.inj (hnew.symm.trans hfound)
        obtain ⟨-, -, hfirst⟩ := h.preferred dir old hold
        refine ⟨by simp, hdir, hconcat (fun other hother hheld => ?_) fun _ => Nat.le_refl _⟩
        exact Nat.le_trans (Nat.le_of_lt hrank) (hfirst other hother hheld)
  · intro dir hnone
    cases hdir : table.configDir == dir with
    | false =>
      rw [get?_addTable_of_ne hdir] at hnone
      exact hconcat (h.none_of dir hnone) hdir
    | true =>
      rcases get?_addTable_cases (r := r) hdir with
        ⟨-, hnew⟩ | ⟨old, -, ⟨-, hnew⟩ | ⟨-, hnew⟩⟩
      · simp [hnew] at hnone
      · simp [hnew] at hnone
      · simp [hnew] at hnone

theorem registered_addTables (hr : r.tables = []) (tables : List AliasTable) :
    Registered tables (r.addTables tables) := by
  induction tables using List.reverseRecOn with
  | nil =>
    have hnone : ∀ dir, (r.addTables []).tables.get? dir = none := by
      intro dir
      rw [addTables, List.foldl_nil, hr]
      rfl
    exact ⟨fun dir table htable => by simp [hnone] at htable,
      fun dir _ table htable => by simp at htable⟩
  | append_singleton tables table ih =>
    rw [addTables_concat]
    exact ih.addTable table

theorem addTables_known (r : Resolver) (tables : List AliasTable) :
    (r.addTables tables).known = r.known ∧ (r.addTables tables).packages = r.packages := by
  induction tables using List.reverseRecOn with
  | nil => exact ⟨rfl, rfl⟩
  | append_singleton tables table ih =>
    rw [addTables_concat, addTable]
    split
    · split
      · exact ih
      · exact ih
    · exact ih

/-! ## The nearest configuration -/

/-- Configurations with distinct paths, each with a name that configurations have. -/
structure DistinctConfigurations (tables : List AliasTable) : Prop where
  distinct : tables.Pairwise fun a b => (a.configPath == b.configPath) = false
  named : ∀ table ∈ tables, table.configPath.fileName? = some "tsconfig.json" ∨
    table.configPath.fileName? = some "tsconfig.build.json"

/-- The configuration governs the file: its directory is the deepest one above the file that holds
any, and it has the preferred name if one of that directory has. -/
structure Governs (tables : List AliasTable) (file : Path) (table : AliasTable) : Prop where
  mem : table ∈ tables
  above : table.configDir.IsAbove file
  deepest : ∀ other ∈ tables, other.configDir.IsAbove file →
    other.configDir.components.length ≤ table.configDir.components.length
  preferred : table.configPath.fileName? = some "tsconfig.json" ∨
    table.configPath.fileName? = some "tsconfig.build.json" ∧
      ∀ other ∈ tables, (other.configDir == table.configDir) = true →
        other.configPath.fileName? ≠ some "tsconfig.json"

theorem DistinctConfigurations.perm (h : DistinctConfigurations tables)
    (hperm : tables.Perm tables') : DistinctConfigurations tables' := by
  refine ⟨(hperm.pairwise_iff fun hne => ?_).1 h.distinct,
    fun table htable => h.named table (hperm.mem_iff.2 htable)⟩
  rw [BEq.comm]
  exact hne

/-- No two configurations of a directory have the same name. -/
theorem DistinctConfigurations.eq (h : DistinctConfigurations tables) (htable : table ∈ tables)
    (htable' : table' ∈ tables) (hdir : (table.configDir == table'.configDir) = true)
    (hname : table.configPath.fileName? = table'.configPath.fileName?) : table = table' := by
  obtain ⟨name, hname'⟩ : ∃ name, table.configPath.fileName? = some name := by
    rcases h.named table htable with hnamed | hnamed
    · exact ⟨_, hnamed⟩
    · exact ⟨_, hnamed⟩
  have hpath : (table.configPath == table'.configPath) = true := by
    rw [Path.beq_iff_components] at hdir ⊢
    rw [AliasTable.components_configPath hname', hdir,
      AliasTable.components_configPath (hname.symm.trans hname')]
  obtain ⟨front, back, rfl⟩ := List.append_of_mem htable
  obtain ⟨-, hback, hfront⟩ := List.pairwise_append.1 h.distinct
  rcases List.mem_append.1 htable' with hmem | hmem
  · have hdiffer := hfront table' hmem table List.mem_cons_self
    rw [BEq.comm, hpath] at hdiffer
    exact Bool.noConfusion hdiffer
  · rcases List.mem_cons.1 hmem with rfl | hmem
    · rfl
    · have hdiffer := (List.pairwise_cons.1 hback).1 table' hmem
      rw [hpath] at hdiffer
      exact Bool.noConfusion hdiffer

/-- What has a rank has the preferred name, unless no configuration of the directory has. -/
theorem Preferred.named (h : DistinctConfigurations tables)
    (hpreferred : Preferred tables dir table) :
    table.configPath.fileName? = some "tsconfig.json" ∨
      table.configPath.fileName? = some "tsconfig.build.json" ∧
        ∀ other ∈ tables, (other.configDir == table.configDir) = true →
          other.configPath.fileName? ≠ some "tsconfig.json" := by
  refine (h.named table hpreferred.mem).imp id fun hbuild => ⟨hbuild, fun other hother hsame => ?_⟩
  intro hmain
  have hle := hpreferred.first other hother (BEq.trans hsame hpreferred.held)
  have hrank : rank table = 1 := by rw [rank, hbuild]; rfl
  have hrank' : rank other = 0 := by rw [rank, hmain]; rfl
  omega

theorem Governs.eq (h : DistinctConfigurations tables) (hgoverns : Governs tables file table)
    (hgoverns' : Governs tables file table') : table = table' := by
  have hlength : table.configDir.components.length = table'.configDir.components.length :=
    Nat.le_antisymm (hgoverns'.deepest table hgoverns.mem hgoverns.above)
      (hgoverns.deepest table' hgoverns'.mem hgoverns'.above)
  have hdir : (table.configDir == table'.configDir) = true := by
    rw [Path.beq_iff_components]
    exact (List.prefix_of_prefix_length_le hgoverns.above.2.1 hgoverns'.above.2.1
      (Nat.le_of_eq hlength)).eq_of_length hlength
  refine h.eq hgoverns.mem hgoverns'.mem hdir ?_
  rcases hgoverns.preferred with hmain | ⟨hbuild, hnone⟩
  · rcases hgoverns'.preferred with hmain' | ⟨-, hnone'⟩
    · rw [hmain, hmain']
    · exact absurd hmain (hnone' table hgoverns.mem hdir)
  · rcases hgoverns'.preferred with hmain' | ⟨hbuild', -⟩
    · exact absurd hmain' (hnone table' hgoverns'.mem (BEq.symm hdir))
    · rw [hbuild, hbuild']

/-- No table governs a file if no configuration lies above it, and only then. -/
theorem nearestTable?_eq_none_iff (hregistered : Registered tables r)
    (hfile : file.isAbsolute = true) :
    r.nearestTable? file = none ↔ ∀ table ∈ tables, ¬ table.configDir.IsAbove file := by
  rw [nearestTable?, List.findSome?_eq_none_iff]
  constructor
  · intro h table htable habove
    obtain ⟨dir, hdir, hsame⟩ := Path.exists_mem_ancestors hfile habove
    have hnone := hregistered.none_of dir (h dir hdir) table htable
    rw [hsame] at hnone
    exact Bool.noConfusion hnone
  · intro h dir hdir
    cases hget : r.tables.get? dir with
    | none => rfl
    | some table =>
      obtain ⟨hmem, hheld, -⟩ := hregistered.preferred dir table hget
      exact absurd (Path.isAbove_of_mem_ancestors hfile hdir hheld) (h table hmem)

/-- The nearest table governs the file. -/
theorem governs_of_nearestTable? (h : DistinctConfigurations tables)
    (hregistered : Registered tables r) (hfile : file.isAbsolute = true)
    (hnearest : r.nearestTable? file = some table) :
    Governs tables file table := by
  obtain ⟨nearer, dir, farther, hancestors, hget, hnearer⟩ := List.findSome?_eq_some_iff.1 hnearest
  have hpreferred := hregistered.preferred dir table hget
  have hdir : dir ∈ file.ancestors := by rw [hancestors]; simp
  refine ⟨hpreferred.mem, Path.isAbove_of_mem_ancestors hfile hdir hpreferred.held, ?_,
    hpreferred.named h⟩
  intro other hother habove
  obtain ⟨dir', hdir', hsame⟩ := Path.exists_mem_ancestors hfile habove
  rw [Path.beq_iff_components.1 hpreferred.held, Path.beq_iff_components.1 hsame]
  have hpairwise := Path.ancestors_pairwise hfile
  rw [hancestors, List.pairwise_append] at hpairwise
  rw [hancestors] at hdir'
  rcases List.mem_append.1 hdir' with hmem | hmem
  · -- a nearer directory has no configuration
    have hnone := hregistered.none_of dir' (hnearer dir' hmem) other hother
    rw [hsame] at hnone
    exact Bool.noConfusion hnone
  · rcases List.mem_cons.1 hmem with rfl | hmem
    · exact Nat.le_refl _
    · exact Nat.le_of_lt ((List.pairwise_cons.1 hpairwise.2.1).1 dir' hmem)

/-- **The nearest table is the one that governs.** -/
theorem nearestTable?_eq_some_iff (h : DistinctConfigurations tables)
    (hregistered : Registered tables r) (hfile : file.isAbsolute = true) :
    r.nearestTable? file = some table ↔ Governs tables file table := by
  refine ⟨governs_of_nearestTable? h hregistered hfile, fun hgoverns => ?_⟩
  cases hnearest : r.nearestTable? file with
  | none =>
    exact absurd hgoverns.above
      ((nearestTable?_eq_none_iff hregistered hfile).1 hnearest table hgoverns.mem)
  | some found =>
    rw [(governs_of_nearestTable? h hregistered hfile hnearest).eq h hgoverns]

theorem governs_perm (hperm : tables.Perm tables') :
    Governs tables file table ↔ Governs tables' file table := by
  constructor
  · rintro ⟨hmem, habove, hdeepest, hpreferred⟩
    simp only [hperm.mem_iff] at hmem hdeepest hpreferred
    exact ⟨hmem, habove, hdeepest, hpreferred⟩
  · rintro ⟨hmem, habove, hdeepest, hpreferred⟩
    simp only [← hperm.mem_iff] at hmem hdeepest hpreferred
    exact ⟨hmem, habove, hdeepest, hpreferred⟩

/-! ## What depends on the nearest configuration only -/

variable {r' : Resolver}

theorem resolvePath?_congr (hknown : r.known = r'.known) (hpackages : r.packages = r'.packages)
    (h : r.nearestTable? file = r'.nearestTable? file) (disk : Disk) (specifier : String) :
    r.resolvePath? disk file specifier = r'.resolvePath? disk file specifier := by
  have hpattern : ∀ pattern, r.patternPath? disk pattern specifier =
      r'.patternPath? disk pattern specifier := by
    intro pattern
    rw [patternPath?, patternPath?, hknown]
  have halias : r.aliasPath? disk file specifier = r'.aliasPath? disk file specifier := by
    rw [aliasPath?, aliasPath?, h]
    simp only [hpattern]
  rw [resolvePath?, resolvePath?, halias, hpackages]

theorem specifierFor_congr (hpackages : r.packages = r'.packages)
    (h : r.nearestTable? file = r'.nearestTable? file) (target : Path) :
    r.specifierFor file target = r'.specifierFor file target := by
  rw [specifierFor, specifierFor, hpackages, h]

end Resolver

/-- **The table that governs a file does not depend on the order of registration.**  It is the
configuration of the deepest directory above the file that holds any, and of two in that directory
the preferred one.  So what specifiers mean in the file and which are written in it does not depend
on that order either. -/
theorem governing_table_is_nearest_configuration (known : Extensions) (packages : Packages)
    {tables : List AliasTable} (h : Resolver.DistinctConfigurations tables) {file : Path}
    (hfile : file.isAbsolute = true) :
    (∀ table, (Resolver.addTables ⟨known, [], packages⟩ tables).nearestTable? file = some table ↔
      Resolver.Governs tables file table) ∧
    ((Resolver.addTables ⟨known, [], packages⟩ tables).nearestTable? file = none ↔
      ∀ table ∈ tables, ¬ table.configDir.IsAbove file) ∧
    ∀ tables', tables.Perm tables' →
      (Resolver.addTables ⟨known, [], packages⟩ tables).nearestTable? file =
        (Resolver.addTables ⟨known, [], packages⟩ tables').nearestTable? file ∧
      (∀ disk specifier,
        (Resolver.addTables ⟨known, [], packages⟩ tables).resolvePath? disk file specifier =
          (Resolver.addTables ⟨known, [], packages⟩ tables').resolvePath? disk file specifier) ∧
      ∀ target,
        (Resolver.addTables ⟨known, [], packages⟩ tables).specifierFor file target =
          (Resolver.addTables ⟨known, [], packages⟩ tables').specifierFor file target := by
  have hregistered := fun tables =>
    Resolver.registered_addTables (r := ⟨known, [], packages⟩) rfl tables
  refine ⟨fun table => Resolver.nearestTable?_eq_some_iff h (hregistered tables) hfile,
    Resolver.nearestTable?_eq_none_iff (hregistered tables) hfile, fun tables' hperm => ?_⟩
  have hnearest : (Resolver.addTables ⟨known, [], packages⟩ tables).nearestTable? file =
      (Resolver.addTables ⟨known, [], packages⟩ tables').nearestTable? file := by
    apply Option.ext
    intro table
    rw [Resolver.nearestTable?_eq_some_iff h (hregistered tables) hfile,
      Resolver.nearestTable?_eq_some_iff (h.perm hperm) (hregistered tables') hfile,
      Resolver.governs_perm hperm]
  obtain ⟨hknown, hpackages⟩ := Resolver.addTables_known ⟨known, [], packages⟩ tables
  obtain ⟨hknown', hpackages'⟩ := Resolver.addTables_known ⟨known, [], packages⟩ tables'
  have hsame := hpackages.trans hpackages'.symm
  exact ⟨hnearest, Resolver.resolvePath?_congr (hknown.trans hknown'.symm) hsame hnearest,
    Resolver.specifierFor_congr hsame hnearest⟩

namespace Mappings

/-- The second configuration of a directory. -/
def buildTable : AliasTable := ⟨⟨"/p/tsconfig.build.json"⟩, ⟨"/p"⟩, [⟨"@/", [⟨"/p/dist"⟩]⟩]⟩

/-- The preferred one of the same directory. -/
def mainTable : AliasTable := ⟨⟨"/p/./tsconfig.json"⟩, ⟨"/p"⟩, [⟨"@/", [⟨"/p/src"⟩]⟩]⟩

/-- The only one of a directory in it. -/
def innerTable : AliasTable := ⟨⟨"/p/web/tsconfig.build.json"⟩, ⟨"/p/web"⟩, [⟨"@/", [⟨"/p/web"⟩]⟩]⟩

/-- All three, the preferred one behind the other. -/
def configurations : List AliasTable := [buildTable, mainTable, innerTable]

theorem distinctConfigurations : Resolver.DistinctConfigurations configurations := by
  refine ⟨by decide +kernel, ?_⟩
  rw [configurations, List.forall_mem_cons, List.forall_mem_cons, List.forall_mem_singleton]
  exact ⟨.inr (by decide +kernel), .inl (by decide +kernel), .inr (by decide +kernel)⟩

end Mappings

/-- The preferred configuration may come first or last in its directory, and a directory with a
configuration of its own does not see it. -/
theorem governing_table_is_nearest_configuration_beside_build :
    Resolver.Governs Mappings.configurations ⟨"/p/src/a.ts"⟩ Mappings.mainTable ∧
      Resolver.Governs Mappings.configurations ⟨"/p/web/src/a.ts"⟩ Mappings.innerTable ∧
      (Resolver.addTables ⟨.standard, [], .none⟩ Mappings.configurations.reverse).nearestTable?
        ⟨"/p/src/a.ts"⟩ = some Mappings.mainTable ∧
      (Resolver.addTables ⟨.standard, [], .none⟩ Mappings.configurations.reverse).specifierFor
        ⟨"/p/web/src/a.ts"⟩ ⟨"/p/web/b"⟩ = "@/b" := by
  have houter := governing_table_is_nearest_configuration .standard .none
    Mappings.distinctConfigurations (show Path.isAbsolute ⟨"/p/src/a.ts"⟩ = true by decide)
  have hinner := governing_table_is_nearest_configuration .standard .none
    Mappings.distinctConfigurations (show Path.isAbsolute ⟨"/p/web/src/a.ts"⟩ = true by decide)
  have hmain : (Resolver.addTables ⟨.standard, [], .none⟩ Mappings.configurations).nearestTable?
      ⟨"/p/src/a.ts"⟩ = some Mappings.mainTable := by decide +kernel
  obtain ⟨houter', -, -⟩ := houter.2.2 _ (List.reverse_perm _).symm
  obtain ⟨-, -, hinner'⟩ := hinner.2.2 _ (List.reverse_perm _).symm
  refine ⟨(houter.1 _).1 hmain, (hinner.1 _).1 (by decide +kernel), houter'.symm.trans hmain, ?_⟩
  rw [← hinner']
  decide +kernel

end Relocate
