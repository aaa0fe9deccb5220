import Relocate.Disk.FileSystem
import Relocate.Proofs.Trees

/-! # Operations on the paths of places

On a disk that is a tree, a path of a place leads to that place if anywhere, and so each operation
on such a path is a change at that place.  The statements are about operations that succeed; one
that fails leaves the files as they were, which `FileSystem.Faithful` asks of any file system and
`FileSystem.plain_faithful` proves of the plain one.
-/

namespace Relocate.Disk

open Text Relocate.Path

variable {d d' : Disk} {place : Location}

/-! ## Following the path of a place -/

theorem startOf_ofPlace (d : Disk) (place : Location) : d.startOf (ofPlace place) = [] := by
  simp [startOf, isAbsolute_ofPlace]

/-- The pieces of a place's path: an empty one before the first separator, then the names. -/
theorem splitAt_ofPlace (h : Plain place) (hne : place ≠ []) :
    splitAt '/' (ofPlace place).text.toList = [] :: place.map String.toList := by
  rw [toList_ofPlace]
  have hsplit : splitAt '/' ([] ++ '/' :: ['/'].intercalate (place.map String.toList)) = _ :=
    splitAt_append_cons (by simp) _
  rw [splitAt_place h hne] at hsplit
  exact hsplit

theorem map_ofPiece?_getD (h : Plain place) :
    (place.map String.toList).map (fun piece => (Component.ofPiece? piece).getD .here) =
      place.map .name := by
  rw [List.map_map]
  refine List.map_congr_left ?_
  intro name hname
  simp [Component.ofPiece?_toList (h name hname)]

theorem stepsOf_ofPlace (h : Plain place) (hne : place ≠ []) :
    stepsOf (ofPlace place) = .here :: place.map .name := by
  rw [stepsOf, splitAt_ofPlace h hne, List.map_cons, map_ofPiece?_getD h]
  rfl

theorem follow_append (d : Disk) (start : Location) (parts parts' : List Component) :
    d.follow start (parts ++ parts') =
      (d.follow start parts).bind fun place => d.follow place parts' := by
  induction parts generalizing start with
  | nil => rfl
  | cons part parts ih =>
    simp only [List.cons_append, follow]
    split
    · rfl
    · rfl
    · split
      · rfl
      · exact ih _

/-- Names lead to the place they name. -/
theorem eq_of_follow_names {start found : Location}
    (h : d.follow start (place.map .name) = .ok found) : found = start ++ place := by
  induction place generalizing start with
  | nil => simpa [follow] using h.symm
  | cons name place ih =>
    simp only [List.map_cons, follow] at h
    split at h
    · simp at h
    · simp at h
    · split at h
      · simp at h
      · simpa [stepFrom] using ih h

/-- In a tree, the names of what there is lead there. -/
theorem IsTree.follow_names (h : d.IsTree) {start : Location} {entry : Entry}
    (he : d.entry? (start ++ place) = some entry) :
    d.follow start (place.map .name) = .ok (start ++ place) := by
  induction place generalizing start with
  | nil => simp [follow]
  | cons name place ih =>
    have hdir : d.entry? start = some .directory :=
      h.directory_of_prefix he (List.prefix_append _ _) (by simp)
    have hshort : isTooLong (.name name) = false := by
      have hname := h.entryName he name (by simp)
      simpa [isTooLong] using hname.short
    have he' : d.entry? ((start ++ [name]) ++ place) = some entry := by simpa using he
    have hrest := ih he'
    simp only [List.map_cons, follow, hdir, hshort, stepFrom, Bool.false_eq_true, if_false]
    rw [hrest]
    simp

/-- The path of a place is followed by its names. -/
theorem follow_of_locate_ofPlace {found : Location} (h : Plain place) (hne : place ≠ [])
    (hlocate : d.locate (ofPlace place) = .ok found) :
    d.follow [] (place.map .name) = .ok found := by
  cases hcheck : checkText (ofPlace place) with
  | error cause => simp [locate, hcheck, Except.bind] at hlocate
  | ok _ =>
    have htext : (ofPlace place).text ≠ "" := by
      intro heq
      have hlist := toList_ofPlace place
      rw [heq] at hlist
      simp at hlist
    simp only [locate, hcheck, Except.bind, htext, if_false, startOf_ofPlace,
      stepsOf_ofPlace h hne] at hlocate
    simpa only [follow, entry_nil, isTooLong, stepFrom, Bool.false_eq_true, if_false] using hlocate

/-- The path of a place leads to no other place. -/
theorem eq_of_locate_ofPlace {found : Location} (h : Plain place)
    (hlocate : d.locate (ofPlace place) = .ok found) : found = place := by
  by_cases hne : place = []
  · subst hne
    have hcheck : checkText (ofPlace []) = .ok () := rfl
    have htext : (ofPlace []).text = "/" := by decide
    have hsteps : stepsOf (ofPlace []) = [.here, .here] := by decide
    simp only [locate, hcheck, Except.bind, htext, hsteps, startOf_ofPlace] at hlocate
    simpa [follow, isTooLong, stepFrom] using hlocate.symm
  · simpa using eq_of_follow_names (follow_of_locate_ofPlace h hne hlocate)

/-- What the path of an entry leads to is in a directory. -/
theorem directory_of_locate_ofPlace {name : String} {found : Location}
    (h : Plain (place ++ [name])) (hlocate : d.locate (ofPlace (place ++ [name])) = .ok found) :
    d.entry? place = some .directory := by
  have hfollow := follow_of_locate_ofPlace h (by simp) hlocate
  rw [List.map_append, follow_append] at hfollow
  cases hplace : d.follow [] (place.map .name) with
  | error cause => simp [hplace, Except.bind] at hfollow
  | ok there =>
    obtain rfl : there = place := by simpa using eq_of_follow_names hplace
    simp only [hplace, Except.bind, List.map_cons, List.map_nil, follow] at hfollow
    split at hfollow
    · simp at hfollow
    · simp at hfollow
    · assumption

/-- In a tree, the path of a place that holds something leads there. -/
theorem IsTree.locate_ofPlace (h : d.IsTree) {entry : Entry} (he : d.entry? place = some entry)
    (hcheck : checkText (ofPlace place) = .ok ()) :
    d.locate (ofPlace place) = .ok place := by
  have hplain := h.plain he
  by_cases hne : place = []
  · subst hne
    have htext : (ofPlace []).text = "/" := by decide
    have hsteps : stepsOf (ofPlace []) = [.here, .here] := by decide
    simp only [locate, hcheck, Except.bind, htext, hsteps, startOf_ofPlace]
    simp [follow, isTooLong, stepFrom]
  · have htext : (ofPlace place).text ≠ "" := by
      intro heq
      have hlist := toList_ofPlace place
      rw [heq] at hlist
      simp at hlist
    simp only [locate, hcheck, Except.bind, htext, if_false, startOf_ofPlace,
      stepsOf_ofPlace hplain hne]
    simp only [follow, entry_nil, isTooLong, stepFrom, Bool.false_eq_true, if_false]
    have hfollow : d.follow [] (place.map .name) = .ok ([] ++ place) := h.follow_names he
    exact hfollow

/-- **What the path of a place leads to is what the place holds**, if the path can be written. -/
theorem IsTree.find_ofPlace (h : d.IsTree) (hplain : Plain place) {entry : Entry} :
    d.find (ofPlace place) = .ok entry ↔
      checkText (ofPlace place) = .ok () ∧ d.entry? place = some entry := by
  constructor
  · intro hfind
    cases hlocate : d.locate (ofPlace place) with
    | error cause => simp [find, hlocate, Except.bind] at hfind
    | ok found =>
      have hfound := eq_of_locate_ofPlace hplain hlocate
      subst hfound
      constructor
      · cases hcheck : checkText (ofPlace found) with
        | error cause => simp [locate, hcheck, Except.bind] at hlocate
        | ok _ => rfl
      · simp only [find, hlocate, Except.bind] at hfind
        split at hfind
        · simp at hfind
        · rename_i hentry
          simp only [Except.ok.injEq] at hfind
          rw [hentry, hfind]
  · rintro ⟨hcheck, he⟩
    simp [find, h.locate_ofPlace he hcheck, Except.bind, he]

/-- The path of the place is a text that the operating system accepts. -/
def Writable (place : Location) : Prop := checkText (ofPlace place) = .ok ()

theorem IsTree.contains_ofPlace (h : d.IsTree) (hplain : Plain place) :
    d.contains (ofPlace place) = true ↔ Writable place ∧ ∃ entry, d.entry? place = some entry := by
  constructor
  · intro hcontains
    cases hfind : d.find (ofPlace place) with
    | error cause => simp [contains, hfind, Except.isOk, Except.toBool] at hcontains
    | ok entry =>
      obtain ⟨hcheck, he⟩ := (h.find_ofPlace hplain).1 hfind
      exact ⟨hcheck, entry, he⟩
  · rintro ⟨hcheck, entry, he⟩
    simp [contains, (h.find_ofPlace hplain).2 ⟨hcheck, he⟩, Except.isOk, Except.toBool]

/-- A place that is not found is free, if its path can be looked up at all. -/
theorem IsTree.free_of_not_contains (h : d.IsTree) (hplain : Plain place)
    (hcontains : ¬ d.contains (ofPlace place) = true) (hwritable : Writable place) :
    d.entry? place = none := by
  rw [h.contains_ofPlace hplain] at hcontains
  cases he : d.entry? place with
  | none => rfl
  | some entry => exact absurd ⟨hwritable, entry, he⟩ hcontains

theorem IsTree.isDir_ofPlace (h : d.IsTree) (hplain : Plain place) :
    d.isDir (ofPlace place) = true ↔ Writable place ∧ d.entry? place = some .directory := by
  rw [Writable, ← h.find_ofPlace hplain, isDir]
  split
  · rename_i hfind
    simp [hfind]
  · rename_i hfind
    simp only [Bool.false_eq_true, false_iff]
    exact hfind

theorem IsTree.isFile_ofPlace (h : d.IsTree) (hplain : Plain place) :
    d.isFile (ofPlace place) = true ↔
      Writable place ∧ ∃ content, d.entry? place = some (.file content) := by
  rw [isFile]
  split
  · rename_i content hfind
    obtain ⟨hwritable, hentry⟩ := (h.find_ofPlace hplain).1 hfind
    exact ⟨fun _ => ⟨hwritable, content, hentry⟩, fun _ => rfl⟩
  · rename_i hfind
    simp only [Bool.false_eq_true, false_iff]
    rintro ⟨hwritable, content, hentry⟩
    exact hfind content ((h.find_ofPlace hplain).2 ⟨hwritable, hentry⟩)

theorem IsTree.readText_ofPlace (h : d.IsTree) (hplain : Plain place) {text : String} :
    d.readText (ofPlace place) = .ok text ↔
      Writable place ∧ d.entry? place = some (.file (.text text)) := by
  rw [Writable, ← h.find_ofPlace hplain, readText]
  split
  · rename_i hfind
    simp [hfind]
  · rename_i hfind
    simp [hfind]
  · rename_i hfind
    simp [hfind]
  · rename_i hfind
    simp [hfind]

/-! ## The last step of a path -/

variable {name : String}

theorem lastStep_ofPlace_concat (h : Plain (place ++ [name])) :
    lastStep (ofPlace (place ++ [name])) = (.here :: place.map .name, some name) := by
  have hname := h.last
  have hne : name.toList.isEmpty = false := by
    simpa [String.toList_eq_nil_iff] using hname.ne_empty
  have hpieces : (splitAt '/' (ofPlace (place ++ [name])).text.toList).reverse.dropWhile
      List.isEmpty = name.toList :: ((place.map String.toList).reverse ++ [[]]) := by
    rw [splitAt_ofPlace h (by simp)]
    simp [hne]
  simp only [lastStep, hpieces, Component.ofPiece?_toList hname]
  simp only [List.reverse_append, List.reverse_reverse, List.reverse_cons, List.reverse_nil,
    List.nil_append, List.cons_append, List.map_cons, map_ofPiece?_getD h.left]
  rfl

/-- In a tree, names lead into a directory exactly if they name one. -/
theorem IsTree.follow_here_iff (h : d.IsTree) {start found : Location} :
    d.follow start (place.map .name ++ [.here]) = .ok found ↔
      found = start ++ place ∧ d.entry? (start ++ place) = some .directory := by
  constructor
  · intro hfollow
    rw [follow_append] at hfollow
    cases hnames : d.follow start (place.map .name) with
    | error cause => simp [hnames, Except.bind] at hfollow
    | ok there =>
      have hthere := eq_of_follow_names hnames
      subst hthere
      simp only [hnames, Except.bind, follow] at hfollow
      split at hfollow
      · simp at hfollow
      · simp at hfollow
      · rename_i hdir
        have hfound : start ++ place = found := by simpa [isTooLong, stepFrom] using hfollow
        exact ⟨hfound.symm, hdir⟩
  · rintro ⟨rfl, hdir⟩
    rw [follow_append, h.follow_names hdir]
    simp [Except.bind, follow, hdir, isTooLong, stepFrom]

theorem IsTree.parentAndName_ofPlace (h : d.IsTree) (hplain : Plain (place ++ [name]))
    {found : Location × Option String} :
    d.parentAndName (ofPlace (place ++ [name])) = .ok found ↔
      found = (place, some name) ∧ d.entry? place = some .directory := by
  have hfollow : d.follow [] (.here :: place.map .name ++ [.here]) =
      d.follow [] (place.map .name ++ [.here]) := by
    simp [follow, isTooLong, stepFrom]
  simp only [parentAndName, lastStep_ofPlace_concat hplain, startOf_ofPlace, hfollow]
  constructor
  · intro hmap
    cases hthere : d.follow [] (place.map .name ++ [.here]) with
    | error cause => simp [hthere, Except.map] at hmap
    | ok there =>
      obtain ⟨hplace, hdir⟩ := h.follow_here_iff.1 hthere
      simp only [List.nil_append] at hplace hdir
      simp only [hthere, Except.map, Except.ok.injEq] at hmap
      exact ⟨by rw [← hmap, hplace], hdir⟩
  · rintro ⟨rfl, hdir⟩
    rw [h.follow_here_iff.2 ⟨rfl, by simpa using hdir⟩]
    simp [Except.map]

theorem parentAndName_ofPlace_nil (d : Disk) : d.parentAndName (ofPlace []) = .ok ([], none) := by
  have hlast : lastStep (ofPlace []) = ([], none) := by decide
  simp [parentAndName, hlast, startOf_ofPlace, follow, isTooLong, stepFrom, Except.map]

theorem endsOpen_ofPlace_concat (h : Plain (place ++ [name])) :
    endsOpen (ofPlace (place ++ [name])) = false := by
  obtain ⟨c, hc, hlast⟩ := getLast?_ofPlace_concat place h.last
  simpa [endsOpen, hlast] using hc

/-! ## Writing and reading -/

/-- A file that is there is written where it is. -/
theorem IsTree.writeText_ofPlace (h : d.IsTree) {content : Content} {text : String}
    (he : d.entry? place = some (.file content))
    (hok : (d.writeText (ofPlace place) text).1 = .ok ()) :
    (d.writeText (ofPlace place) text).2 = d.put place (.file (.text text)) := by
  have hplain := h.plain he
  have hplace : d.placeToWrite (ofPlace place) = d.locate (ofPlace place) := by
    obtain rfl | ⟨above, name, rfl⟩ := List.eq_nil_or_concat' place
    · simp at he
    · simp [placeToWrite, endsOpen_ofPlace_concat hplain]
  cases hlocate : d.locate (ofPlace place) with
  | error cause => simp [writeText, hplace, hlocate] at hok
  | ok there =>
    have hthere := eq_of_locate_ofPlace hplain hlocate
    subst hthere
    simp [writeText, hplace, hlocate, he]

theorem IsTree.put_file (h : d.IsTree) {content : Content} (content' : Content)
    (he : d.entry? place = some (.file content)) : (d.put place (.file content')).IsTree := by
  have hne : place ≠ [] := by
    rintro rfl
    simp at he
  exact h.put hne (h.entryName he) (h.parent he) (by simp [he])

/-- What is put in the place of a text is read from there. -/
theorem IsTree.readText_put (h : d.IsTree) (hplain : Plain place) {old : String}
    (hread : d.readText (ofPlace place) = .ok old) (text : String) :
    (d.put place (.file (.text text))).readText (ofPlace place) = .ok text := by
  obtain ⟨hwritable, he⟩ := (h.readText_ofPlace hplain).1 hread
  have hne : place ≠ [] := by
    rintro rfl
    simp at he
  refine ((h.put_file _ he).readText_ofPlace hplain).2 ⟨hwritable, ?_⟩
  rw [entry_put hne, if_pos rfl]

/-- The names in a directory are those of what is there. -/
theorem IsTree.mem_namesIn (h : d.IsTree) :
    name ∈ d.namesIn place ↔ ∃ entry, d.entry? (place ++ [name]) = some entry := by
  have hne : place ++ [name] ≠ [] := by simp
  simp only [namesIn, List.mem_mergeSort, List.mem_filterMap, h.entry_eq_some_iff hne]
  constructor
  · rintro ⟨⟨p, entry⟩, hmem, hname⟩
    cases hrest : List.isPrefixOf? place p with
    | none => simp [hrest] at hname
    | some rest =>
      have hp := List.isPrefixOf?_eq_some_iff_append_eq.1 hrest
      rcases rest with _ | ⟨first, _ | ⟨second, rest⟩⟩
      · simp [hrest] at hname
      · simp only [hrest, Option.some.injEq] at hname
        subst hname hp
        exact ⟨entry, hmem⟩
      · simp [hrest] at hname
  · rintro ⟨entry, hmem⟩
    refine ⟨(place ++ [name], entry), hmem, ?_⟩
    have hrest : List.isPrefixOf? place (place ++ [name]) = some [name] :=
      List.isPrefixOf?_eq_some_iff_append_eq.2 rfl
    simp [hrest]

/-- A directory holds each name once. -/
theorem IsTree.nodup_namesIn (h : d.IsTree) (place : Location) : (d.namesIn place).Nodup := by
  rw [namesIn, (List.mergeSort_perm _ _).nodup_iff]
  refine List.pairwise_filterMap.2 ((List.pairwise_map.1 h.distinct).imp ?_)
  rintro ⟨p, e⟩ ⟨p', e'⟩ hne name hname name' hname' heq
  dsimp only at hname hname'
  split at hname
  · rename_i hrest
    split at hname'
    · rename_i hrest'
      refine hne ?_
      change p = p'
      rw [← List.isPrefixOf?_eq_some_iff_append_eq.1 hrest,
        ← List.isPrefixOf?_eq_some_iff_append_eq.1 hrest', Option.some.inj hname,
        Option.some.inj hname', heq]
    · simp at hname'
  · simp at hname

theorem IsTree.isName_of_mem_namesIn (h : d.IsTree) (hname : name ∈ d.namesIn place) :
    IsName name := by
  obtain ⟨entry, he⟩ := h.mem_namesIn.1 hname
  exact (h.plain he).last

/-- What lies below a directory lies in one of the things it holds. -/
theorem IsTree.mem_namesIn_of_below (h : d.IsTree) {rest : Location} {entry : Entry}
    (he : d.entry? (place ++ name :: rest) = some entry) : name ∈ d.namesIn place := by
  refine h.mem_namesIn.2 ?_
  by_cases hrest : rest = []
  · subst hrest
    exact ⟨entry, he⟩
  · refine ⟨.directory, h.directory_of_prefix he ?_ ?_⟩
    · rw [List.prefix_append_right_inj]
      exact ⟨rest, rfl⟩
    · simpa using Ne.symm hrest

/-- What a directory holds can be read if its path can be handed to the operating system. -/
theorem IsTree.readDir_directory (h : d.IsTree) (hwritable : Writable place)
    (hdir : d.entry? place = some .directory) :
    d.readDir (ofPlace place) =
      .ok ((d.namesIn place).map fun name => ofPlace (place ++ [name])) := by
  have hfind := (h.find_ofPlace (h.plain hdir)).2 ⟨hwritable, hdir⟩
  have hlocate := h.locate_ofPlace hdir hwritable
  simp only [readDir, hfind, hlocate, Except.ok.injEq]
  refine List.map_congr_left ?_
  intro name hname
  exact join_ofPlace (h.plain hdir) (h.isName_of_mem_namesIn hname)

/-- Reading a directory gives the paths of what it holds. -/
theorem IsTree.readDir_ofPlace (h : d.IsTree) (hplain : Plain place) {paths : List Path}
    (hread : d.readDir (ofPlace place) = .ok paths) :
    d.entry? place = some .directory ∧
      paths = (d.namesIn place).map fun name => ofPlace (place ++ [name]) := by
  have hfind : d.find (ofPlace place) = .ok .directory := by
    unfold readDir at hread
    split at hread
    · assumption
    · simp at hread
    · simp at hread
  obtain ⟨hwritable, hdir⟩ := (h.find_ofPlace hplain).1 hfind
  rw [h.readDir_directory hwritable hdir] at hread
  exact ⟨hdir, (Except.ok.inj hread).symm⟩

/-- What is put away from a directory does not change the names in it. -/
theorem namesIn_put_outside {p : Location} (entry : Entry) (hfree : d.entries.lookup p = none)
    (hout : ¬ place <+: p) : (d.put p entry).namesIn place = d.namesIn place := by
  have hskip : List.isPrefixOf? place p = none := by
    rw [← Option.not_isSome_iff_eq_none, List.isSome_isPrefixOf?_eq_isPrefixOf]
    simpa using hout
  simp [namesIn, put, hfree, hskip]

/-! ## Making directories -/

/-- The disk has grown to another by directories on the way to a place. -/
structure Grown (place : Location) (d d' : Disk) : Prop where
  tree : d'.IsTree
  entries : ∀ q, d'.entry? q = d.entry? q ∨
    d.entry? q = none ∧ q <+: place ∧ d'.entry? q = some .directory

namespace Grown

theorem refl (h : d.IsTree) (place : Location) : Grown place d d := ⟨h, fun _ => .inl rfl⟩

theorem trans {d'' : Disk} (h : Grown place d d') (h' : Grown place d' d'') :
    Grown place d d'' := by
  refine ⟨h'.tree, ?_⟩
  intro q
  rcases h.entries q with hq | ⟨hq, hpre, hdir⟩
  · rw [← hq]
    exact h'.entries q
  · rcases h'.entries q with hq' | ⟨hq', _, _⟩
    · exact .inr ⟨hq, hpre, hq'.trans hdir⟩
    · simp [hdir] at hq'

theorem mono {above : Location} (h : Grown above d d') (hpre : above <+: place) :
    Grown place d d' := by
  refine ⟨h.tree, ?_⟩
  intro q
  rcases h.entries q with hq | ⟨hq, hq', hdir⟩
  · exact .inl hq
  · exact .inr ⟨hq, hq'.trans hpre, hdir⟩

/-- If the place itself is a directory by then, all places on the way are, and no other place has
changed. -/
theorem entry_eq (h : Grown place d d') (hdir : d'.entry? place = some .directory)
    (q : Location) :
    d'.entry? q = if q <+: place then some .directory else d.entry? q := by
  by_cases hpre : q <+: place
  · rw [if_pos hpre]
    by_cases heq : q = place
    · rw [heq, hdir]
    · exact h.tree.directory_of_prefix hdir hpre heq
  · rw [if_neg hpre]
    rcases h.entries q with hq | ⟨_, hpre', _⟩
    · exact hq
    · exact absurd hpre' hpre

end Grown

/-- The components of a place's path, given backwards. -/
def backwards (place : Location) : List Component := (place.map Component.name).reverse ++ [.root]

theorem backwards_concat (place : Location) (name : String) :
    backwards (place ++ [name]) = .name name :: backwards place := by
  simp [backwards]

theorem components_reverse_ofPlace (h : Plain place) :
    (ofPlace place).components.reverse = backwards place := by
  simp [h, backwards]

theorem IsTree.follow_backwards (h : d.IsTree) {found : Location} :
    d.follow [] ((backwards place).reverse ++ [.here]) = .ok found ↔
      found = place ∧ d.entry? place = some .directory := by
  have hfollow : d.follow [] ((backwards place).reverse ++ [.here]) =
      d.follow [] (place.map .name ++ [.here]) := by
    simp [backwards, follow, isTooLong, stepFrom]
  rw [hfollow, h.follow_here_iff]
  simp

theorem IsTree.leadsToDir_backwards (h : d.IsTree) :
    d.leadsToDir [] (backwards place) = true ↔ d.entry? place = some .directory := by
  unfold leadsToDir
  cases hfollow : d.follow [] ((backwards place).reverse ++ [.here]) with
  | error cause =>
    have hno : d.entry? place ≠ some .directory := by
      intro hdir
      have hok := h.follow_backwards.2 ⟨rfl, hdir⟩
      rw [hfollow] at hok
      simp at hok
    simp [Except.isOk, Except.toBool, hno]
  | ok found =>
    have hdir := (h.follow_backwards.1 hfollow).2
    simp [Except.isOk, Except.toBool, hdir]

/-- What an attempt to make the directory of a place leaves behind. -/
structure Made (place : Location) (d : Disk) (outcome : Outcome) : Prop where
  grown : Grown place d outcome.2
  directory : outcome.1 = .ok () → Disk.entry? outcome.2 place = some .directory

theorem IsTree.createDir_made (h : d.IsTree) (hplain : Plain place) :
    Made place d (d.createDir [] (backwards place)) := by
  obtain rfl | ⟨above, name, rfl⟩ := List.eq_nil_or_concat' place
  · have hcreate : (d.createDir [] (backwards [])).2 = d := by
      simp only [backwards, List.map_nil, List.reverse_nil, List.nil_append, createDir]
      split <;> rfl
    refine ⟨?_, ?_⟩
    · rw [hcreate]
      exact .refl h _
    · simp
  · rw [backwards_concat, createDir]
    split
    · exact ⟨.refl h _, by simp⟩
    · rename_i there hfollow
      obtain ⟨rfl, hdir⟩ := h.follow_backwards.1 hfollow
      split
      · exact ⟨.refl h _, by simp⟩
      · rename_i hshort
        split
        · exact ⟨.refl h _, by simp⟩
        · rename_i hfree
          have hne : there ++ [name] ≠ [] := by simp
          have hname : IsEntryName name := ⟨hplain.last, by simpa [isTooLong] using hshort⟩
          have hnames : ∀ n ∈ there ++ [name], IsEntryName n := by
            intro n hn
            rcases List.mem_append.1 hn with hn | hn
            · exact h.entryName hdir n hn
            · rw [List.mem_singleton.1 hn]
              exact hname
          refine ⟨⟨h.put hne hnames (by simpa using hdir) (by simp), ?_⟩, ?_⟩
          · intro q
            rw [entry_put hne]
            by_cases hq : q = there ++ [name]
            · subst hq
              exact .inr ⟨hfree, List.prefix_refl _, by simp⟩
            · exact .inl (by simp [hq])
          · simp [entry_put hne]

/-- What was grown before a directory is made counts as grown with it. -/
theorem Made.after {d₁ d₂ : Disk} (h : Made place d₁ (.ok (), d₂)) (hgrown : Grown place d d₁) :
    Made place d (.ok (), d₂) :=
  ⟨hgrown.trans h.grown, fun _ => h.directory rfl⟩

/-- A failure to make a directory is forgiven if there is one all the same. -/
theorem Made.forgiven {d₁ d₂ : Disk} {cause : IoCause} (h : Made place d₁ (.error cause, d₂))
    (hgrown : Grown place d d₁) :
    Made place d
      (if d₂.leadsToDir [] (backwards place) then (.ok (), d₂) else (.error cause, d₂)) := by
  have hall := hgrown.trans h.grown
  by_cases hdir : d₂.leadsToDir [] (backwards place) = true
  · rw [if_pos hdir]
    exact ⟨hall, fun _ => hall.tree.leadsToDir_backwards.1 hdir⟩
  · rw [if_neg hdir]
    exact ⟨hall, by simp⟩

/-- A second attempt, once the directories above are made, and a directory that was there already,
change nothing about what is left behind. -/
theorem IsTree.createAfter_made (h : d.IsTree) (hplain : Plain place)
    {createParents : Disk → Outcome} {above : Location} (habove : above <+: place)
    (hparents : ∀ d : Disk, d.IsTree → Grown above d (createParents d).2) :
    Made place d (createAfter [] (backwards place) createParents d) := by
  have hfirst := h.createDir_made hplain
  simp only [createAfter]
  split
  · rename_i d' hcreate
    rw [hcreate] at hfirst
    have hgrown' := hfirst.grown.trans ((hparents d' hfirst.grown.tree).mono habove)
    split
    · rename_i d'' hmade
      rw [hmade] at hgrown'
      exact ⟨hgrown', by simp⟩
    · rename_i d'' hmade
      rw [hmade] at hgrown'
      have hsecond := hgrown'.tree.createDir_made hplain
      generalize d''.createDir [] (backwards place) = outcome at hsecond ⊢
      rcases outcome with ⟨cause | _, d₁⟩
      · exact hsecond.forgiven hgrown'
      · exact hsecond.after hgrown'
  · generalize d.createDir [] (backwards place) = outcome at hfirst ⊢
    rcases outcome with ⟨cause | _, d₁⟩
    · exact hfirst.forgiven (.refl h _)
    · exact hfirst

theorem IsTree.createDirs_grown (h : d.IsTree) (hplain : Plain place) :
    Grown place d (createDirs [] (backwards place) d).2 := by
  induction place using List.reverseRecOn generalizing d with
  | nil =>
    have hparents : ∀ d : Disk, d.IsTree → Grown [] d (createDirs [] [] d).2 :=
      fun d hd => .refl hd _
    exact (h.createAfter_made hplain (List.prefix_refl _) hparents).grown
  | append_singleton above name ih =>
    have hmade := h.createAfter_made hplain (List.prefix_append above [name])
      fun d hd => ih hd hplain.left
    rw [backwards_concat] at hmade ⊢
    exact hmade.grown

theorem endsInDot_ofPlace (h : Plain place) : endsInDot (ofPlace place) = false := by
  obtain rfl | ⟨above, name, rfl⟩ := List.eq_nil_or_concat' place
  · decide
  · have hname := h.last
    have hne : name.toList.isEmpty = false := by
      simpa [String.toList_eq_nil_iff] using hname.ne_empty
    have hdot : name.toList ≠ ['.'] := by
      intro hdot
      exact hname.ne_here (String.toList_inj.1 hdot)
    rw [endsInDot, splitAt_ofPlace h (by simp)]
    simp [hne, hdot]

/-- **Making a directory** adds directories on the way to it and changes nothing else, whether it
succeeds or fails. -/
theorem IsTree.ensureDir_made (h : d.IsTree) (hplain : Plain place) :
    Made place d (d.ensureDir (ofPlace place)) := by
  have hfirst : ∃ part parents, backwards place = part :: parents ∧
      ∀ d : Disk, d.IsTree → Grown place d (createDirs [] parents d).2 := by
    obtain rfl | ⟨above, name, rfl⟩ := List.eq_nil_or_concat' place
    · exact ⟨.root, [], rfl, fun d hd => .refl hd _⟩
    · refine ⟨.name name, backwards above, backwards_concat above name, ?_⟩
      intro d hd
      exact (hd.createDirs_grown hplain.left).mono (List.prefix_append _ _)
  obtain ⟨part, parents, hparts, hgrown⟩ := hfirst
  have hmade := h.createAfter_made hplain (List.prefix_refl _) hgrown
  rw [hparts] at hmade
  cases hcheck : checkText (ofPlace place) with
  | error cause =>
    simp only [ensureDir, components_reverse_ofPlace hplain, hparts, hcheck]
    exact ⟨.refl h _, by simp⟩
  | ok _ =>
    simp only [ensureDir, components_reverse_ofPlace hplain, startOf_ofPlace,
      endsInDot_ofPlace hplain, hparts, hcheck]
    exact hmade

/-- A directory is made at a free place in a directory. -/
theorem IsTree.ensureDir_free (h : d.IsTree) (hplain : Plain (place ++ [name]))
    (hwritable : Writable (place ++ [name])) (hshort : ¬ 255 < name.utf8ByteSize)
    (hdir : d.entry? place = some .directory) (hfree : d.entry? (place ++ [name]) = none) :
    d.ensureDir (ofPlace (place ++ [name])) = (.ok (), d.put (place ++ [name]) .directory) := by
  have hcheck : checkText (ofPlace (place ++ [name])) = .ok () := hwritable
  have hfollow : d.follow [] ((backwards place).reverse ++ [.here]) = .ok place :=
    h.follow_backwards.2 ⟨rfl, hdir⟩
  have hcreate : d.createDir [] (backwards (place ++ [name])) =
      (.ok (), d.put (place ++ [name]) .directory) := by
    simp [backwards_concat, createDir, hfollow, isTooLong, hshort, hfree]
  simp only [ensureDir, components_reverse_ofPlace hplain, startOf_ofPlace,
    endsInDot_ofPlace hplain, hcheck]
  rw [backwards_concat] at hcreate ⊢
  simp [createAfter, hcreate]

theorem writable_of_ensureDir (hplain : Plain place)
    (hok : (d.ensureDir (ofPlace place)).1 = .ok ()) : Writable place := by
  obtain rfl | ⟨above, name, rfl⟩ := List.eq_nil_or_concat' place
  · rfl
  · cases hcheck : checkText (ofPlace (above ++ [name])) with
    | error cause =>
      simp [ensureDir, components_reverse_ofPlace hplain, backwards_concat, hcheck] at hok
    | ok _ => exact hcheck

/-! ## Renaming -/

variable {source target : Location}

/-- A rename fails and changes nothing, or it takes the tree at one place to another. -/
theorem rename_cases (d : Disk) (s t : Path) :
    (∃ cause, d.rename s t = (.error cause, d)) ∨
      ∃ above name above' name',
        d.renamePlaces s t = .ok ((above, name), (above', name')) ∧
        isTooLong (.name name') = false ∧
        (∃ entry asDirectory, d.entry? (above ++ [name]) = some entry ∧
          d.checkRename (above ++ [name]) (above' ++ [name']) entry asDirectory = .ok ()) ∧
        d.rename s t = (.ok (),
          if above ++ [name] = above' ++ [name'] then d
          else (d.eraseTree (above' ++ [name'])).relocateTree (above ++ [name])
            (above' ++ [name'])) := by
  cases hplaces : d.renamePlaces s t with
  | error cause => exact .inl ⟨cause, by simp [rename, hplaces]⟩
  | ok places =>
    obtain ⟨⟨above, name⟩, above', name'⟩ := places
    simp only [rename, hplaces]
    split
    · exact .inl ⟨_, rfl⟩
    · split
      · exact .inl ⟨_, rfl⟩
      · rename_i entry hentry
        split
        · exact .inl ⟨_, rfl⟩
        · rename_i hshort
          split
          · exact .inl ⟨_, rfl⟩
          · rename_i hcheck
            refine .inr ⟨above, name, above', name', rfl, by simpa using hshort,
              ⟨entry, _, hentry, hcheck⟩, ?_⟩
            split <;> rfl

theorem IsTree.renamePlaces_ofPlace (h : d.IsTree) {above : Location} {name : String}
    (hsource : Plain (above ++ [name])) (htarget : Plain target)
    {places : (Location × String) × (Location × String)}
    (hok : d.renamePlaces (ofPlace (above ++ [name])) (ofPlace target) = .ok places) :
    Writable target ∧ ∃ above' name', target = above' ++ [name'] ∧
      d.entry? above' = some .directory ∧ places = ((above, name), (above', name')) := by
  simp only [renamePlaces, bind, Except.bind] at hok
  cases hchars : checkCharacters (ofPlace (above ++ [name])) with
  | error cause => simp [hchars] at hok
  | ok _ =>
  cases hchars' : checkCharacters (ofPlace target) with
  | error cause => simp [hchars, hchars'] at hok
  | ok _ =>
  cases hlength : checkLength (ofPlace (above ++ [name])) with
  | error cause => simp [hchars, hchars', hlength] at hok
  | ok _ =>
  cases hlength' : checkLength (ofPlace target) with
  | error cause => simp [hchars, hchars', hlength, hlength'] at hok
  | ok _ =>
  refine ⟨by simp [Writable, checkText, hchars', hlength', Except.bind], ?_⟩
  simp only [hchars, hchars', hlength, hlength'] at hok
  cases hfrom : d.parentAndName (ofPlace (above ++ [name])) with
  | error cause => simp [hfrom] at hok
  | ok from' =>
    obtain ⟨rfl, -⟩ := (h.parentAndName_ofPlace hsource).1 hfrom
    cases hto : d.parentAndName (ofPlace target) with
    | error cause => simp [hfrom, hto] at hok
    | ok to' =>
      obtain rfl | ⟨above', name', rfl⟩ := List.eq_nil_or_concat' target
      · rw [parentAndName_ofPlace_nil] at hto
        cases hto
        simp [hfrom, parentAndName_ofPlace_nil] at hok
      · obtain ⟨rfl, hdir⟩ := (h.parentAndName_ofPlace htarget).1 hto
        simp only [hfrom, hto, Except.ok.injEq] at hok
        exact ⟨above', name', rfl, hdir, hok.symm⟩

/-- A file may not take the place of a directory. -/
theorem ne_directory_of_checkRename {content : Content} {asDirectory : Bool}
    (h : d.checkRename source target (.file content) asDirectory = .ok ()) :
    d.entry? target ≠ some .directory := by
  intro hdir
  simp only [checkRename, hdir] at h
  repeat' split at h
  all_goals simp at h

/-- A file that was renamed had a place to go to: a short name in a directory, which is no
directory itself. -/
theorem IsTree.rename_ofPlace (h : d.IsTree) {content : Content}
    (hsource : d.entry? source = some (.file content)) (htarget : Plain target)
    (hok : (d.rename (ofPlace source) (ofPlace target)).1 = .ok ()) :
    Writable target ∧ target ≠ [] ∧ d.entry? target.dropLast = some .directory ∧
      (∀ name ∈ target, IsEntryName name) ∧ d.entry? target ≠ some .directory ∧
      (d.rename (ofPlace source) (ofPlace target)).2 =
        if source = target then d else (d.eraseTree target).relocateTree source target := by
  have hplain := h.plain hsource
  obtain rfl | ⟨above, name, rfl⟩ := List.eq_nil_or_concat' source
  · simp at hsource
  · rcases d.rename_cases (ofPlace (above ++ [name])) (ofPlace target) with
      ⟨cause, herror⟩ |
      ⟨_, _, above', name', hplaces, hshort, ⟨entry, asDirectory, hentry, hcheck⟩, hrename⟩
    · simp [herror] at hok
    · obtain ⟨hwritable, above', name', rfl, hdir, heq⟩ :=
        h.renamePlaces_ofPlace hplain htarget hplaces
      cases heq
      rw [hsource, Option.some.injEq] at hentry
      subst hentry
      refine ⟨hwritable, by simp, by simpa using hdir, ?_, ne_directory_of_checkRename hcheck,
        by rw [hrename]⟩
      intro n hn
      rcases List.mem_append.1 hn with hn | hn
      · exact h.entryName hdir n hn
      · rw [List.mem_singleton.1 hn]
        exact ⟨htarget.last, by simpa [isTooLong] using hshort⟩

/-- **Renaming a file to a free place** takes it from its place and puts it there; every other place
holds what it held. -/
theorem IsTree.rename_file (h : d.IsTree) {content : Content}
    (hsource : d.entry? source = some (.file content)) (htarget : Plain target)
    (hfree : d.entry? target = none)
    (hok : (d.rename (ofPlace source) (ofPlace target)).1 = .ok ()) :
    (d.rename (ofPlace source) (ofPlace target)).2.IsTree ∧
      ∀ q, Disk.entry? (d.rename (ofPlace source) (ofPlace target)).2 q =
        if q = target then some (.file content) else if q = source then none else d.entry? q := by
  obtain ⟨-, hne, hparent, hnames, -, hrename⟩ := h.rename_ofPlace hsource htarget hok
  have hneq : source ≠ target := by
    rintro rfl
    simp [hfree] at hsource
  have hapart : Apart source target := by
    refine ⟨fun hpre => ?_, fun hpre => ?_⟩
    · -- A file on the way to the target would be where the target's directory is.
      rw [← List.dropLast_concat_getLast hne, List.prefix_concat_iff] at hpre
      rcases hpre with heq | hpre
      · exact hneq (heq.trans (List.dropLast_concat_getLast hne))
      · have heq := h.eq_of_file_prefix hsource hparent hpre
        rw [heq, hparent] at hsource
        simp at hsource
    · have hnone := h.none_of_prefix hfree hpre
      simp [hnone] at hsource
  have herased : ∀ q, Disk.entry? (d.eraseTree target) q = d.entry? q := by
    intro q
    rw [entry_eraseTree hne]
    by_cases hpre : target <+: q
    · rw [if_pos hpre, h.none_of_prefix hfree hpre]
    · rw [if_neg hpre]
  have htree := h.eraseTree target
  rw [hrename, if_neg hneq]
  refine ⟨htree.relocateTree hapart ((herased target).trans hfree) hnames
    ((herased _).trans hparent), ?_⟩
  intro q
  rw [htree.entry_relocateTree hapart ((herased target).trans hfree), herased, herased]
  by_cases hq : q = target
  · subst hq
    simp [hsource]
  · rw [if_neg hq]
    by_cases hpre : target <+: q
    · -- Nothing lay below the file, and nothing lies below the free place.
      obtain ⟨rest, rfl⟩ := hpre
      have hrest : rest ≠ [] := by
        rintro rfl
        simp at hq
      have hbelow : d.entry? (source ++ rest) = none := by
        cases he : d.entry? (source ++ rest) with
        | none => rfl
        | some entry =>
          have heq := h.eq_of_file_prefix hsource he (List.prefix_append _ _)
          simp [hrest] at heq
      have hnone := h.none_of_prefix hfree (List.prefix_append target rest)
      simp [hbelow, hnone]
    · rw [if_neg hpre]
      by_cases hq' : q = source
      · subst hq'
        simp
      · rw [if_neg hq']
        by_cases hpre' : source <+: q
        · rw [if_pos hpre']
          cases he : d.entry? q with
          | none => rfl
          | some entry => exact absurd (h.eq_of_file_prefix hsource he hpre').symm hq'
        · rw [if_neg hpre']

/-- A file that was renamed to a place without a file found that place free. -/
theorem IsTree.rename_free (h : d.IsTree) {content : Content}
    (hsource : d.entry? source = some (.file content)) (htarget : Plain target)
    (hfree : Writable target → ∀ content, d.entry? target ≠ some (.file content))
    (hok : (d.rename (ofPlace source) (ofPlace target)).1 = .ok ()) :
    Writable target ∧ d.entry? target = none := by
  obtain ⟨hwritable, -, -, -, hnodir, -⟩ := h.rename_ofPlace hsource htarget hok
  refine ⟨hwritable, ?_⟩
  cases he : d.entry? target with
  | none => rfl
  | some entry =>
    cases entry with
    | directory => exact absurd he hnodir
    | file content' => exact absurd he (hfree hwritable content')

/-! ## Removing -/

/-- **Removing a directory** below the root takes it and all that lies in it, or fails and changes
nothing. -/
theorem IsTree.removeTree_ofPlace (h : d.IsTree) (hplain : Plain place) (hne : place ≠ []) :
    (∃ cause, d.removeTree (ofPlace place) = (.error cause, d)) ∨
      d.removeTree (ofPlace place) = (.ok (), d.eraseTree place) := by
  unfold removeTree
  split
  · rename_i there hfind hlocate
    have hthere := eq_of_locate_ofPlace hplain hlocate
    subst hthere
    obtain ⟨above, name, rfl⟩ := (List.eq_nil_or_concat' there).resolve_left hne
    have hparent : (d.eraseBelow (above ++ [name])).parentAndName (ofPlace (above ++ [name])) =
        .ok (above, some name) := by
      have htree := h.eraseBelow (above ++ [name])
      refine (htree.parentAndName_ofPlace hplain).2 ⟨rfl, ?_⟩
      have hdir := h.parent ((h.find_ofPlace hplain).1 hfind).2
      rw [List.dropLast_concat] at hdir
      by_cases hup : above = []
      · rw [hup, entry_nil]
      · rw [eraseBelow_eq_restrict, entry_restrict d hup, if_pos, hdir]
        simp only [Bool.or_eq_true, not_isPrefixOf_iff]
        refine .inr fun hpre => ?_
        have hlength := hpre.length_le
        rw [List.length_append, List.length_singleton] at hlength
        omega
    right
    simp [removeEmptied, hparent, eraseTree_eraseBelow]
  · exact .inl ⟨_, rfl⟩
  · exact .inl ⟨_, rfl⟩

end Relocate.Disk

/-! ## File systems that can be relied on -/

namespace Relocate

open Relocate.Path

namespace Disk

/-- Two disks hold the same files at the same places; their directories may differ. -/
def SameFiles (d d' : Disk) : Prop :=
  ∀ place content, d'.entry? place = some (.file content) ↔ d.entry? place = some (.file content)

theorem SameFiles.refl (d : Disk) : SameFiles d d := fun _ _ => Iff.rfl

theorem Grown.sameFiles {d d' : Disk} {place : Location} (h : Grown place d d') :
    SameFiles d d' := by
  intro q content
  rcases h.entries q with hq | ⟨hq, _, hdir⟩
  · rw [hq]
  · simp [hq, hdir]

/-- To remove a directory without files leaves the files as they are. -/
theorem sameFiles_eraseTree {d : Disk} {dir : Location} (hne : dir ≠ [])
    (hempty : ∀ p content, dir <+: p → d.entry? p ≠ some (.file content)) :
    SameFiles d (d.eraseTree dir) := by
  intro q content
  rw [entry_eraseTree hne]
  by_cases hpre : dir <+: q
  · simp [hpre, hempty q content hpre]
  · simp [hpre]

/-- The outcome of an operation is the one expected, or a failure that leaves the files as they
are. -/
structure Mirrors (d : Disk) (expected actual : Outcome) : Prop where
  ok : actual.1 = .ok () → actual = expected
  error : ∀ cause, actual.1 = .error cause → actual.2.IsTree ∧ SameFiles d actual.2

/-- An operation that fails only without touching the disk mirrors itself. -/
theorem Mirrors.of_unchanged {d : Disk} (h : d.IsTree) {outcome : Outcome}
    (herror : ∀ cause, outcome.1 = .error cause → outcome.2 = d) : Mirrors d outcome outcome where
  ok _ := rfl
  error cause hcause := by
    rw [herror cause hcause]
    exact ⟨h, .refl d⟩

theorem writeText_error {d : Disk} {path : Path} {text : String} {cause : IoCause}
    (h : (d.writeText path text).1 = .error cause) : (d.writeText path text).2 = d := by
  unfold writeText at h ⊢
  split
  · rfl
  · rename_i hplace
    simp only [hplace] at h
    split
    · rfl
    · split at h <;> simp_all

end Disk

namespace FileSystem

open Disk

/-- What the file system answers is so: it says what is there, and what it reads is what the disk
holds.  It may fail at any time. -/
structure Honest (fs : FileSystem) : Prop where
  contains : ∀ d path, fs.contains d path = d.contains path
  isDir : ∀ d path, fs.isDir d path = d.isDir path
  readText : ∀ clock d path text, fs.readText clock d path = .ok text → d.readText path = .ok text
  readDir : ∀ clock d path paths, fs.readDir clock d path = .ok paths → d.readDir path = .ok paths

/-- The file system is honest, and what it says it did it did, whatever the path.  When it fails it
may leave anything behind. -/
structure Truthful (fs : FileSystem) : Prop extends fs.Honest where
  writeText : ∀ clock d path text d', fs.writeText clock d path text = (.ok (), d') →
    d.writeText path text = (.ok (), d')
  rename : ∀ clock d source target d', fs.rename clock d source target = (.ok (), d') →
    d.rename source target = (.ok (), d')
  removeTree : ∀ clock d path d', fs.removeTree clock d path = (.ok (), d') →
    d.removeTree path = (.ok (), d')
  ensureDir : ∀ clock d path d', fs.ensureDir clock d path = (.ok (), d') →
    d.ensureDir path = (.ok (), d')

/-- The file system is honest, and on the path of a place an operation does what it says or fails
and leaves the files as they are. -/
structure Faithful (fs : FileSystem) : Prop extends fs.Honest where
  writeText : ∀ clock (d : Disk) place text, d.IsTree → Plain place →
    Mirrors d (d.writeText (ofPlace place) text) (fs.writeText clock d (ofPlace place) text)
  rename : ∀ clock (d : Disk) source target, d.IsTree → Plain source → Plain target →
    Mirrors d (d.rename (ofPlace source) (ofPlace target))
      (fs.rename clock d (ofPlace source) (ofPlace target))
  removeTree : ∀ clock (d : Disk) place, d.IsTree → Plain place → place ≠ [] →
    Mirrors d (d.removeTree (ofPlace place)) (fs.removeTree clock d (ofPlace place))
  ensureDir : ∀ clock (d : Disk) place, d.IsTree → Plain place →
    Mirrors d (d.ensureDir (ofPlace place)) (fs.ensureDir clock d (ofPlace place))

theorem plain_honest : plain.Honest where
  contains _ _ := rfl
  isDir _ _ := rfl
  readText _ _ _ _ h := h
  readDir _ _ _ _ h := h

theorem plain_truthful : plain.Truthful where
  toHonest := plain_honest
  writeText _ _ _ _ _ h := h
  rename _ _ _ _ _ h := h
  removeTree _ _ _ _ h := h
  ensureDir _ _ _ _ h := h

theorem plain_faithful : plain.Faithful where
  toHonest := plain_honest
  writeText _ _ _ _ h _ := .of_unchanged h fun _ => writeText_error
  rename _ d source target h _ _ := by
    refine .of_unchanged h fun cause herror => ?_
    rcases d.rename_cases (ofPlace source) (ofPlace target) with
      ⟨cause', hrename⟩ | ⟨_, _, _, _, _, _, _, hrename⟩
    · exact congrArg Prod.snd hrename
    · exact absurd (herror.symm.trans (congrArg Prod.fst hrename)) (by simp)
  removeTree _ d place h hplain hne := by
    refine .of_unchanged h fun cause herror => ?_
    rcases h.removeTree_ofPlace hplain hne with ⟨cause', hremove⟩ | hremove
    · exact congrArg Prod.snd hremove
    · exact absurd (herror.symm.trans (congrArg Prod.fst hremove)) (by simp)
  ensureDir _ d place h hplain :=
    ⟨fun _ => rfl, fun _ _ =>
      ⟨(h.ensureDir_made hplain).grown.tree, (h.ensureDir_made hplain).grown.sameFiles⟩⟩

/-- A refusal leaves the disk as it is. -/
theorem mirrors_unlessRefused {d : Disk} (h : d.IsTree) {expected outcome : Outcome}
    (refused : List Path) (operation : String) (path : Path)
    (hmirrors : Mirrors d expected outcome) :
    Mirrors d expected (unlessRefused refused operation d path outcome) := by
  unfold unlessRefused
  split
  · exact ⟨by simp, fun _ _ => ⟨h, .refl d⟩⟩
  · exact hmirrors

theorem eq_ok_of_answerUnlessRefused {α : Type} {refused : List Path} {operation : String}
    {path : Path} {answer : Except IoCause α} {found : α}
    (h : answerUnlessRefused refused operation path answer = .ok found) : answer = .ok found := by
  unfold answerUnlessRefused at h
  split at h
  · simp at h
  · exact h

/-- Refusing operations keeps a file system faithful. -/
theorem withFaults_faithful {faults : Faults} (h : faults.temporaryTaken = false) :
    (withFaults faults).Faithful where
  contains _ _ := by simp [withFaults, looksTaken, h]
  isDir _ _ := rfl
  readText _ _ _ _ := eq_ok_of_answerUnlessRefused
  readDir _ _ _ _ := eq_ok_of_answerUnlessRefused
  writeText clock d _ _ h hplain :=
    mirrors_unlessRefused h _ _ _ (plain_faithful.writeText clock d _ _ h hplain)
  rename clock d _ _ h hsource htarget :=
    mirrors_unlessRefused h _ _ _ (plain_faithful.rename clock d _ _ h hsource htarget)
  removeTree clock d _ h hplain hne :=
    mirrors_unlessRefused h _ _ _ (plain_faithful.removeTree clock d _ h hplain hne)
  ensureDir clock d _ h hplain :=
    mirrors_unlessRefused h _ _ _ (plain_faithful.ensureDir clock d _ h hplain)

end FileSystem

end Relocate
