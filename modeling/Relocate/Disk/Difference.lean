import Relocate.Disk.Basic

/-!
What differs between two states of a disk.
-/

namespace Relocate.Disk

/-- The places that hold something else, or something new, with what they hold now, and the places
that hold nothing any more. -/
def changes (before now : Disk) : List (Location × Option Entry) :=
  (now.entries.filterMap fun (place, entry) =>
      if before.entry? place = some entry then none else some (place, some entry)) ++
    before.entries.filterMap fun (place, _) =>
      if (now.entry? place).isSome then none else some (place, none)

end Relocate.Disk
