import Relocate.Path.Normal

/-!
The tasks of a move. A directory is moved by moving what it holds and removing it. A directory that
goes into itself first goes to a temporary place beside it.
-/

namespace Relocate

/-- One task of a move. -/
inductive Task where
  | move (source target : Path)
  | remove (dir : Path)
  deriving DecidableEq, Repr, Inhabited

namespace Task

/-- The tasks that move a directory: what it holds, in order, then its removal. -/
def ofDirectory (source target : Path) (children : List Path) : List Task :=
  (children.filterMap fun child =>
      child.fileName?.map fun name => .move child (target.join ⟨name⟩)) ++ [.remove source]

/-- The tasks that move a directory by way of a temporary place. -/
def byWayOf (temporary source target : Path) : List Task :=
  [.move source temporary, .move temporary target]

end Task

end Relocate
