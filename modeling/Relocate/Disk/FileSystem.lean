import Relocate.Disk.Change

/-!
A file system: the operations a session performs on a disk, each of which may fail for reasons of
its own. An operation is told how many were performed before it, so that it may fail today and
succeed tomorrow.
-/

namespace Relocate

/-- The operations on a disk. -/
structure FileSystem where
  contains : Disk → Path → Bool
  isDir : Disk → Path → Bool
  readText : (clock : Nat) → Disk → Path → Except IoCause String
  writeText : (clock : Nat) → Disk → Path → String → Disk.Outcome
  rename : (clock : Nat) → Disk → (source target : Path) → Disk.Outcome
  readDir : (clock : Nat) → Disk → Path → Except IoCause (List Path)
  removeTree : (clock : Nat) → Disk → Path → Disk.Outcome
  ensureDir : (clock : Nat) → Disk → Path → Disk.Outcome

namespace FileSystem

/-- The file system that does what it is asked to. -/
def plain : FileSystem where
  contains := Disk.contains
  isDir := Disk.isDir
  readText _ := Disk.readText
  writeText _ := Disk.writeText
  rename _ := Disk.rename
  readDir _ := Disk.readDir
  removeTree _ := Disk.removeTree
  ensureDir _ := Disk.ensureDir

/-- Which operations are refused, by the path they are asked for. -/
structure Faults where
  write : List Path := []
  read : List Path := []
  rename : List Path := []
  readDir : List Path := []
  removeDir : List Path := []
  ensureDir : List Path := []
  /-- Every temporary name seems to be taken. -/
  temporaryTaken : Bool := false
  deriving Inhabited

/-- The beginning of every temporary name. -/
def temporaryMark : String := ".tsmove-"

/-- The operation's outcome, unless it is refused. -/
def unlessRefused (refused : List Path) (operation : String) (d : Disk) (path : Path)
    (outcome : Disk.Outcome) : Disk.Outcome :=
  if refused.contains path then (.error (.refused operation), d) else outcome

/-- The operation's answer, unless it is refused. -/
def answerUnlessRefused {α : Type} (refused : List Path) (operation : String) (path : Path)
    (answer : Except IoCause α) : Except IoCause α :=
  if refused.contains path then .error (.refused operation) else answer

/-- The path seems to lead to something because it is a temporary name. -/
def looksTaken (faults : Faults) (path : Path) : Bool :=
  faults.temporaryTaken && Text.occursIn ("/" ++ temporaryMark).toList path.text.toList

/-- The plain file system with some operations refused. -/
def withFaults (faults : Faults) : FileSystem where
  contains d path := looksTaken faults path || d.contains path
  isDir := Disk.isDir
  readText _ d path := answerUnlessRefused faults.read "read" path (d.readText path)
  writeText _ d path text := unlessRefused faults.write "write" d path (d.writeText path text)
  rename _ d source target :=
    unlessRefused faults.rename "rename" d source (d.rename source target)
  readDir _ d path := answerUnlessRefused faults.readDir "read_dir" path (d.readDir path)
  removeTree _ d path := unlessRefused faults.removeDir "remove_dir" d path (d.removeTree path)
  ensureDir _ d path := unlessRefused faults.ensureDir "ensure_dir" d path (d.ensureDir path)

end FileSystem

end Relocate
