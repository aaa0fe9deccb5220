import Relocate.Move.Report
import Relocate.Move.Task
import Relocate.Session.Redirection
import Relocate.Source.Imports

/-!
Moving files and directories. Before a file goes, the files that import it are pointed to where it
will be; after it went, its own imports are expressed from there. A move runs a stack of tasks, one
step at a time.
-/

namespace Relocate

/-- Where a move stands. -/
structure Progress where
  /-- The tasks to do, the next one first. -/
  tasks : List Task
  report : Report := {}
  /-- The temporary places of this move. -/
  temporary : List Path := []
  deriving Repr, Inhabited

namespace Move

variable (tools : Tools)

/-- Records the files that were updated before a file went. They are indexed again, because an
alias with several directories means the file only since it is there. -/
def recordUpdated (source : Path) (report : Report) (file : Path) : Work Report := do
  if !(file == source) then
    tryCatch (do let _ ← Session.refresh tools file) fun _ => pure ()
  return report.addUpdated file

/-- Moves a file. -/
def moveFile (source target : Path) (report : Report) : Work Report := do
  let updated ← Session.redirect tools source target
  let report := updated.failed.foldl (fun r (file, error) => r.addFailure file error) report
  if let some dir := target.parent? then Session.ensureDir tools dir
  Session.rename tools source target
  let report ← updated.files.foldlM (recordUpdated tools source) report
  let report := report.addMoved source target
  tryCatch
    (do
      if ← Session.updateMoved tools source target then return report.addUpdated target
      else return report)
    fun error => return report.addFailure target error

/-- How often a temporary name is tried. -/
def attempts : Nat := 16

/-- A free temporary place in a directory. -/
def temporaryPlace (dir : Path) (taken : List Path) : Nat → Work Path
  | 0 => throw (.internal (.noTemporaryName dir))
  | tries + 1 => do
    let name ← Session.drawName tools
    let place := dir.join ⟨FileSystem.temporaryMark ++ name⟩
    if taken.contains place then temporaryPlace dir taken tries
    else if ← Session.contains tools place then temporaryPlace dir taken tries
    else return place

/-- Does one task, which may add tasks before the others. -/
def step (task : Task) (p : Progress) : Work Progress :=
  match task with
  | .remove dir => do
    Session.removeTree tools dir
    return p
  | .move source target => do
    if source == target then return p
    if ← Session.contains tools target then throw (.targetExists target)
    if !(← Session.contains tools source) then throw (.sourceNotFound source)
    if !(← Session.isDir tools source) then
      return { p with report := ← moveFile tools source target p.report }
    if source.isInDir target then
      let place ← temporaryPlace tools (source.parent?.getD Path.top) p.temporary attempts
      return { p with
        tasks := Task.byWayOf place source target ++ p.tasks
        temporary := place :: p.temporary }
    Session.ensureDir tools target
    let children ← Session.readDir tools source
    return { p with tasks := Task.ofDirectory source target children ++ p.tasks }

/-- Does all tasks, at most as many as there is fuel. -/
def run : (fuel : Nat) → Progress → Work Report
  | 0, p => if p.tasks.isEmpty then return p.report else throw (.internal .unfinishedMove)
  | fuel + 1, p =>
    match p.tasks with
    | [] => return p.report
    | task :: tasks => do run fuel (← step tools task { p with tasks := tasks })

/-- More tasks than a move has. Every entry is moved and every directory removed at most twice, once
to a temporary place and once from there. -/
def taskBound (disk : Disk) : Nat := 4 * disk.entries.length + 4

/-- Moves a file or directory; both paths are read from the root of the project. -/
def move (source target : Path) : Work Report := do
  let s ← get
  run tools (taskBound s.disk)
    { tasks := [.move (s.root.absolutize source) (s.root.absolutize target)] }

end Move

/-- The tools of everyday work: files are dealt with as asked, and imports are those of TypeScript
sources. -/
def Tools.standard (freshName : Nat → String) : Tools where
  files := .plain
  importsOf := Source.imports
  freshName := freshName

/-- Reads the project in a directory and moves a file or directory in it. The answer comes with the
disk afterwards. -/
def moveInProject (freshName : Nat → String) (disk : Disk) (root : Path) (scan : ScanSettings)
    (source target : Path) : Except Error Report × Disk :=
  let tools := Tools.standard freshName
  let work : Work Report := do
    Session.prepare tools
    Move.move tools source target
  let (result, s) := work.run.run (Session.start disk root scan)
  (result, s.disk)

end Relocate
