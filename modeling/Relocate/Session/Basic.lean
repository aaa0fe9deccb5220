import Relocate.Disk.FileSystem
import Relocate.Index
import Relocate.Project.Resolver
import Relocate.Settings.Basic

/-!
A session: a project, the imports found in it and the disk it lies on. Work on a session may fail,
and what it did up to then remains done.
-/

namespace Relocate

/-- What a session works with. -/
structure Tools where
  files : FileSystem
  /-- The imports in the text of a file; none if the text cannot be read as a source. -/
  importsOf : Path → String → Option (List Reference)
  /-- Names without end to choose temporary names from. -/
  freshName : Nat → String

/-- The state of a session. -/
structure Session where
  disk : Disk
  /-- The number of operations that were asked of the file system. -/
  clock : Nat
  /-- The number of fresh names that were drawn. -/
  drawn : Nat
  root : Path
  scan : ScanSettings
  resolver : Resolver
  index : Index
  isReady : Bool
  deriving Inhabited

/-- Work on a session. -/
abbrev Work (α : Type) := ExceptT Error (StateM Session) α

namespace Session

/-- A session on the project in a directory, before anything is known of it. -/
def start (disk : Disk) (root : Path) (scan : ScanSettings) : Session where
  disk := disk
  clock := 0
  drawn := 0
  root := (Path.ofComponents (.root :: disk.workingDir.map .name)).absolutize root
  scan := scan
  resolver := .ofExtensions (.ofList scan.extensions)
  index := .empty
  isReady := false

/-- The time and the disk as the next operation finds them. -/
def tick : Work (Nat × Disk) := do
  let s ← get
  set { s with clock := s.clock + 1 }
  return (s.clock, s.disk)

/-- Performs an operation on a path. The disk it leaves behind is kept also if it fails. -/
def perform (path : Path) (operation : Nat → Disk → Disk.Outcome) : Work Unit := do
  let (clock, disk) ← tick
  let (result, disk) := operation clock disk
  modify fun s => { s with disk := disk }
  match result with
  | .ok () => return ()
  | .error cause => throw (.io (some path) cause)

/-- Asks for something about a path. -/
def inquire {α : Type} (path : Path) (inquiry : Nat → Disk → Except IoCause α) : Work α := do
  let (clock, disk) ← tick
  match inquiry clock disk with
  | .ok found => return found
  | .error cause => throw (.io (some path) cause)

variable (tools : Tools)

/-- The text of a file. -/
def readText (path : Path) : Work String :=
  inquire path fun clock disk => tools.files.readText clock disk path

/-- What a directory holds. -/
def readDir (path : Path) : Work (List Path) :=
  inquire path fun clock disk => tools.files.readDir clock disk path

/-- Writes a file. -/
def writeText (path : Path) (text : String) : Work Unit :=
  perform path fun clock disk => tools.files.writeText clock disk path text

/-- Puts a file elsewhere. -/
def rename (source target : Path) : Work Unit :=
  perform source fun clock disk => tools.files.rename clock disk source target

/-- Removes a directory. -/
def removeTree (path : Path) : Work Unit :=
  perform path fun clock disk => tools.files.removeTree clock disk path

/-- Makes sure that a directory exists. -/
def ensureDir (path : Path) : Work Unit :=
  perform path fun clock disk => tools.files.ensureDir clock disk path

/-- There is something at the path. -/
def contains (path : Path) : Work Bool := return tools.files.contains (← get).disk path

/-- There is a directory at the path. -/
def isDir (path : Path) : Work Bool := return tools.files.isDir (← get).disk path

/-- The imports in a text that is, or may become, that of a file. -/
def importsOf (path : Path) (text : String) : Work (List Reference) :=
  match tools.importsOf path text with
  | some references => return references
  | none => throw (.parse path none)

/-- Draws a fresh name. -/
def drawName : Work String := do
  let s ← get
  set { s with drawn := s.drawn + 1 }
  return tools.freshName s.drawn

end Session

end Relocate
