import Relocate.Project.Discovery
import Relocate.Session.Basic

/-!
Filling the index of a session. A file that cannot be read, or is no source text, is passed over.
-/

namespace Relocate.Session

/-- Adds one import in a file to the index, if it means a module of the project, and counts it. -/
def addReference (resolver : Resolver) (disk : Disk) (path : Path) (state : Index × Nat)
    (reference : Reference) : Index × Nat :=
  match resolver.resolve? disk path reference.specifier with
  | some target => (state.1.add target ⟨path, reference.span⟩, state.2 + 1)
  | none => state

variable (tools : Tools)

/-- Adds the imports in the text of a file to the index and counts them. What was known of the file
is forgotten first if `afresh`. -/
def indexText (text : String) (path : Path) (afresh : Bool) : Work Nat := do
  if afresh then modify fun s => { s with index := s.index.dropFile path }
  let references ← importsOf tools path text
  let s ← get
  let (index, count) := references.foldl (addReference s.resolver s.disk path) (s.index, 0)
  set { s with index := index }
  return count

/-- Reads a file again and replaces what was known of its imports. -/
def refresh (file : Path) : Work Nat := do
  indexText tools (← readText tools file) file true

/-- Adds the imports of a file to the index, if they can be found. -/
def indexFile (file : Path) : Work Unit :=
  tryCatch (do let _ ← indexText tools (← readText tools file) file false) fun _ => pure ()

/-- A list cut into batches of a given size, the last of which may be smaller. -/
def batches {α : Type} (size : Nat) : (current : List α) → List α → List (List α)
  | [], [] => []
  | current, [] => [current]
  | current, item :: rest =>
    if size ≤ current.length + 1 then (current ++ [item]) :: batches size [] rest
    else batches size (current ++ [item]) rest

/-- Adds the imports of files to the index, batch by batch. -/
def indexFiles (files : List Path) : Work Unit := do
  (batches (← get).scan.batchSize [] files).forM fun batch => batch.forM (indexFile tools)

/-- The files of the project as they are now. -/
def discover : Work ProjectFiles := do
  let s ← get
  match ProjectFiles.discover s.disk s.root s.scan with
  | .ok files => return files
  | .error error => throw error

/-- Reads the project: its packages, its aliases and the imports of its sources. A project that has
been read is not read again. -/
def prepare : Work Unit := do
  if (← get).isReady then return
  let files ← discover
  modify fun s =>
    { s with
      resolver :=
        { Resolver.ofExtensions s.resolver.known with
          packages := Packages.load s.disk files.manifests }.loadTables s.disk files.configs }
  indexFiles tools files.sources
  modify fun s => { s with isReady := true }

/-- Builds the index again from the sources as they are now; packages and aliases stay. -/
def rescan : Work Unit := do
  let files ← discover
  modify fun s => { s with index := .empty }
  indexFiles tools files.sources

/-- Where the module of a file is imported. -/
def sitesOf (s : Session) (file : Path) : List Site :=
  s.index.sites (s.resolver.identityOf (s.root.absolutize file))

end Relocate.Session
