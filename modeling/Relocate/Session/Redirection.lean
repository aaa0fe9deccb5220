import Relocate.Edit.Compute
import Relocate.Session.Indexing

/-!
Redirecting imports: those of a file that is about to move, in the files that import it, and those
in a file that has moved. Whatever is written is indexed at once, so the index keeps up with the
disk.
-/

namespace Relocate.Session

variable (tools : Tools)

/-- Carries out replacements in a file whose imports are read as those of `readAs`. The file is
written only if an edit results, and the answer says so. -/
def replaceImports (file : Path) (replacements : List Replacement) (readAs : Path) : Work Bool := do
  let text ← readText tools file
  let references ← importsOf tools file text
  let s ← get
  match s.resolver.editsFor s.disk readAs references replacements with
  | [] => return false
  | edits =>
    match TextEdit.applyAll text edits with
    | .error problem => throw (.internal (.edits problem))
    | .ok newText =>
      writeText tools file newText
      let _ ← indexText tools newText file true
      return true

/-- The files that were updated, and those that could not be. -/
structure Updated where
  files : List Path := []
  failed : List (Path × Error) := []
  deriving Repr, Inhabited

/-- The replacement in a file of the specifier of one module by that of another. -/
def replacementFor (r : Resolver) (file source target : Path) : Replacement where
  old := r.withoutExtension (r.specifierFor file source)
  new := Resolver.withoutIndex (r.withoutExtension (r.specifierFor file target))

/-- Makes one file import `target` in the stead of `source`. -/
def redirectIn (source target : Path) (done : Updated) (file : Path) : Work Updated :=
  tryCatch
    (do
      let replacement := replacementFor (← get).resolver file source target
      if ← replaceImports tools file [replacement] file then
        return { done with files := done.files ++ [file] }
      else return done)
    fun error => return { done with failed := done.failed ++ [(file, error)] }

/-- Makes every file that imports `source` import `target`, which need not exist yet. A file that
cannot be updated does not stop the others. -/
def redirect (source target : Path) : Work Updated := do
  let s ← get
  (s.index.files (s.resolver.identityOf source)).foldlM (redirectIn tools source target) {}

/-- The specifiers of imports, each once. -/
def specifiersOf (references : List Reference) : List String :=
  references.foldl (fun found reference => insertNew found reference.specifier) []

/-- The replacements that let the imports of a file which moved from `source` to `target` mean what
they meant before. -/
def movedReplacements (r : Resolver) (disk : Disk) (source target : Path)
    (references : List Reference) : List Replacement :=
  (specifiersOf references).filterMap fun specifier =>
    (r.resolvePath? disk source specifier).map fun path => ⟨specifier, r.specifierFor target path⟩

/-- Lets the imports of a file that moved from `source` to `target` mean what they meant before. The
file is indexed where it is now, even if no import had to change. -/
def adjustMoved (source target : Path) : Work Bool := do
  let text ← readText tools target
  let references ← importsOf tools target text
  let s ← get
  let replacements := movedReplacements s.resolver s.disk source target references
  if ← replaceImports tools target replacements source then return true
  let _ ← indexText tools text target true
  return false

/-- Forgets the file that was at `source` and is now at `target`. The imports of its module stay if
the module is still the same. -/
def forgetMoved (source target : Path) : Work Unit :=
  modify fun s =>
    let identity := s.resolver.identityOf source
    if identity == s.resolver.identityOf target then { s with index := s.index.dropFile source }
    else { s with index := s.index.dropModule source identity }

/-- Brings a file that moved from `source` to `target`, and the index, up to date. The answer says
whether its text changed. -/
def updateMoved (source target : Path) : Work Bool := do
  if (← get).resolver.known.isSource target then
    let changed ←
      tryCatch (adjustMoved tools source target) fun error => do
        forgetMoved source target
        throw error
    forgetMoved source target
    return changed
  else
    forgetMoved source target
    return false

end Relocate.Session
