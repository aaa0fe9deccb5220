import Relocate.Disk.Basic
import Relocate.Project.Extensions

/-!
The identity of a module: what the files that answer to one import have in common. The files
`/src/util.ts` and `/src/util/index.ts` and the import of `/src/util` share the identity
`/src/util`.
-/

namespace Relocate

/-- The path of a module without its extension and without a final `index`. -/
structure Identity where
  path : Path
  deriving DecidableEq, Repr, Inhabited

namespace Identity

instance : BEq Identity := ⟨fun a b => a.path == b.path⟩

/-- The name that stands for its directory. -/
def indexName : String := "index"

/-- The identity of a file, which need not exist. -/
def ofPath (known : Extensions) (path : Path) : Identity :=
  let stripped : Path := ⟨known.strip path.normalize.text⟩
  if stripped.fileName? = some indexName then ⟨stripped.parent?.getD stripped⟩ else ⟨stripped⟩

/-- The files that an import of a path may mean, in the order in which they are tried. -/
def candidates (known : Extensions) (path : Path) : List Path :=
  path ::
    (known.names.map fun name => ⟨path.text ++ "." ++ name⟩) ++
      known.names.map fun name => path.join ⟨indexName ++ "." ++ name⟩

/-- The file that an import of a path means. -/
def locate? (disk : Disk) (known : Extensions) (path : Path) : Option Path :=
  (candidates known path).find? disk.isFile

/-- The identity of the file that an import of a path means; of the path itself if there is no such
file. -/
def ofTarget (disk : Disk) (known : Extensions) (path : Path) : Identity :=
  ofPath known ((locate? disk known path).getD path)

end Identity

end Relocate
