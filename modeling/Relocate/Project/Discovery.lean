import Relocate.Project.Alias
import Relocate.Project.Extensions
import Relocate.Project.Manifest
import Relocate.Settings.Basic

/-!
The files of a project: its sources, its alias configurations and its manifests. They come in the
order of a walk that takes the entries of every directory by name, which is the order of the lists
of names that lead to them.
-/

namespace Relocate

/-- The files of a project, by what they are for. -/
structure ProjectFiles where
  sources : List Path := []
  configs : List Path := []
  manifests : List Path := []
  deriving Repr, Inhabited

namespace ProjectFiles

/-- The order of a walk: by the first names that differ, and a directory before what it holds. -/
def comesBefore : List String → List String → Bool
  | [], _ => true
  | _ :: _, [] => false
  | a :: rest, b :: rest' => if a = b then comesBefore rest rest' else decide (a < b)

/-- The names that lead from a directory to the files below it, without those in excluded
directories, in order. -/
def walk (disk : Disk) (place : Location) (excluded : List String) : List (List String) :=
  (disk.entries.filterMap fun (p, entry) =>
      match entry, List.isPrefixOf? place p with
      | .file _, some names =>
        if names.dropLast.any excluded.contains then none else some names
      | _, _ => none).mergeSort comesBefore

/-- The path to which names lead from a directory. -/
def pathBelow (root : Path) (names : List String) : Path :=
  names.foldl (fun path name => path.join ⟨name⟩) root

/-- What a file is for. -/
inductive Purpose where
  | config
  | manifest
  | source
  | other
  deriving DecidableEq, Repr

/-- What a file is for, by its name. -/
def purposeOf (known : Extensions) (path : Path) : Purpose :=
  let name := path.fileName?.getD ""
  if AliasTable.fileNames.contains name then .config
  else if name = Manifest.fileName then .manifest
  else if known.isSource path then .source
  else .other

/-- The files of the project in a directory. -/
def discover (disk : Disk) (root : Path) (scan : ScanSettings) : Except Error ProjectFiles :=
  match disk.isDir root, disk.locate root with
  | true, .ok place =>
    let known := Extensions.ofList scan.extensions
    let paths := (walk disk place scan.excludedDirs).map (pathBelow root)
    .ok
      { sources := paths.filter fun path => purposeOf known path = .source
        configs := paths.filter fun path => purposeOf known path = .config
        manifests := paths.filter fun path => purposeOf known path = .manifest }
  | _, _ => .error (.sourceNotFound root)

end ProjectFiles

end Relocate
