import Relocate.Disk.Basic
import Relocate.Ordered
import Relocate.Project.Manifest

/-!
The packages of a workspace, by name. An import `name/tail` of another package means `tail` in that
package's directory. A name that two directories lay claim to belongs to neither.
-/

namespace Relocate

/-- The directories of the packages, by name, in normal form. -/
structure Packages where
  roots : Ordered String Path
  deriving Repr, Inhabited

namespace Packages

/-- No package. -/
def none : Packages := ⟨[]⟩

/-- The packages and the disputed names, after one more claim. -/
def addClaim : Ordered String Path × List String → String × Path → Ordered String Path × List String
  | (roots, disputed), (name, root) =>
    if disputed.contains name then (roots, disputed)
    else
      match roots.get? name with
      | .none => (roots.put name root.normalize, disputed)
      | .some known =>
        if known == root.normalize then (roots, disputed) else (roots.erase name, name :: disputed)

/-- The packages that claim their names undisputed. -/
def ofClaims (claims : List (String × Path)) : Packages := ⟨(claims.foldl addClaim ([], [])).1⟩

/-- The name in a manifest file. -/
def nameIn (disk : Disk) (manifest : Path) : Except Error (Option String) :=
  match disk.readText manifest with
  | .error cause => .error (.io (some manifest) cause)
  | .ok text =>
    match Manifest.packageName text with
    | .error _ => .error (.manifest manifest "Failed to parse package.json")
    | .ok name => .ok name

/-- The claim that a manifest makes; one that cannot be read makes none. -/
def claimOf? (disk : Disk) (manifest : Path) : Option (String × Path) :=
  match manifest.parent?, nameIn disk manifest with
  | some root, .ok (some name) => some (name, root)
  | _, _ => .none

/-- The packages of the manifests. -/
def load (disk : Disk) (manifests : List Path) : Packages :=
  ofClaims (manifests.filterMap (claimOf? disk))

/-- The directory of a package. -/
def rootOf? (p : Packages) (name : String) : Option Path := p.roots.get? name

/-- The path that a specifier means in the package with the longest name it starts with. -/
def resolve? (p : Packages) (specifier : String) : Option Path :=
  let matching := p.roots.filterMap fun (name, root) =>
    (Text.dropLead? (name ++ "/") specifier).map fun tail => (name, root, tail)
  (lastGreatest? (fun (name, _, _) => name.utf8ByteSize) matching).map
    fun (_, root, tail) => (root.join ⟨tail⟩).normalize

/-- The specifier of a target in the innermost package that holds it and not the file that imports
it. -/
def specifier? (p : Packages) (source target : Path) : Option String :=
  let holding := p.roots.filter fun (_, root) => root.isInDir target && !root.isInDir source
  (lastGreatest? (fun (_, root) => root.components.length) holding).bind fun (name, root) =>
    let tail := (root.relative target).slashed
    if tail = "" then .none else some (name ++ "/" ++ tail)

end Packages

end Relocate
