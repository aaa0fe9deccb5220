import Relocate.Ordered
import Relocate.Project.Identity
import Relocate.Span

/-!
The index of imports, from a module to where it is imported. It is kept in both directions, so
that replacing the imports of one file touches only the modules which that file imports.
-/

namespace Relocate

/-- Where a module is imported: a file and the span of the specifier in it. -/
structure Site where
  file : Path
  span : Span
  deriving Repr, Inhabited

instance : BEq Site := ⟨fun a b => a.file == b.file && a.span == b.span⟩

/-- Adds an item to the end of a list, unless it is there already. -/
def insertNew {α : Type} [BEq α] (items : List α) (item : α) : List α :=
  if items.contains item then items else items ++ [item]

/-- The index of imports. -/
structure Index where
  /-- Where each module is imported. -/
  byTarget : Ordered Identity (List Site)
  /-- The modules that each file imports. -/
  byFile : Ordered Path (List Identity)
  deriving Repr, Inhabited

namespace Index

/-- The index of no import. -/
def empty : Index := ⟨[], []⟩

/-- Adds an import. -/
def add (ix : Index) (target : Identity) (site : Site) : Index where
  byTarget := ix.byTarget.put target (insertNew ((ix.byTarget.get? target).getD []) site)
  byFile := ix.byFile.put site.file (insertNew ((ix.byFile.get? site.file).getD []) target)

/-- Where a module is imported, in the order in which the imports were added. -/
def sites (ix : Index) (target : Identity) : List Site := (ix.byTarget.get? target).getD []

/-- The files that import a module, each once. -/
def files (ix : Index) (target : Identity) : List Path :=
  (ix.sites target).foldl (fun files site => insertNew files site.file) []

/-- Takes the sites in a file from those of a module; a module without sites is forgotten. -/
def dropSites (file : Path) (byTarget : Ordered Identity (List Site)) (target : Identity) :
    Ordered Identity (List Site) :=
  match byTarget.get? target with
  | none => byTarget
  | some sites =>
    match sites.filter fun site => !(site.file == file) with
    | [] => byTarget.erase target
    | left => byTarget.put target left

/-- Forgets the imports in a file. -/
def dropFile (ix : Index) (file : Path) : Index :=
  match ix.byFile.get? file with
  | none => ix
  | some targets => ⟨targets.foldl (dropSites file) ix.byTarget, ix.byFile.erase file⟩

/-- Takes a module from those that a file imports. -/
def dropTarget (target : Identity) (byFile : Ordered Path (List Identity)) (site : Site) :
    Ordered Path (List Identity) :=
  match byFile.get? site.file with
  | none => byFile
  | some targets => byFile.put site.file (targets.filter fun t => !(t == target))

/-- Forgets the imports in a file, and all imports of the module that it was. -/
def dropModule (ix : Index) (file : Path) (target : Identity) : Index :=
  let ix := ix.dropFile file
  match ix.byTarget.get? target with
  | none => ix
  | some sites => ⟨ix.byTarget.erase target, sites.foldl (dropTarget target) ix.byFile⟩

/-- The number of modules that are imported. -/
def size (ix : Index) : Nat := ix.byTarget.length

/-- No module is imported. -/
def isEmpty (ix : Index) : Bool := ix.byTarget.isEmpty

/-- The number of files on record. -/
def fileCount (ix : Index) : Nat := ix.byFile.length

end Index

end Relocate
