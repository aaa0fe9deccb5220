import Relocate.Project.Alias
import Relocate.Project.Identity
import Relocate.Project.Packages

/-!
What a specifier means in a file, and which specifier to write for a target. A specifier is
relative, or it starts with an alias of the nearest configuration, or with the name of a package;
any other is an import from outside the project.
-/

namespace Relocate

/-- All that specifiers are read with. -/
structure Resolver where
  known : Extensions
  /-- The alias table of each directory that has one. -/
  tables : Ordered Path AliasTable
  packages : Packages
  deriving Repr, Inhabited

namespace Resolver

/-- A resolver without aliases and packages. -/
def ofExtensions (known : Extensions) : Resolver := ⟨known, [], .none⟩

/-- How far a configuration stands behind the preferred one of its directory. -/
def rank (table : AliasTable) : Nat :=
  match table.configPath.fileName? with
  | some name => AliasTable.fileNames.findIdx (· == name)
  | none => AliasTable.fileNames.length

/-- Adds the table of a configuration, unless its directory has one that is preferred. -/
def addTable (r : Resolver) (table : AliasTable) : Resolver :=
  match r.tables.get? table.configDir with
  | some old =>
    if rank old ≤ rank table then r else { r with tables := r.tables.put table.configDir table }
  | none => { r with tables := r.tables.put table.configDir table }

/-- Adds the tables of configuration files; one that cannot be read is left out. -/
def loadTables (r : Resolver) (disk : Disk) (configs : List Path) : Resolver :=
  configs.foldl
    (fun r path =>
      match AliasTable.load disk path with
      | .ok (some table) => r.addTable table
      | _ => r)
    r

/-- The table that governs a file: that of the nearest directory above it. -/
def nearestTable? (r : Resolver) (file : Path) : Option AliasTable :=
  file.ancestors.findSome? r.tables.get?

/-- The directory that a file's relative specifiers start from. -/
def directoryOf (file : Path) : Path := file.parent?.getD Path.top

/-- The path that a pattern gives a specifier: in the first of its directories that holds such a
module, or in its only directory. -/
def patternPath? (r : Resolver) (disk : Disk) (pattern : AliasPattern) (specifier : String) :
    Option Path :=
  (pattern.tail? specifier).bind fun tail =>
    let paths := pattern.directories.map fun dir => (dir.join ⟨tail⟩).normalize
    match paths.find? fun path => (Identity.locate? disk r.known path).isSome with
    | some path => some path
    | none =>
      match paths with
      | [only] => some only
      | _ => none

/-- The path that the aliases of a file give a specifier. -/
def aliasPath? (r : Resolver) (disk : Disk) (file : Path) (specifier : String) : Option Path :=
  (r.nearestTable? file).bind fun table =>
    table.patterns.findSome? fun pattern => r.patternPath? disk pattern specifier

/-- The path that a specifier means in a file; none for an import from outside. -/
def resolvePath? (r : Resolver) (disk : Disk) (file : Path) (specifier : String) : Option Path :=
  if Text.startsWith "." specifier then
    some ((directoryOf file).join ⟨specifier⟩).normalize
  else (r.aliasPath? disk file specifier).or (r.packages.resolve? specifier)

/-- The identity of the module that a specifier means in a file. -/
def resolve? (r : Resolver) (disk : Disk) (file : Path) (specifier : String) : Option Identity :=
  (r.resolvePath? disk file specifier).map (Identity.ofTarget disk r.known)

/-- The identity of a file. -/
def identityOf (r : Resolver) (file : Path) : Identity := Identity.ofPath r.known file

/-- The specifier of a target behind one of the aliases of a table. -/
def aliasSpecifier? (table : AliasTable) (target : Path) : Option String :=
  table.patterns.findSome? fun pattern =>
    pattern.directories.findSome? fun dir =>
      if dir.isInDir target then
        let tail := (dir.relative target).slashed
        if tail = "" then none else some (pattern.lead ++ tail)
      else none

/-- A relative path as a specifier, which starts with `./` or `../` or is made of dots. -/
def relativeSpecifier (relative : String) : String :=
  if relative = "" then "."
  else if relative = ".." || Text.startsWith "./" relative || Text.startsWith "../" relative then
    relative
  else "./" ++ relative

/-- The specifier to write in a file for a target: by an alias, else by a package, else
relative. -/
def specifierFor (r : Resolver) (file target : Path) : String :=
  let target := target.normalize
  match ((r.nearestTable? file).bind fun table => aliasSpecifier? table target).or
      (r.packages.specifier? file target) with
  | some specifier => specifier
  | none => relativeSpecifier ((directoryOf file).relative target).slashed

/-- A specifier without a recognised extension. -/
def withoutExtension (r : Resolver) (specifier : String) : String := r.known.strip specifier

/-- A specifier without a final `/index`. -/
def withoutIndex (specifier : String) : String := (Text.dropTail? "/index" specifier).getD specifier

end Resolver

end Relocate
