import Relocate.Disk.Basic
import Relocate.Json.Comments
import Relocate.Json.Value
import Relocate.Ordered

/-!
Alias tables: the `paths` of a TypeScript configuration. A configuration may extend others, whose
patterns it takes over and may replace key by key. Only patterns with a single wildcard at their
end are of use here.
-/

namespace Relocate

/-- A pattern `lead*` and the directories it stands for, in order. -/
structure AliasPattern where
  lead : String
  directories : List Path
  deriving DecidableEq, Repr, Inhabited

/-- What the wildcard stands for in a specifier that the pattern matches. -/
def AliasPattern.tail? (pattern : AliasPattern) (specifier : String) : Option String :=
  Text.dropLead? pattern.lead specifier

/-- The aliases of one configuration file. -/
structure AliasTable where
  configPath : Path
  /-- The directory that the mapped paths of the file itself start from. -/
  baseDir : Path
  patterns : List AliasPattern
  deriving DecidableEq, Repr, Inhabited

namespace AliasTable

/-- The names of configuration files, the preferred one first. -/
def fileNames : List String := ["tsconfig.json", "tsconfig.build.json"]

/-- The directory that holds the configuration file. -/
def configDir (table : AliasTable) : Path := table.configPath.parent?.getD Path.top

/-- What a configuration file says about aliases. -/
structure Declaration where
  /-- The configurations that this one extends, in order. -/
  bases : List String
  baseUrl : Option String
  paths : Ordered String (List String)
  deriving DecidableEq, Repr

/-- The entries of `extends`: one text or a list of texts. -/
def readExtends (value : Json.Value) : Option (List String) :=
  (value.text?.map fun text => [text]).or value.texts?

/-- The patterns of `paths`. A key given twice keeps its first place and its last value. -/
def readPaths (value : Json.Value) : Option (Ordered String (List String)) :=
  value.fields?.bind fun fields =>
    (fields.mapM fun (field : String × Json.Value) =>
        field.2.texts?.map fun texts => (field.1, texts)).map
      fun fields => Ordered.putAll [] fields

/-- The two options that matter here. -/
def readOptions (value : Json.Value) :
    Option (Option String × Option (Ordered String (List String))) :=
  match value.record? ["baseUrl", "paths"] with
  | some [baseUrl, paths] => do
    return (← Json.optional? Json.Value.text? baseUrl, ← Json.optional? readPaths paths)
  | _ => none

/-- Reads the text of a configuration file. -/
def Declaration.parse? (text : String) : Option Declaration := do
  match ← (← Json.parse? (Json.sanitize text)).record? ["extends", "compilerOptions"] with
  | [bases, options] =>
    let bases ← Json.optional? readExtends bases
    let options ← Json.optional? readOptions options
    let (baseUrl, paths) := options.getD (none, none)
    return ⟨bases.getD [], baseUrl, paths.getD []⟩
  | _ => none

/-- A configuration with all that it takes over from others. -/
structure Merged where
  baseDir : Path
  /-- The base address is declared, here or in a configuration that is extended. -/
  declaresBase : Bool
  paths : Ordered String (List Path)
  deriving Repr

/-- Takes over what a further base says. -/
def Merged.extend (m base : Merged) : Merged :=
  ⟨base.baseDir, m.declaresBase || base.declaresBase, m.paths.putAll base.paths⟩

/-- Adds what the file in `dir` itself declares to what it takes over. -/
def Merged.declare (m : Merged) (dir : Path) (d : Declaration) : Merged :=
  let baseDir :=
    match d.baseUrl with
    | some url => (dir.join ⟨url⟩).normalize
    | none => if m.declaresBase then m.baseDir else dir
  ⟨baseDir, m.declaresBase || d.baseUrl.isSome,
    m.paths.putAll (d.paths.map fun (key, entries) => (key, entries.map fun e => baseDir.join ⟨e⟩))⟩

/-- The file that an entry of `extends` means, in a configuration in `dir`. Only relative and
absolute paths are followed, and the extension `.json` may be left out. -/
def locateExtended? (disk : Disk) (dir : Path) (entry : String) : Option Path :=
  if Text.startsWith "." entry || Path.isAbsolute ⟨entry⟩ then
    let candidate := (dir.join ⟨entry⟩).normalize
    if disk.isFile candidate then some candidate
    else
      let named : Path := ⟨candidate.text ++ ".json"⟩
      if disk.isFile named then some named else none
  else none

/-- Reads what one file declares. -/
def Declaration.load (disk : Disk) (path : Path) : Except ConfigProblem Declaration :=
  match disk.readText path with
  | .error cause => .error (.aliasUnread path cause)
  | .ok text =>
    match Declaration.parse? text with
    | some declaration => .ok declaration
    | none => .error (.aliasMalformed path)

/-- The directory of a configuration file, in normal form. -/
def directoryOf (path : Path) : Path := (path.parent?.getD Path.top).normalize

/-- The place of a file, by which a chain of extensions recognises that it has come round. -/
def placeOf (disk : Disk) (path : Path) : Option Location := (disk.locate path).toOption

/-- The places of the files that a chain of extensions has come through. -/
abbrev Visited := List (Option Location)

/-- What the entries of `extends` add, one after the other. An entry that means no file adds
nothing. -/
def mergedBases (disk : Disk) (load : Visited → Path → Except ConfigProblem Merged × Visited)
    (dir : Path) : Visited → Merged → List String → Except ConfigProblem Merged × Visited
  | visited, m, [] => (.ok m, visited)
  | visited, m, entry :: entries =>
    match locateExtended? disk dir entry with
    | none => mergedBases disk load dir visited m entries
    | some path =>
      let answer := load visited path
      match answer.1 with
      | .error problem => (.error problem, answer.2)
      | .ok base => mergedBases disk load dir answer.2 (m.extend base) entries

/-- The configuration in a file with all that it takes over, where `load` reads the others. -/
def mergedFile (disk : Disk) (load : Visited → Path → Except ConfigProblem Merged × Visited)
    (visited : Visited) (path : Path) : Except ConfigProblem Merged × Visited :=
  match Declaration.load disk path with
  | .error problem => (.error problem, visited)
  | .ok declaration =>
    let dir := directoryOf path
    let answer := mergedBases disk load dir visited ⟨dir, false, []⟩ declaration.bases
    (answer.1.map fun bases => bases.declare dir declaration, answer.2)

/-- The configuration in a file with all that it takes over. A file is on record as visited only
while the files that it extends are read, so it may be extended by several, but not by itself.
`fuel` bounds how many more files may be on record at a time. -/
def merged (disk : Disk) : (fuel : Nat) → Visited → Path → Except ConfigProblem Merged × Visited
  | 0, visited, path => (.error (.circularExtends path), visited)
  | fuel + 1, visited, path =>
    let place := placeOf disk path
    if visited.contains place then (.error (.circularExtends path), visited)
    else
      let answer := mergedFile disk (merged disk fuel) (place :: visited) path
      (answer.1, answer.2.erase place)

/-- What stands before a single wildcard at the end of a text. -/
def wildcardLead? (text : String) : Option String :=
  (Text.dropTail? "*" text).filter fun lead => !lead.toList.contains '*'

/-- The directory that a mapped path stands for, if it is of use. -/
def mappedDir? (entry : Path) : Option Path :=
  (wildcardLead? entry.text).map fun dir => (Path.mk dir).normalize

/-- The pattern of a key and the paths it is mapped to, if it is of use. -/
def patternOf? (key : String) (entries : List Path) : Option AliasPattern :=
  match wildcardLead? key with
  | none => none
  | some lead =>
    match entries.filterMap mappedDir? with
    | [] => none
    | directories => some ⟨lead, directories⟩

/-- More than any chain of extensions without a cycle is long: it holds no file twice. -/
def longestChain (disk : Disk) : Nat := disk.entries.length + 1

/-- The alias table of a configuration file; none if there is no such file. -/
def load (disk : Disk) (path : Path) : Except Error (Option AliasTable) :=
  if disk.isFile path then
    match (merged disk (longestChain disk) [] path).1 with
    | .error problem => .error (.config problem)
    | .ok m =>
      .ok (some ⟨path.normalize, m.baseDir.normalize,
        m.paths.filterMap fun (key, entries) => patternOf? key entries⟩)
  else .ok none

end AliasTable

end Relocate
