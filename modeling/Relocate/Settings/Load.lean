import Relocate.Disk.Basic
import Relocate.Settings.Basic
import Relocate.Settings.Variable
import Relocate.Toml.Document

/-!
The settings of a project: those that hold by default, those in the settings file of the project
laid over them, and those in environment variables laid over both.
-/

namespace Relocate

/-- The format by its name. -/
def LogFormat.ofName? : String → Option LogFormat
  | "pretty" => some .pretty
  | "json" => some .json
  | _ => none

/-- The name of a format. -/
def LogFormat.name : LogFormat → String
  | .pretty => "pretty"
  | .json => "json"

namespace Settings

/-- The settings written down. -/
def toSetting (s : Settings) : Setting :=
  .table
    [("logging",
        .table [("level", .text s.logging.level), ("format", .text s.logging.format.name)]),
      ("scan",
        .table
          [("batch_size", .integer s.scan.batchSize),
            ("extensions", .list (s.scan.extensions.map .text)),
            ("excluded_dirs", .list (s.scan.excludedDirs.map .text))])]

/-- The log settings that are written down. -/
def readLogging (written : Setting) : Option LogSettings :=
  match written.record? ["level", "format"] with
  | some [level, format] => do return ⟨← level.text?, ← LogFormat.ofName? (← format.text?)⟩
  | _ => none

/-- The scan settings that are written down. -/
def readScan (written : Setting) : Option ScanSettings :=
  match written.record? ["batch_size", "extensions", "excluded_dirs"] with
  | some [size, extensions, dirs] => do
    return ⟨← size.number?, ← extensions.texts?, ← dirs.texts?⟩
  | _ => none

/-- The settings that are written down. -/
def ofSetting? (written : Setting) : Option Settings :=
  match written.record? ["logging", "scan"] with
  | some [logging, scan] => do return ⟨← readLogging logging, ← readScan scan⟩
  | _ => none

/-- The places of the settings file of a project, the preferred one first. -/
def fileNames : List String := ["tsmove.toml", ".tsmove/config.toml"]

/-- The file that a path means. A relative path is looked for in the working directory and then in
the directories above it. -/
def findFile? (disk : Disk) (path : Path) : Option Path :=
  if path.isAbsolute then if disk.isFile path then some path else none
  else
    ((List.range (disk.workingDir.length + 1)).reverse.map fun kept =>
        (Path.ofComponents (.root :: (disk.workingDir.take kept).map .name)).join path).find?
      disk.isFile

/-- What the settings file of a project says; an empty table if there is none. -/
def readFile (disk : Disk) (root : Path) : Except Error Setting :=
  let place := (fileNames.map fun name => root.join ⟨name⟩).find? disk.contains
  match place.bind (findFile? disk) with
  | none => .ok (.table [])
  | some path =>
    match disk.readText path with
    | .error _ => .error (.config .unreadable)
    | .ok text =>
      match Toml.parse? text with
      | none => .error (.config .unreadable)
      | some written => .ok written

/-- What the variables of the environment say, the later ones laid over the earlier. -/
def ofEnvironment (environment : List (String × String)) : Except Error Setting :=
  environment.foldlM
    (fun written (name, text) =>
      match Variable.keys? name with
      | none => .ok written
      | some keys =>
        match Variable.read? text with
        | none => .error (.config (.cutVariable name))
        | some value => .ok (written.laidOver (Setting.nested keys value)))
    (.table [])

/-- The settings of the project in a directory, with the variables of the environment. -/
def load (disk : Disk) (environment : List (String × String)) (root : Path) :
    Except Error Settings := do
  let given ← ofEnvironment environment
  let file ← readFile disk root
  match ofSetting? (((toSetting {}).laidOver file).laidOver given) with
  | none => .error (.config .unreadable)
  | some settings => do
    settings.validate
    return settings

end Settings

end Relocate
