import Relocate.Cli.Help
import Relocate.Cli.Output
import Relocate.Cli.Request
import Relocate.Move.Run
import Relocate.Settings.Load

/-!
Running a command on a disk.
-/

namespace Relocate.Cli

/-- What a command leaves behind. -/
structure Outcome where
  code : Nat
  output : String
  /-- What is said on the side. -/
  complaints : List String
  disk : Disk

/-- The exit code of a failure. -/
def exitCode : Error → Nat
  | .targetExists _ => 2
  | _ => 1

/-- A command that ended well. -/
def Outcome.success (disk : Disk) (output : String) : Outcome := ⟨0, output, [], disk⟩

/-- A command that failed. -/
def Outcome.failure (disk : Disk) (code : Nat) (error : Error) : Outcome :=
  ⟨code, "", ["Error: " ++ error.message], disk⟩

/-- The version of the program. -/
def version : String := "tsmove 0.1.0"

/-- Moves a file or directory and reports. -/
def runMove (freshName : Nat → String) (disk : Disk) (scan : ScanSettings)
    (source target root : Path) (format : ReportFormat) : Outcome :=
  match moveInProject freshName disk root scan source target with
  | (.error error, disk) => .failure disk (exitCode error) error
  | (.ok report, now) =>
    .success now
      (match format with
        | .json => line (reportJson report)
        | .pretty => reportText (Session.start disk root scan).root report)

/-- Lists the imports of a file. -/
def runRefs (freshName : Nat → String) (disk : Disk) (scan : ScanSettings) (file root : Path) :
    Outcome :=
  let (result, s) :=
    (Session.prepare (Tools.standard freshName)).run.run (Session.start disk root scan)
  match result with
  | .error error => .failure s.disk (exitCode error) error
  | .ok () => .success s.disk (sitesText s.root (s.sitesOf file))

/-- Runs a command with the settings of its project. -/
def withSettings (environment : List (String × String)) (disk : Disk) (root : Path)
    (command : ScanSettings → Outcome) : Outcome :=
  match Settings.load disk environment root with
  | .error error => .failure disk 1 error
  | .ok settings => command settings.scan

/-- Runs what the arguments ask for. -/
def run (freshName : Nat → String) (environment : List (String × String)) (disk : Disk)
    (arguments : List String) : Outcome :=
  match request? arguments with
  | none => ⟨2, "", ["error: these arguments are no use, try '--help'"], disk⟩
  | some .version => .success disk (line version)
  | some (.help topic) => .success disk topic.text
  | some (.move source target root format) =>
    withSettings environment disk root fun scan =>
      runMove freshName disk scan source target root format
  | some (.refs file root) =>
    withSettings environment disk root fun scan => runRefs freshName disk scan file root

end Relocate.Cli
