import Relocate.Error

/-!
The settings of a project and what is asked of them.
-/

namespace Relocate

/-- Which files of a project are looked at, and how. -/
structure ScanSettings where
  /-- The number of files that are indexed in one go. -/
  batchSize : Nat := 50
  /-- The extensions of source files, without a leading dot. -/
  extensions : List String := ["ts", "tsx"]
  /-- The names of directories that are never entered. -/
  excludedDirs : List String := ["node_modules", ".git", "jspm_packages", "typings"]
  deriving DecidableEq, Repr, Inhabited

/-- How log lines are written. -/
inductive LogFormat where
  | pretty
  | json
  deriving DecidableEq, Repr, Inhabited

/-- What is logged. -/
structure LogSettings where
  level : String := "info"
  format : LogFormat := .pretty
  deriving DecidableEq, Repr, Inhabited

/-- The settings of a project. -/
structure Settings where
  logging : LogSettings := {}
  scan : ScanSettings := {}
  deriving DecidableEq, Repr, Inhabited

namespace Settings

/-- The names of log levels. -/
def levels : List String := ["trace", "debug", "info", "warn", "error"]

/-- The first thing that is wrong with settings. -/
def problem? (s : Settings) : Option ConfigProblem :=
  if !levels.contains s.logging.level then some (.unknownLevel s.logging.level)
  else if s.scan.batchSize = 0 then some .emptyBatch
  else if s.scan.extensions.isEmpty then some .noExtension
  else (s.scan.extensions.find? (Text.startsWith ".")).map .dottedExtension

/-- Accepts settings with which nothing is wrong. -/
def validate (s : Settings) : Except Error Unit :=
  match s.problem? with
  | some problem => .error (.config problem)
  | none => .ok ()

end Settings

end Relocate
