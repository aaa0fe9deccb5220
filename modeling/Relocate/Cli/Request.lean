import Relocate.Path.Basic

/-!
What is asked for on the command line. Arguments are read from left to right, and the first one that
is out of place, or asks for help, decides.
-/

namespace Relocate.Cli

/-- How a report is printed. -/
inductive ReportFormat where
  | pretty
  | json
  deriving DecidableEq, Repr

/-- What help is about. -/
inductive Topic where
  | program
  | move
  | refs
  deriving DecidableEq, Repr

/-- What is asked for. -/
inductive Request where
  | move (source target root : Path) (format : ReportFormat)
  | refs (file root : Path)
  | help (topic : Topic)
  | version
  deriving DecidableEq, Repr

/-- The arguments of a command, as far as they have been read. -/
structure Arguments where
  values : List String := []
  root : Option String := none
  format : Option ReportFormat := none
  deriving Repr

/-- Why no arguments result. -/
inductive Stop where
  /-- An argument is out of place. -/
  | usage
  /-- Help is asked for. -/
  | help
  deriving DecidableEq, Repr

/-- What a command takes. -/
structure Shape where
  /-- The number of values. -/
  count : Nat
  /-- The command takes the format of its report. -/
  hasFormat : Bool

namespace Arguments

/-- Adds a value, which is not empty. -/
def addValue (shape : Shape) (a : Arguments) (value : String) : Except Stop Arguments :=
  if value = "" || shape.count ≤ a.values.length then .error .usage
  else .ok { a with values := a.values ++ [value] }

/-- Sets an option, which is given at most once. -/
def setOption (shape : Shape) (a : Arguments) (name value : String) : Except Stop Arguments :=
  if name = "root" then
    if a.root.isSome || value = "" then .error .usage else .ok { a with root := some value }
  else if name = "format" && shape.hasFormat && a.format.isNone then
    match value with
    | "pretty" => .ok { a with format := some .pretty }
    | "json" => .ok { a with format := some .json }
    | _ => .error .usage
  else .error .usage

end Arguments

/-- The argument is an option and no value. -/
def isOption (argument : String) : Bool := Text.startsWith "-" argument && argument != "-"

/-- The name of a long option and the value that follows it behind an equals sign. -/
def splitOption (text : String) : String × Option String :=
  let chars := text.toList
  match chars.dropWhile (· != '=') with
  | [] => (text, none)
  | _ :: value => (String.ofList (chars.takeWhile (· != '=')), some (String.ofList value))

/-- Reads the arguments of a command. Behind `--` all are values. -/
def readArguments (shape : Shape) : Arguments → List String → Except Stop Arguments
  | a, [] => .ok a
  | a, "--" :: rest => rest.foldlM (Arguments.addValue shape) a
  | a, argument :: rest =>
    match Text.dropLead? "--" argument with
    | some long =>
      match splitOption long, rest with
      | ("help", none), _ => .error .help
      | (name, some value), rest => do readArguments shape (← a.setOption shape name value) rest
      | (name, none), value :: rest =>
        if isOption value then .error .usage
        else do readArguments shape (← a.setOption shape name value) rest
      | _, [] => .error .usage
    | none =>
      if isOption argument then
        if Text.startsWith "-h" argument then .error .help else .error .usage
      else do readArguments shape (← a.addValue shape argument) rest

/-- The directory of the project, which is the working directory unless it is given. -/
def Arguments.rootPath (a : Arguments) : Path := ⟨a.root.getD "."⟩

/-- The request for a move. -/
def moveRequest (arguments : List String) : Option Request :=
  match readArguments ⟨2, true⟩ {} arguments with
  | .ok a =>
    match a.values with
    | [source, target] => some (.move ⟨source⟩ ⟨target⟩ a.rootPath (a.format.getD .pretty))
    | _ => none
  | .error .help => some (.help .move)
  | .error .usage => none

/-- The request for the imports of a file. -/
def refsRequest (arguments : List String) : Option Request :=
  match readArguments ⟨1, false⟩ {} arguments with
  | .ok a =>
    match a.values with
    | [file] => some (.refs ⟨file⟩ a.rootPath)
    | _ => none
  | .error .help => some (.help .refs)
  | .error .usage => none

/-- What the arguments ask for; none if they are no use. -/
def request? : List String → Option Request
  | "move" :: rest => moveRequest rest
  | "refs" :: rest => refsRequest rest
  | ["help"] | ["help", "help"] => some (.help .program)
  | ["help", "move"] => some (.help .move)
  | ["help", "refs"] => some (.help .refs)
  | "--version" :: _ => some .version
  | "--help" :: _ => some (.help .program)
  | argument :: _ =>
    if Text.startsWith "-V" argument then some .version
    else if Text.startsWith "-h" argument then some (.help .program)
    else none
  | [] => none

end Relocate.Cli
