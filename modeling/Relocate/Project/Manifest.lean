import Relocate.Error
import Relocate.Json.Value
import Relocate.Text.Blank

/-!
The manifest of a package. Only the package's name matters here: it is the word under which the
other packages of a workspace import from it.
-/

namespace Relocate.Manifest

/-- The name of a manifest file. -/
def fileName : String := "package.json"

/-- The name of the package, without white space around it; an empty name is none. -/
def packageName (text : String) : Except Error (Option String) :=
  match (Json.parse? text).bind (Json.Value.record? ["name"]) with
  | some [name] =>
    match Json.optional? Json.Value.text? name with
    | some name => .ok ((name.map Text.trim).filter (· ≠ ""))
    | none => .error .json
  | _ => .error .json

end Relocate.Manifest
