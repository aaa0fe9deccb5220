import Relocate.Json.Quote
import Relocate.Move.Report
import Relocate.Path.Normal

/-!
What is printed: reports, as text or as JSON, and lists of imports.
-/

namespace Relocate.Cli

/-- A path as it is shown: from the root of the project if it lies there. -/
def shown (root path : Path) : String := ((path.below? root).getD path).slashed

/-- A line of its own. -/
def line (text : String) : String := text ++ "\n"

/-- A report as text. -/
def reportText (root : Path) (r : Report) : String :=
  let moved := r.moved.map fun m =>
    line ("  " ++ shown root m.source ++ " -> " ++ shown root m.target)
  let updated := r.updated.map fun file => line ("  " ++ shown root file)
  let failed := r.failed.map fun f => line ("  " ++ shown root f.file ++ ": " ++ f.error.message)
  String.join
    (line ("Moved " ++ toString r.moved.length ++ " file(s)") :: moved ++
      line ("Updated imports in " ++ toString r.updated.length ++ " file(s)") :: updated ++
      if r.failed.isEmpty then []
      else
        line ("Could not update " ++ toString r.failed.length ++ " file(s), fix manually:") ::
          failed)

/-- Blanks at the start of a line. -/
def indent (depth : Nat) : String := String.ofList (List.replicate (2 * depth) ' ')

/-- Items between brackets, each on lines of its own. -/
def block (opening closing : String) (depth : Nat) (items : List String) : String :=
  if items.isEmpty then opening ++ closing
  else
    opening ++ "\n" ++ ",\n".intercalate (items.map (indent (depth + 1) ++ ·)) ++ "\n" ++
      indent depth ++ closing

/-- A JSON list. -/
def jsonList : Nat → List String → String := block "[" "]"

/-- A JSON object whose values are written already. -/
def jsonObject (depth : Nat) (fields : List (String × String)) : String :=
  block "\x7b" "\x7d" depth (fields.map fun (name, value) => Json.quote name ++ ": " ++ value)

/-- A report as JSON. -/
def reportJson (r : Report) : String :=
  let moved := r.moved.map fun m =>
    jsonObject 2 [("from", Json.quote m.source.text), ("to", Json.quote m.target.text)]
  let failed := r.failed.map fun f =>
    jsonObject 2 [("file", Json.quote f.file.text), ("error", Json.quote f.error.message)]
  jsonObject 0
    [("moved", jsonList 1 moved),
      ("rewritten", jsonList 1 (r.updated.map fun file => Json.quote file.text)),
      ("failed", jsonList 1 failed)]

/-- Imports as text, one to a line. -/
def sitesText (root : Path) (sites : List Site) : String :=
  String.join (sites.map fun site => line (shown root site.file ++ ":" ++ site.span.text))

end Relocate.Cli
