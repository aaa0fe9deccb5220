import Relocate.Settings.Setting

/-!
The tables of a TOML document while it is read. A table is defined once: by its header, or by the
dotted keys that lead into it, and neither may add to what the other defined.
-/

namespace Relocate.Toml

/-- How a table came to be. -/
inductive Origin where
  /-- It lies on the way to a table with a header. -/
  | passed
  /-- It has a header, or it is the document. -/
  | header
  /-- It lies on the way of a dotted key. -/
  | dotted
  deriving DecidableEq, Repr

/-- What a key leads to. -/
inductive Node where
  | value (setting : Setting)
  | table (origin : Origin) (fields : List (String × Node))
  /-- The tables under a repeated header, the last one first. -/
  | tables (items : List (List (String × Node)))
  deriving Repr

/-- The fields of a table. -/
abbrev Fields := Ordered String Node

/-- Changes the table at the end of a path by `change`, which is told how that table came to be.
Tables that do not exist yet come to be by `origin`. -/
def changeAt (origin : Origin) (change : Origin → Fields → Option Fields) :
    (current : Origin) → List String → Fields → Option Fields
  | current, [], fields => change current fields
  | _, key :: path, fields =>
    match fields.get? key with
    | none =>
      (changeAt origin change origin path []).map fun inner => fields.put key (.table origin inner)
    | some (.table known inner) =>
      if origin = .dotted ∧ known = .header then none
      else
        (changeAt origin change known path inner).map fun inner =>
          fields.put key (.table known inner)
    | some (.tables (last :: earlier)) =>
      (changeAt origin change .header path last).map fun last =>
        fields.put key (.tables (last :: earlier))
    | _ => none

/-- Gives the key at the end of a dotted key a value, in a table with a header. -/
def addValue (path : List String) (value : Setting) (fields : Fields) : Option Fields :=
  match path.getLast? with
  | none => none
  | some key =>
    let way := path.dropLast
    changeAt .dotted
      (fun origin fields =>
        if (origin == .dotted) == way.isEmpty || (fields.get? key).isSome then none
        else some (fields.put key (.value value)))
      .header way fields

/-- Opens the table of a header. -/
def openTable (path : List String) (fields : Fields) : Option Fields :=
  match path.getLast? with
  | none => none
  | some key =>
    changeAt .passed
      (fun _ fields =>
        match fields.get? key with
        | none => some (fields.put key (.table .header []))
        | some (.table .passed inner) => some (fields.put key (.table .header inner))
        | some _ => none)
      .header path.dropLast fields

/-- Opens one more table of a repeated header. -/
def openNext (path : List String) (fields : Fields) : Option Fields :=
  match path.getLast? with
  | none => none
  | some key =>
    changeAt .passed
      (fun _ fields =>
        match fields.get? key with
        | none => some (fields.put key (.tables [[]]))
        | some (.tables items) => some (fields.put key (.tables ([] :: items)))
        | some _ => none)
      .header path.dropLast fields

/-- Gives a dotted key a value in the table that was opened last. -/
def addValueAt (opened : List String) (path : List String) (value : Setting) (fields : Fields) :
    Option Fields :=
  changeAt .passed (fun _ fields => addValue path value fields) .header opened fields

mutual

/-- The value of a node. -/
def Node.setting : Node → Setting
  | .value setting => setting
  | .table _ fields => .table (fieldSettings fields)
  | .tables items => .list (itemSettings items).reverse

/-- The values of fields. -/
def fieldSettings : List (String × Node) → List (String × Setting)
  | [] => []
  | (key, node) :: rest => (key, node.setting) :: fieldSettings rest

/-- The values of tables. -/
def itemSettings : List (List (String × Node)) → List Setting
  | [] => []
  | fields :: rest => .table (fieldSettings fields) :: itemSettings rest

end

end Relocate.Toml
