import Relocate.Ordered

/-!
Settings as they are written down, before anything is known of their meaning: a tree of tables. One
tree is laid over another table by table.
-/

namespace Relocate

/-- A value as it is written down. -/
inductive Setting where
  | text (text : String)
  | integer (value : Int)
  | truth (value : Bool)
  /-- A value that no setting takes, such as a number with a fraction. -/
  | other
  | list (items : List Setting)
  | table (fields : List (String × Setting))
  deriving Repr, Inhabited

namespace Setting

mutual

/-- One value laid over another: of two tables the fields are laid over each other, any other value
replaces what was there. -/
def laidOver : (below : Setting) → Setting → Setting
  | .table below, .table fields => .table (fieldsLaidOver below fields)
  | _, value => value

/-- Fields laid over others, key by key. -/
def fieldsLaidOver (below : List (String × Setting)) :
    List (String × Setting) → List (String × Setting)
  | [] => below
  | (key, value) :: rest =>
    let value :=
      match Ordered.get? below key with
      | some known => laidOver known value
      | none => value
    fieldsLaidOver (Ordered.put below key value) rest

end

/-- The value at the end of a path of keys. -/
def nested (path : List String) (value : Setting) : Setting :=
  path.foldr (fun key value => .table [(key, value)]) value

/-- The text of a setting. -/
def text? : Setting → Option String
  | .text written => some written
  | _ => none

/-- The number of a setting, which is not negative. -/
def number? : Setting → Option Nat
  | .integer (.ofNat n) => some n
  | _ => none

/-- The texts of a setting. -/
def texts? : Setting → Option (List String)
  | .list items => items.mapM text?
  | _ => none

/-- The values of the named fields, in the order of the names. They may also be written as a list in
that order, of which the rest is ignored. -/
def record? (names : List String) : Setting → Option (List Setting)
  | .table fields => names.mapM (Ordered.get? fields)
  | .list items => if names.length ≤ items.length then some (items.take names.length) else none
  | _ => none

end Setting

end Relocate
