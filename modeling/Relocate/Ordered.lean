/-!
Association lists that keep the order in which their keys first came. A new value for a known key
takes the place of the old one.
-/

namespace Relocate

/-- Values by key, in the order in which the keys came. -/
abbrev Ordered (κ α : Type) := List (κ × α)

namespace Ordered

variable {κ α : Type} [BEq κ]

/-- The value of a key. -/
def get? (m : Ordered κ α) (key : κ) : Option α := (m.find? (·.1 == key)).map (·.2)

/-- Gives a key a value: in its place if the key is known, else at the end. -/
def put : Ordered κ α → κ → α → Ordered κ α
  | [], key, value => [(key, value)]
  | (known, old) :: rest, key, value =>
    if known == key then (known, value) :: rest else (known, old) :: put rest key value

/-- The list without a key; the others keep their order. -/
def erase (m : Ordered κ α) (key : κ) : Ordered κ α := m.filter fun (known, _) => !(known == key)

/-- Gives keys their values, one after the other. -/
def putAll (m : Ordered κ α) (entries : List (κ × α)) : Ordered κ α :=
  entries.foldl (fun m (key, value) => m.put key value) m

end Ordered

/-- The last of the items with the greatest measure. -/
def lastGreatest? {α : Type} (measure : α → Nat) : List α → Option α
  | [] => none
  | item :: rest =>
    match lastGreatest? measure rest with
    | none => some item
    | some best => if measure best < measure item then some item else some best

end Relocate
