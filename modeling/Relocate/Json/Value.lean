import Relocate.Json.Token

/-!
JSON values, read strictly: no comments, no trailing commas and nothing behind the value. Strings
are decoded on demand, because one that is never asked for may hold half of a surrogate pair.
-/

namespace Relocate.Json

/-- A value of JSON; numbers and strings are kept as written. -/
inductive Value where
  | null
  | bool (value : Bool)
  | number (text : List Char)
  | string (text : List Char)
  | array (items : List Value)
  | object (fields : List (List Char × Value))
  deriving Repr

mutual

/-- The value at the start of some tokens, and the tokens behind it. -/
def readValue : (fuel : Nat) → List Token → Option (Value × List Token)
  | 0, _ => none
  | fuel + 1, tokens =>
    match tokens with
    | .null :: rest => some (.null, rest)
    | .bool value :: rest => some (.bool value, rest)
    | .number text :: rest => some (.number text, rest)
    | .string text :: rest => some (.string text, rest)
    | .openBracket :: .closeBracket :: rest => some (.array [], rest)
    | .openBracket :: rest => (readItems fuel rest).map fun (items, rest) => (.array items, rest)
    | .openBrace :: .closeBrace :: rest => some (.object [], rest)
    | .openBrace :: rest => (readFields fuel rest).map fun (fields, rest) => (.object fields, rest)
    | _ => none

/-- The items of an array, behind its opening bracket. -/
def readItems : (fuel : Nat) → List Token → Option (List Value × List Token)
  | 0, _ => none
  | fuel + 1, tokens =>
    match readValue fuel tokens with
    | some (item, .comma :: rest) =>
      (readItems fuel rest).map fun (items, rest) => (item :: items, rest)
    | some (item, .closeBracket :: rest) => some ([item], rest)
    | _ => none

/-- The fields of an object, behind its opening brace. -/
def readFields : (fuel : Nat) → List Token → Option (List (List Char × Value) × List Token)
  | 0, _ => none
  | fuel + 1, tokens =>
    match tokens with
    | .string key :: .colon :: rest =>
      match readValue fuel rest with
      | some (item, .comma :: rest) =>
        (readFields fuel rest).map fun (fields, rest) => ((key, item) :: fields, rest)
      | some (item, .closeBrace :: rest) => some ([(key, item)], rest)
      | _ => none
    | _ => none

end

/-- The value that a text holds. -/
def parse? (text : String) : Option Value :=
  (tokens? text.toList).bind fun tokens =>
    match readValue (tokens.length + 1) tokens with
    | some (value, []) => some value
    | _ => none

/-- The value of four hexadecimal digits. -/
def unitOf (a b c d : Char) : Nat :=
  let digit (c : Char) : Nat :=
    if c.isDigit then c.toNat - 48 else if c.toNat < 97 then c.toNat - 55 else c.toNat - 87
  ((digit a * 16 + digit b) * 16 + digit c) * 16 + digit d

/-- The character that an escape of one letter stands for. -/
def escaped : Char → Char
  | 'b' => '\x08'
  | 'f' => '\x0c'
  | 'n' => '\n'
  | 'r' => '\r'
  | 't' => '\t'
  | c => c

/-- The text that a string as written stands for. Half of a surrogate pair stands for none. -/
def decode? : List Char → Option (List Char)
  | [] => some []
  | '\\' :: 'u' :: a :: b :: c :: d :: rest =>
    let unit := unitOf a b c d
    if 0xD800 ≤ unit && unit ≤ 0xDBFF then
      match rest with
      | '\\' :: 'u' :: e :: f :: g :: h :: rest =>
        let low := unitOf e f g h
        if 0xDC00 ≤ low && low ≤ 0xDFFF then
          (decode? rest).map (Char.ofNat (0x10000 + (unit - 0xD800) * 0x400 + (low - 0xDC00)) :: ·)
        else none
      | _ => none
    else if 0xDC00 ≤ unit && unit ≤ 0xDFFF then none
    else (decode? rest).map (Char.ofNat unit :: ·)
  | '\\' :: c :: rest => (decode? rest).map (escaped c :: ·)
  | c :: rest => (decode? rest).map (c :: ·)

namespace Value

/-- The text of a string. -/
def text? : Value → Option String
  | string text => (decode? text).map String.ofList
  | _ => none

/-- The texts of a list of strings. -/
def texts? : Value → Option (List String)
  | array items => items.mapM text?
  | _ => none

/-- The fields of an object with their names decoded. -/
def fields? : Value → Option (List (String × Value))
  | object fields =>
    fields.mapM fun (key, value) => (decode? key).map fun key => (String.ofList key, value)
  | _ => none

/-- The values of the named fields of a record, in the order of the names. A record is an object
that gives none of these fields twice, or an array of exactly these fields. -/
def record? (names : List String) : Value → Option (List (Option Value))
  | array items => if items.length = names.length then some (items.map some) else none
  | value =>
    value.fields?.bind fun fields =>
      names.mapM fun name =>
        match fields.filter (·.1 == name) with
        | [] => some none
        | [(_, value)] => some (some value)
        | _ => none

end Value

/-- A field that may be left out or `null`, read by `read`. -/
def optional? {α : Type} (read : Value → Option α) : Option Value → Option (Option α)
  | none | some .null => some none
  | some value => (read value).map some

end Relocate.Json
