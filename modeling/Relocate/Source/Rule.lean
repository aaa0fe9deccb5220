import Relocate.Source.Reader

/-!
The rules that call each other, and the little that one needs to know about what another read. A
rule is a reader that gets all the rules as an argument; `Relocate.Source.Imports` ties the knot.
-/

namespace Relocate.Source

/-- What an expression is, as far as it decides what can follow it. -/
inductive Kind where
  /-- A single name. -/
  | name (word : String)
  /-- A property, or an expression in parentheses or with a type. -/
  | place
  /-- A property or a call behind `?.`. -/
  | chain
  /-- A list or an object, which can be a pattern. -/
  | pattern
  /-- A function written with an arrow. -/
  | arrow
  /-- An operator before its operand. -/
  | unary
  /-- An expression that is waited for; the operand may be a single name. -/
  | awaited (operand : Option String)
  /-- Another operator with its operands. -/
  | operation
  | assigned
  /-- `new` without arguments. -/
  | bareNew
  /-- The word `super` alone. -/
  | superAlone
  /-- The word `import` alone. -/
  | importAlone
  | other
  deriving DecidableEq, Repr

/-- What a rule read. -/
structure Shape where
  kind : Kind
  /-- It can be read again as a pattern: no method is among the properties of an object in it. -/
  convertible : Bool := true
  deriving DecidableEq, Repr

namespace Shape

/-- Nothing is known about what was read. -/
def other : Shape := ⟨.other, true⟩

/-- A single name. -/
def name (word : String) : Shape := ⟨.name word, true⟩

/-- Something that can be assigned to. -/
def place : Shape := ⟨.place, true⟩

/-- A function written with an arrow. -/
def arrow : Shape := ⟨.arrow, true⟩

/-- It is a single name. -/
def isName (s : Shape) : Bool :=
  match s.kind with
  | .name _ => true
  | _ => false

/-- It is a function written with an arrow. -/
def isArrow (s : Shape) : Bool := s.kind == .arrow

/-- The assignment can set it: a pattern only by `=`. -/
def canBeSet (s : Shape) (mark : String) : Bool :=
  match s.kind with
  | .name _ | .place | .chain => true
  | .pattern => mark == "=" && s.convertible
  | _ => false

end Shape

/-- The rules that call each other. -/
inductive Rule where
  /-- A statement, import or export of a module or a namespace. -/
  | item
  /-- A statement; a declaration only where it is allowed. -/
  | statement (allowDeclaration : Bool)
  | block
  /-- The decorators before a declaration; before an export only where it is allowed. -/
  | decorators (allowExport : Bool)
  /-- A name or a pattern that is declared; `let` is no name there. -/
  | binding (refuseLet : Bool)
  | expression
  | assignment
  /-- An expression of binary operators. -/
  | binary
  | unary
  | leftHandSide
  /-- A property or an instance, without calls. -/
  | member
  /-- What can follow an expression: properties, calls, templates. -/
  | subscripts (callee : Shape) (noCall noComputed : Bool)
  /-- A braced list of properties. -/
  | object
  /-- An element; text follows it inside of another one. -/
  | element (isChild : Bool)
  | type
  /-- A type that is no conditional. -/
  | plainType
  | typeOperator
  /-- The braced members of an interface. -/
  | typeMembers

/-- A reader for each rule. -/
abbrev Rules (text : List Char) := Rule → Reader text Shape

/-- Reads by a rule, and forgets what was read. -/
def Rules.pass {text : List Char} (rules : Rules text) (rule : Rule) : Reader text Unit := do
  let _ ← rules rule

end Relocate.Source
