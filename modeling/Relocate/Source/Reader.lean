import Relocate.Source.Cursor

/-!
Readers of a source text. A reader starts at a token and ends at the token behind what it read, or
it meets a fault, and then it says where. Where a rule can go on behind a fault, `recover` does;
`attempt` and `lookAhead` return to where they started.
-/

namespace Relocate.Source

/-- What a dialect adds to plain JavaScript. -/
structure Dialect where
  /-- Types, declarations and decorators. -/
  typed : Bool
  /-- Elements, in the place of type assertions. -/
  elements : Bool
  /-- Only declarations, so that a destructuring parameter may be optional. -/
  ambient : Bool
  deriving DecidableEq, Repr

/-- What surrounds the token at hand, as far as it decides how to read on. -/
structure Context where
  dialect : Dialect
  /-- How often a loop may run. No loop over the text runs more often. -/
  bound : Nat
  /-- `in` is an operator. -/
  allowIn : Bool := false
  inGenerator : Bool := false
  inAsync : Bool := false
  /-- In a declaration that has no code. -/
  inDeclare : Bool := false
  /-- In a branch of a conditional expression. -/
  inConditional : Bool := false
  /-- The colon of a conditional expression is still to come. -/
  beforeColon : Bool := false
  /-- A conditional type is not read here, because its `?` belongs to another one. -/
  noConditional : Bool := false
  inParameters : Bool := false
  inFunction : Bool := false
  /-- In the head of a loop. -/
  inLoopHead : Bool := false
  /-- `super` has a meaning here. -/
  allowSuper : Bool := false

/-- The result of reading: a value and the place behind, or the place of a fault. -/
inductive Outcome (text : List Char) (α : Type) where
  | done (value : α) (c : Cursor text)
  | fault (c : Cursor text)

/-- A reader of a text. -/
def Reader (text : List Char) (α : Type) : Type := Context → Cursor text → Outcome text α

namespace Reader

variable {text : List Char} {α β σ : Type}

instance : Monad (Reader text) where
  pure value := fun _ c => .done value c
  bind first second := fun ctx c =>
    match first ctx c with
    | .done value c => second value ctx c
    | .fault c => .fault c

/-- A fault at the token at hand. -/
def fail : Reader text α := fun _ c => .fault c

/-- What surrounds the token at hand. -/
def context : Reader text Context := fun ctx c => .done ctx c

/-- The place at hand. -/
def cursor : Reader text (Cursor text) := fun _ c => .done c c

/-- Goes on from another place of the text. -/
def goTo (c : Cursor text) : Reader text Unit := fun _ _ => .done () c

/-- The token at hand. -/
def token : Reader text Token := fun _ c => .done c.token c

/-- The token behind the one at hand. -/
def nextToken : Reader text Token := fun _ c => .done c.next.token c

/-- A line ends before the token at hand. -/
def afterBreak : Reader text Bool := fun _ c => .done c.afterBreak c

/-- The dialect has types. -/
def isTyped : Reader text Bool := fun ctx c => .done ctx.dialect.typed c

/-- Reads with other surroundings. -/
def within (change : Context → Context) (body : Reader text α) : Reader text α :=
  fun ctx c => body (change ctx) c

/-- Takes the token at hand. At the end of the text there is none to take. -/
def bump : Reader text Unit := fun _ c => .done () c.next

/-- Reads on, and returns to the start when nothing comes of it. -/
def attempt (body : Reader text (Option α)) : Reader text (Option α) := fun ctx c =>
  match body ctx c with
  | .done (some value) after => .done (some value) after
  | .done none _ => .done none c
  | .fault _ => .done none c

/-- Whether the text goes on in a certain way. A fault means that it does not. -/
def lookAhead (body : Reader text Bool) : Reader text Bool := fun ctx c =>
  match body ctx c with
  | .done answer _ => .done answer c
  | .fault _ => .done false c

/-- Reads on, and stays where it met a fault. -/
def recover (body : Reader text α) : Reader text (Option α) := fun ctx c =>
  match body ctx c with
  | .done value after => .done (some value) after
  | .fault after => .done none after

/-- Runs a step until it says to stop, at most so many times. -/
def iterateFor (step : σ → Reader text (σ × Bool)) : Nat → σ → Reader text σ
  | 0, _ => fail
  | times + 1, state => fun ctx c =>
    match step state ctx c with
    | .done (state, true) after => iterateFor step times state ctx after
    | .done (state, false) after => .done state after
    | .fault after => .fault after

/-- Runs a step until it says to stop. -/
def iterate (state : σ) (step : σ → Reader text (σ × Bool)) : Reader text σ :=
  fun ctx c => iterateFor step ctx.bound state ctx c

/-- Runs a step as long as it says to go on. -/
def loop (step : Reader text Bool) : Reader text Unit :=
  iterate () fun _ => do return ((), ← step)

/-- The token at hand is this mark. -/
def atMark (mark : String) : Reader text Bool := fun _ c => .done (c.token == .mark mark) c

/-- The token at hand is one of these marks. -/
def atMarks (marks : List String) : Reader text Bool := fun _ c =>
  match c.token with
  | .mark mark => .done (marks.contains mark) c
  | _ => .done false c

/-- The token at hand is this word. -/
def atWord (word : String) : Reader text Bool := fun _ c => .done (c.token == .word word) c

/-- Takes the mark if it is at hand. -/
def eatMark (mark : String) : Reader text Bool := fun _ c =>
  if c.token == .mark mark then .done true c.next else .done false c

/-- Takes the word if it is at hand. -/
def eatWord (word : String) : Reader text Bool := fun _ c =>
  if c.token == .word word then .done true c.next else .done false c

/-- Takes the mark, which must be at hand. -/
def expectMark (mark : String) : Reader text Unit := fun _ c =>
  if c.token == .mark mark then .done () c.next else .fault c

/-- Takes the word, which must be at hand. -/
def expectWord (word : String) : Reader text Unit := fun _ c =>
  if c.token == .word word then .done () c.next else .fault c

/-- The next character is this one. Angle brackets of types are read so, because two that close
together look like one mark. -/
def atChar (char : Char) : Reader text Bool := fun _ c => .done (c.rest.head? == some char) c

/-- Takes the character, which must come next. -/
def expectChar (char : Char) : Reader text Unit := fun _ c =>
  if c.rest.head? == some char then .done () (c.move 1).settle else .fault c

/-- A statement can end here without a semicolon, or with one that is at hand. -/
def atEnd : Reader text Bool := fun _ c =>
  .done (c.afterBreak || [.stop, .mark ";", .mark "\x7d"].contains c.token) c

/-- Takes a semicolon, or nothing where a statement can end without one. -/
def eatEnd : Reader text Bool := do
  if ← eatMark ";" then return true
  atEnd

/-- A statement must end here. -/
def expectEnd : Reader text Unit := do
  unless ← eatEnd do fail

/-- Takes any word. -/
def anyWord : Reader text String := fun _ c =>
  match c.token with
  | .word word => .done word c.next
  | _ => .fault c

/-- Elements with commas between them; a comma may stand at the end. -/
def delimited (isOver : Reader text Bool) (element : Reader text Unit) : Reader text Unit :=
  loop do
    if ← isOver then return false
    element
    if ← eatMark "," then return true
    unless ← isOver do fail
    return false

/-- A word that modifies the declaration behind it. It stands on one line with what it modifies.
Unless told otherwise a `static` before a brace is one. -/
def modifier (words : List String) (keepsBlock : Bool) : Reader text (Option String) :=
  fun ctx c =>
    match ctx.dialect.typed, c.token with
    | true, .word word =>
      let after := c.next
      let follows : Bool :=
        match after.token with
        | .word _ | .string | .number | .bigNumber | .hash => true
        | .mark mark => ["[", "\x7b", "*", "..."].contains mark
        | _ => false
      let startsBlock := keepsBlock && word == "static" && after.token == .mark "\x7b"
      if words.contains word && follows && !after.afterBreak && !startsBlock then
        .done (some word) after
      else .done none c
    | _, _ => .done none c

/-- A word that makes a property of a parameter. It is taken where it is out of place, too. -/
def parameterModifier : Reader text Unit := fun ctx c =>
  match ctx.dialect.typed, c.token with
  | true, .word word =>
    let after := c.next
    let follows := after.token.isWord || after.token == .mark "\x7b" || after.token == .mark "["
    if ["public", "protected", "private", "readonly"].contains word && follows &&
        !after.afterBreak then .done () after
    else .done () c
  | _, _ => .done () c

end Reader

end Relocate.Source
