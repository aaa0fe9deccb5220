import Relocate.Source.Types

/-!
Functions and classes.
-/

namespace Relocate.Source

open Reader

variable {text : List Char}

namespace Context

/-- In the body of a function. -/
def insideFunction (ctx : Context) (isAsync isGenerator : Bool) : Context :=
  { ctx with
    inAsync := isAsync
    inGenerator := isGenerator
    inFunction := true
    inParameters := false }

/-- In the parameters of a function. -/
def insideParameters (ctx : Context) : Context :=
  { ctx with
    inParameters := true
    inFunction := false
    beforeColon := false }

/-- In a block of statements that is the body of a function. -/
def insideBlock (ctx : Context) : Context :=
  { ctx with
    allowIn := true
    inConditional := false
    beforeColon := false }

/-- In code of a class that is no method. -/
def insideClass (ctx : Context) : Context :=
  { ctx with
    allowSuper := true
    inAsync := false
    inGenerator := false
    inFunction := false }

end Context

/-- Reads the body of a function. Which assignment may turn out to be a function is forgotten
inside and known again behind it. -/
def insideBody (isAsync isGenerator : Bool) (body : Reader text Unit) : Reader text Unit := do
  let start := (← cursor).arrowStart
  let c ← cursor
  goTo { c with arrowStart := none }
  within (·.insideFunction isAsync isGenerator) body
  let c ← cursor
  goTo { c with arrowStart := start }

/-- A block that is the body of a function. -/
def bodyBlock (rules : Rules text) : Reader text Unit :=
  within Context.insideBlock (rules.pass .block)

/-- The body of a function. With types it can be left out; says whether it is there. -/
def functionBody (rules : Rules text) (isAsync isGenerator : Bool) : Reader text Bool := do
  if (← isTyped) && !(← atMark "\x7b") then
    if ← eatEnd then return false
  insideBody isAsync isGenerator (bodyBlock rules)
  return true

/-- The body of a function behind its arrow: a block or an expression. -/
def arrowBody (rules : Rules text) (isAsync : Bool) : Reader text Shape := do
  if ← atMark "\x7b" then insideBody isAsync false (bodyBlock rules)
  else insideBody isAsync false (rules.pass .assignment)
  return .arrow

/-- What follows the name of a function. Says whether it has a body. -/
def functionRest (rules : Rules text) (isAsync isGenerator : Bool) : Reader text Bool :=
  within (fun ctx => { ctx with inAsync := isAsync, inGenerator := isGenerator }) do
    optionalTypeParameters rules
    expectMark "("
    let _ ← within Context.insideParameters (parameters rules)
    expectMark ")"
    if ← isTyped then optionalResultType rules
    functionBody rules isAsync isGenerator

/-- A method, from its type parameters on. -/
def method (rules : Rules text) (isAsync isGenerator : Bool) : Reader text Unit := do
  let _ ← within (fun ctx => { ctx with allowSuper := true })
    (functionRest rules isAsync isGenerator)

/-- A function, from the word that starts it. Only a declaration has to have a name, and only one
with a body can be an expression. -/
def functionAfterKeyword (rules : Rules text) (isAsync needsName needsBody : Bool) :
    Reader text Unit := do
  expectWord "function"
  let isGenerator ← eatMark "*"
  if needsName then
    let _ ← declaredName false
  else optionalName false
  let hasBody ← within (fun ctx => { ctx with allowSuper := false, beforeColon := false })
    (functionRest rules isAsync isGenerator)
  if needsBody && !hasBody then fail

/-- The interfaces or classes that a declaration names, with commas between them. -/
def heritage (rules : Rules text) : Reader text Unit :=
  delimited (do return (← atMark "\x7b") || (← atWord "implements") || (← atWord "extends")) do
    let word ← anyWord
    rules.pass (.subscripts (.name word) true true)
    if ← atChar '<' then typeArguments rules

/-- The class that another extends. -/
def superclass (rules : Rules text) : Reader text Unit := do
  expectWord "extends"
  rules.pass .leftHandSide
  if (← isTyped) && (← atChar '<') then typeArguments rules

/-- The token makes a method of the name before it. -/
def startsMethod : Reader text Bool := do
  return (← atMark "(") || ((← isTyped) && (← atChar '<'))

/-- The token makes a field of the name before it. A field can end with its line where that is
allowed. -/
def startsField (atLineEnd : Bool) : Reader text Bool := do
  if (← isTyped) && (← atMarks ["!", ":"]) then return true
  if ← atMarks ["=", "\x7d"] then return true
  if atLineEnd then atEnd else atMark ";"

/-- The name of a member of a class; `none` for a private one. -/
def className (rules : Rules text) : Reader text (Option Token) := do
  match ← token with
  | .hash =>
    privateName
    return none
  | _ => return some (← propertyName rules)

/-- The text of the string at a place. -/
def literalText (c : Cursor text) : List Char := ((c.rest.take c.width).drop 1).dropLast

/-- A field, from what follows its name. A semicolon behind it may be missing. -/
def field (rules : Rules text) (isOptional : Bool) : Reader text Unit := do
  if (← isTyped) && !isOptional then
    let _ ← eatMark "!"
  typeAnnotation rules
  within (fun ctx => { ctx with allowIn := true, allowSuper := true }) do
    if ← eatMark "=" then rules.pass .assignment
    let _ ← eatEnd

/-- A member that turns out to be named by the word read as a modifier. -/
def memberNamedByModifier (rules : Rules text) (atLineEnd : Bool) : Reader text Bool := do
  let typed ← isTyped
  if ← startsMethod then
    method rules false false
    return true
  if (← startsField atLineEnd) || (typed && (← atMark "?")) then
    let isOptional ← (if typed then eatMark "?" else pure false)
    field rules isOptional
    return true
  return false

/-- A parameter of a constructor. -/
def constructorParameter (rules : Rules text) : Reader text Unit := do
  let access ← modifier ["public", "protected", "private", "in", "out"] false
  let isOverride ← modifier ["override"] false
  let isReadonly ← modifier ["readonly"] false
  let (shape, hasDefault) ← singleParameter rules
  let isProperty := access.any (fun w => w != "in" && w != "out") || isOverride.isSome ||
    isReadonly.isSome
  if isProperty && !shape.isName && !hasDefault then fail

/-- A constructor, from what follows its name. -/
def constructor (rules : Rules text) : Reader text Unit := do
  optionalTypeParameters rules
  within Context.insideClass do
    expectMark "("
    loop do
      if ← atMark ")" then return false
      rules.pass (.decorators false)
      if ← eatMark "..." then
        rules.pass (.binding false)
        typeAnnotation rules
      else constructorParameter rules
      unless ← atMark ")" do expectMark ","
      return true
    expectMark ")"
    typeAnnotation rules
    let _ ← functionBody rules false false

/-- A block that runs when the class is made. -/
def staticBlock (rules : Rules text) : Reader text Unit :=
  within Context.insideClass (rules.pass .block)

/-- A member of a class from its name on, where no method or field can be told yet. -/
def namedMember (rules : Rules text) (isReadonly : Bool) : Reader text Unit := do
  let start ← cursor
  let name ← className rules
  let typed ← isTyped
  let isOptional ← (if typed then eatMark "?" else pure false)
  let isConstructor := name == some (.word "constructor") ||
    (name == some .string && literalText start == "constructor".toList)
  if ← startsMethod then
    if isReadonly then fail
    if isConstructor then constructor rules else method rules false false
    return ()
  let c ← cursor
  let isAccessor := (name == some (.word "get") || name == some (.word "set")) &&
    !(← startsField false) && !(c.afterBreak && c.token == .mark "*")
  if !isAccessor && (← startsField true) then
    if isConstructor then fail
    field rules isOptional
  else if name == some (.word "async") && !c.afterBreak then
    let _ ← modifier ["override"] false
    let isGenerator ← eatMark "*"
    let start ← cursor
    let name ← className rules
    if name == some (.word "constructor") ||
        (name == some .string && literalText start == "constructor".toList) then fail
    if typed then
      let _ ← eatMark "?"
    method rules true isGenerator
  else if isAccessor then
    let _ ← className rules
    method rules false false
  else fail

/-- A member of a class behind the words that say who can use it. -/
def modifiedMember (rules : Rules text) (isStatic hasAccess : Bool) : Reader text Unit := do
  let words ← iterate [] fun words => do
    match ← modifier ["abstract", "readonly", "override", "static"] true with
    | some word => return (word :: words, true)
    | none => return (words, false)
  let isStatic := isStatic || words.contains "static"
  if ← isTyped then
    let _ ← eatWord "accessor"
  let c ← cursor
  if isStatic && c.token == .mark "\x7b" then staticBlock rules
  else if c.token == .word "static" && c.next.token == .mark "\x7b" then
    bump
    staticBlock rules
  else
    if (← isTyped) && !words.contains "abstract" && !words.contains "override" && !hasAccess then
      if ← indexSignature? rules then return ()
    if ← eatMark "*" then
      let _ ← className rules
      method rules false true
    else namedMember rules (words.contains "readonly")

/-- A member of a class. -/
def classMember (rules : Rules text) : Reader text Unit := do
  let typed ← isTyped
  rules.pass (.decorators false)
  let declaredFirst ← (if typed then eatWord "declare" else pure false)
  let access ← modifier ["public", "protected", "private", "in", "out"] false
  let declared ← (if typed && !declaredFirst then eatWord "declare" else pure declaredFirst)
  if declared then
    if ← memberNamedByModifier rules true then return ()
  let isStatic ← eatWord "static"
  let isAccessor ← (if typed then eatWord "accessor" else pure false)
  if isStatic && !isAccessor then
    let isOptional ← (if typed then eatMark "?" else pure false)
    if ← startsMethod then
      method rules false false
      return ()
    if ← startsField false then
      field rules isOptional
      return ()
  if isAccessor then
    if ← memberNamedByModifier rules true then return ()
  modifiedMember rules isStatic (access.any fun w => w != "in" && w != "out")

/-- The members of a class. The brace behind them may be missing at the end of the text. -/
def classBody (rules : Rules text) : Reader text Unit := do
  expectMark "\x7b"
  loop do
    if (← atMark "\x7d") || (← token) == .stop then return false
    if ← eatMark ";" then return true
    within (fun ctx => { ctx with allowSuper := true }) (classMember rules)
    return true
  unless (← token) == .stop do expectMark "\x7d"

/-- A class, from the word that starts it. -/
def classAfterKeyword (rules : Rules text) (needsName : Bool) : Reader text Unit := do
  expectWord "class"
  if needsName then
    let _ ← declaredName true
  else optionalName true
  optionalTypeParameters rules
  let typed ← isTyped
  if ← atWord "extends" then
    superclass rules
    if typed then
      if ← eatMark "," then heritage rules
  if ← atWord "extends" then superclass rules
  if typed then
    if ← eatWord "implements" then heritage rules
    if ← eatWord "implements" then heritage rules
    if ← atWord "extends" then superclass rules
  classBody rules

end Relocate.Source
