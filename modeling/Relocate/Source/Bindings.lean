import Relocate.Source.Rule

/-!
Declared names and patterns, names of properties, and parameters.
-/

namespace Relocate.Source

open Reader

variable {text : List Char}

/-- The expression after an equals sign, where `in` is an operator. -/
def initializer (rules : Rules text) : Reader text Unit :=
  within (fun ctx => { ctx with allowIn := true }) (rules.pass .assignment)

/-- A name that is declared. Words that only strict mode reserves are taken. -/
def declaredName (refuseLet : Bool) : Reader text Shape := do
  match ← token with
  | .word word =>
    let ctx ← context
    if refuseLet && word == "let" then fail
    if word == "await" && !ctx.inDeclare then fail
    if Token.keywords.contains word && !(word == "this" && ctx.dialect.typed) then fail
    bump
    return .name word
  | _ => fail

/-- A name that is declared, if one is at hand. -/
def optionalName (refuseLet : Bool) : Reader text Unit := do
  if (← token).isName || ((← isTyped) && (← atWord "this")) then
    let _ ← declaredName refuseLet

/-- A private name. Nothing stands between its mark and its word. -/
def privateName : Reader text Unit := do
  let c ← cursor
  unless startsWithName (c.rest.drop 1) || (c.rest.drop 1).head? == some '\\' do fail
  unless c.token == .hash do fail
  bump
  let _ ← anyWord

/-- The name of a property. -/
def propertyName (rules : Rules text) : Reader text Token := do
  let name ← token
  match name with
  | .word _ | .string | .number | .bigNumber =>
    bump
    return name
  | .mark "[" =>
    bump
    initializer rules
    if ← isTyped then
      loop do
        unless ← eatMark "," do return false
        initializer rules
        return true
    expectMark "]"
    return name
  | _ => fail

/-- The mark of an optional pattern, where there are only declarations. -/
def optionalPattern : Reader text Unit := do
  let ctx ← context
  if ctx.dialect.ambient || ctx.inDeclare then
    let _ ← eatMark "?"

/-- A declared name or pattern with its default, if it has one. -/
def bindingElement (rules : Rules text) : Reader text (Shape × Bool) := do
  let shape ← rules (.binding false)
  if ← eatMark "=" then
    initializer rules
    return (shape, true)
  return (shape, false)

/-- The elements of a declared list. -/
def listBinding (rules : Rules text) : Reader text Unit := do
  expectMark "["
  loop do
    if ← atMark "]" then return false
    if ← eatMark "," then return true
    if ← eatMark "..." then rules.pass (.binding false)
    else
      let _ ← bindingElement rules
    unless ← atMark "]" do expectMark ","
    return true
  expectMark "]"
  optionalPattern

/-- One property of a declared object. -/
def propertyBinding (rules : Rules text) : Reader text Unit := do
  if ← eatMark "..." then rules.pass (.binding false)
  else
    let name ← propertyName rules
    if ← eatMark ":" then
      let _ ← bindingElement rules
    else
      unless name.isWord do fail
      if ← eatMark "=" then initializer rules

/-- The properties of a declared object. -/
def objectBinding (rules : Rules text) : Reader text Unit := do
  expectMark "\x7b"
  loop do
    if ← eatMark "\x7d" then return false
    propertyBinding rules
    unless ← atMark "\x7d" do expectMark ","
    return true
  optionalPattern

/-- A name or a pattern that is declared. -/
def bindingRule (rules : Rules text) (refuseLet : Bool) : Reader text Shape := do
  match ← token with
  | .word _ => declaredName refuseLet
  | .mark "[" =>
    listBinding rules
    return ⟨.pattern, true⟩
  | .mark "\x7b" =>
    objectBinding rules
    return ⟨.pattern, true⟩
  | _ => fail

/-- A type behind a colon, if there is one. -/
def typeAnnotation (rules : Rules text) : Reader text Unit := do
  if ← isTyped <&&> eatMark ":" then rules.pass .type

/-- A parameter that takes one argument. Says what it is and whether it has a default. -/
def singleParameter (rules : Rules text) : Reader text (Shape × Bool) := do
  parameterModifier
  let (shape, hasDefault) ← bindingElement rules
  if ← isTyped then
    let _ ← eatMark "?"
    typeAnnotation rules
  if ← eatMark "=" then
    rules.pass .assignment
    return (shape, true)
  return (shape, hasDefault)

/-- The parameter behind `...`, with the default that it may be given. -/
def restParameter (rules : Rules text) : Reader text Unit := do
  rules.pass (.binding false)
  if ← eatMark "=" then rules.pass .assignment
  typeAnnotation rules
  if ← isTyped then
    let _ ← eatMark "?"

/-- The parameters up to the closing parenthesis. Says whether one that takes one argument has a
default. -/
def parameters (rules : Rules text) : Reader text Bool :=
  iterate false fun anyDefault => do
    if ← atMark ")" then return (anyDefault, false)
    rules.pass (.decorators false)
    let mut hasDefault := false
    if ← eatMark "..." then restParameter rules
    else
      let parameter ← singleParameter rules
      hasDefault := parameter.2
    unless ← atMark ")" do expectMark ","
    return (anyDefault || hasDefault, true)

end Relocate.Source
