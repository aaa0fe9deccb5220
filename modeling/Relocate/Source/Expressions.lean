import Relocate.Source.Functions

/-!
Expressions. A function written with an arrow is first read as an expression in parentheses or as
a name; when the arrow comes, what was read must be convertible to parameters.
-/

namespace Relocate.Source

open Reader

variable {text : List Char}

namespace Context

/-- Where `in` is an operator. -/
def withIn (ctx : Context) : Context := { ctx with allowIn := true }

/-- Where no colon of a conditional is to come. -/
def withoutColon (ctx : Context) : Context := { ctx with beforeColon := false }

/-- In the first branch of a conditional. -/
def insideFirstBranch (ctx : Context) : Context :=
  { ctx with
    allowIn := true
    inConditional := true
    beforeColon := true }

/-- In the second branch of a conditional. -/
def insideSecondBranch (ctx : Context) : Context :=
  { ctx with
    inConditional := true
    beforeColon := false }

end Context

/-- The offset of the token at hand is where an assignment may turn out to be a function. -/
def atArrowStart (offset : Nat) : Reader text Bool := do
  return (← cursor).arrowStart == some offset

/-- Remembers where an assignment may turn out to be a function. -/
def setArrowStart (start : Option Nat) : Reader text Unit := do
  let c ← cursor
  goTo { c with arrowStart := start }

/-- Expressions with commas between them. -/
def expressionRule (rules : Rules text) : Reader text Shape := do
  let shape ← rules .assignment
  unless ← atMark "," do return shape
  loop do
    unless ← eatMark "," do return false
    rules.pass .assignment
    return true
  return .other

/-- The branches of a conditional, behind its question mark. -/
def branches (rules : Rules text) : Reader text Unit := do
  within Context.insideFirstBranch (rules.pass .assignment)
  expectMark ":"
  within Context.insideSecondBranch (rules.pass .assignment)

/-- A conditional. -/
def conditional (rules : Rules text) : Reader text Shape := do
  let start := (← cursor).offset
  let test ← rules .binary
  if test.isArrow && (← atArrowStart start) then return test
  if ← eatMark "?" then
    branches rules
    return ⟨.operation, true⟩
  return test

/-- The assignment of a value to what was read, if there is one. -/
def finishAssignment (rules : Rules text) (target : Shape) : Reader text Shape := do
  match ← token with
  | .mark mark =>
    if Token.assignmentMarks.contains mark then
      unless target.canBeSet mark do fail
      bump
      rules.pass .assignment
      return ⟨.assigned, true⟩
    return target
  | _ => return target

/-- A value that a generator hands out. -/
def yieldExpression (rules : Rules text) : Reader text Shape := do
  bump
  let ctx ← context
  if ctx.inParameters && !ctx.inFunction then fail
  if ← atEnd then return .other
  if ← eatMark "*" then rules.pass .assignment
  else if (← token).startsExpression then rules.pass .assignment
  return .other

/-- An assignment, or an expression without one. -/
def assignmentRule (rules : Rules text) : Reader text Shape := do
  let c ← cursor
  if (← isTyped) && c.token == .mark "<" && c.next.token.isWord then
    let found ← within Context.withoutColon (attempt do
      typeParameters rules
      let shape ← rules .assignment
      if shape.isArrow then return some shape else return none)
    if let some shape := found then return shape
  let ctx ← context
  if ctx.inGenerator && c.token == .word "yield" then return ← yieldExpression rules
  if c.token == .fault then
    bump
    fail
  let mayBeArrow : Bool :=
    match c.token with
    | .word word => !Token.keywords.contains word
    | .mark mark => mark == "("
    | _ => false
  setArrowStart (if mayBeArrow then some c.offset else none)
  let shape ← conditional rules
  if shape.isArrow && (← atArrowStart c.offset) then return shape
  match shape.kind with
  | .operation | .unary => return shape
  | _ => finishAssignment rules shape

/-- The operators that bind more tightly than the given precedence, with their right operands. -/
def operators (rules : Rules text) (tail : Shape → Nat → Reader text Shape) (least : Nat)
    (left : Shape) : Reader text (Shape × Bool) := do
  let c ← cursor
  let takesType := (← isTyped) && !c.afterBreak && least < 7
  if takesType && c.token == .word "as" then
    bump
    if ← eatWord "const" then return (.other, true)
    rules.pass .type
    return (.place, true)
  if takesType && c.token == .word "satisfies" then
    bump
    rules.pass .type
    return (.place, true)
  let operator? : Option String :=
    match c.token with
    | .word word => if word == "instanceof" || word == "in" then some word else none
    | .mark mark => if Token.binaryMarks.contains mark then some mark else none
    | _ => none
  match operator? with
  | none => return (left, false)
  | some operator =>
    if operator == "in" && !(← context).allowIn then return (left, false)
    let precedence := Token.precedence operator
    if precedence ≤ least then return (left, false)
    bump
    if operator == "**" then
      match left.kind with
      | .unary | .awaited _ => fail
      | _ => pure ()
    let right ← rules .unary
    let _ ← tail right (if operator == "**" then precedence - 1 else precedence)
    return (⟨.operation, true⟩, true)

/-- What follows an operand: operators that bind more tightly than the given precedence. There are
eleven precedences, so the nesting is bounded by them. -/
def operatorsFrom (rules : Rules text) : Nat → Shape → Nat → Reader text Shape
  | 0, left, _ => pure left
  | depth + 1, left, least =>
    iterate left (operators rules (operatorsFrom rules depth) least)

/-- All operators behind an operand. Right operands of the power operator may nest, once for each
character at most. -/
def allOperators (rules : Rules text) (left : Shape) : Reader text Shape := do
  operatorsFrom rules (← context).bound left 0

/-- Operands with binary operators between them. A first operand that is missing before an
operator is passed by. -/
def binaryRule (rules : Rules text) : Reader text Shape := do
  let start := (← cursor).offset
  let left ← (do
    match ← recover (rules .unary) with
    | some shape => return shape
    | none =>
      let c ← cursor
      if c.token == .fault then
        bump
        fail
      let ctx ← context
      if (c.token == .word "in" && ctx.allowIn) || c.token == .word "instanceof" ||
          c.token.isBinary then return .other
      fail)
  if left.isArrow && (← atArrowStart start) then return left
  allOperators rules left

/-- An expression that is waited for. Where nothing can follow, `await` is a name, except in an
asynchronous function. -/
def awaitExpression (rules : Rules text) : Reader text Shape := do
  bump
  if ← atMark "*" then fail
  if !(← context).inAsync && ((← atEnd) || (← atMarks [")", "]", ","])) then
    return .name "await"
  let operand ← rules .unary
  match operand.kind with
  | .name word => return ⟨.awaited (some word), true⟩
  | _ => return ⟨.awaited none, true⟩

/-- An operand with the operators before and behind it. A missing operand behind an operator is
passed by. -/
def unaryRule (rules : Rules text) : Reader text Shape := do
  let c ← cursor
  if c.token == .mark "<" && !(← context).dialect.elements then
    bump
    if ← eatWord "const" then
      expectChar '>'
      rules.pass .unary
      return .other
    rules.pass .type
    expectChar '>'
    rules.pass .unary
    return .place
  if ← atMarks ["++", "--"] then
    bump
    rules.pass .unary
    return ⟨.operation, true⟩
  if (← atMarks ["+", "-", "~", "!"]) || (← atWord "delete") || (← atWord "void") ||
      (← atWord "typeof") then
    bump
    let _ ← recover (rules .unary)
    return ⟨.unary, true⟩
  if ← atWord "await" then return ← awaitExpression rules
  let shape ← rules .leftHandSide
  if shape.isArrow || (← afterBreak) then return shape
  if ← atMarks ["++", "--"] then
    bump
    return ⟨.operation, true⟩
  return shape

/-- Arguments in parentheses. -/
def arguments (rules : Rules text) : Reader text Unit :=
  within Context.withoutColon do
    expectMark "("
    delimited (atMark ")") do
      let _ ← eatMark "..."
      within Context.withIn (rules.pass .assignment)
    expectMark ")"

/-- Type arguments behind a value, where what follows shows that they are some. -/
def instantiation (rules : Rules text) : Reader text Bool := do
  let found ← attempt (do
    typeArguments rules
    let c ← cursor
    if (← atMarks ["<", ">", "+", "-", "("]) || c.token.isTemplate then return none
    if c.afterBreak || c.token.isBinary || !c.token.startsExpression ||
        [.word "as", .word "satisfies", .word "in", .word "instanceof"].contains c.token then
      return some ()
    return none)
  return found.isSome

/-- A generic asynchronous function written with an arrow, from its type parameters on. -/
def genericAsyncArrow (rules : Rules text) : Reader text (Option Shape) := do
  let found ← attempt (do
    typeParameters rules
    expectMark "("
    let _ ← within Context.insideParameters (parameters rules)
    expectMark ")"
    optionalResultType rules
    expectMark "=>"
    return some ())
  match found with
  | some _ => return some (← arrowBody rules true)
  | none => return none

/-- Type arguments and the arguments or the template that they belong to. -/
def typedCall (rules : Rules text) (callee : Shape) (noCall : Bool) :
    Reader text (Option Shape) :=
  attempt do
    typeArguments rules
    if !noCall && (← atMark "(") then
      arguments rules
      return some (if callee.kind == .chain then callee else .other)
    if (← token).isTemplate then
      template (within Context.withIn (rules.pass .expression)) true
      return some .other
    return none

/-- The name behind a point, which may be private. -/
def selectedName : Reader text Unit := do
  if (← token) == .hash then privateName
  else
    let _ ← anyWord

/-- A property of `super` must have a meaning here. With types it always has. -/
def checkSuper (callee : Shape) (optional : Bool) : Reader text Unit := do
  let ctx ← context
  if callee.kind == .superAlone && (optional || !(ctx.allowSuper || ctx.dialect.typed)) then fail

/-- One property, call or template behind an expression. Says whether there was one. -/
def subscript (rules : Rules text) (noCall noComputed : Bool) (callee : Shape) :
    Reader text (Shape × Bool) := do
  let typed ← isTyped
  let alone := callee.kind == .superAlone || callee.kind == .importAlone
  if typed && !(← afterBreak) && (← atMark "!") then
    bump
    if alone then fail
    return (.place, true)
  if typed && !alone && (← atMark "<") then
    if let some shape ← typedCall rules callee noCall then return (shape, true)
  let instantiated ← (if typed && (← atMark "<") then instantiation rules else pure false)
  let optional ← eatMark "?."
  let property : Shape :=
    if optional || callee.kind == .chain then ⟨.chain, true⟩ else .place
  if ← pure (!noComputed) <&&> eatMark "[" then
    within Context.withIn (rules.pass .expression)
    expectMark "]"
    if callee.kind == .importAlone then fail
    checkSuper callee optional
    return (property, true)
  if (optional && ((← atMark "(") || (typed && (← atChar '<')))) || (!noCall && (← atMark "(")) then
    if ← atChar '<' then typeArguments rules
    arguments rules
    if alone && optional then fail
    return (if property.kind == .chain then property else .other, true)
  if ← pure optional <||> eatMark "." then
    if callee.kind == .importAlone then fail
    let isPrivate := (← token) == .hash
    selectedName
    checkSuper callee (optional || isPrivate)
    return (if instantiated then .place else property, true)
  if alone then fail
  if (← token).isTemplate then
    template (within (Context.withIn ∘ Context.withoutColon) (rules.pass .expression)) true
    return (.other, true)
  return (if instantiated then .place else callee, false)

/-- What follows an expression. -/
def subscriptsRule (rules : Rules text) (callee : Shape) (noCall noComputed : Bool) :
    Reader text Shape :=
  iterate callee (subscript rules noCall noComputed)

/-- What follows the word `import` in an expression. -/
def importExpression (rules : Rules text) (noCall : Bool) : Reader text Shape := do
  if ← eatMark "." then
    match ← anyWord with
    | "meta" => rules (.subscripts .other noCall false)
    | "defer" | "source" => rules (.subscripts ⟨.importAlone, true⟩ noCall false)
    | _ => fail
  else rules (.subscripts ⟨.importAlone, true⟩ noCall false)

/-- A decorator: a name with what follows it, or an expression in parentheses. -/
def decorator (rules : Rules text) : Reader text Unit := do
  expectMark "@"
  if ← eatMark "(" then
    rules.pass .expression
    expectMark ")"
  else
    let shape ← declaredName false
    rules.pass (.subscripts shape false true)
  if (← isTyped) && (← atChar '<') then
    typeArguments rules
    arguments rules
  else if ← atMark "(" then arguments rules

/-- The decorators before a declaration. -/
def decoratorsRule (rules : Rules text) (allowExport : Bool) : Reader text Shape := do
  unless ← isTyped do return .other
  unless ← atMark "@" do return .other
  loop do
    unless ← atMark "@" do return false
    decorator rules
    return true
  if !allowExport && (← atWord "export") then fail
  return .other

/-- An instance behind `new`. -/
def newExpression (rules : Rules text) : Reader text Shape := do
  bump
  if ← eatMark "." then
    expectWord "target"
    return ← rules (.subscripts .other true false)
  let callee ← rules .member
  if callee.kind == .chain then fail
  if (← isTyped) && (← atMarks ["<", "<<"]) then
    let _ ← attempt (do
      typeArguments rules
      if ← atMark "(" then return some () else return none)
  if ← atMark "(" then
    arguments rules
    rules (.subscripts .other true false)
  else return ⟨.bareNew, true⟩

/-- An expression in a list or an object, and whether it can be part of a pattern. -/
def partShape (rules : Rules text) : Reader text Bool := do
  let shape ← within Context.withIn (rules .assignment)
  return shape.convertible

/-- A list. -/
def listLiteral (rules : Rules text) : Reader text Shape :=
  within Context.withoutColon do
    expectMark "["
    let convertible ← iterate true fun convertible => do
      if ← atMark "]" then return (convertible, false)
      if ← eatMark "," then return (convertible, true)
      let _ ← eatMark "..."
      let part ← partShape rules
      unless ← atMark "]" do expectMark ","
      return (convertible && part, true)
    expectMark "]"
    return ⟨.pattern, convertible⟩

/-- A property of an object whose name is read. Says whether it can be part of a pattern. -/
def propertyRest (rules : Rules text) (name : Token) : Reader text Bool := do
  let typed ← isTyped
  let c ← cursor
  let goesOn : Bool :=
    match c.token with
    | .mark mark =>
      ["(", "[", ":", ",", "?", "=", "*", "<"].contains mark || (mark == "\x7d" && name.isWord)
    | .word _ | .string | .number => true
    | _ => false
  if typed && !goesOn then return true
  if ← eatMark ":" then return ← partShape rules
  if (← atMark "(") || (typed && (← atChar '<')) then
    method rules false false
    return false
  match name with
  | .word word =>
    let _ ← eatMark "?"
    if ← eatMark "=" then
      initializer rules
      return true
    if ← atMarks [",", "\x7d"] then return true
    if word == "get" || word == "set" then
      let _ ← propertyName rules
      method rules false false
      return false
    if word == "async" then
      let isGenerator ← eatMark "*"
      let _ ← propertyName rules
      method rules true isGenerator
      return false
    fail
  | _ => fail

/-- A property of an object. Says whether it can be part of a pattern. -/
def property (rules : Rules text) : Reader text Bool := do
  if ← eatMark "..." then return ← partShape rules
  if ← eatMark "*" then
    let _ ← propertyName rules
    method rules false true
    return false
  parameterModifier
  let name ← propertyName rules
  propertyRest rules name

/-- A braced list of properties. -/
def objectRule (rules : Rules text) : Reader text Shape :=
  within Context.withoutColon do
    expectMark "\x7b"
    let convertible ← iterate true fun convertible => do
      if ← eatMark "\x7d" then return (convertible, false)
      let part ← property rules
      unless ← atMark "\x7d" do expectMark ","
      return (convertible && part, true)
    return ⟨.pattern, convertible⟩

/-- What stands in parentheses, as far as it decides how to go on. -/
structure Group where
  count : Nat
  /-- The first one is a single name. -/
  startsWithName : Bool
  /-- One has a type, so they must be parameters. -/
  hasPattern : Bool
  /-- One is spread, so they cannot be an expression. -/
  hasSpread : Bool
  /-- They can be read as parameters. -/
  convertible : Bool

namespace Group

/-- Nothing stands in the parentheses. -/
def empty : Group := ⟨0, false, false, false, true⟩

/-- The group with an expression behind it. -/
def add (g : Group) (shape : Shape) (isSpread : Bool) : Group :=
  { g with
    count := g.count + 1
    startsWithName := if g.count == 0 then shape.isName else g.startsWithName
    hasSpread := g.hasSpread || isSpread
    convertible := g.convertible && shape.convertible }

/-- The group with a parameter behind it. -/
def addPattern (g : Group) (isName : Bool) : Group :=
  { g with
    count := g.count + 1
    startsWithName := if g.count == 0 then isName else g.startsWithName
    hasPattern := true }

end Group

/-- The first part of what stands in parentheses: an expression, or the name of a parameter. A
question mark behind a name is left for later. -/
def groupPart (rules : Rules text) : Reader text (Shape × Bool) := do
  let c ← cursor
  let isAsync := c.token == .word "async" &&
    (c.next.token == .mark "(" || c.next.token.isWord)
  let isSpread := c.token == .mark "..."
  let startsWithName := c.token.isName || (isSpread && c.next.token.isName)
  if isAsync then return (← rules .assignment, false)
  if (← isTyped) && startsWithName then
    if ← eatMark "..." then
      return (← within Context.withIn (rules .binary), true)
    let shape ← rules .binary
    if (← token).isAssignment then return (← finishAssignment rules shape, false)
    return (shape, false)
  let _ ← eatMark "..."
  return (← within Context.withIn (rules .assignment), isSpread)

/-- The question mark behind a part in parentheses. It makes a parameter optional, which must be a
name, or it is a conditional. -/
def groupQuestion (rules : Rules text) (shape : Shape) (isSpread : Bool) :
    Reader text (Shape × Bool) := do
  unless (← isTyped) && (← atMark "?") do return (shape, false)
  match ← nextToken with
  | .mark "," | .mark "=" | .mark ")" | .mark ":" =>
    bump
    unless shape.isName do fail
    return (shape, true)
  | _ =>
    if isSpread then return (shape, false)
    bump
    branches rules
    return (⟨.operation, true⟩, false)

/-- One part of what stands in parentheses. -/
def groupItem (rules : Rules text) (group : Group) : Reader text Group := do
  setArrowStart (some (← cursor).offset)
  parameterModifier
  let (shape, isSpread) ← groupPart rules
  let (shape, isOptional) ← groupQuestion rules shape isSpread
  let hasType := (← isTyped) && (← atMark ":")
  if isOptional || hasType then
    unless shape.convertible do fail
    if isSpread || shape.isName || shape.kind == .pattern then typeAnnotation rules
    if ← eatMark "=" then rules.pass .assignment
    return group.addPattern (shape.isName && !isSpread)
  return group.add shape isSpread

/-- What stands in parentheses. -/
def groupItems (rules : Rules text) : Reader text Group :=
  within (Context.withIn ∘ Context.withoutColon) do
    expectMark "("
    let group ← iterate Group.empty fun group => do
      if ← atMark ")" then return (group, false)
      let group ← groupItem rules group
      let group ← (do
        if ← eatMark "=>" then
          if group.startsWithName then
            let shape ← arrowBody rules false
            return group.add shape false
        return group)
      unless ← atMark ")" do expectMark ","
      return (group, true)
    expectMark ")"
    return group

/-- A function written with an arrow, from the type of its result on, in a branch of a conditional.
Before the colon of the conditional it is one only if that colon follows. -/
def arrowInBranch (rules : Rules text) (group : Group) (isAsync : Bool) :
    Reader text (Option Shape) :=
  attempt do
    resultType rules ":"
    expectMark "=>"
    unless group.convertible do fail
    let shape ← arrowBody rules isAsync
    if (← context).beforeColon && !(← atMark ":") then return none
    return some shape

/-- An expression in parentheses, a call of something named `async`, or a function written with an
arrow. -/
def groupExpression (rules : Rules text) (mayBeArrow isAsync : Bool) : Reader text Shape := do
  let group ← groupItems rules
  let typed ← isTyped
  let ctx ← context
  if typed && ctx.inConditional && (← atMark ":") then
    if let some shape ← arrowInBranch rules group isAsync then return shape
  let hasResult ← (do
    if typed && !ctx.beforeColon && (← atMark ":") then
      let found ← attempt (do
        resultType rules ":"
        if ← atMark "=>" then return some () else return none)
      return found.isSome
    return false)
  if group.hasPattern || hasResult || (← atMark "=>") then
    if ← afterBreak then fail
    unless mayBeArrow do fail
    expectMark "=>"
    unless group.convertible do fail
    return ← arrowBody rules isAsync
  if isAsync then return .other
  if group.count == 0 || group.hasSpread then fail
  return .place

/-- A name, or a function of one parameter. -/
def nameExpression (rules : Rules text) (mayBeArrow : Bool) : Reader text Shape := do
  let word ← anyWord
  let c ← cursor
  if mayBeArrow && word == "async" && !c.afterBreak && c.token.isName then
    if (← context).inLoopHead && c.token == .word "of" && c.next.token != .mark "=>" then
      return .name word
    let name ← declaredName false
    if (← isTyped) && name == .name "as" && !(← atMark "=>") then
      rules.pass .type
      return .place
    expectMark "=>"
    return ← arrowBody rules true
  if ← pure (mayBeArrow && !c.afterBreak) <&&> eatMark "=>" then
    return ← arrowBody rules false
  return .name word

/-- An expression that starts with the word `async`, unless it is just a name. -/
def asyncExpression (rules : Rules text) (mayBeArrow : Bool) : Reader text (Option Shape) := do
  let c ← cursor
  let after := c.next
  if after.token == .word "function" && !after.afterBreak then
    bump
    functionAfterKeyword rules true false true
    return some .other
  if mayBeArrow && (← isTyped) && after.token == .mark "<" then
    let found ← attempt (do
      bump
      genericAsyncArrow rules)
    if let some shape := found then return some shape
  if mayBeArrow && after.token == .mark "(" && !after.afterBreak then
    bump
    return some (← groupExpression rules mayBeArrow true)
  return none

/-- A regular expression, which starts where a division would be. -/
def regexExpression : Reader text Unit := do
  let c ← cursor
  match regexAt c.rest with
  | some count => goTo (c.move count).settle
  | none =>
    goTo (c.move c.width)
    fail

/-- An expression without operators and without what can follow it. -/
def primary (rules : Rules text) : Reader text Shape := do
  let c ← cursor
  let mayBeArrow := c.arrowStart == some c.offset
  if c.token == .word "async" then
    if let some shape ← asyncExpression rules mayBeArrow then return shape
  match c.token with
  | .word "this" | .word "null" | .word "true" | .word "false" | .number | .bigNumber | .string =>
    bump
    return .other
  | .mark "[" => listLiteral rules
  | .mark "\x7b" => rules .object
  | .word "function" =>
    functionAfterKeyword rules false false true
    return .other
  | .mark "/" | .mark "/=" =>
    regexExpression
    return .other
  | .mark "(" => groupExpression rules mayBeArrow false
  | .template .. =>
    template (within (Context.withIn ∘ Context.withoutColon) (rules.pass .expression)) false
    return .other
  | _ =>
    rules.pass (.decorators false)
    if ← atWord "class" then
      classAfterKeyword rules false
      return .other
    let here ← token
    if here == .word "await" then fail
    if here.isName || here == .word "let" then return ← nameExpression rules mayBeArrow
    if here == .hash then
      bump
      let _ ← anyWord
      return .other
    fail

/-- A property or an instance, without calls. -/
def memberRule (rules : Rules text) : Reader text Shape := do
  let start := (← cursor).offset
  match ← token with
  | .word "new" => newExpression rules
  | .word "super" =>
    bump
    rules (.subscripts ⟨.superAlone, true⟩ true false)
  | .word "import" =>
    bump
    importExpression rules true
  | _ =>
    let shape ← primary rules
    if shape.isArrow && (← atArrowStart start) then return shape
    let instantiated ← (do
      if (← isTyped) && (← atMark "<") then instantiation rules else return false)
    rules (.subscripts (if instantiated then .place else shape) true false)

/-- An expression that an assignment could have on its left: elements, properties, calls. -/
def leftHandSideRule (rules : Rules text) : Reader text Shape := do
  let start := (← cursor).offset
  if (← context).dialect.elements && (← atMark "<") then return ← rules (.element false)
  match ← token with
  | .word "super" =>
    bump
    rules (.subscripts ⟨.superAlone, true⟩ false false)
  | .word "import" =>
    bump
    importExpression rules false
  | _ =>
    let callee ← rules .member
    if callee.isArrow && (← atArrowStart start) then return callee
    if (← isTyped) && (← atMarks ["<", "<<"]) then
      let _ ← attempt (do
        typeArguments rules
        if ← atMark "(" then return some () else return none)
    if callee.kind == .bareNew then return callee
    if ← atMark "(" then
      arguments rules
      let called : Shape := if callee.kind == .chain then callee else .other
      rules (.subscripts called false false)
    else return callee

end Relocate.Source
