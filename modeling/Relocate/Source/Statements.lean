import Relocate.Source.Elements

/-!
Statements and the declarations that can stand among them.
-/

namespace Relocate.Source

open Reader

variable {text : List Char}

/-- An expression in which `in` is an operator. -/
def fullExpression (rules : Rules text) : Reader text Shape :=
  within Context.withIn (rules .expression)

/-- An expression in parentheses that decides how a statement runs. -/
def condition (rules : Rules text) : Reader text Unit := do
  expectMark "("
  let _ ← fullExpression rules
  expectMark ")"

/-- The items of a block up to the brace that closes it, which may be missing at the end of the
text. -/
def blockItems (item : Reader text Unit) : Reader text Unit := do
  expectMark "\x7b"
  loop do
    if (← atMark "\x7d") || (← token) == .stop then return false
    item
    return true
  let _ ← eatMark "\x7d"

/-- A block of statements. -/
def blockRule (rules : Rules text) : Reader text Shape := do
  blockItems (rules.pass (.statement true))
  return .other

/-- How a variable is declared. -/
inductive VariableKind where
  | var
  | let
  | const
  deriving DecidableEq, Repr

/-- A declared variable, with its value. A pattern has to have one, except where a constant lacks
it or where there is no code. -/
def declarator (rules : Rules text) (kind : VariableKind) (isLoop : Bool) : Reader text Unit := do
  let shape ← rules (.binding (kind != .var))
  if (← isTyped) && shape.isName then
    let _ ← eatMark "!"
  typeAnnotation rules
  if isLoop && ((← atWord "in") || (← atWord "of")) then return ()
  if ← eatMark "=" then
    rules.pass .assignment
    return ()
  let excused := (← context).inDeclare || (kind == .const && !isLoop)
  unless shape.isName || excused do fail

/-- A loop over nothing follows: a word `in` or `of`, an expression and a closing parenthesis. -/
def lacksDeclarators (rules : Rules text) : Reader text Bool := do
  unless (← atWord "in") || (← atWord "of") do return false
  bump
  rules.pass .assignment
  atMark ")"

/-- The declarators behind the word that starts them. -/
def declarators (rules : Rules text) (kind : VariableKind) (isLoop : Bool) : Reader text Unit := do
  if isLoop && (← isTyped) then
    if ← lookAhead (lacksDeclarators rules) then return ()
  let change : Context → Context :=
    if kind != .var || !isLoop then Context.withIn else id
  loop do
    if ← atMark ";" then return false
    within change (declarator rules kind isLoop)
    eatMark ","

/-- Skips what stands between a declaration and the end of its statement. -/
def skipToEnd (rules : Rules text) : Reader text Unit := do
  let _ ← recover (rules .expression)
  loop do
    if ← eatEnd then return false
    bump
    return (← token) != .fault

/-- A declaration of variables, from the word that starts it. What follows it up to the end of the
statement is skipped. -/
def variableDeclaration (rules : Rules text) (kind : VariableKind) : Reader text Unit := do
  bump
  declarators rules kind false
  unless ← eatEnd do skipToEnd rules

/-- The token starts a declaration of variables. -/
def variableKind? (c : Cursor text) : Option VariableKind :=
  match c.token with
  | .word "var" => some .var
  | .word "const" => some .const
  | .word "let" => if c.next.token.followsLet then some .let else none
  | _ => none

/-- A declaration of resources behind the word `using`, if it is one. -/
def usingDeclaration? (rules : Rules text) : Reader text Bool := do
  let c ← cursor
  let after := c.next
  if c.token != .word "using" || after.afterBreak || !after.token.isName then return false
  bump
  loop do
    if ← atMark ";" then return false
    declarator rules .var false
    eatMark ","
  expectEnd
  return true

/-- A member of an enumeration. Says whether it has a value. -/
def enumMember (rules : Rules text) : Reader text Bool := do
  match ← token with
  | .string | .number => bump
  | .mark "[" =>
    bump
    rules.pass .expression
    expectMark "]"
  | _ =>
    let _ ← anyWord
  unless ← eatMark "=" do return false
  rules.pass .assignment
  return true

/-- The members of an enumeration. A comma behind a value may be missing; behind a bare name any
token takes its place. -/
def enumMembers (rules : Rules text) : Reader text Unit :=
  loop do
    if ← atMark "\x7d" then return false
    let hasValue ← enumMember rules
    if ← eatMark "," then return true
    if ← atMark "\x7d" then return false
    if !hasValue then bump
    return true

/-- An enumeration behind the word `enum`. -/
def enumRest (rules : Rules text) : Reader text Unit := do
  let _ ← anyWord
  expectMark "\x7b"
  enumMembers rules
  expectMark "\x7d"

/-- An interface behind the word `interface`. -/
def interfaceRest (rules : Rules text) : Reader text Unit := do
  let _ ← anyWord
  optionalTypeParameters rules
  if ← eatWord "extends" then heritage rules
  if ← atWord "extends" then
    loop do
      if (← token) == .stop || (← atMark "\x7b") then return false
      bump
      return true
  rules.pass .typeMembers

/-- A type with a name of its own, behind the word `type`. -/
def aliasRest (rules : Rules text) : Reader text Unit := do
  let _ ← anyWord
  optionalTypeParameters rules
  expectMark "="
  rules.pass .type
  expectEnd

/-- The braced items of a namespace. -/
def namespaceBody (rules : Rules text) : Reader text Unit := blockItems (rules.pass .item)

/-- A namespace behind the word that starts it. -/
def namespaceRest (rules : Rules text) : Reader text Unit := do
  loop do
    let _ ← anyWord
    eatMark "."
  namespaceBody rules

/-- A module that is declared elsewhere: its name, and what is known of it. -/
def ambientModule (rules : Rules text) : Reader text Unit := do
  if (← token) == .string || (← atWord "global") then bump else fail
  if ← atMark "\x7b" then namespaceBody rules else expectEnd

/-- A declaration that starts with a word that is no keyword. The word is read already, or it is
at hand and must start a declaration. Says whether it did. -/
def typeDeclaration? (rules : Rules text) (word : String) (isAtHand : Bool) :
    Reader text Bool := do
  let c ← cursor
  let skipWord : Reader text Unit := do if isAtHand then bump
  match word with
  | "abstract" =>
    unless isAtHand || (c.token == .word "class" && !c.afterBreak) do return false
    skipWord
    classAfterKeyword rules true
    return true
  | "enum" =>
    unless isAtHand || c.token.isName do return false
    skipWord
    enumRest rules
    return true
  | "interface" =>
    unless isAtHand || c.token.isName do return false
    skipWord
    interfaceRest rules
    return true
  | "module" =>
    if c.afterBreak then return false
    skipWord
    if (← token) == .string then
      ambientModule rules
      return true
    unless isAtHand || c.token.isName do return false
    namespaceRest rules
    return true
  | "namespace" =>
    unless isAtHand || c.token.isName do return false
    skipWord
    namespaceRest rules
    return true
  | "type" =>
    unless isAtHand || (c.token.isName && !c.afterBreak) do return false
    skipWord
    aliasRest rules
    return true
  | _ => return false

/-- What is declared behind the word `declare`. Says whether something is. -/
def declaration? (rules : Rules text) : Reader text Bool :=
  within (fun ctx => { ctx with inDeclare := true }) do
    let c ← cursor
    match c.token with
    | .word "function" =>
      functionAfterKeyword rules false true false
      return true
    | .word "class" =>
      classAfterKeyword rules true
      return true
    | .word "const" =>
      if c.next.token == .word "enum" then
        bump
        bump
        enumRest rules
      else variableDeclaration rules .const
      return true
    | .word "var" =>
      variableDeclaration rules .var
      return true
    | .word "let" =>
      variableDeclaration rules .let
      return true
    | .word "global" =>
      ambientModule rules
      return true
    | .word word => typeDeclaration? rules word true
    | _ => return false

/-- A declaration that starts with a name read as an expression. Says whether it is one. -/
def namedDeclaration? (rules : Rules text) (word : String) : Reader text Bool := do
  if word == "declare" then return ← declaration? rules
  if word == "global" then
    unless ← atMark "\x7b" do return false
    namespaceBody rules
    return true
  if ← typeDeclaration? rules word false then return true
  if ← pure (word == "abstract") <&&> eatWord "interface" then
    interfaceRest rules
    return true
  return false

/-- A statement that starts with an expression. A binary operator behind a complete expression is
read on. -/
def expressionStatement (rules : Rules text) : Reader text Unit := do
  let shape ← fullExpression rules
  if let .name word := shape.kind then
    if ← eatMark ":" then
      if ← atWord "function" then functionAfterKeyword rules false true false
      else rules.pass (.statement false)
      return ()
    if ← isTyped then
      if ← namedDeclaration? rules word then return ()
  if ← eatEnd then return ()
  unless (← token).isBinary do fail
  let _ ← allOperators rules shape

/-- The rest of the head of a loop that counts, behind its first semicolon. -/
def countingHead (rules : Rules text) : Reader text Unit := do
  unless ← eatMark ";" do
    let _ ← fullExpression rules
    expectMark ";"
  unless ← atMark ")" do
    let _ ← fullExpression rules

/-- The rest of the head of a loop over values or names, from the word between. Says whether it
is over values. -/
def eachHead (rules : Rules text) : Reader text Bool := do
  if ← eatWord "of" then
    within Context.withIn (rules.pass .assignment)
    return true
  expectWord "in"
  let _ ← fullExpression rules
  return false

/-- A resource that a loop declares, behind the word `using`. -/
def isLoopResource (shape : Shape) : Reader text Bool := do
  let c ← cursor
  let isUsing := shape.kind == .name "using" || shape.kind == .awaited (some "using")
  return isUsing && c.token != .word "of" &&
    (c.next.token == .word "of" || c.next.token == .word "in")

/-- The head of a loop. Says whether it is over values. -/
def loopHead (rules : Rules text) : Reader text Bool := do
  let c ← cursor
  match variableKind? c with
  | some kind =>
    bump
    declarators rules kind true
    if (← atWord "of") || (← atWord "in") then return ← eachHead rules
    expectMark ";"
    countingHead rules
    return false
  | none =>
    if ← eatMark ";" then
      countingHead rules
      return false
    let shape ← within (fun ctx => { ctx with allowIn := false }) (rules .expression)
    if ← isLoopResource shape then
      let _ ← declaredName false
      unless ← atWord "of" do fail
      return ← eachHead rules
    if (← atWord "of") || (← atWord "in") then
      unless shape.convertible do fail
      return ← eachHead rules
    expectMark ";"
    countingHead rules
    return false

/-- A loop with a head. Only a loop over values can wait for them. -/
def forStatement (rules : Rules text) : Reader text Unit := do
  bump
  let waits ← eatWord "await"
  expectMark "("
  let overValues ← within (fun ctx => { ctx with inLoopHead := true }) (loopHead rules)
  expectMark ")"
  rules.pass (.statement false)
  if waits && !overValues then fail

/-- A choice, with its second branch if it has one. -/
def ifStatement (rules : Rules text) : Reader text Unit := do
  bump
  condition rules
  rules.pass (.statement false)
  if ← eatWord "else" then rules.pass (.statement false)

/-- The cases of a choice among values. Only one is for all the other values. -/
def switchStatement (rules : Rules text) : Reader text Unit := do
  bump
  condition rules
  expectMark "\x7b"
  let _ ← iterate false fun hasDefault => do
    let isDefault ← atWord "default"
    unless isDefault || (← atWord "case") do return (hasDefault, false)
    bump
    if isDefault && hasDefault then fail
    if !isDefault then
      let _ ← fullExpression rules
    expectMark ":"
    loop do
      if (← atWord "case") || (← atWord "default") || (← atMark "\x7d") then return false
      rules.pass (.statement true)
      return true
    return (hasDefault || isDefault, true)
  expectMark "\x7d"

/-- What runs when something was thrown, if it is there. -/
def catchClause (rules : Rules text) : Reader text Unit := do
  if ← eatWord "catch" then
    if ← eatMark "(" then
      rules.pass (.binding false)
      typeAnnotation rules
      expectMark ")"
    rules.pass .block

/-- What runs in the end, if it is there. -/
def finallyClause (rules : Rules text) : Reader text Unit := do
  if ← eatWord "finally" then rules.pass .block

/-- A statement that starts with a keyword. Says whether it is one. -/
def keywordStatement? (rules : Rules text) (word : String) : Reader text Bool := do
  match word with
  | "break" | "continue" =>
    bump
    unless ← eatEnd do
      let _ ← anyWord
      expectEnd
  | "debugger" =>
    bump
    expectEnd
  | "do" =>
    bump
    rules.pass (.statement false)
    expectWord "while"
    condition rules
    let _ ← eatEnd
  | "for" => forStatement rules
  | "function" => functionAfterKeyword rules false true false
  | "class" => classAfterKeyword rules true
  | "if" => ifStatement rules
  | "return" =>
    bump
    unless ← atEnd do
      let _ ← fullExpression rules
    expectEnd
  | "switch" => switchStatement rules
  | "throw" =>
    bump
    if ← afterBreak then fail
    let _ ← fullExpression rules
    expectEnd
  | "try" =>
    bump
    rules.pass .block
    catchClause rules
    finallyClause rules
  | "catch" =>
    let _ ← recover (catchClause rules)
    let _ ← recover (finallyClause rules)
  | "finally" =>
    let _ ← recover (finallyClause rules)
  | "with" | "while" =>
    bump
    condition rules
    rules.pass (.statement false)
  | "var" => variableDeclaration rules .var
  | _ => return false
  return true

/-- A statement that starts with a word, where what follows shows that it is a declaration. Says
whether it is one. -/
def wordStatement? (rules : Rules text) (word : String) (allowDeclaration : Bool) :
    Reader text Bool := do
  let c ← cursor
  let after := c.next
  let typed ← isTyped
  let namesNext := typed && after.token.isWord && !after.afterBreak
  match word with
  | "const" =>
    if typed && after.token == .word "enum" then
      bump
      bump
      enumRest rules
      return true
    if allowDeclaration then variableDeclaration rules .const
    return allowDeclaration
  | "let" =>
    let isKeyword := allowDeclaration && after.token.followsLet
    if isKeyword then variableDeclaration rules .let
    return isKeyword
  | "using" => if allowDeclaration then usingDeclaration? rules else return false
  | "await" =>
    unless allowDeclaration && after.token == .word "using" do return false
    bump
    if ← usingDeclaration? rules then return true
    goTo c
    return false
  | "interface" =>
    if namesNext then
      bump
      interfaceRest rules
    return namesNext
  | "enum" =>
    if namesNext then
      bump
      enumRest rules
    return namesNext
  | "async" =>
    unless after.token == .word "function" && !after.afterBreak do return false
    bump
    functionAfterKeyword rules true true false
    return true
  | _ => keywordStatement? rules word

/-- A statement that is no import or export, behind its decorators. -/
def plainStatement (rules : Rules text) (allowDeclaration : Bool) : Reader text Unit := do
  match ← token with
  | .mark "\x7b" => rules.pass .block
  | .mark ";" => bump
  | .word word =>
    unless ← wordStatement? rules word allowDeclaration do expressionStatement rules
  | _ => expressionStatement rules

/-- An expression statement that starts with the word `import`. It may lack its end. -/
def importStatement (rules : Rules text) : Reader text Unit := do
  rules.pass .expression
  let _ ← eatEnd

/-- The word `import` starts an expression. -/
def startsImportExpression (c : Cursor text) : Bool :=
  c.token == .word "import" && (c.next.token == .mark "(" || c.next.token == .mark ".")

/-- A statement, which is no import or export. -/
def statementRule (rules : Rules text) (allowDeclaration : Bool) : Reader text Shape := do
  rules.pass (.decorators true)
  let c ← cursor
  if c.token == .word "import" || c.token == .word "export" then
    unless startsImportExpression c do fail
    importStatement rules
  else plainStatement rules allowDeclaration
  return .other

end Relocate.Source
