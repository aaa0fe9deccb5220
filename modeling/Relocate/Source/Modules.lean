import Relocate.Source.Statements

/-!
Imports and exports. The string that names a module is recorded.
-/

namespace Relocate.Source

open Reader

variable {text : List Char}

/-- The string that names a module, which is recorded, and the attributes of the import. -/
def moduleString (rules : Rules text) : Reader text Unit := do
  unless (← token) == .string do fail
  goTo (← cursor).record
  if !(← afterBreak) then
    if ← eatWord "assert" <||> eatWord "with" then rules.pass .object

/-- The module behind the word `from`, to the end of the declaration. -/
def fromClause (rules : Rules text) : Reader text Unit := do
  expectWord "from"
  moduleString rules
  expectEnd

/-- A name or a string that a module exports. -/
def exportName : Reader text Token := do
  let name ← token
  match name with
  | .word _ | .string =>
    bump
    return name
  | _ => fail

/-- The module or the name behind the equals sign of an import. -/
def importEquals : Reader text Unit := do
  expectMark "="
  let c ← cursor
  if c.token == .word "require" && c.next.token == .mark "(" then
    bump
    bump
    unless (← token) == .string do fail
    bump
    expectMark ")"
  else qualifiedName false
  expectEnd

/-- The word cannot be imported under its own name. -/
def cannotImport (word : String) : Bool := Token.isReserved word && word != "enum"

/-- The rest of an import of one name: a new name, or the name itself. -/
def importedAs (word : String) : Reader text Unit := do
  if ← eatWord "as" then
    let _ ← declaredName false
  else if cannotImport word then fail

/-- The rest of an import that starts with the words `type` and `as`, either of which may be a
name. -/
def importedTypeAs : Reader text Unit := do
  unless (← token).isWord do return ()
  let shape ← declaredName false
  if shape == .name "as" && (← token).isWord then
    let _ ← declaredName false

/-- One import in braces. -/
def importSpecifier : Reader text Unit := do
  match ← exportName with
  | .word word =>
    if (← isTyped) && word == "type" && (← token).isWord then
      let name ← anyWord
      if name == "as" then importedTypeAs else importedAs name
    else importedAs word
  | _ =>
    expectWord "as"
    let _ ← declaredName false

/-- Specifiers with commas between them, in braces. -/
def specifiers (specifier : Reader text Unit) : Reader text Unit := do
  delimited (atMark "\x7d") specifier
  expectMark "\x7d"

/-- When an imported module is run. -/
inductive Phase where
  | evaluation
  | deferred
  | source
  deriving DecidableEq, Repr

/-- The imports behind a default one, up to the word `from`. A deferred module is imported as a
whole, and the source of one only by a name. -/
def importedNames (phase : Phase) : Reader text Unit := do
  if ← pure (phase != .source) <&&> eatMark "*" then
    expectWord "as"
    let _ ← declaredName false
  else if ← pure (phase == .evaluation) <&&> eatMark "\x7b" then specifiers importSpecifier

/-- The word of a name that is imported. -/
def importedName : Reader text String := do
  let c ← cursor
  let _ ← declaredName false
  match c.token with
  | .word word => return word
  | _ => fail

/-- What comes of the first name of an import: the name of the default import, if it is one, and
the phase. -/
def importWord (word : String) : Reader text (Option String × Phase) := do
  let c ← cursor
  let phase : Phase :=
    if word == "defer" then .deferred else if word == "source" then .source else .evaluation
  if c.token == .mark "\x7b" || c.token == .mark "*" then return (none, phase)
  let namesNext := c.token.isName && c.token != .word "from"
  if word == "type" then
    if namesNext || (c.token.isName && c.next.token == .word "from") ||
        (c.token.isName && c.next.token == .mark "=") then
      return (some (← importedName), .evaluation)
    return (some word, .evaluation)
  if namesNext || c.next.token == .word "from" then
    if phase == .deferred then fail
    let _ ← declaredName false
    return (some word, phase)
  return (some word, .evaluation)

/-- The clause of an import from the first name to the module. Says whether the module comes next,
and not a name behind an equals sign. -/
def importClause : Reader text Bool := do
  let c ← cursor
  unless c.token.isName do
    importedNames .evaluation
    return true
  let typed ← isTyped
  let word ← importedName
  let (name?, phase) ← (do
    if (typed && word == "type") || word == "defer" || word == "source" then importWord word
    else return (some word, Phase.evaluation))
  match name? with
  | none => importedNames phase
  | some _ =>
    if typed && (← atMark "=") then return false
    unless ← atWord "from" do expectMark ","
    importedNames phase
  return true

/-- An import. -/
def importItem (rules : Rules text) : Reader text Unit := do
  let c ← cursor
  if startsImportExpression c then importStatement rules
  else
    bump
    if (← token) == .string then
      moduleString rules
      let _ ← eatEnd
    else if ← importClause then fromClause rules
    else importEquals

/-- The rest of an export that starts with the words `type` and `as`, either of which may be a
name. -/
def exportedTypeAs : Reader text Unit := do
  unless (← token).isWord do return ()
  let word ← anyWord
  if word == "as" && (← token).isWord then bump

/-- One export in braces. -/
def exportSpecifier : Reader text Unit := do
  let name ← exportName
  if (← isTyped) && name == .word "type" && (← token).isWord then
    if (← anyWord) == "as" then return ← exportedTypeAs
  if ← eatWord "as" then
    let _ ← exportName

/-- The exports in braces or of a whole module. -/
def exportedNames (rules : Rules text) : Reader text Unit := do
  if ← eatMark "*" then
    if ← eatWord "as" then
      let _ ← exportName
    fromClause rules
  else
    expectMark "\x7b"
    specifiers exportSpecifier
    if ← atWord "from" then fromClause rules
    else
      let _ ← eatEnd

/-- The decorators behind the word `export`. There are none if some stand before it. -/
def innerDecorators (rules : Rules text) (isDecorated : Bool) : Reader text Unit := do
  if ← atMark "@" then
    rules.pass (.decorators false)
    if isDecorated then fail

/-- The default export. -/
def defaultExport (rules : Rules text) (isDecorated : Bool) : Reader text Unit := do
  innerDecorators rules isDecorated
  let typed ← isTyped
  let c ← cursor
  let after := c.next
  if typed && c.token == .word "abstract" && after.token == .word "class" && !after.afterBreak then
    bump
    classAfterKeyword rules false
    return ()
  if typed && c.token == .word "abstract" && after.token == .word "interface" then bump
  if typed then
    if ← eatWord "interface" then
      interfaceRest rules
      return ()
  let c ← cursor
  let after := c.next
  if c.token == .word "class" then classAfterKeyword rules false
  else if c.token == .word "async" && after.token == .word "function" && !after.afterBreak then
    bump
    functionAfterKeyword rules true false false
  else if c.token == .word "function" then functionAfterKeyword rules false false false
  else
    initializer rules
    expectEnd

/-- An export that only a typed dialect has. Says whether it is one. -/
def typedExport? (rules : Rules text) : Reader text Bool := do
  if ← eatWord "declare" then
    if ← declaration? rules then return true
  if let .word word ← token then
    let found ← attempt (do
      if ← typeDeclaration? rules word true then return some () else return none)
    if found.isSome then return true
  if ← eatWord "import" then
    let c ← cursor
    if c.token == .word "type" && c.next.token.isWord then bump
    let _ ← anyWord
    importEquals
    return true
  if ← eatMark "=" then
    rules.pass .expression
    expectEnd
    return true
  if ← eatWord "as" then
    expectWord "namespace"
    let _ ← declaredName false
    expectEnd
    return true
  return false

/-- A declaration that is exported. Says whether there is one. -/
def exportedDeclaration? (rules : Rules text) : Reader text Bool := do
  let c ← cursor
  let after := c.next
  match c.token with
  | .word "class" => classAfterKeyword rules true
  | .word "async" =>
    unless after.token == .word "function" && !after.afterBreak do return false
    bump
    functionAfterKeyword rules true true false
  | .word "function" => functionAfterKeyword rules false true false
  | _ =>
    if (← isTyped) && c.token == .word "const" && after.token == .word "enum" then
      bump
      bump
      enumRest rules
    else
      match variableKind? c with
      | some kind => variableDeclaration rules kind
      | none => return false
  return true

/-- An export. -/
def exportItem (rules : Rules text) (isDecorated : Bool) : Reader text Unit := do
  bump
  let typed ← isTyped
  if typed then
    if ← typedExport? rules then return ()
  let typeOnly ← (if typed then eatWord "type" else pure false)
  if !typeOnly then
    if ← eatWord "default" then return ← defaultExport rules isDecorated
  innerDecorators rules isDecorated
  if !typeOnly then
    if ← exportedDeclaration? rules then return ()
  exportedNames rules

/-- A statement, import or export. -/
def itemRule (rules : Rules text) : Reader text Shape := do
  let isDecorated ← atMark "@"
  rules.pass (.decorators true)
  match ← token with
  | .word "import" => importItem rules
  | .word "export" => exportItem rules isDecorated
  | _ => plainStatement rules true
  return .other

end Relocate.Source
