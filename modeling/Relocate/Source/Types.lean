import Relocate.Source.Bindings

/-!
Types, and the parts of declarations that hold only types.
-/

namespace Relocate.Source

open Reader

variable {text : List Char}

/-- Type arguments in angle brackets. -/
def typeArguments (rules : Rules text) : Reader text Unit := do
  expectChar '<'
  delimited (atChar '>') (rules.pass .type)
  expectChar '>'

/-- Type arguments, if they start on this line. -/
def typeArgumentsHere (rules : Rules text) : Reader text Unit := do
  if !(← afterBreak) && (← atChar '<') then typeArguments rules

/-- One type parameter. -/
def typeParameter (rules : Rules text) : Reader text Unit := do
  loop do
    let word ← modifier ["public", "private", "protected", "readonly", "abstract", "const",
      "override", "in", "out"] false
    return word.isSome
  let _ ← anyWord
  if ← eatWord "extends" then rules.pass .type
  if ← eatMark "=" then rules.pass .type

/-- Type parameters in angle brackets. -/
def typeParameters (rules : Rules text) : Reader text Unit := do
  expectChar '<'
  delimited (atChar '>') (typeParameter rules)
  expectChar '>'

/-- Type parameters in angle brackets, if the dialect has them and they are at hand. -/
def optionalTypeParameters (rules : Rules text) : Reader text Unit := do
  if (← isTyped) && (← atChar '<') then typeParameters rules

/-- The type of a result behind a mark: a type, or what the function says of an argument. -/
def resultType (rules : Rules text) (mark : String) : Reader text Unit := do
  expectMark mark
  let hasAsserts := (← atWord "asserts") && (← nextToken).isName
  if hasAsserts then bump
  let c ← cursor
  let hasIs := c.token.isName && c.next.token == .word "is" && !c.next.afterBreak
  if hasAsserts || hasIs then
    let _ ← anyWord
    if hasIs then
      bump
      rules.pass .type
  else rules.pass .type

/-- The type of a result behind a colon, if there is one. -/
def optionalResultType (rules : Rules text) : Reader text Unit := do
  if ← atMark ":" then resultType rules ":"

/-- The parameters of a signature, which have no defaults. -/
def signatureParameters (rules : Rules text) : Reader text Unit := do
  expectMark "("
  if ← parameters rules then fail
  expectMark ")"

/-- The type of a function or, behind `new`, of a constructor. -/
def functionType (rules : Rules text) (isConstructor : Bool) : Reader text Unit := do
  if isConstructor then
    let _ ← eatWord "abstract"
    expectWord "new"
  optionalTypeParameters rules
  signatureParameters rules
  resultType rules "=>"

/-- What is in parentheses are parameters of a function and not a type. -/
def startsParameters (rules : Rules text) : Reader text Bool := do
  expectMark "("
  if ← atMarks [")", "..."] then return true
  parameterModifier
  let isParameter ← (do
    match ← token with
    | .word _ =>
      bump
      return true
    | .mark "\x7b" | .mark "[" => return (← recover (rules (.binding false))).isSome
    | _ => return false)
  if !isParameter then return false
  if ← atMarks [":", ",", "?", "="] then return true
  if ← eatMark ")" then atMark "=>" else return false

/-- A type that is no conditional: that of a function, or a union. -/
def plainTypeRule (rules : Rules text) : Reader text Shape := do
  let c ← cursor
  if ← atChar '<' <||> (atMark "(" <&&> lookAhead (startsParameters rules)) then
    functionType rules false
  else if c.token == .word "new" ||
      (c.token == .word "abstract" && c.next.token == .word "new") then
    functionType rules true
  else
    let separated (mark : String) (part : Reader text Unit) : Reader text Unit := do
      let _ ← eatMark mark
      part
      loop do
        unless ← eatMark mark do return false
        part
        return true
    separated "|" (separated "&" (rules.pass .typeOperator))
  return .other

/-- A type. -/
def typeRule (rules : Rules text) : Reader text Shape :=
  within (fun ctx => { ctx with noConditional := false }) do
    rules.pass .plainType
    if ← pure (!(← afterBreak)) <&&> eatWord "extends" then
      within (fun ctx => { ctx with noConditional := true }) (rules.pass .plainType)
      expectMark "?"
      rules.pass .type
      expectMark ":"
      rules.pass .type
    return .other

/-- A name of a type, with the names of the modules it is in. A name may be missing behind the
last point. -/
def qualifiedName (allowKeywords : Bool) : Reader text Unit := do
  let _ ← anyWord
  loop do
    unless ← eatMark "." do return false
    match ← token with
    | .word word =>
      if !allowKeywords then
        if Token.keywords.contains word || word == "await" then fail
      bump
      return true
    | .hash => fail
    | _ => return false

/-- A type that is in another module. The argument should be a string; any token is taken. -/
def importType (rules : Rules text) : Reader text Unit := do
  expectWord "import"
  expectMark "("
  bump
  if ← eatMark "," then
    if ← eatMark "\x7b" then
      expectWord "with"
      expectMark ":"
      rules.pass .object
      let _ ← eatMark ","
      expectMark "\x7d"
  expectMark ")"
  if ← eatMark "." then qualifiedName false
  if ← atChar '<' then typeArguments rules

/-- What a method says of its object, behind `this`. -/
def thisPredicate (rules : Rules text) : Reader text Unit := do
  if ← eatWord "is" then rules.pass .type

/-- A named type with its arguments. -/
def namedType (rules : Rules text) : Reader text Unit := do
  parameterModifier
  qualifiedName true
  typeArgumentsHere rules

/-- The type of a value. -/
def typeOfValue (rules : Rules text) : Reader text Unit := do
  expectWord "typeof"
  if ← atWord "import" then importType rules else qualifiedName true
  typeArgumentsHere rules

/-- The name before an element of a tuple, if there is one. -/
def tupleLabel : Reader text Unit := do
  let _ ← attempt (do
    let _ ← eatMark "..."
    let _ ← anyWord
    let _ ← eatMark "?"
    expectMark ":"
    return some ())

/-- The elements of a tuple. -/
def tupleType (rules : Rules text) : Reader text Unit := do
  expectMark "["
  delimited (atMark "]") do
    tupleLabel
    if ← eatMark "..." then rules.pass .type
    else
      rules.pass .type
      let _ ← eatMark "?"
  expectMark "]"

/-- The pieces of a template, with a reader for what is substituted. A malformed escape is allowed
only where a function gets to see the pieces. -/
def template (substitution : Reader text Unit) (allowFaulty : Bool) : Reader text Unit := do
  match ← token with
  | .template ending faulty =>
    if faulty && !allowFaulty then fail
    bump
    if ending == .substitution then
      loop do
        substitution
        unless ← atMark "\x7d" do fail
        let c ← cursor
        let piece := templateFrom 0 1 false (c.rest.drop 1)
        goTo (c.move piece.count).settle
        match piece.ending with
        | .missing => fail
        | .closed =>
          if piece.faulty && !allowFaulty then fail
          return false
        | .substitution =>
          if piece.faulty && !allowFaulty then fail
          return true
  | _ => fail

/-- A brace opens a mapped type. -/
def startsMappedType : Reader text Bool := do
  bump
  if ← atMarks ["+", "-"] then
    bump
    atWord "readonly"
  else
    let _ ← eatWord "readonly"
    unless ← eatMark "[" do return false
    unless (← token).isName do return false
    bump
    atWord "in"

/-- A type with one member for each of many names. -/
def mappedType (rules : Rules text) : Reader text Unit := do
  expectMark "\x7b"
  if ← atMarks ["+", "-"] then
    bump
    expectWord "readonly"
  else
    let _ ← eatWord "readonly"
  expectMark "["
  let _ ← anyWord
  expectWord "in"
  rules.pass .type
  if ← eatWord "as" then rules.pass .type
  expectMark "]"
  if ← atMarks ["+", "-"] then
    bump
    expectMark "?"
  else
    let _ ← eatMark "?"
  if ← eatMark ":" then rules.pass .type
  expectEnd
  expectMark "\x7d"

/-- The words of types that take no arguments. -/
def basicTypes : List String :=
  ["any", "bigint", "boolean", "intrinsic", "never", "null", "number", "object", "string", "symbol",
    "undefined", "unknown", "void"]

/-- A type that starts with a word. -/
def wordType (rules : Rules text) (word : String) : Reader text Unit := do
  let c ← cursor
  if word == "asserts" && c.next.token == .word "this" then
    bump
    bump
    thisPredicate rules
  else if basicTypes.contains word && c.next.token != .mark "." then bump
  else if word == "true" || word == "false" then bump
  else if word == "import" then importType rules
  else if word == "typeof" then typeOfValue rules
  else if word == "this" then
    bump
    if !(← afterBreak) && (← atWord "is") then thisPredicate rules
  else if Token.keywords.contains word && !basicTypes.contains word && word != "break" then fail
  else namedType rules

/-- A type without operators. -/
def simpleType (rules : Rules text) : Reader text Unit := do
  match ← token with
  | .word word => wordType rules word
  | .string | .number | .bigNumber => bump
  | .mark "-" =>
    bump
    match ← token with
    | .number | .bigNumber => bump
    | _ => fail
  | .mark "\x7b" =>
    if ← lookAhead startsMappedType then mappedType rules else rules.pass .typeMembers
  | .mark "[" => tupleType rules
  | .mark "(" =>
    bump
    rules.pass .type
    expectMark ")"
  | .template .. => template (rules.pass .type) false
  | _ => fail

/-- A type with the operators before and the brackets behind it. -/
def typeOperatorRule (rules : Rules text) : Reader text Shape := do
  match ← token with
  | .word "keyof" | .word "unique" | .word "readonly" =>
    bump
    rules.pass .typeOperator
  | .word "infer" =>
    bump
    let _ ← anyWord
    let _ ← attempt (do
      expectWord "extends"
      rules.pass .plainType
      let ctx ← context
      if ctx.noConditional || !(← atMark "?") then return some () else return none)
  | _ =>
    simpleType rules
    loop do
      if ← afterBreak then return false
      unless ← eatMark "[" do return false
      if ← eatMark "]" then return true
      rules.pass .type
      expectMark "]"
      return true
  return .other

/-- A member of a type ends here. -/
def endMember : Reader text Unit := do
  unless ← eatMark "," do expectEnd

/-- A bracket opens an index signature. -/
def startsIndexSignature : Reader text Bool := do
  expectMark "["
  unless (← token).isName do return false
  bump
  atMarks [",", ":"]

/-- An index signature, if one is at hand. -/
def indexSignature? (rules : Rules text) : Reader text Bool := do
  unless ← atMark "[" <&&> lookAhead startsIndexSignature do return false
  bump
  bump
  bump
  rules.pass .type
  expectMark "]"
  typeAnnotation rules
  endMember
  return true

/-- A signature, from its type parameters to its end. -/
def callSignature (rules : Rules text) : Reader text Unit := do
  optionalTypeParameters rules
  signatureParameters rules
  optionalResultType rules
  endMember

/-- The name of a member of a type. -/
def memberName (rules : Rules text) : Reader text Unit := do
  match ← token with
  | .mark "[" =>
    bump
    rules.pass .assignment
    expectMark "]"
  | .number | .string => rules.pass .member
  | .word _ => bump
  | .hash => privateName
  | _ => fail

/-- A member of a type that is read or set by functions, if one is at hand. -/
def accessorSignature? (rules : Rules text) : Reader text Bool := do
  let found ← attempt (do
    if ← eatWord "get" then
      memberName rules
      expectMark "("
      expectMark ")"
      typeAnnotation rules
    else
      expectWord "set"
      memberName rules
      expectMark "("
      if ← atMark ")" then fail
      if ← parameters rules then fail
      expectMark ")"
    endMember
    return some ())
  return found.isSome

/-- A property or a method of a type. -/
def memberSignature (rules : Rules text) (isReadonly : Bool) : Reader text Unit := do
  memberName rules
  let _ ← eatMark "?"
  if (← atMark "(") || (← atChar '<') then
    if isReadonly then fail
    callSignature rules
  else
    typeAnnotation rules
    endMember

/-- A member of a type. -/
def typeMember (rules : Rules text) : Reader text Unit := do
  let c ← cursor
  if (← atMark "(") || (← atChar '<') then callSignature rules
  else if c.token == .word "new" &&
      (c.next.token == .mark "(" || c.next.rest.head? == some '<') then
    bump
    callSignature rules
  else
    let isReadonly := (← modifier ["readonly"] false).isSome
    if ← indexSignature? rules then return ()
    if !isReadonly then
      if ← accessorSignature? rules then return ()
    memberSignature rules isReadonly

/-- The braced members of a type. -/
def typeMembersRule (rules : Rules text) : Reader text Shape := do
  expectMark "\x7b"
  loop do
    if ← atMark "\x7d" then return false
    typeMember rules
    return true
  expectMark "\x7d"
  return .other

end Relocate.Source
