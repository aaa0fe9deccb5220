import Relocate.Source.Expressions

/-!
Elements. Between tags there is text, in which blanks and comments mean nothing, so the place
behind a tag is left unsettled there.
-/

namespace Relocate.Source

open Reader

variable {text : List Char}

/-- The next character starts a quoted value. -/
def atQuote : Reader text Bool := do return (← atChar '\'') || (← atChar '"')

/-- A word of a tag, which may hold hyphens. -/
def tagWord : Reader text (List Char) := do
  let c ← cursor
  unless startsWithName c.rest do fail
  let word := c.rest.takeWhile fun c => continuesName c || c == '-'
  goTo (c.move word.length).settle
  return word

/-- The name of an element: words with points or a colon between them. -/
def elementName : Reader text (List (List Char)) := do
  let word ← tagWord
  if ← eatMark ":" then return [word, [':'], ← tagWord]
  iterate [word] fun words => do
    if ← eatMark "." then return (words ++ [['.'], ← tagWord], true)
    return (words, false)

/-- A braced expression in an element, behind the brace that opens it. -/
def bracedExpression (rules : Rules text) : Reader text Unit := do
  let _ ← eatMark "..."
  rules.pass .expression

/-- The value of an attribute in quotes, which has no escapes. -/
def quotedValue : Reader text Unit := do
  let c ← cursor
  match c.rest with
  | quote :: rest =>
    let inner := (rest.takeWhile (· != quote)).length
    if (rest.drop inner).isEmpty then fail
    goTo (c.move (inner + 2)).settle
  | [] => fail

/-- The value of an attribute. -/
def attributeValue (rules : Rules text) : Reader text Unit := do
  if ← atQuote then quotedValue
  else if ← eatMark "\x7b" then
    if ← atMark "\x7d" then fail
    bracedExpression rules
    expectMark "\x7d"
  else if ← atMark "<" then rules.pass (.element false)
  else fail

/-- The attributes of an element. -/
def attributes (rules : Rules text) : Reader text Unit :=
  loop do
    if (← atChar '>') || (← atChar '/') then return false
    if ← eatMark "\x7b" then
      expectMark "..."
      rules.pass .assignment
      expectMark "\x7d"
    else
      let _ ← tagWord
      if ← eatMark ":" then
        let _ ← tagWord
      if ← eatMark "=" then attributeValue rules
    return true

/-- Takes the bracket that closes a tag. Text follows it inside of another element. -/
def closeTag (isChild : Bool) : Reader text Unit := do
  unless ← atChar '>' do fail
  let c ← cursor
  goTo (if isChild then c.move 1 else (c.move 1).settle)

/-- The text, elements and braced expressions up to the end tag of an element. -/
def children (rules : Rules text) : Reader text Unit :=
  loop do
    let c ← cursor
    let c := c.move (c.rest.takeWhile fun c => c != '<' && c != '{').length
    match c.rest with
    | '<' :: '/' :: _ =>
      goTo c
      return false
    | '<' :: _ =>
      goTo c
      rules.pass (.element true)
      return true
    | '{' :: _ =>
      goTo (c.move 1).settle
      unless ← atMark "\x7d" do bracedExpression rules
      unless ← atMark "\x7d" do fail
      goTo ((← cursor).move 1)
      return true
    | _ =>
      goTo c
      fail

/-- The rest of an element whose start tag is read, up to the name in its end tag. -/
def endTag (rules : Rules text) (name : List (List Char)) (isChild : Bool) : Reader text Unit := do
  children rules
  goTo ((← cursor).move 2).settle
  let closing ← (do if ← atChar '>' then return [] else elementName)
  unless closing == name do fail
  closeTag isChild

/-- An element, or a fragment, which has no name. -/
def elementRule (rules : Rules text) (isChild : Bool) : Reader text Shape := do
  goTo ((← cursor).move 1).settle
  if ← atChar '>' then
    closeTag true
    endTag rules [] isChild
    return .other
  let name ← elementName
  if (← isTyped) && (← atChar '<') then
    let _ ← attempt (do
      typeArguments rules
      return some ())
  attributes rules
  if ← atChar '/' then
    goTo ((← cursor).move 1).settle
    closeTag isChild
  else
    closeTag true
    endTag rules name isChild
  return .other

end Relocate.Source
