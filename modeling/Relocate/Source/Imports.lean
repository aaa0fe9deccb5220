import Relocate.Path.Basic
import Relocate.Source.Modules

/-!
The imports of a source text: the specifier of every import and export that names a module, in the
order of the text, with the bytes it takes up.
-/

namespace Relocate.Source

open Reader

variable {text : List Char}

/-- One step of reading by a rule, in terms of all the rules. -/
def readRule (rules : Rules text) : Rules text
  | .item => itemRule rules
  | .statement allowDeclaration => statementRule rules allowDeclaration
  | .block => blockRule rules
  | .decorators allowExport => decoratorsRule rules allowExport
  | .binding refuseLet => bindingRule rules refuseLet
  | .expression => expressionRule rules
  | .assignment => assignmentRule rules
  | .binary => binaryRule rules
  | .unary => unaryRule rules
  | .leftHandSide => leftHandSideRule rules
  | .member => memberRule rules
  | .subscripts callee noCall noComputed => subscriptsRule rules callee noCall noComputed
  | .object => objectRule rules
  | .element isChild => elementRule rules isChild
  | .type => typeRule rules
  | .plainType => plainTypeRule rules
  | .typeOperator => typeOperatorRule rules
  | .typeMembers => typeMembersRule rules

/-- Reads by a rule, with at most `depth` rules inside of each other. -/
def rulesFor : (depth : Nat) → Rules text
  | 0, _ => fail
  | depth + 1, rule => readRule (rulesFor depth) rule

/-- The dialect of a file, by its name in lower case. -/
def dialectOf (path : Path) : Dialect :=
  match path.extension?.map String.toLower with
  | some "js" | some "mjs" | some "cjs" | some "jsx" => ⟨false, false, false⟩
  | some "tsx" => ⟨true, true, false⟩
  | _ => ⟨true, false, path.fileName?.any fun name => name.toLower.endsWith ".d.ts"⟩

/-- Enough rules inside of each other for a text of the given size. Between two characters that are
taken the rules nest less than a hundred deep. -/
def enoughDepth (size : Nat) : Nat := 100 * (size + 1)

/-- What surrounds the items of a module with so many bytes left to read. -/
def moduleContext (dialect : Dialect) (size : Nat) : Context :=
  { dialect, bound := size + 2, inDeclare := dialect.ambient }

/-- The item of a module at a place. It is read as if the text started there, so what precedes it
has no part in how it is read. -/
def itemAt (dialect : Dialect) {text : List Char} (c : Cursor text) : Outcome c.rest Shape :=
  let size := Text.byteLength c.rest
  rulesFor (enoughDepth size) .item (moduleContext dialect size) c.alone

/-- The reference in a longer text that has so many more bytes in front. -/
def moveBy (offset : Nat) (r : Reference) : Reference :=
  ⟨r.specifier, ⟨r.span.start + offset, r.span.stop + offset⟩⟩

/-- The imports of the items of a module, from a place with `position` bytes in front of it up to
the end of the text. An item takes some of the text; there are less than `count`. -/
def itemsFrom (dialect : Dialect) :
    (count position : Nat) → {text : List Char} → Cursor text → Option (List Reference)
  | 0, _, _, _ => none
  | count + 1, position, _, c =>
    if c.token == .stop then some []
    else
      match itemAt dialect c with
      | .fault _ => none
      | .done _ after =>
        if after.offset == 0 then none
        else
          (itemsFrom dialect count (position + after.offset) after).map
            (after.found.reverse.map (moveBy position) ++ ·)

/-- The imports of a text in a dialect. -/
def importsIn (dialect : Dialect) (text : List Char) : Option (List Reference) :=
  let c := Cursor.start text
  itemsFrom dialect (Text.byteLength text + 1) c.offset c

/-- The text behind a mark of the byte order, and the number of bytes of that mark. -/
def withoutMark : List Char → List Char × Nat
  | c :: rest => if c.toNat == 0xFEFF then (rest, c.utf8Size) else (c :: rest, 0)
  | [] => ([], 0)

/-- The imports of the file `path` with the given text, or nothing when the text is no module. A
mark of the byte order in front of the text is not part of it. Of a second mark the bytes are not
counted in the spans. -/
def imports (path : Path) (text : String) : Option (List Reference) :=
  let (body, offset) := withoutMark text.toList
  (importsIn (dialectOf path) (withoutMark body).1).map fun found => found.map (moveBy offset)

end Relocate.Source
