import Relocate.Text.Blank

/-!
JSON with comments. A text is made strict in two passes: comments are taken out, then commas that
only white space separates from a closing brace or bracket. Both passes leave strings alone.
-/

namespace Relocate.Json

/-- Where the first pass stands. -/
inductive CommentState where
  | plain
  | quoted
  | escaped
  | lineComment
  | blockComment

/-- The text without comments. The line feed behind a line comment stays. -/
def dropComments : CommentState → List Char → List Char
  | _, [] => []
  | .plain, '/' :: '/' :: rest => dropComments .lineComment rest
  | .plain, '/' :: '*' :: rest => dropComments .blockComment rest
  | .plain, c :: rest => c :: dropComments (if c = '"' then .quoted else .plain) rest
  | .quoted, c :: rest =>
    c :: dropComments (if c = '\\' then .escaped else if c = '"' then .plain else .quoted) rest
  | .escaped, c :: rest => c :: dropComments .quoted rest
  | .lineComment, c :: rest =>
    if c = '\n' then c :: dropComments .plain rest else dropComments .lineComment rest
  | .blockComment, '*' :: '/' :: rest => dropComments .plain rest
  | .blockComment, _ :: rest => dropComments .blockComment rest

/-- Where the second pass stands. -/
inductive StringState where
  | plain
  | quoted
  | escaped

/-- The next character that is no white space closes an object or array. -/
def closesNext (text : List Char) : Bool :=
  match text.dropWhile Text.isBlank with
  | '}' :: _ | ']' :: _ => true
  | _ => false

/-- The text without trailing commas. -/
def dropCommas : StringState → List Char → List Char
  | _, [] => []
  | .plain, c :: rest =>
    if c = '"' then c :: dropCommas .quoted rest
    else if c = ',' && closesNext rest then dropCommas .plain rest
    else c :: dropCommas .plain rest
  | .quoted, c :: rest =>
    c :: dropCommas (if c = '\\' then .escaped else if c = '"' then .plain else .quoted) rest
  | .escaped, c :: rest => c :: dropCommas .quoted rest

/-- The text without comments and trailing commas. -/
def sanitize (text : String) : String :=
  String.ofList (dropCommas .plain (dropComments .plain text.toList))

end Relocate.Json
