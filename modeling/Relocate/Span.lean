import Relocate.Text.Bytes

/-!
Byte ranges of a text, the imports found at them and the edits made to them.
-/

namespace Relocate

/-- The bytes from `start` up to, and without, `stop`. -/
structure Span where
  start : Nat
  stop : Nat
  deriving DecidableEq, Repr, Inhabited

namespace Span

/-- The number of bytes. -/
def length (s : Span) : Nat := s.stop - s.start

/-- There are no bytes in the range. -/
def isEmpty (s : Span) : Bool := s.start == s.stop

/-- Each range starts before the other one ends. -/
def overlaps (s t : Span) : Bool := s.start < t.stop && t.start < s.stop

/-- The order by start, then by end. -/
def precedes (s t : Span) : Bool := s.start < t.start || (s.start == t.start && s.stop < t.stop)

/-- The range as it is printed, `start-stop`. -/
def text (s : Span) : String := toString s.start ++ "-" ++ toString s.stop

end Span

/-- A module specifier written in a source text, and where it stands, without its quotes. -/
structure Reference where
  specifier : String
  span : Span
  deriving DecidableEq, Repr, Inhabited

/-- The text that takes the place of a range. -/
structure TextEdit where
  span : Span
  newText : String
  deriving DecidableEq, Repr, Inhabited

/-- By how many bytes the edit makes a text longer. -/
def TextEdit.growth (e : TextEdit) : Int := (e.newText.utf8ByteSize : Int) - e.span.length

/-- A specifier and the specifier that takes its place. -/
structure Replacement where
  old : String
  new : String
  deriving DecidableEq, Repr, Inhabited

/-- The replacement changes nothing. -/
def Replacement.isTrivial (r : Replacement) : Bool := r.old == r.new

end Relocate
