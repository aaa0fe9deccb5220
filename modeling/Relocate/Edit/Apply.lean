import Relocate.Span

/-!
Applying edits to a text. All spans refer to the text as it was before any of the edits. The edits
are made in the order of their starts, each in the text that the ones before it have left, where
its span has drifted by the bytes that they added or took away.
-/

namespace Relocate

/-- Why a list of edits cannot be applied. -/
inductive EditError where
  /-- An edit starts before the one in front of it ends. -/
  | overlap (first second : Span)
  /-- A span ends behind the text, or cuts a character of it. -/
  | misfit (span : Span) (size : Nat)
  /-- A span starts behind its own end. -/
  | inverted (span : Span)
  /-- An offset cannot be moved by the edits before: they took away more bytes than there are in
  front of it, or it lies behind the text and is moved past the last offset. -/
  | belowZero (offset : Nat)
  deriving DecidableEq, Repr

/-- What is said about edits that cannot be applied. -/
def EditError.message : EditError → String
  | overlap first second => "Overlapping edits at " ++ first.text ++ " and " ++ second.text
  | misfit span size =>
    "Edit span " ++ span.text ++ " does not fit a text of " ++ toString size ++ " bytes"
  | inverted span => "Edit span " ++ span.text ++ " starts behind its end"
  | belowZero offset => "Edit offset " ++ toString offset ++ " shifted below zero"

namespace TextEdit

/-- The edits by start, those with one start in the order given. -/
def sorted (edits : List TextEdit) : List TextEdit :=
  edits.mergeSort fun a b => decide (a.span.start ≤ b.span.start)

/-- The first two neighbours of which the second starts before the first ends. -/
def clash? : List TextEdit → Option (Span × Span)
  | a :: b :: rest =>
    if a.span.overlaps b.span || a.span.stop > b.span.start then some (a.span, b.span)
    else clash? (b :: rest)
  | _ => none

/-- A text in which the first edits are made. -/
structure Draft where
  chars : List Char
  /-- By how many bytes the edits have moved what stands behind them. -/
  drift : Int
  deriving DecidableEq, Repr, Inhabited

/-- The number of offsets there are: an offset is a word of 64 bits. -/
def offsetCount : Nat := 18446744073709551616

/-- Where an offset of the text before all edits is now; `size` is the length of that text. The
draft has offsets for all its bytes, so only what lies behind the text is moved past the last
one. -/
def Draft.rebase (size : Nat) (draft : Draft) (offset : Nat) : Except EditError Nat :=
  let place : Int := offset + draft.drift
  if place < 0 ∨ (size < offset ∧ offsetCount ≤ place) then .error (.belowZero offset)
  else .ok place.toNat

/-- Makes a further edit; `size` is the length of the text before all edits. -/
def Draft.replace (size : Nat) (draft : Draft) (e : TextEdit) : Except EditError Draft :=
  (draft.rebase size e.span.start).bind fun start =>
    (draft.rebase size e.span.stop).bind fun stop =>
      match Text.cut? draft.chars start, Text.cut? draft.chars stop with
      | some (front, _), some (_, back) =>
        if stop < start then .error (.inverted e.span)
        else .ok ⟨front ++ (e.newText.toList ++ back), draft.drift + e.growth⟩
      | _, _ => .error (.misfit e.span size)

/-- Makes edits one after the other. -/
def Draft.replaceAll (size : Nat) : Draft → List TextEdit → Except EditError Draft
  | draft, [] => .ok draft
  | draft, e :: edits => (draft.replace size e).bind fun draft => draft.replaceAll size edits

/-- The text with all the edits made. -/
def applyAll (text : String) (edits : List TextEdit) : Except EditError String :=
  let edits := sorted edits
  match clash? edits with
  | some (first, second) => .error (.overlap first second)
  | none =>
    (Draft.replaceAll text.utf8ByteSize ⟨text.toList, 0⟩ edits).map fun draft =>
      String.ofList draft.chars

end TextEdit

end Relocate
