/-!
Byte offsets into a text. Offsets count the bytes of the UTF-8 form; a text can be cut only where
a character ends.
-/

namespace Relocate.Text

/-- The number of bytes of a text. -/
def byteLength : List Char → Nat
  | [] => 0
  | c :: rest => c.utf8Size + byteLength rest

/-- The text before and after the byte offset `n`, if a character ends there. -/
def cut? : List Char → Nat → Option (List Char × List Char)
  | [], n => if n = 0 then some ([], []) else none
  | c :: rest, n =>
    if n = 0 then some ([], c :: rest)
    else if c.utf8Size ≤ n then
      match cut? rest (n - c.utf8Size) with
      | some (before, after) => some (c :: before, after)
      | none => none
    else none

/-- The characters between two byte offsets. -/
def slice? (text : List Char) (start stop : Nat) : Option (List Char) :=
  if start ≤ stop then
    (cut? text start).bind fun (_, after) => (cut? after (stop - start)).map (·.1)
  else none

/-- Bytes add up over a concatenation. -/
theorem byteLength_append (s t : List Char) :
    byteLength (s ++ t) = byteLength s + byteLength t := by
  induction s with
  | nil => simp [byteLength]
  | cons c s ih => simp [byteLength, ih, Nat.add_assoc]

/-- A cut splits the text, and the first part has the bytes asked for. -/
theorem cut?_eq_some {text before after : List Char} {n : Nat}
    (h : cut? text n = some (before, after)) :
    text = before ++ after ∧ byteLength before = n := by
  induction text generalizing n before with
  | nil =>
    unfold cut? at h
    split at h <;> simp_all [byteLength]
  | cons c rest ih =>
    unfold cut? at h
    split at h
    · rename_i hn
      simp only [Option.some.injEq, Prod.mk.injEq] at h
      obtain ⟨rfl, rfl⟩ := h
      simp [byteLength, hn]
    · split at h
      · rename_i hle
        split at h
        · rename_i inner tail hcut
          simp only [Option.some.injEq, Prod.mk.injEq] at h
          obtain ⟨rfl, rfl⟩ := h
          obtain ⟨hrest, hlen⟩ := ih hcut
          refine ⟨by rw [hrest]; rfl, ?_⟩
          simp only [byteLength, hlen]
          omega
        · simp at h
      · simp at h

/-- A slice stands in the text between its two offsets. -/
theorem slice?_eq_some {text inner : List Char} {start stop : Nat}
    (h : slice? text start stop = some inner) :
    ∃ before after, text = before ++ inner ++ after ∧ byteLength before = start ∧
      start + byteLength inner = stop := by
  unfold slice? at h
  split at h
  · rename_i hle
    cases hfirst : cut? text start with
    | none => simp [hfirst] at h
    | some parts =>
      obtain ⟨before, tail⟩ := parts
      simp only [hfirst, Option.bind_some] at h
      cases hsecond : cut? tail (stop - start) with
      | none => simp [hsecond] at h
      | some parts =>
        obtain ⟨middle, after⟩ := parts
        simp only [hsecond, Option.map_some, Option.some.injEq] at h
        subst h
        obtain ⟨htext, hbefore⟩ := cut?_eq_some hfirst
        obtain ⟨htail, hmiddle⟩ := cut?_eq_some hsecond
        exact ⟨before, after, by rw [htext, htail, List.append_assoc], hbefore, by omega⟩
  · simp at h

end Relocate.Text
