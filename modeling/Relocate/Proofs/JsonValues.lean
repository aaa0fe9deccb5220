import Mathlib.Data.List.Forall2
import Relocate.Json.Value
import Relocate.Proofs.JsonTokens

/-! # Tokens of JSON values

`Value.tokens` are the tokens of a value.  Between two words of it there is always a mark
(`Value.apart_tokens`), so a text that has these tokens and no comments is read as them, and from
them the value is read (`Value.isRead`).  Facts about values are proved by `Value.induct`: of arrays
and objects they follow from those of their parts.
-/

namespace Relocate.Json

/-! ## Tokens of values -/

/-- Entries between two marks, with commas between them. -/
def listed (first last : Token) (entries : List (List Token)) : List Token :=
  first :: [Token.comma].intercalate entries ++ [last]

theorem listed_append (first last : Token) (entries : List (List Token)) (rest : List Token) :
    listed first last entries ++ rest =
      first :: ([Token.comma].intercalate entries ++ last :: rest) := by
  simp [listed]

mutual

/-- The tokens of a value. -/
def Value.tokens : Value → List Token
  | .null => [.null]
  | .bool value => [.bool value]
  | .number text => [.number text]
  | .string text => [.string text]
  | .array items => listed .openBracket .closeBracket (itemTokens items)
  | .object fields => listed .openBrace .closeBrace (fieldTokens fields)

/-- The tokens of each item of an array. -/
def itemTokens : List Value → List (List Token)
  | [] => []
  | item :: items => item.tokens :: itemTokens items

/-- The tokens of each field of an object. -/
def fieldTokens : List (List Char × Value) → List (List Token)
  | [] => []
  | (key, value) :: fields => (.string key :: .colon :: value.tokens) :: fieldTokens fields

end

theorem itemTokens_eq_map (items : List Value) : itemTokens items = items.map Value.tokens := by
  induction items with
  | nil => rfl
  | cons item items ih => rw [itemTokens, ih, List.map_cons]

theorem fieldTokens_eq_map (fields : List (List Char × Value)) :
    fieldTokens fields = fields.map fun field => .string field.1 :: .colon :: field.2.tokens := by
  induction fields with
  | nil => rfl
  | cons field fields ih => rw [fieldTokens, ih, List.map_cons]

/-- What holds of arrays and objects whose parts have it, and of all other values, holds of every
value. -/
theorem Value.induct {P : Value → Prop} (null : P .null) (bool : ∀ value, P (.bool value))
    (number : ∀ text, P (.number text)) (string : ∀ text, P (.string text))
    (array : ∀ items, (∀ item ∈ items, P item) → P (.array items))
    (object : ∀ fields, (∀ field ∈ fields, P field.2) → P (.object fields)) (value : Value) :
    P value := by
  match value with
  | .null => exact null
  | .bool value => exact bool value
  | .number text => exact number text
  | .string text => exact string text
  | .array items =>
    exact array items fun item hitem => Value.induct null bool number string array object item
  | .object fields =>
    exact object fields fun field hfield =>
      Value.induct null bool number string array object field.2
termination_by sizeOf value
decreasing_by
  · have hlt := List.sizeOf_lt_of_mem hitem
    simp only [Value.array.sizeOf_spec]
    omega
  · have hlt := List.sizeOf_lt_of_mem hfield
    obtain ⟨key, value⟩ := field
    simp only [Prod.mk.sizeOf_spec] at hlt
    simp only [Value.object.sizeOf_spec]
    omega

/-! ## Words of values -/

/-- The tokens are apart, also from whatever follows them that does not start with a word. -/
def KeepApart (tokens : List Token) : Prop :=
  ∀ rest : List Token, rest.IsChain Token.Apart → (∀ token ∈ rest.head?, token.isWord = false) →
    (tokens ++ rest).IsChain Token.Apart

theorem KeepApart.cons {token : Token} {tokens : List Token} (h : KeepApart tokens)
    (htoken : token.isWord = false) : KeepApart (token :: tokens) :=
  fun rest hrest hfirst => (h rest hrest hfirst).cons fun _ _ => .inl htoken

theorem keepApart_listed {first last : Token} {entries : List (List Token)}
    (h : ∀ entry ∈ entries, KeepApart entry) (hfirst : first.isWord = false)
    (hlast : last.isWord = false) : KeepApart (listed first last entries) := by
  intro rest hrest _
  have hend : (last :: rest).IsChain Token.Apart := hrest.cons fun _ _ => .inl hlast
  have hbetween : ([Token.comma].intercalate entries ++ last :: rest).IsChain Token.Apart := by
    induction entries with
    | nil => exact hend
    | cons entry entries ih =>
      rw [List.forall_mem_cons] at h
      cases entries with
      | nil =>
        rw [List.intercalate_singleton]
        exact h.1 _ hend (by simpa using hlast)
      | cons next entries =>
        rw [List.intercalate_cons_cons, List.append_assoc, List.append_assoc]
        exact h.1 _ ((ih h.2).cons fun _ _ => .inl rfl) (by simp [Token.isWord])
  rw [listed_append]
  exact hbetween.cons fun _ _ => .inl hfirst

theorem Value.keepApart_tokens (value : Value) : KeepApart value.tokens := by
  induction value using Value.induct with
  | array items ih =>
    rw [Value.tokens, itemTokens_eq_map]
    exact keepApart_listed (List.forall_mem_map.2 ih) rfl rfl
  | object fields ih =>
    rw [Value.tokens, fieldTokens_eq_map]
    refine keepApart_listed (List.forall_mem_map.2 fun field hfield => ?_) rfl rfl
    exact ((ih field hfield).cons rfl).cons rfl
  | _ => exact fun rest hrest hfirst => hrest.cons fun token htoken => .inr (hfirst token htoken)

/-- Between two words of a value there is a mark. -/
theorem Value.apart_tokens (value : Value) : value.tokens.IsChain Token.Apart := by
  rw [← List.append_nil value.tokens]
  exact value.keepApart_tokens [] .nil (by simp)

/-! ## Reading values -/

/-- The first token of a value closes nothing. -/
theorem Value.exists_tokens (value : Value) :
    ∃ first rest, value.tokens = first :: rest ∧ first.closes = false := by
  cases value with
  | _ => exact ⟨_, _, rfl, rfl⟩

/-- The tokens of the value are read as the value, whatever follows them. -/
def Value.IsRead (value : Value) : Prop :=
  ∀ (fuel : Nat) (rest : List Token), value.tokens.length ≤ fuel →
    readValue fuel (value.tokens ++ rest) = some (value, rest)

section

variable {fuel : Nat} {more rest : List Token} {first : Token}

theorem readValue_array {items : List Value} (hfirst : first.closes = false)
    (h : readItems fuel (first :: more) = some (items, rest)) :
    readValue (fuel + 1) (.openBracket :: first :: more) = some (.array items, rest) := by
  rw [readValue, h]
  · rfl
  · intro rest heq
    rw [(List.cons.inj heq).1] at hfirst
    cases hfirst

theorem readValue_object {fields : List (List Char × Value)} (hfirst : first.closes = false)
    (h : readFields fuel (first :: more) = some (fields, rest)) :
    readValue (fuel + 1) (.openBrace :: first :: more) = some (.object fields, rest) := by
  rw [readValue, h]
  · rfl
  · intro rest heq
    rw [(List.cons.inj heq).1] at hfirst
    cases hfirst

end

/-- Where entries are read one by one, the entry is read: as the last one, with the mark behind it,
or with a comma and what is read behind that. -/
structure ReadsEntry {α : Type} (read : Nat → List Token → Option (List α × List Token))
    (write : α → List Token) (last : Token) (entry : α) : Prop where
  ending : ∀ {fuel : Nat} (rest : List Token), (write entry).length ≤ fuel →
    read (fuel + 1) (write entry ++ last :: rest) = some ([entry], rest)
  followed : ∀ {fuel : Nat} {more rest : List Token} {entries : List α},
    (write entry).length ≤ fuel → read fuel more = some (entries, rest) →
      read (fuel + 1) (write entry ++ .comma :: more) = some (entry :: entries, rest)

/-- Entries with commas between them are read one after the other. -/
theorem read_intercalate {α : Type} {read : Nat → List Token → Option (List α × List Token)}
    {write : α → List Token} {last : Token} {entries : List α}
    (h : ∀ entry ∈ entries, ReadsEntry read write last entry) (hne : entries ≠ []) {fuel : Nat}
    (hfuel : ([Token.comma].intercalate (entries.map write)).length < fuel) (rest : List Token) :
    read fuel ([Token.comma].intercalate (entries.map write) ++ last :: rest) =
      some (entries, rest) := by
  induction entries generalizing fuel with
  | nil => exact absurd rfl hne
  | cons entry entries ih =>
    rw [List.forall_mem_cons] at h
    obtain ⟨fuel, rfl⟩ := Nat.exists_eq_add_one.2 (Nat.zero_lt_of_lt hfuel)
    cases entries with
    | nil =>
      rw [List.map_singleton, List.intercalate_singleton] at hfuel ⊢
      exact h.1.ending rest (by omega)
    | cons next entries =>
      rw [List.map_cons, List.map_cons, List.intercalate_cons_cons] at hfuel ⊢
      simp only [List.length_append, List.length_singleton] at hfuel
      rw [List.append_assoc, List.append_assoc]
      refine h.1.followed (by omega) (ih h.2 (by simp) ?_)
      rw [List.map_cons]
      omega

theorem Value.IsRead.item {item : Value} (h : item.IsRead) :
    ReadsEntry readItems Value.tokens .closeBracket item where
  ending rest hfuel := by simp only [readItems, h _ _ hfuel]
  followed hfuel hmore := by simp only [readItems, h _ _ hfuel, hmore, Option.map_some]

theorem Value.IsRead.field {field : List Char × Value} (h : field.2.IsRead) :
    ReadsEntry readFields (fun field => .string field.1 :: .colon :: field.2.tokens) .closeBrace
      field where
  ending rest hfuel := by
    have hvalue := h _ (.closeBrace :: rest) (Nat.le_of_succ_le (Nat.le_of_succ_le hfuel))
    simp only [List.cons_append, readFields, hvalue]
  followed {_ more _ _} hfuel hmore := by
    have hvalue := h _ (.comma :: more) (Nat.le_of_succ_le (Nat.le_of_succ_le hfuel))
    simp only [List.cons_append, readFields, hvalue, hmore, Option.map_some]

theorem exists_intercalate (first : Token) (entry : List Token) (entries : List (List Token))
    (rest : List Token) :
    ∃ more, [Token.comma].intercalate ((first :: entry) :: entries) ++ rest = first :: more := by
  cases entries with
  | nil => exact ⟨_, rfl⟩
  | cons next entries => exact ⟨_, rfl⟩

/-- **The tokens of a value are read as the value.** -/
theorem Value.isRead (value : Value) : value.IsRead := by
  induction value using Value.induct with
  | array items ih =>
    intro fuel rest hfuel
    rw [Value.tokens, itemTokens_eq_map] at hfuel ⊢
    rw [listed_append]
    simp only [listed, List.length_cons, List.length_append, List.cons_append] at hfuel
    obtain ⟨fuel, rfl⟩ := Nat.exists_eq_add_one.2 (show 0 < fuel by omega)
    cases items with
    | nil => rfl
    | cons item items =>
      have hitems := read_intercalate (fun item hitem => (ih item hitem).item) (by simp)
        (show _ < fuel by omega) rest
      obtain ⟨first, entry, hfirst, hopens⟩ := item.exists_tokens
      rw [List.map_cons, hfirst] at hitems ⊢
      obtain ⟨more, hmore⟩ := exists_intercalate first entry (items.map tokens)
        (.closeBracket :: rest)
      rw [hmore] at hitems ⊢
      exact readValue_array hopens hitems
  | object fields ih =>
    intro fuel rest hfuel
    rw [Value.tokens, fieldTokens_eq_map] at hfuel ⊢
    rw [listed_append]
    simp only [listed, List.length_cons, List.length_append, List.cons_append] at hfuel
    obtain ⟨fuel, rfl⟩ := Nat.exists_eq_add_one.2 (show 0 < fuel by omega)
    cases fields with
    | nil => rfl
    | cons field fields =>
      have hfields := read_intercalate (fun field hfield => (ih field hfield).field) (by simp)
        (show _ < fuel by omega) rest
      rw [List.map_cons] at hfields ⊢
      obtain ⟨more, hmore⟩ := exists_intercalate (.string field.1) (.colon :: field.2.tokens)
        (fields.map _) (.closeBrace :: rest)
      rw [hmore] at hfields ⊢
      exact readValue_object rfl hfields
  | _ =>
    intro fuel rest hfuel
    obtain ⟨fuel, rfl⟩ := Nat.exists_eq_add_one.2 hfuel
    rfl

/-- **A text without comments that has the tokens of a value is read as the value.** -/
theorem parse?_textOf {lexemes : List Lexeme} {value : Value}
    (h : ∀ lexeme ∈ lexemes, lexeme.Valid ∧ lexeme.isComment = false)
    (htokens : tokensOf lexemes = value.tokens) :
    tokens? (textOf lexemes) = some value.tokens ∧
      parse? (String.ofList (textOf lexemes)) = some value := by
  have hread : tokens? (textOf lexemes) = some value.tokens := by
    rw [← htokens]
    exact tokens?_textOf h (htokens ▸ value.apart_tokens)
  refine ⟨hread, ?_⟩
  have hvalue := value.isRead (value.tokens.length + 1) [] (Nat.le_add_right _ _)
  rw [List.append_nil] at hvalue
  rw [parse?, String.toList_ofList, hread, Option.bind_some, hvalue]

end Relocate.Json
