import Relocate.Proofs.Scanning
import Relocate.Source.Imports

/-! # Imports and re-exports are read token by token

A statement may be read in several attempts, and some of them look at its characters.  Imports and
re-exports are not: their readers see of a text the tokens only, one after the other, and whether a
line ends before each.  `Guides` states this of a relation between the places of two texts, and
`Follows` of two readers: what the first one reads from a place, the second one reads from the place
that is related to it, and they end at related places.

* `Guides.follows_importItem` and `Guides.follows_exportedNames`: whatever relation of places goes
  along with the tokens, the readers of an import and of a re-export follow it.
* `Guides.item`: what `headLine` reads without any other rule, is an item of a module under all
  rules.

The relation of the places of a text to themselves is one of these, and the relation to the places
of a rewritten text is another one.
-/

namespace Relocate.Source

open Reader

variable {text text' : List Char} {α β : Type}

namespace Cursor

theorem rest_record (c : Cursor text) : c.record.rest = c.next.rest := by
  unfold record
  split
  · split <;> rfl
  · rfl

end Cursor

/-- **A relation that goes along with the tokens.**  Related places have the same token and the same
one behind it; behind a token of an import, and behind a string that is recorded, come related
places again.  The second text is short enough for loops that run `bound` times. -/
structure Guides (bound : Nat) (R : Cursor text → Cursor text' → Prop) : Prop where
  token : ∀ {c c'}, R c c' → c'.token = c.token
  afterBreak : ∀ {c c'}, R c c' → c'.afterBreak = c.afterBreak
  peek : ∀ {c c'}, R c c' → c'.next.token = c.next.token
  next : ∀ {c c'}, R c c' → c.token.inHead = true → R c.next c'.next
  record : ∀ {c c'}, R c c' → c.token = .string → R c.record c'.record
  shorter : ∀ {c c'}, R c c' → c.token.inHead = true → c'.next.rest.length < c'.rest.length
  within : ∀ {c c'}, R c c' → c'.rest.length < bound

/-- The same surroundings, with loops that run so many times. -/
def Context.withBound (ctx : Context) (bound : Nat) : Context := { ctx with bound }

/-- The second reader reads what the first one reads, in loops that run `bound` times, and what they
read and where they end is so related. -/
def Follows (bound : Nat) (ends : α → Cursor text → Cursor text' → Prop) (ctx : Context)
    (c : Cursor text) (c' : Cursor text') (r : Reader text α) (r' : Reader text' α) : Prop :=
  ∀ v a, r ctx c = .done v a → ∃ a', r' (ctx.withBound bound) c' = .done v a' ∧ ends v a a'

/-- The two readers end at related places. -/
abbrev Along (bound : Nat) (R : Cursor text → Cursor text' → Prop) (ctx : Context)
    (c : Cursor text) (c' : Cursor text') (r : Reader text α) (r' : Reader text' α) : Prop :=
  Follows bound (fun _ => R) ctx c c' r r'

section

variable {bound : Nat} {R : Cursor text → Cursor text' → Prop} {ctx : Context}
  {c : Cursor text} {c' : Cursor text'} {r : Reader text α} {r' : Reader text' α}
  {ends : α → Cursor text → Cursor text' → Prop}

/-- A reader that goes on behind another one is read where that one has ended. -/
theorem bind_eq_of_done {f : β → Reader text α} {r : Reader text β} {v : β} {a : Cursor text}
    (h : r ctx c = .done v a) : (r >>= f) ctx c = f v ctx a := by
  simp only [Bind.bind, h]

/-- A reader that is read to its end behind another one has found an end of that one. -/
theorem done_of_bind_done {f : β → Reader text α} {r : Reader text β} {w : α} {b : Cursor text}
    (h : (r >>= f) ctx c = .done w b) : ∃ v a, r ctx c = .done v a ∧ f v ctx a = .done w b := by
  cases hr : r ctx c with
  | fault a => simp [Bind.bind, hr] at h
  | done v a => exact ⟨v, a, rfl, (bind_eq_of_done hr).symm.trans h⟩

namespace Follows

theorem bind {f : β → Reader text α} {f' : β → Reader text' α} {r : Reader text β}
    {r' : Reader text' β} {between : β → Cursor text → Cursor text' → Prop}
    (h : Follows bound between ctx c c' r r')
    (hf : ∀ v a a', between v a a' → Follows bound ends ctx a a' (f v) (f' v)) :
    Follows bound ends ctx c c' (r >>= f) (r' >>= f') := by
  intro w b hw
  obtain ⟨v, a, hr, hw⟩ := done_of_bind_done hw
  obtain ⟨a', hr', ha⟩ := h v a hr
  obtain ⟨b', hb', hb⟩ := hf v a a' ha w b hw
  exact ⟨b', (bind_eq_of_done hr').trans hb', hb⟩

theorem pure {v : α} (h : ends v c c') : Follows bound ends ctx c c' (pure v) (pure v) := by
  rintro w a ⟨⟩
  exact ⟨c', rfl, h⟩

theorem fail : Follows bound ends ctx c c' Reader.fail r' := by
  rintro v a ⟨⟩

theorem fail_bind {f : β → Reader text α} : Follows bound ends ctx c c' (Reader.fail >>= f) r' := by
  rintro v a ⟨⟩

theorem mono {ends' : α → Cursor text → Cursor text' → Prop}
    (h : Follows bound ends ctx c c' r r') (hends : ∀ v a a', ends v a a' → ends' v a a') :
    Follows bound ends' ctx c c' r r' := by
  intro v a hv
  obtain ⟨a', ha', hend⟩ := h v a hv
  exact ⟨a', ha', hends v a a' hend⟩

/-- A reader that stays where it is decides how to read on. -/
theorem look {β' : Type} {look : Reader text β} {look' : Reader text' β'} {w : β} {w' : β'}
    {f : β → Reader text α} {f' : β' → Reader text' α} (hlook : look ctx c = .done w c)
    (hlook' : look' (ctx.withBound bound) c' = .done w' c')
    (h : Follows bound ends ctx c c' (f w) (f' w')) :
    Follows bound ends ctx c c' (look >>= f) (look' >>= f') := by
  intro v a hv
  rw [bind_eq_of_done hlook] at hv
  obtain ⟨a', ha', hend⟩ := h v a hv
  exact ⟨a', (bind_eq_of_done hlook').trans ha', hend⟩

theorem ite {p : Prop} [Decidable p] {s : Reader text α} {s' : Reader text' α}
    (hr : p → Follows bound ends ctx c c' r r') (hs : ¬ p → Follows bound ends ctx c c' s s') :
    Follows bound ends ctx c c' (if p then r else s) (if p then r' else s') := by
  by_cases hp : p
  · rw [if_pos hp, if_pos hp]
    exact hr hp
  · rw [if_neg hp, if_neg hp]
    exact hs hp

end Follows

namespace Guides

variable (g : Guides bound R) (hR : R c c')
include g hR

/-! ## Single tokens -/

theorem look_token : Reader.token (ctx.withBound bound) c' = .done c.token c' := by
  rw [← g.token hR]
  rfl

theorem look_afterBreak : Reader.afterBreak (ctx.withBound bound) c' = .done c.afterBreak c' := by
  rw [← g.afterBreak hR]
  rfl

theorem look_atMark (mark : String) :
    atMark mark (ctx.withBound bound) c' = .done (c.token == .mark mark) c' := by
  rw [← g.token hR]
  rfl

theorem look_atWord (word : String) :
    atWord word (ctx.withBound bound) c' = .done (c.token == .word word) c' := by
  rw [← g.token hR]
  rfl

theorem look_atEnd : atEnd (ctx.withBound bound) c' =
    .done (c.afterBreak || [.stop, .mark ";", .mark "\x7d"].contains c.token) c' := by
  rw [← g.token hR, ← g.afterBreak hR]
  rfl

/-- The token at hand is taken. -/
theorem taken (hhead : c.token.inHead = true) {v : α}
    (h : c'.next.rest.length < c'.rest.length → R c.next c'.next → ends v c.next c'.next) :
    Follows bound ends ctx c c' (fun _ c => .done v c.next) (fun _ c => .done v c.next) := by
  rintro w a ⟨⟩
  exact ⟨c'.next, rfl, h (g.shorter hR hhead) (g.next hR hhead)⟩

theorem bump_shorter (hhead : c.token.inHead = true) :
    Follows bound (fun _ a a' => R a a' ∧ a'.rest.length < c'.rest.length) ctx c c' bump bump :=
  g.taken hR hhead fun hlt hnext => ⟨hnext, hlt⟩

theorem follows_bump (hhead : c.token.inHead = true) : Along bound R ctx c c' bump bump :=
  (g.bump_shorter hR hhead).mono fun _ _ _ h => h.1

/-- Two readers that look at the token at hand make the same choice. -/
theorem choose (b : Token → Bool) {s : Reader text α} {s' : Reader text' α}
    (hr : b c.token = true → Follows bound ends ctx c c' r r')
    (hs : b c.token ≠ true → Follows bound ends ctx c c' s s') :
    Follows bound ends ctx c c' (fun ctx c => if b c.token then r ctx c else s ctx c)
      (fun ctx c => if b c.token then r' ctx c else s' ctx c) := by
  intro v a hv
  simp only [g.token hR] at hv ⊢
  split at hv
  · rename_i htaken
    simpa only [if_pos htaken] using hr htaken v a hv
  · rename_i htaken
    simpa only [if_neg htaken] using hs htaken v a hv

/-- The mark is taken if it is at hand, and then the rest is shorter. -/
theorem eatMark_shorter {mark : String} (hmark : (Token.mark mark).inHead = true) :
    Follows bound
      (fun eaten a a' => R a a' ∧ (eaten = true → a'.rest.length < c'.rest.length)) ctx c c'
      (eatMark mark) (eatMark mark) :=
  g.choose hR (· == .mark mark)
    (fun h => g.taken hR (by rw [eq_of_beq h]; exact hmark) fun hlt hnext => ⟨hnext, fun _ => hlt⟩)
    fun _ => .pure ⟨hR, by simp⟩

theorem follows_eatMark {mark : String} (hmark : (Token.mark mark).inHead = true) :
    Along bound R ctx c c' (eatMark mark) (eatMark mark) :=
  (g.eatMark_shorter hR hmark).mono fun _ _ _ h => h.1

theorem follows_eatWord (word : String) :
    Along bound R ctx c c' (eatWord word) (eatWord word) :=
  g.choose hR (· == .word word) (fun h => g.taken hR (by rw [eq_of_beq h]; rfl) fun _ h => h)
    fun _ => .pure hR

theorem follows_expectMark {mark : String} (hmark : (Token.mark mark).inHead = true) :
    Along bound R ctx c c' (expectMark mark) (expectMark mark) :=
  g.choose hR (· == .mark mark)
    (fun h => g.taken hR (by rw [eq_of_beq h]; exact hmark) fun _ h => h) fun _ => .fail

theorem follows_expectWord (word : String) :
    Along bound R ctx c c' (expectWord word) (expectWord word) :=
  g.choose hR (· == .word word) (fun h => g.taken hR (by rw [eq_of_beq h]; rfl) fun _ h => h)
    fun _ => .fail

theorem follows_anyWord : Along bound R ctx c c' anyWord anyWord := by
  intro v a hv
  have htoken := g.token hR
  cases hword : c.token with
  | word word =>
    rw [hword] at htoken
    simp only [anyWord, hword, htoken] at hv ⊢
    have htaken : Along bound R ctx c c' (fun _ c => .done word c.next)
        (fun _ c => .done word c.next) := g.taken hR (by rw [hword]; rfl) fun _ h => h
    exact htaken v a hv
  | _ => simp [anyWord, hword] at hv

theorem follows_eatEnd : Along bound R ctx c c' eatEnd eatEnd := by
  refine (g.follows_eatMark hR rfl).bind fun ended a a' hR => ?_
  refine .ite (fun _ => .pure hR) fun _ => ?_
  rintro v b ⟨⟩
  exact ⟨a', g.look_atEnd hR, hR⟩

theorem follows_expectEnd : Along bound R ctx c c' expectEnd expectEnd :=
  (g.follows_eatEnd hR).bind fun _ _ _ hR => .ite (fun _ => .pure hR) fun _ => .fail

/-! ## Lists -/

omit hR in
/-- A loop whose steps take something of the text as long as they go on.  The induction is on the
turns of the first loop; the second one has turns left as long as it has characters left. -/
theorem follows_loop {step : Reader text Bool} {step' : Reader text' Bool}
    (hstep : ∀ {c c'}, R c c' → Follows bound
      (fun goesOn a a' => R a a' ∧ (goesOn = true → a'.rest.length < c'.rest.length)) ctx c c'
      step step')
    (hR : R c c') : Along bound R ctx c c' (loop step) (loop step') := by
  have hturns : ∀ (times times' : Nat) {c : Cursor text} {c' : Cursor text'}, R c c' →
      c'.rest.length < times' → ∀ v a,
      iterateFor (fun _ => do return ((), ← step)) times () ctx c = .done v a →
      ∃ a', iterateFor (fun _ => do return ((), ← step')) times' () (ctx.withBound bound) c' =
        .done v a' ∧ R a a' := by
    intro times
    induction times with
    | zero => intro times' c c' _ _ v a hv; cases hv
    | succ times ih =>
      intro times' c c' hR hlength v a hv
      obtain ⟨times', rfl⟩ : ∃ n, times' = n + 1 := ⟨times' - 1, by omega⟩
      cases hdone : step ctx c with
      | fault b => simp [iterateFor, bind, hdone] at hv
      | done goesOn b =>
        obtain ⟨b', hdone', hb, hlt⟩ := hstep hR goesOn b hdone
        cases goesOn with
        | true =>
          have hb' := hlt rfl
          simp only [iterateFor, bind, hdone, pure] at hv
          obtain ⟨a', ha', ha⟩ := ih times' hb (by omega) v a hv
          exact ⟨a', by simpa only [iterateFor, bind, hdone', pure] using ha', ha⟩
        | false =>
          simp only [iterateFor, bind, hdone, pure] at hv
          obtain rfl : b = a := by simpa using hv
          exact ⟨b', by simp [iterateFor, bind, hdone', pure], hb⟩
  intro v a hv
  exact hturns _ _ hR (g.within hR) v a hv

omit hR in
/-- The places of a relation from given ones on are a relation of this kind: the second place is the
given one or behind it, and it is behind it if the first one has moved. -/
theorem onward (c : Cursor text) (c' : Cursor text') :
    Guides bound fun a a' => R a a' ∧ a'.rest.length ≤ c'.rest.length ∧
      (a.offset = c.offset ∨ a'.rest.length < c'.rest.length) where
  token h := g.token h.1
  afterBreak h := g.afterBreak h.1
  peek h := g.peek h.1
  next h hhead := by
    have hlt := g.shorter h.1 hhead
    exact ⟨g.next h.1 hhead, by omega, .inr (by omega)⟩
  record {a a'} h hstring := by
    have hlt := g.shorter h.1 (by rw [hstring]; rfl)
    rw [← a'.rest_record] at hlt
    exact ⟨g.record h.1 hstring, by omega, .inr (by omega)⟩
  shorter h := g.shorter h.1
  within h := g.within h.1

/-- Elements with commas between them: a comma that is taken makes the rest shorter. -/
theorem follows_delimited (mark : String) {element : Reader text Unit}
    {element' : Reader text' Unit}
    (helement : ∀ {R : Cursor text → Cursor text' → Prop}, Guides bound R →
      ∀ {c c'}, R c c' → Along bound R ctx c c' element element') :
    Along bound R ctx c c' (delimited (atMark mark) element)
      (delimited (atMark mark) element') := by
  refine g.follows_loop (fun {c c'} hR => ?_) hR
  refine .look rfl (g.look_atMark hR mark) ?_
  refine .ite (fun _ => .pure ⟨hR, by simp⟩) fun _ => ?_
  refine (helement (g.onward c c') ⟨hR, Nat.le_refl _, .inl rfl⟩).bind fun _ a a' hend => ?_
  obtain ⟨hR, hle, _⟩ := hend
  refine (g.eatMark_shorter hR rfl).bind fun eaten a a' hend => ?_
  obtain ⟨hR, hlt⟩ := hend
  refine .ite (fun heaten => .pure ⟨hR, fun _ => Nat.lt_of_lt_of_le (hlt heaten) hle⟩) fun _ => ?_
  refine .look rfl (g.look_atMark hR mark) ?_
  exact .ite (fun _ => .pure ⟨hR, by simp⟩) fun _ => .fail_bind

/-! ## Names -/

theorem follows_declaredName (refuseLet : Bool) :
    Along bound R ctx c c' (declaredName refuseLet) (declaredName refuseLet) := by
  unfold declaredName
  refine .look rfl (g.look_token hR) ?_
  cases hword : c.token with
  | word word =>
    refine .look rfl rfl ?_
    dsimp only [Context.withBound]
    refine .ite (fun _ => .fail_bind) fun _ => ?_
    refine .ite (fun _ => .fail_bind) fun _ => ?_
    refine .ite (fun _ => .fail_bind) fun _ => ?_
    exact (g.follows_bump hR (by rw [hword]; rfl)).bind fun _ _ _ hR => .pure hR
  | _ => exact .fail

theorem follows_exportName : Along bound R ctx c c' exportName exportName := by
  unfold exportName
  refine .look rfl (g.look_token hR) ?_
  cases hname : c.token with
  | word word => exact (g.follows_bump hR (by rw [hname]; rfl)).bind fun _ _ _ hR => .pure hR
  | string => exact (g.follows_bump hR (by rw [hname]; rfl)).bind fun _ _ _ hR => .pure hR
  | _ => exact .fail

theorem follows_importedAs (word : String) :
    Along bound R ctx c c' (importedAs word) (importedAs word) := by
  unfold importedAs
  refine (g.follows_eatWord hR "as").bind fun _ _ _ hR => ?_
  refine .ite (fun _ => ?_) fun _ => .ite (fun _ => .fail) fun _ => .pure hR
  exact (g.follows_declaredName hR false).bind fun _ _ _ hR => .pure hR

theorem follows_importedTypeAs : Along bound R ctx c c' importedTypeAs importedTypeAs := by
  unfold importedTypeAs
  refine .look rfl (g.look_token hR) ?_
  refine .ite (fun _ => ?_) fun _ => .pure hR
  refine (g.follows_declaredName hR false).bind fun shape a a' hR => ?_
  refine .look rfl (g.look_token hR) ?_
  refine .ite (fun _ => ?_) fun _ => .pure hR
  exact (g.follows_declaredName hR false).bind fun _ _ _ hR => .pure hR

theorem follows_importSpecifier : Along bound R ctx c c' importSpecifier importSpecifier := by
  unfold importSpecifier
  refine (g.follows_exportName hR).bind fun name a a' hR => ?_
  cases name with
  | word word =>
    refine .look rfl rfl ?_
    refine .look rfl (g.look_token hR) ?_
    dsimp only [Context.withBound]
    refine .ite (fun _ => ?_) fun _ => g.follows_importedAs hR word
    refine (g.follows_anyWord hR).bind fun name _ _ hR => ?_
    exact .ite (fun _ => g.follows_importedTypeAs hR) fun _ => g.follows_importedAs hR name
  | _ =>
    refine (g.follows_expectWord hR "as").bind fun _ _ _ hR => ?_
    exact (g.follows_declaredName hR false).bind fun _ _ _ hR => .pure hR

theorem follows_exportedTypeAs : Along bound R ctx c c' exportedTypeAs exportedTypeAs := by
  unfold exportedTypeAs
  refine .look rfl (g.look_token hR) ?_
  refine .ite (fun _ => ?_) fun _ => .pure hR
  refine (g.follows_anyWord hR).bind fun word a a' hR => ?_
  refine .look rfl (g.look_token hR) ?_
  refine .ite (fun hword => g.follows_bump hR ?_) fun _ => .pure hR
  cases htoken : a.token <;> simp_all [Token.isWord, Token.inHead]

theorem follows_exportSpecifier : Along bound R ctx c c' exportSpecifier exportSpecifier := by
  unfold exportSpecifier
  refine (g.follows_exportName hR).bind fun name a a' hR => ?_
  refine .look rfl rfl ?_
  refine .look rfl (g.look_token hR) ?_
  dsimp only [Context.withBound]
  have hrenamed : ∀ {a : Cursor text} {a' : Cursor text'}, R a a' →
      Along bound R ctx a a'
        (do if ← eatWord "as" then let _ ← exportName)
        (do if ← eatWord "as" then let _ ← exportName) := by
    intro a a' hR
    refine (g.follows_eatWord hR "as").bind fun _ _ _ hR => ?_
    refine .ite (fun _ => ?_) fun _ => .pure hR
    exact (g.follows_exportName hR).bind fun _ _ _ hR => .pure hR
  refine .ite (fun _ => ?_) fun _ => hrenamed hR
  refine (g.follows_anyWord hR).bind fun _ _ _ hR => ?_
  exact .ite (fun _ => g.follows_exportedTypeAs hR) fun _ => hrenamed hR

theorem follows_specifiers {specifier : Reader text Unit} {specifier' : Reader text' Unit}
    (hspecifier : ∀ {R : Cursor text → Cursor text' → Prop}, Guides bound R →
      ∀ {c c'}, R c c' → Along bound R ctx c c' specifier specifier') :
    Along bound R ctx c c' (specifiers specifier) (specifiers specifier') :=
  (g.follows_delimited hR "\x7d" hspecifier).bind fun _ _ _ hR => g.follows_expectMark hR rfl

/-- A name with others behind it, and points between them. -/
theorem follows_qualifiedName (allowKeywords : Bool) :
    Along bound R ctx c c' (qualifiedName allowKeywords) (qualifiedName allowKeywords) := by
  refine (g.follows_anyWord hR).bind fun _ a a' hR => ?_
  refine g.follows_loop (fun {c c'} hR => ?_) hR
  refine (g.eatMark_shorter hR rfl).bind fun eaten a a' hend => ?_
  obtain ⟨hR, hlt⟩ := hend
  refine .ite (fun heaten => ?_) fun _ => .pure ⟨hR, by simp⟩
  refine .look rfl (g.look_token hR) ?_
  cases hword : a.token with
  | word word =>
    have hbump : Follows bound
        (fun goesOn b b' => R b b' ∧ (goesOn = true → b'.rest.length < c'.rest.length)) ctx a a'
        (do bump; return true) (do bump; return true) := by
      refine (g.bump_shorter hR (by rw [hword]; rfl)).bind fun _ b b' hend => ?_
      exact .pure ⟨hend.1, fun _ => Nat.lt_trans hend.2 (hlt heaten)⟩
    dsimp only
    refine .ite (fun _ => .ite (fun _ => .fail_bind) fun _ => hbump) fun _ => hbump
  | hash => exact .fail
  | _ => exact .pure ⟨hR, by simp⟩

/-! ## Imports -/

theorem follows_importedName : Along bound R ctx c c' importedName importedName := by
  unfold importedName
  refine .look rfl rfl ?_
  rw [g.token hR]
  refine (g.follows_declaredName hR false).bind fun _ _ _ hR => ?_
  cases c.token with
  | word word => exact .pure hR
  | _ => exact .fail

theorem follows_importedNames (phase : Phase) :
    Along bound R ctx c c' (importedNames phase) (importedNames phase) := by
  unfold importedNames
  have hallowed : ∀ (allowed : Bool) {mark : String} {a a'}, (Token.mark mark).inHead = true →
      R a a' → Along bound R ctx a a' (pure allowed <&&> eatMark mark)
        (pure allowed <&&> eatMark mark) := by
    intro allowed mark a a' hmark hR
    refine .look rfl rfl ?_
    cases allowed with
    | true => exact g.follows_eatMark hR hmark
    | false => exact .pure hR
  refine (hallowed _ rfl hR).bind fun _ _ _ hR => ?_
  refine .ite (fun _ => ?_) fun _ => ?_
  · refine (g.follows_expectWord hR "as").bind fun _ _ _ hR => ?_
    exact (g.follows_declaredName hR false).bind fun _ _ _ hR => .pure hR
  · refine (hallowed _ rfl hR).bind fun _ _ _ hR => ?_
    exact .ite (fun _ => g.follows_specifiers hR fun g _ _ hR => g.follows_importSpecifier hR)
      fun _ => .pure hR

theorem follows_importWord (word : String) :
    Along bound R ctx c c' (importWord word) (importWord word) := by
  unfold importWord
  refine .look rfl rfl ?_
  rw [g.token hR, g.peek hR]
  dsimp only
  refine .ite (fun _ => .pure hR) fun _ => ?_
  refine .ite (fun _ => ?_) fun _ => ?_
  · refine .ite (fun _ => ?_) fun _ => .pure hR
    exact (g.follows_importedName hR).bind fun _ _ _ hR => .pure hR
  · refine .ite (fun _ => ?_) fun _ => .pure hR
    refine .ite (fun _ => .fail_bind) fun _ => ?_
    exact (g.follows_declaredName hR false).bind fun _ _ _ hR => .pure hR

theorem follows_importClause : Along bound R ctx c c' importClause importClause := by
  unfold importClause
  refine .look rfl rfl ?_
  rw [g.token hR]
  refine .ite (fun _ => ?_) fun _ =>
    (g.follows_importedNames hR .evaluation).bind fun _ _ _ hR => .pure hR
  refine .look rfl rfl ?_
  refine (g.follows_importedName hR).bind fun word a a' hR => ?_
  dsimp only [Context.withBound]
  have hfirst : Along bound R ctx a a'
      (if (ctx.dialect.typed && word == "type" || word == "defer" || word == "source") = true then
        importWord word else pure (some word, .evaluation))
      (if (ctx.dialect.typed && word == "type" || word == "defer" || word == "source") = true then
        importWord word else pure (some word, .evaluation)) :=
    .ite (fun _ => g.follows_importWord hR word) fun _ => .pure hR
  refine hfirst.bind fun found a a' hR => ?_
  obtain ⟨name?, phase⟩ := found
  cases name? with
  | none => exact (g.follows_importedNames hR phase).bind fun _ _ _ hR => .pure hR
  | some name =>
    refine .look rfl (g.look_atMark hR "=") ?_
    refine .ite (fun _ => .pure hR) fun _ => ?_
    refine .look rfl (g.look_atWord hR "from") ?_
    have hrest : ∀ {b b'}, R b b' → Along bound R ctx b b'
        (do importedNames phase; return true) (do importedNames phase; return true) := fun hR =>
      (g.follows_importedNames hR phase).bind fun _ _ _ hR => .pure hR
    refine .ite (fun _ => hrest hR) fun _ => ?_
    exact (g.follows_expectMark hR rfl).bind fun _ _ _ hR => hrest hR

theorem follows_importEquals : Along bound R ctx c c' importEquals importEquals := by
  unfold importEquals
  refine (g.follows_expectMark hR rfl).bind fun _ a a' hR => ?_
  refine .look rfl rfl ?_
  rw [g.token hR, g.peek hR]
  refine .ite (fun hrequire => ?_) fun _ =>
    (g.follows_qualifiedName hR false).bind fun _ _ _ hR => g.follows_expectEnd hR
  obtain ⟨hword, hparen⟩ : a.token = .word "require" ∧ a.next.token = .mark "(" := by
    simpa using hrequire
  have hnamed : Follows bound (fun _ b b' => R b b' ∧ b.token = .mark "(") ctx a a' bump bump :=
    g.taken hR (by rw [hword]; rfl) fun _ hnext => ⟨hnext, hparen⟩
  refine hnamed.bind fun _ b b' hend => ?_
  obtain ⟨hR, hopen⟩ := hend
  refine (g.follows_bump hR (by rw [hopen]; rfl)).bind fun _ d d' hR => ?_
  refine .look rfl (g.look_token hR) ?_
  refine .ite (fun hstring => ?_) fun _ => .fail_bind
  refine (g.follows_bump hR (by rw [eq_of_beq hstring]; rfl)).bind fun _ _ _ hR => ?_
  exact (g.follows_expectMark hR rfl).bind fun _ _ _ hR => g.follows_expectEnd hR

/-- The string that names a module, without attributes. -/
theorem follows_moduleString (rules' : Rules text') :
    Along bound R ctx c c' (moduleString fun _ => fail) (moduleString rules') := by
  unfold moduleString
  refine .look rfl (g.look_token hR) ?_
  refine .ite (fun hstring => ?_) fun _ => .fail_bind
  refine .look rfl rfl ?_
  have hrecorded : Along bound R ctx c c' (goTo c.record) (goTo c'.record) := by
    rintro v a ⟨⟩
    exact ⟨c'.record, rfl, g.record hR (eq_of_beq hstring)⟩
  refine hrecorded.bind fun _ a a' hR => ?_
  refine .look rfl (g.look_afterBreak hR) ?_
  refine .ite (fun _ => ?_) fun _ => .pure hR
  have heither : Along bound R ctx a a' (eatWord "assert" <||> eatWord "with")
      (eatWord "assert" <||> eatWord "with") := by
    refine (g.follows_eatWord hR "assert").bind fun eaten a a' hR => ?_
    cases eaten with
    | true => exact .pure hR
    | false => exact g.follows_eatWord hR "with"
  exact heither.bind fun _ _ _ hR => .ite (fun _ => .fail_bind) fun _ => .pure hR

theorem follows_fromClause (rules' : Rules text') :
    Along bound R ctx c c' (fromClause fun _ => fail) (fromClause rules') := by
  refine (g.follows_expectWord hR "from").bind fun _ _ _ hR => ?_
  refine (g.follows_moduleString hR rules').bind fun _ _ _ hR => ?_
  exact g.follows_expectEnd hR

/-- **An import without attributes is read token by token.** -/
theorem follows_importItem (hword : c.token = .word "import") (rules' : Rules text') :
    Along bound R ctx c c' (importItem fun _ => fail) (importItem rules') := by
  unfold importItem
  refine .look rfl rfl ?_
  have hstarts : startsImportExpression c' = startsImportExpression c := by
    simp only [startsImportExpression, g.token hR, g.peek hR]
  rw [hstarts]
  refine .ite (fun _ => .fail_bind) fun _ => ?_
  refine (g.follows_bump hR (by rw [hword]; rfl)).bind fun _ a a' hR => ?_
  refine .look rfl (g.look_token hR) ?_
  refine .ite (fun _ => ?_) fun _ => ?_
  · refine (g.follows_moduleString hR rules').bind fun _ _ _ hR => ?_
    exact (g.follows_eatEnd hR).bind fun _ _ _ hR => .pure hR
  · refine (g.follows_importClause hR).bind fun _ _ _ hR => ?_
    exact .ite (fun _ => g.follows_fromClause hR rules') fun _ => g.follows_importEquals hR

/-! ## Re-exports -/

theorem follows_exportedNames (rules' : Rules text') :
    Along bound R ctx c c' (exportedNames fun _ => fail) (exportedNames rules') := by
  unfold exportedNames
  refine (g.follows_eatMark hR rfl).bind fun _ a a' hR => ?_
  refine .ite (fun _ => ?_) fun _ => ?_
  · refine (g.follows_eatWord hR "as").bind fun _ a a' hR => ?_
    refine .ite (fun _ => ?_) fun _ => g.follows_fromClause hR rules'
    exact (g.follows_exportName hR).bind fun _ _ _ hR => g.follows_fromClause hR rules'
  · refine (g.follows_expectMark hR rfl).bind fun _ a a' hR => ?_
    refine (g.follows_specifiers hR fun g _ _ hR => g.follows_exportSpecifier hR).bind
      fun _ a a' hR => ?_
    refine .look rfl (g.look_atWord hR "from") ?_
    refine .ite (fun _ => g.follows_fromClause hR rules') fun _ => ?_
    exact (g.follows_eatEnd hR).bind fun _ _ _ hR => .pure hR

end Guides

/-- A re-export starts with a star or a brace. -/
theorem exportedNames_starts {rules : Rules text} {v : Unit} {a : Cursor text}
    (h : exportedNames rules ctx c = .done v a) :
    c.token = .mark "*" ∨ c.token = .mark "\x7b" := by
  by_cases hstar : c.token = .mark "*"
  · exact .inl hstar
  · refine .inr (Classical.byContradiction fun hbrace => ?_)
    simp [exportedNames, bind, eatMark, expectMark, hstar, hbrace] at h

/-- Where neither a word nor a decorator is at hand, nothing but names is exported. -/
theorem exportItem_eq (rules : Rules text)
    (hstarts : c.next.token = .mark "*" ∨ c.next.token = .mark "\x7b") :
    exportItem rules false ctx c = exportedNames rules ctx c.next := by
  have htyped : typedExport? rules ctx c.next = .done false c.next := by
    rcases hstarts with h | h <;> simp [typedExport?, bind, pure, token, eatWord, eatMark, h]
  have hdeclared : exportedDeclaration? rules ctx c.next = .done false c.next := by
    rcases hstarts with h | h <;>
      simp [exportedDeclaration?, bind, pure, cursor, isTyped, variableKind?, h]
  have hword : ∀ word, eatWord word ctx c.next = .done false c.next := by
    intro word
    rcases hstarts with h | h <;> simp [eatWord, h]
  have hplain : innerDecorators rules false ctx c.next = .done () c.next := by
    rcases hstarts with h | h <;> simp [innerDecorators, bind, pure, atMark, h]
  cases htyping : ctx.dialect.typed <;>
    simp [exportItem, bind, pure, bump, isTyped, htyping, htyped, hdeclared, hword, hplain]

/-- The same behind the words `export type`. -/
theorem exportItem_type_eq (rules : Rules text) (htyping : ctx.dialect.typed = true)
    (htype : c.next.token = .word "type")
    (hstarts : c.next.next.token = .mark "*" ∨ c.next.next.token = .mark "\x7b") :
    exportItem rules false ctx c = exportedNames rules ctx c.next.next := by
  -- no type is declared: its name is missing
  have hnone : ∃ a, typeDeclaration? rules "type" true ctx c.next = .fault a := by
    refine ⟨c.next.next, ?_⟩
    rcases hstarts with h | h <;>
      simp [typeDeclaration?, bind, pure, cursor, bump, aliasRest, anyWord, h]
  have htyped : typedExport? rules ctx c.next = .done false c.next := by
    obtain ⟨a, ha⟩ := hnone
    simp [typedExport?, bind, pure, token, eatWord, eatMark, htype, attempt, ha]
  have hplain : innerDecorators rules false ctx c.next.next = .done () c.next.next := by
    rcases hstarts with h | h <;> simp [innerDecorators, bind, pure, atMark, h]
  simp [exportItem, bind, pure, bump, isTyped, htyping, htyped, eatWord, htype, hplain]

/-- An import or a re-export that takes no other rule. -/
def headLine : Reader text Unit := do
  match ← token with
  | .word "import" => importItem fun _ => fail
  | .word "export" =>
    bump
    if ← isTyped then
      let _ ← eatWord "type"
    exportedNames fun _ => fail
  | _ => fail

/-- Decorators are read where none are at hand. -/
theorem rulesFor_decorators (depth : Nat) (allowExport : Bool) (h : c.token ≠ .mark "@") :
    rulesFor (depth + 1) (.decorators allowExport) ctx c = .done .other c := by
  cases htyping : ctx.dialect.typed <;>
    simp [rulesFor, readRule, decoratorsRule, bind, pure, isTyped, atMark, htyping, h]

/-- What starts with the word `import` is an import. -/
theorem rulesFor_item_import {depth : Nat} (hword : c.token = .word "import") {a : Cursor text}
    (h : importItem (rulesFor (depth + 1)) ctx c = .done () a) :
    rulesFor (depth + 2) .item ctx c = .done .other a := by
  have hplain : rulesFor (depth + 1) (.decorators true) ctx c = .done .other c :=
    rulesFor_decorators depth true (by simp [hword])
  rw [rulesFor, readRule]
  simp [itemRule, bind, pure, atMark, Rules.pass, Reader.token, hplain, hword, h]

/-- What starts with the word `export` is an export. -/
theorem rulesFor_item_export {depth : Nat} (hword : c.token = .word "export") {a : Cursor text}
    (h : exportItem (rulesFor (depth + 1)) false ctx c = .done () a) :
    rulesFor (depth + 2) .item ctx c = .done .other a := by
  have hplain : rulesFor (depth + 1) (.decorators true) ctx c = .done .other c :=
    rulesFor_decorators depth true (by simp [hword])
  rw [rulesFor, readRule]
  have hmark : (Token.word "export" == Token.mark "@") = false := rfl
  simp [itemRule, bind, pure, atMark, Rules.pass, Reader.token, hplain, hword, hmark, h]

/-- **The head of a module is read token by token.**  What is read as an import or a re-export
without any other rule, is an item of a module, there and from every related place. -/
theorem Guides.item (g : Guides bound R) (hR : R c c') {a : Cursor text}
    (h : headLine ctx c = .done () a) (depth : Nat) :
    ∃ a', rulesFor (depth + 2) .item (ctx.withBound bound) c' = .done .other a' ∧ R a a' := by
  by_cases himport : c.token = .word "import"
  · simp only [headLine, bind, Reader.token, himport] at h
    obtain ⟨a', ha', hRa⟩ := g.follows_importItem hR himport (rulesFor (depth + 1)) () a h
    exact ⟨a', rulesFor_item_import ((g.token hR).trans himport) ha', hRa⟩
  · by_cases hexport : c.token = .word "export"
    · have hnext := g.next hR (by rw [hexport]; rfl)
      have hexport' : c'.token = .word "export" := (g.token hR).trans hexport
      -- the names that are exported follow the word `export`, or the words `export type`
      have hplain : exportedNames (fun _ => fail) ctx c.next = .done () a →
          ∃ a', rulesFor (depth + 2) .item (ctx.withBound bound) c' = .done .other a' ∧ R a a' := by
        intro h
        obtain ⟨a', ha', hRa⟩ := g.follows_exportedNames hnext (rulesFor (depth + 1)) () a h
        refine ⟨a', rulesFor_item_export hexport' ?_, hRa⟩
        exact (exportItem_eq _ (by rw [g.peek hR]; exact exportedNames_starts h)).trans ha'
      simp only [headLine, bind, Reader.token, hexport, bump, isTyped] at h
      cases htyping : ctx.dialect.typed with
      | false => exact hplain (by simpa [htyping] using h)
      | true =>
        by_cases htype : c.next.token = .word "type"
        · have h : exportedNames (fun _ => fail) ctx c.next.next = .done () a := by
            simpa [htyping, eatWord, htype] using h
          have hnames := g.next hnext (by rw [htype]; rfl)
          obtain ⟨a', ha', hRa⟩ := g.follows_exportedNames hnames (rulesFor (depth + 1)) () a h
          refine ⟨a', rulesFor_item_export hexport' ?_, hRa⟩
          have htyping' : (ctx.withBound bound).dialect.typed = true := htyping
          exact (exportItem_type_eq _ htyping' ((g.peek hR).trans htype)
            (by rw [g.peek hnext]; exact exportedNames_starts h)).trans ha'
        · exact hplain (by simpa [htyping, eatWord, htype] using h)
    · simp only [headLine, bind, Reader.token] at h
      cases h

end

end Relocate.Source
