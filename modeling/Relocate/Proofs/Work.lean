import Relocate.Session.Basic

/-! # What work ensures

Work on a session ends in a value or in an error, and either way it leaves a session behind.
`Work.Ensures` says what holds of each.  There is one rule for each way of putting work together;
a caught error continues with the session as the failure left it, so the rule for `tryCatch` asks
about that session and not about the one before.
-/

namespace Relocate.Work

variable {α β : Type}

/-- Begun on the session `s`, the work ends in a value and a session with `ok`, or in an error and a
session with `error`.  It is opened by the rules below alone: otherwise to look at such a statement
would be to run the work. -/
@[irreducible]
def Ensures (work : Work α) (s : Session) (ok : α → Session → Prop)
    (error : Error → Session → Prop) : Prop :=
  match work.run.run s with
  | (.ok value, s') => ok value s'
  | (.error cause, s') => error cause s'

variable {work : Work α} {s : Session} {ok ok' : α → Session → Prop}
  {error error' : Error → Session → Prop}

theorem Ensures.mono (h : Ensures work s ok error) (hok : ∀ value s', ok value s' → ok' value s')
    (herror : ∀ cause s', error cause s' → error' cause s') : Ensures work s ok' error' := by
  unfold Ensures at h ⊢
  split at h
  · exact hok _ _ h
  · exact herror _ _ h

theorem Ensures.of_ok (h : Ensures work s ok error) {value : α} {s' : Session}
    (hrun : work.run.run s = (.ok value, s')) : ok value s' := by
  simpa [Ensures, hrun] using h

theorem Ensures.of_error (h : Ensures work s ok error) {cause : Error} {s' : Session}
    (hrun : work.run.run s = (.error cause, s')) : error cause s' := by
  simpa [Ensures, hrun] using h

/-- What holds however the work ends holds of the session it leaves behind. -/
theorem Ensures.session {P : Session → Prop} (h : Ensures work s (fun _ => P) fun _ => P) :
    P (work.run.run s).2 := by
  unfold Ensures at h
  split at h <;> simp_all

theorem Ensures.and (h : Ensures work s ok error) (h' : Ensures work s ok' error') :
    Ensures work s (fun value s' => ok value s' ∧ ok' value s')
      fun cause s' => error cause s' ∧ error' cause s' := by
  unfold Ensures at h h' ⊢
  split at h
  · rename_i hrun
    simpa [hrun, h] using h'
  · rename_i hrun
    simpa [hrun, h] using h'

/-- Work ends as it ends. -/
theorem ensures_run : Ensures work s (fun value s' => work.run.run s = (.ok value, s'))
    fun cause s' => work.run.run s = (.error cause, s') := by
  unfold Ensures
  split
  · rename_i hrun
    exact hrun
  · rename_i hrun
    exact hrun

/-- Work that cannot fail and leaves one session behind comes to that session. -/
theorem Ensures.run_eq {work : Work PUnit} {s' : Session}
    (h : Ensures work s (fun _ left => left = s') fun _ _ => False) :
    work.run.run s = (.ok (), s') := by
  rcases hrun : work.run.run s with ⟨cause | value, left⟩
  · exact (h.of_error hrun).elim
  · rw [h.of_ok hrun]

/-! ## One rule for each way of putting work together -/

theorem ensures_pure {value : α} (h : ok value s) : Ensures (pure value) s ok error := by
  unfold Ensures
  exact h

theorem ensures_throw {cause : Error} (h : error cause s) :
    Ensures (throw cause : Work α) s ok error := by
  unfold Ensures
  exact h

theorem run_bind_ok {rest : α → Work β} {value : α} {s' : Session}
    (h : work.run.run s = (.ok value, s')) :
    (work >>= rest).run.run s = (rest value).run.run s' := by
  rw [ExceptT.run_bind, StateT.run_bind, h]
  rfl

theorem run_bind_error {rest : α → Work β} {cause : Error} {s' : Session}
    (h : work.run.run s = (.error cause, s')) :
    (work >>= rest).run.run s = (.error cause, s') := by
  rw [ExceptT.run_bind, StateT.run_bind, h]
  rfl

theorem ensures_bind {rest : α → Work β} {ok : β → Session → Prop}
    (h : Ensures work s (fun value s' => Ensures (rest value) s' ok error) error) :
    Ensures (work >>= rest) s ok error := by
  rcases hrun : work.run.run s with ⟨cause | value, s'⟩
  · have herror := h.of_error hrun
    unfold Ensures
    rwa [run_bind_error hrun]
  · have hok := h.of_ok hrun
    unfold Ensures at hok ⊢
    rwa [run_bind_ok hrun]

theorem run_tryCatch_ok {handle : Error → Work α} {value : α} {s' : Session}
    (h : work.run.run s = (.ok value, s')) :
    (tryCatch work handle).run.run s = (.ok value, s') := by
  rw [ExceptT.run_tryCatch, StateT.run_bind, h]
  rfl

theorem run_tryCatch_error {handle : Error → Work α} {cause : Error} {s' : Session}
    (h : work.run.run s = (.error cause, s')) :
    (tryCatch work handle).run.run s = (handle cause).run.run s' := by
  rw [ExceptT.run_tryCatch, StateT.run_bind, h]
  rfl

theorem ensures_tryCatch {handle : Error → Work α}
    (h : Ensures work s ok fun cause s' => Ensures (handle cause) s' ok error) :
    Ensures (tryCatch work handle) s ok error := by
  rcases hrun : work.run.run s with ⟨cause | value, s'⟩
  · have herror := h.of_error hrun
    unfold Ensures at herror ⊢
    rwa [run_tryCatch_error hrun]
  · have hok := h.of_ok hrun
    unfold Ensures
    rwa [run_tryCatch_ok hrun]

theorem ensures_get {ok : Session → Session → Prop} (h : ok s s) :
    Ensures (get : Work Session) s ok error := by
  unfold Ensures
  exact h

theorem ensures_set {s' : Session} {ok : PUnit → Session → Prop} (h : ok () s') :
    Ensures (set s' : Work PUnit) s ok error := by
  unfold Ensures
  exact h

theorem ensures_modify {change : Session → Session} {ok : PUnit → Session → Prop}
    (h : ok () (change s)) : Ensures (modify change : Work PUnit) s ok error := by
  unfold Ensures
  exact h

/-! ## Loops -/

/-- A fold ensures what one step preserves.  The invariant may speak of the items done so far, and
the step knows which items these are and which are left. -/
theorem ensures_foldlM_split (invariant : List α → β → Session → Prop) {step : β → α → Work β}
    {items : List α} {start : β} (hstart : invariant [] start s)
    (hstep : ∀ done item rest, items = done ++ item :: rest → ∀ value s, invariant done value s →
      Ensures (step value item) s (invariant (done ++ [item])) error) :
    Ensures (items.foldlM step start) s (invariant items) error := by
  -- The induction is on the items left to do, with those done before them as a parameter.
  suffices hdone : ∀ rest done start s, items = done ++ rest → invariant done start s →
      Ensures (rest.foldlM step start) s (invariant items) error from
    hdone items [] start s rfl hstart
  intro rest
  induction rest with
  | nil =>
    intro done start s hitems hstart
    rw [hitems, List.append_nil]
    exact ensures_pure hstart
  | cons item rest ih =>
    intro done start s hitems hstart
    rw [List.foldlM_cons]
    refine ensures_bind ((hstep done item rest hitems start s hstart).mono ?_ fun _ _ h => h)
    intro value s' h
    exact ih (done ++ [item]) value s' (by rw [hitems, List.append_cons]) h

/-- A fold ensures what one step preserves; the invariant may speak of the items done so far. -/
theorem ensures_foldlM (invariant : List α → β → Session → Prop) {step : β → α → Work β}
    {items : List α} {start : β} (hstart : invariant [] start s)
    (hstep : ∀ done, ∀ item ∈ items, ∀ value s, invariant done value s →
      Ensures (step value item) s (invariant (done ++ [item])) error) :
    Ensures (items.foldlM step start) s (invariant items) error :=
  ensures_foldlM_split invariant hstart fun done item _ hitems =>
    hstep done item (by simp [hitems])

/-- A loop ensures what one turn preserves. -/
theorem ensures_forM {step : α → Work PUnit} {items : List α} {invariant : Session → Prop}
    (hstart : invariant s)
    (hstep : ∀ item ∈ items, ∀ s, invariant s →
      Ensures (step item) s (fun _ => invariant) error) :
    Ensures (items.forM step) s (fun _ => invariant) error := by
  induction items generalizing s with
  | nil => exact ensures_pure hstart
  | cons item items ih =>
    rw [List.forM]
    refine ensures_bind ((hstep item List.mem_cons_self s hstart).mono ?_ fun _ _ h => h)
    intro _ s' hs'
    exact ih hs' fun item hitem => hstep item (List.mem_cons_of_mem _ hitem)

end Relocate.Work
