import PolynomialText.Session

/-!
# What readers can give

A reader that succeeds gives a result with certain properties, wherever it starts and whatever the
source holds. `Reader.Gives` states this for all sessions under given limits, which every reader
keeps. Nothing is said about readers that fail. The rules follow the way in which readers are put
together, and a loop is treated by an invariant of its passes.
-/

namespace PolynomialText.Reader

/-- Whenever the reader succeeds under the limits, it keeps them and its result has the property. -/
def Gives {α : Type} (limits : Limits) (r : Reader α) (P : α → Prop) : Prop :=
  ∀ s a s', s.limits = limits → r s = .ok a s' → s'.limits = limits ∧ P a

section

variable {α β : Type} {limits : Limits} {r : Reader α} {f : α → Reader β} {P Q : α → Prop}
  {S : β → Prop}

/-- A result that is given without reading. -/
theorem Gives.pure {a : α} (h : P a) : Gives limits (pure a) P := by
  intro s b s' hs hok
  obtain ⟨rfl, rfl⟩ := EStateM.Result.ok.inj hok
  exact ⟨hs, h⟩

/-- Two readers that succeed one after the other succeed both. -/
theorem exists_of_bind_eq_ok {s s'' : Session} {b : β} (h : (r >>= f) s = .ok b s'') :
    ∃ a s', r s = .ok a s' ∧ f a s' = .ok b s'' := by
  change EStateM.bind r f s = _ at h
  unfold EStateM.bind at h
  split at h
  · rename_i a s' hr
    exact ⟨a, s', hr, h⟩
  · contradiction

/-- Two readers one after the other. -/
theorem Gives.bind (hr : Gives limits r P) (hf : ∀ a, P a → Gives limits (f a) S) :
    Gives limits (r >>= f) S := by
  intro s b s'' hs hok
  obtain ⟨a, s', hr', hf'⟩ := exists_of_bind_eq_ok hok
  obtain ⟨hs', ha⟩ := hr s a s' hs hr'
  exact hf a ha s' b s'' hs' hf'

/-- The property may be weakened. -/
theorem Gives.imp (hr : Gives limits r P) (h : ∀ a, P a → Q a) : Gives limits r Q :=
  fun s a s' hs hok => (hr s a s' hs hok).imp_right (h a)

/-- A failure gives nothing. -/
theorem gives_throw {e : ParseError} : Gives limits (throw e) P := by
  intro s a s' _ hok
  change EStateM.throw e s = _ at hok
  contradiction

/-- A step of the scanner keeps the limits. -/
theorem gives_scanning (step : EStateM ParseError Scanner α) :
    Gives limits (scanning step) fun _ => True := by
  intro s a s' hs hok
  unfold scanning at hok
  split at hok
  · obtain ⟨-, rfl⟩ := EStateM.Result.ok.inj hok
    exact ⟨hs, trivial⟩
  · contradiction

end

section

variable {limits : Limits}

theorem gives_advance : Gives limits advance fun _ => True := gives_scanning _

theorem gives_pushBack (t : Token) : Gives limits (pushBack t) fun _ => True := gives_scanning _

theorem gives_peek (n : Nat) : Gives limits (peek n) fun _ => True := gives_scanning _

theorem gives_digitAhead (n : Nat) : Gives limits (digitAhead n) fun _ => True :=
  (gives_peek n).bind fun _ _ => .pure trivial

theorem gives_line : Gives limits line fun _ => True := by
  intro s a s' hs hok
  obtain ⟨-, rfl⟩ := EStateM.Result.ok.inj hok
  exact ⟨hs, trivial⟩

/-- The session is looked at. -/
theorem gives_get : Gives limits get fun s => s.limits = limits := by
  intro s a s' hs hok
  obtain ⟨rfl, rfl⟩ := EStateM.Result.ok.inj hok
  exact ⟨hs, hs⟩

theorem gives_advise (note : String) : Gives limits (advise note) fun _ => True := by
  intro s a s' hs hok
  obtain ⟨-, rfl⟩ := EStateM.Result.ok.inj hok
  exact ⟨hs, trivial⟩

variable {α β σ : Type} {P : α → Prop}

theorem gives_malformed (cause : Malformation) : Gives limits (malformed cause) P :=
  gives_line.bind fun _ _ => gives_throw

theorem gives_invalidRing (cause : DescriptorFault) : Gives limits (invalidRing cause) P :=
  gives_line.bind fun _ _ => gives_throw

theorem gives_exhausted : Gives limits exhausted P := gives_line.bind fun _ _ => gives_throw

theorem gives_literalFailure (literal : Text) (fault : LiteralFault) :
    Gives limits (literalFailure literal fault) P := by
  unfold literalFailure
  split
  · exact gives_malformed _
  · exact gives_line.bind fun _ _ => gives_throw

/-- A ring that could be built. -/
theorem gives_orInvalidRing (result : Except RingFault α) :
    Gives limits (orInvalidRing result) fun a => result = .ok a := by
  cases result with
  | ok a => exact .pure rfl
  | error fault => exact gives_invalidRing _

theorem gives_checkDepth (extra : Nat) : Gives limits (checkDepth extra) fun _ => True := by
  apply gives_get.bind
  intro s _
  split
  · exact gives_malformed _
  · exact .pure trivial

theorem gives_skipOp (c : Char) : Gives limits (skipOp c) fun _ => True := by
  apply gives_advance.bind
  intro t _
  split
  · exact gives_pushBack t
  · exact .pure trivial

/-- An open level changes no result. -/
theorem gives_deeper {r : Reader α} (hr : Gives limits r P) : Gives limits (deeper r) P := by
  intro s a s'' hs hok
  unfold deeper at hok
  split at hok
  · rename_i b s' hr'
    obtain ⟨rfl, rfl⟩ := EStateM.Result.ok.inj hok
    exact hr { s with depth := s.depth + 1 } b s' hs hr'
  · contradiction

/-- A further level changes no result. -/
theorem gives_nested {r : Reader α} (hr : Gives limits r P) : Gives limits (nested r) P :=
  (gives_checkDepth 1).bind fun _ _ => gives_deeper hr

theorem gives_passes : Gives limits passes fun _ => True := by
  intro s a s' hs hok
  obtain ⟨-, rfl⟩ := EStateM.Result.ok.inj hok
  exact ⟨hs, trivial⟩

/-- An invariant of the passes of a loop that its result follows from. -/
theorem gives_iterate {step : σ → Reader (σ ⊕ β)} {I : σ → Prop} {P : β → Prop}
    (hstep : ∀ state, I state → Gives limits (step state) (Sum.elim I P)) (fuel : Nat) {state : σ}
    (hstate : I state) : Gives limits (iterate step fuel state) P := by
  induction fuel generalizing state with
  | zero => exact gives_exhausted
  | succ fuel ih =>
    apply (hstep state hstate).bind
    intro next hnext
    cases next with
    | inl state' => exact ih hnext
    | inr result => exact .pure hnext

/-- An invariant of a loop. -/
theorem gives_loop {step : σ → Reader (σ ⊕ β)} {I : σ → Prop} {P : β → Prop}
    (hstep : ∀ state, I state → Gives limits (step state) (Sum.elim I P)) {state : σ}
    (hstate : I state) : Gives limits (loop step state) P :=
  gives_passes.bind fun fuel _ => gives_iterate hstep fuel hstate

end

/-! ### Runs on fixed inputs -/

/-- A run that ends with a given result. -/
theorem exists_eq_ok {α : Type} [DecidableEq α] {reader : Reader α} {s : Session} {a : α}
    (h : (match reader s with
      | .ok b _ => decide (b = a)
      | .error _ _ => false) = true) : ∃ s', reader s = .ok a s' := by
  cases hrun : reader s with
  | ok b s' =>
    rw [hrun] at h
    exact ⟨s', by rw [of_decide_eq_true h]⟩
  | error e s' =>
    rw [hrun] at h
    contradiction

/-- A run that ends with a given failure. -/
theorem exists_eq_error {α : Type} {reader : Reader α} {s : Session} {e : ParseError}
    (h : (match reader s with
      | .ok _ _ => false
      | .error e' _ => decide (e' = e)) = true) : ∃ s', reader s = .error e s' := by
  cases hrun : reader s with
  | ok a s' =>
    rw [hrun] at h
    contradiction
  | error e' s' =>
    rw [hrun] at h
    exact ⟨s', by rw [of_decide_eq_true h]⟩

/-- A run that ends with a given failure in a given session. -/
theorem eq_error_of_match {α : Type} {reader : Reader α} {s t : Session} {e : ParseError}
    (h : (match reader s with
      | .ok _ _ => false
      | .error e' t' => decide (e' = e ∧ t' = t)) = true) : reader s = .error e t := by
  cases hrun : reader s with
  | ok a s' =>
    rw [hrun] at h
    contradiction
  | error e' t' =>
    rw [hrun] at h
    obtain ⟨rfl, rfl⟩ := of_decide_eq_true h
    rfl

end PolynomialText.Reader
