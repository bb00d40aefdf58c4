import PolynomialText.Proofs.SafeSessions

/-!
# The passes of an expression end

An expression is read in passes: signs and stars, a token behind them, and what that token starts. A
pass returns, or it leaves less to be read than it found, whatever was put back in it. So the passes
end by themselves, and the bounds that the readers carry along are never what stops them:
`Reader.Repeats` repeats a step without any bound, and it gives what the bounded loops give.
-/

namespace PolynomialText

namespace Reader

/-! ### Loops without a bound -/

section

variable {deep : Bool} {σ β : Type} {step : σ → Reader (σ ⊕ β)}

/-- The step is repeated, as often as it goes on, until it fails or gives a result. -/
inductive Repeats (step : σ → Reader (σ ⊕ β)) :
    σ → Session → EStateM.Result ParseError Session β → Prop
  | fails {state : σ} {s s' : Session} {e : ParseError} (h : step state s = .error e s') :
      Repeats step state s (.error e s')
  | ends {state : σ} {s s' : Session} {b : β} (h : step state s = .ok (.inr b) s') :
      Repeats step state s (.ok b s')
  | goes {state state' : σ} {s s' : Session} {result : EStateM.Result ParseError Session β}
      (h : step state s = .ok (.inl state') s') (hrest : Repeats step state' s' result) :
      Repeats step state s result

/-- Repetition ends in one way at most. -/
theorem Repeats.unique {state : σ} {s : Session} {r r' : EStateM.Result ParseError Session β}
    (h : Repeats step state s r) (h' : Repeats step state s r') : r = r' := by
  induction h with
  | fails h =>
    cases h' with
    | fails h' =>
      obtain ⟨rfl, rfl⟩ := EStateM.Result.error.inj (h.symm.trans h')
      rfl
    | ends h' => exact absurd (h.symm.trans h') nofun
    | goes h' _ => exact absurd (h.symm.trans h') nofun
  | ends h =>
    cases h' with
    | fails h' => exact absurd (h.symm.trans h') nofun
    | ends h' =>
      obtain ⟨heq, rfl⟩ := EStateM.Result.ok.inj (h.symm.trans h')
      rw [Sum.inr.inj heq]
    | goes h' _ => exact absurd (h.symm.trans h') nofun
  | goes h _ ih =>
    cases h' with
    | fails h' => exact absurd (h.symm.trans h') nofun
    | ends h' => exact absurd (h.symm.trans h') nofun
    | goes h' hrest =>
      obtain ⟨heq, rfl⟩ := EStateM.Result.ok.inj (h.symm.trans h')
      rw [← Sum.inl.inj heq] at hrest
      exact ih hrest

/-- Repetition depends on the first pass only through what it gives. -/
theorem Repeats.congr {state state' : σ} {s s' : Session}
    {result : EStateM.Result ParseError Session β} (h : Repeats step state' s' result)
    (hstep : step state s = step state' s') : Repeats step state s result := by
  cases h with
  | fails h => exact .fails (hstep.trans h)
  | ends h => exact .ends (hstep.trans h)
  | goes h hrest => exact .goes (hstep.trans h) hrest

variable (hstep : ∀ state k, Keeps deep (Scanner.Below k) (step state) (AfterPass k))
include hstep

/-- A pass that goes on leaves less, and what can be gone on with. -/
theorem remaining_lt_of_step {state state' : σ} {s s' : Session} (hs : s.scanner.Proper)
    (h : step state s = .ok (.inl state') s') :
    s'.scanner.remaining < s.scanner.remaining ∧ s'.scanner.Proper := by
  have hrun := hstep state (s.scanner.remaining + 1) s hs (Nat.lt_succ_self _)
  rw [h] at hrun
  exact ⟨hrun.2.2, hrun.2.1⟩

/-- If passes that go on leave less, then a bound above what is left is not reached. -/
theorem repeats_iterate {fuel : Nat} {state : σ} {s : Session} (hs : s.scanner.Proper)
    (hfuel : s.scanner.remaining < fuel) : Repeats step state s (iterate step fuel state s) := by
  induction fuel generalizing state s with
  | zero => exact absurd hfuel (Nat.not_lt_zero _)
  | succ fuel ih =>
    simp only [iterate, bind, EStateM.bind]
    cases hrun : step state s with
    | error e s' => exact .fails hrun
    | ok next s' =>
      cases next with
      | inr result => exact .ends hrun
      | inl state' =>
        obtain ⟨hlt, hs'⟩ := remaining_lt_of_step hstep hs hrun
        exact .goes hrun (ih hs' (Nat.lt_of_lt_of_le hlt (Nat.le_of_lt_succ hfuel)))

/-- If passes that go on leave less, then a loop ends by itself. -/
theorem repeats_loop {state : σ} {s : Session} (hs : s.scanner.Proper) :
    Repeats step state s (loop step state s) :=
  repeats_iterate hstep hs (Nat.lt_succ_self _)

/-- A loop is its first pass and the loop behind it. -/
theorem loop_eq {state : σ} {s : Session} (hs : s.scanner.Proper) :
    loop step state s =
      match step state s with
      | .ok (.inl state') s' => loop step state' s'
      | .ok (.inr b) s' => .ok b s'
      | .error e s' => .error e s' := by
  apply (repeats_loop hstep hs).unique
  cases h : step state s with
  | error e s' => exact .fails h
  | ok next s' =>
    cases next with
    | inl state' => exact .goes h (repeats_loop hstep (remaining_lt_of_step hstep hs h).2)
    | inr b => exact .ends h

end

/-! ### Passes of an expression -/

section

variable {α : Type} (R : PolyRing α)

/-- Read a token in front of a factor: signs and stars may be repeated. -/
def signStep (acc : Accumulator α) : Reader (Accumulator α ⊕ Accumulator α × Token) := do
  let t ← advance
  if t = .op '-' then return .inl (acc.negate R)
  else if t = .op '+' ∨ t = .op '*' then return .inl acc
  else return .inr (acc, t)

/-- A pass of an expression: signs, and then a delimiter or a factor with its exponent. -/
def expressionPass (closer : Option Char) (acc : Accumulator α) :
    Reader (Accumulator α ⊕ Poly α × Terminator) := do
  let (acc', t) ← loop (signStep R) acc
  passBehind R (expression R none) closer acc' t

variable {R}

/-! ### What a pass leaves -/

open Scanner (Below Behind)

variable {deep : Bool} {k : Nat} {closer : Option Char} {acc : Accumulator α} {t : Token}
  {s s' : Session}

/-- Behind a sign less is left, and another token can be put back. -/
theorem keeps_signStep (acc : Accumulator α) (k : Nat) :
    Keeps deep (Below k) (signStep R acc)
      fun next s => next.elim (fun _ => s.Below (k - 1)) fun found => s.Behind k found.2 := by
  apply keeps_advance.bind
  intro t
  split
  · rename_i hminus
    exact .pure fun s hs => hs.below_pred (by simp [hminus])
  · split
    · rename_i hskip
      exact .pure fun s hs => hs.below_pred (by rintro rfl; simp at hskip)
    · exact .pure fun _ h => h

/-- A token is read as a sign, as a pass behind the signs would read it too, or it ends them. -/
theorem signStep_of_advance (h : advance s = .ok t s') :
    (∃ acc', signStep R acc s = .ok (.inl acc') s' ∧ t ≠ .eof ∧
      ∀ inner closer, passBehind R inner closer acc t = pure (.inl acc')) ∨
    signStep R acc s = .ok (.inr (acc, t)) s' := by
  simp only [signStep, bind, EStateM.bind, h]
  by_cases hminus : t = .op '-'
  · subst hminus
    exact .inl ⟨acc.negate R, rfl, by simp, fun inner closer => rfl⟩
  · by_cases hskip : t = .op '+' ∨ t = .op '*'
    · refine .inl ⟨acc, by rw [if_neg hminus, if_pos hskip]; rfl, by rintro rfl; simp at hskip, ?_⟩
      rcases hskip with rfl | rfl <;> exact fun inner closer => rfl
    · exact .inr (by rw [if_neg hminus, if_neg hskip]; rfl)

/-- Behind the signs a pass returns, or it leaves less than there was with the token. -/
theorem keeps_passBehind_afterPass (hR : deep = true → R.coefficients.Reliable) :
    Keeps deep (Behind k t) (passBehind R (expression R none) closer acc t) (AfterPass k) := by
  have hinner : Keeps deep (Below (k - 1)) (expression R none) fun _ => Below (k - 1) :=
    (keeps_expression hR (k - 1) none).weaken fun _ _ hs => hs.1
  refine (keeps_passBehind hR hinner closer acc t).weaken fun next s hs => ?_
  cases next with
  | inl acc' => exact hs
  | inr result => exact hs.1

/-- The signs in front of a factor leave less, as long as they go on. -/
theorem keeps_signStep_afterPass (acc : Accumulator α) (k : Nat) :
    Keeps deep (Below k) (signStep R acc) (AfterPass k) := by
  refine (keeps_signStep acc k).weaken fun next s hs => ?_
  cases next with
  | inl acc' => exact hs
  | inr found => exact hs.toBelow

/-- The signs in front of a factor end with a token that can be put back. -/
theorem keeps_signs (acc : Accumulator α) (k : Nat) :
    Keeps deep (Below k) (loop (signStep R) acc) fun found => Behind k found.2 :=
  keeps_loop_result (Q := fun k (found : Accumulator α × Token) s => s.Behind k found.2)
    (fun _ _ _ _ hle hs => ⟨hs.free, hs.proper, Nat.lt_of_lt_of_le hs.below hle⟩)
    keeps_signStep k acc

/-- A pass returns, or it leaves less than it found. -/
theorem keeps_expressionPass (hR : deep = true → R.coefficients.Reliable) (acc : Accumulator α)
    (k : Nat) : Keeps deep (Below k) (expressionPass R closer acc) (AfterPass k) :=
  (keeps_signs acc k).bind fun _ => keeps_passBehind_afterPass hR

/-! ### The passes make the expression -/

/-- A pass is its first token and what follows: another pass behind a sign. -/
theorem expressionPass_eq (hs : s.scanner.Proper) :
    expressionPass R closer acc s =
      match signStep R acc s with
      | .ok (.inl acc') s' => expressionPass R closer acc' s'
      | .ok (.inr (acc', t)) s' => passBehind R (expression R none) closer acc' t s'
      | .error e s' => .error e s' := by
  have hloop : loop (signStep R) acc s = _ := loop_eq (@keeps_signStep_afterPass α R false) hs
  simp only [expressionPass, bind, EStateM.bind, hloop]
  cases signStep R acc s with
  | error e s' => rfl
  | ok next s' => cases next <;> rfl

/-- A level is checked, and then opened around the reader. -/
theorem nested_eq {β : Type} (r : Reader β) (s : Session) :
    nested r s =
      if s.limits.maxDepth.toNat < s.depth + 1 then
        malformed (.tooDeep s.limits.maxDepth.toNat) s
      else deeper r s := by
  change EStateM.bind (if s.limits.maxDepth.toNat < s.depth + 1 then
    malformed (.tooDeep s.limits.maxDepth.toNat) else pure ()) (fun _ => deeper r) s = _
  by_cases h : s.limits.maxDepth.toNat < s.depth + 1
  · rw [if_pos h, if_pos h]
    rfl
  · rw [if_neg h, if_neg h]
    rfl

/-- Only an opening parenthesis makes a pass read an inner expression. -/
theorem passBehind_congr {inner inner' : Reader (Poly α × Terminator)}
    (h : Role.ofToken closer t = .openParen →
      inner { s with depth := s.depth + 1 } = inner' { s with depth := s.depth + 1 }) :
    passBehind R inner closer acc t s = passBehind R inner' closer acc t s := by
  unfold passBehind
  cases hrole : Role.ofToken closer t with
  | openParen =>
    have hnested : nested inner s = nested inner' s := by
      simp only [nested_eq, deeper, h hrole]
    simp only [bind, EStateM.bind, hnested]
  | _ => rfl

/-- With a bound above what is left, an expression is its passes, repeated until one returns. -/
theorem repeats_expressionFrom {fuel : Nat} (hs : s.scanner.Proper)
    (hfuel : s.scanner.remaining < fuel) :
    Repeats (expressionPass R closer) acc s (expressionFrom R fuel closer acc s) := by
  induction fuel using Nat.strong_induction_on generalizing closer acc s with
  | _ fuel ih =>
  obtain _ | fuel := fuel
  · exact absurd hfuel (Nat.not_lt_zero _)
  rw [expressionFrom_succ]
  simp only [bind, EStateM.bind]
  cases hread : advance s with
  | error e s' =>
    refine .fails ?_
    rw [expressionPass_eq hs]
    simp only [signStep, bind, EStateM.bind, hread]
  | ok t s' =>
    obtain ⟨hs', hbehind⟩ : s'.scanner.Proper ∧ Behind (fuel + 1) t s'.scanner := by
      have hfirst := @keeps_advance false (fuel + 1) s hs hfuel
      rw [hread] at hfirst
      exact hfirst.2
    have hpass := @expressionPass_eq α R closer acc s hs
    obtain ⟨acc', hsign, hne, hskip⟩ | hlast := @signStep_of_advance α R acc t s s' hread
    · rw [hsign] at hpass
      dsimp only
      rw [hskip]
      exact (ih fuel (Nat.lt_succ_self _) hs' (hbehind.below_pred hne)).congr hpass
    rw [hlast] at hpass
    -- Behind the signs the pass and the expression do the same; the bounds on an inner expression
    -- differ, but both are above what is left.
    have hsame : passBehind R (expressionFrom R fuel none (.start R)) closer acc t s' =
        passBehind R (expression R none) closer acc t s' := by
      apply passBehind_congr
      intro hrole
      have hbelow : Below fuel s'.scanner := hbehind.below_pred (by rintro rfl; contradiction)
      have hlong : Repeats (expressionPass R none) (.start R) { s' with depth := s'.depth + 1 }
          (expressionFrom R fuel none (.start R) { s' with depth := s'.depth + 1 }) :=
        ih fuel (Nat.lt_succ_self _) hs' hbelow
      exact hlong.unique (ih _ (Nat.succ_lt_succ hbelow) hs' (Nat.lt_succ_self _))
    dsimp only at hpass ⊢
    rw [hsame]
    cases hresult : passBehind R (expression R none) closer acc t s' with
    | error e s'' => exact .fails (hpass.trans hresult)
    | ok next s'' =>
      cases next with
      | inr result => exact .ends (hpass.trans hresult)
      | inl acc' =>
        have hrun := @keeps_passBehind_afterPass α R false _ closer acc t nofun s' hs' hbehind
        rw [hresult] at hrun
        exact .goes (hpass.trans hresult) (ih fuel (Nat.lt_succ_self _) hrun.2.1 hrun.2.2)

/-- An expression is its passes, repeated until one returns. -/
theorem repeats_expression (R : PolyRing α) (closer : Option Char) (hs : s.scanner.Proper) :
    Repeats (expressionPass R closer) (.start R) s (expression R closer s) :=
  repeats_expressionFrom hs (Nat.lt_succ_self _)

end

/-- From the session on, the loop over the step ends by itself, with the result that its bound
allows. -/
def LoopEnds {σ β : Type} (step : σ → Reader (σ ⊕ β)) (s : Session) : Prop :=
  ∀ state, Repeats step state s (loop step state s)

end Reader

open Reader

/-- The passes of an expression end. From every session whose held token, if there is one, is a token
of a text, whatever the source still holds and within any limits, a pass returns, or it leaves less to
be read and a session of the same kind. An expression is its passes, repeated without any bound until
one returns. The loops over signs, literals in braces, lists, variables and weights end by themselves
as well. So every call ends, and no bound on passes is what ends it, nor what ends the reading of a
literal inside it. Between calls every session is of that kind. -/
theorem expression_passes_end (s : Session) (hs : s.scanner.Proper) :
    (∀ {α : Type} (R : PolyRing α) (closer : Option Char),
      (∀ acc acc' s', expressionPass R closer acc s = .ok (.inl acc') s' →
        s'.scanner.remaining < s.scanner.remaining ∧ s'.scanner.Proper) ∧
      Repeats (expressionPass R closer) (.start R) s (expression R closer s) ∧
      LoopEnds (signStep R) s ∧ LoopEnds (listStep R) s ∧ LoopEnds (moduleStep R) s) ∧
    (LoopEnds bracesStep s ∧ (∀ closer, LoopEnds (variableStep closer) s) ∧
      LoopEnds weightStep s ∧ LoopEnds weightArrayStep s) ∧
    (∀ (call : Call) e s', call.reader s = .error e s' →
      (∀ line cause, e ≠ .defect line cause) ∧ (call.Reliable → ¬ e.Defective true)) ∧
    ∀ chunks limits calls,
      ((Session.ofReads (Read.ofChunks chunks) limits).afterCalls calls).scanner.Proper := by
  have hplain {α : Type} {R : PolyRing α} : false = true → R.coefficients.Reliable := nofun
  refine ⟨fun R closer => ⟨fun acc acc' s' h => ?_, repeats_expression R closer hs, ?_, ?_, ?_⟩,
    ⟨?_, fun closer => ?_, ?_, ?_⟩, fun call e s' h => ?_, fun chunks limits calls => ?_⟩
  · exact remaining_lt_of_step (keeps_expressionPass hplain) hs h
  · exact fun acc => repeats_loop (@keeps_signStep_afterPass _ R false) hs
  · exact fun list => repeats_loop (keeps_listStep hplain) hs
  · exact fun rows => repeats_loop (keeps_moduleStep hplain) hs
  · exact fun b => repeats_loop (@keeps_bracesStep false) hs
  · exact fun names => repeats_loop (@keeps_variableStep false closer) hs
  · exact fun row => repeats_loop (@keeps_weightStep false) hs
  · exact fun rows => repeats_loop (@keeps_weightArrayStep false) hs
  · refine ⟨?_, fun hcall => call.not_defective (fun _ => hcall) hs h⟩
    rintro line cause rfl
    have hplain : false = true → call.Reliable := Bool.noConfusion
    exact call.not_defective hplain hs h trivial
  · exact ((Session.ready_ofReads _ limits).calls calls).proper

/-- A sign and a numeral with a symbol run on to it, in front of a failure of the source: the pass
leaves the symbol held, and the passes behind it end with the failure. -/
theorem passes_in_front_of_failure :
    let R : PolyRing Rat := ⟨Rational.arithmetic, [['x'], ['y']], {}⟩
    let s := Session.ofReads (Read.ofChunks [.text "- 2x^3y\n".toList, .failure "gone"])
    s.scanner.Proper ∧ s.scanner.remaining = 8 ∧
      (∃ acc s', expressionPass R none (.start R) s = .ok (.inl acc) s' ∧
        s'.scanner.held = some (.word ['x']) ∧
        s'.scanner.remaining < s.scanner.remaining) ∧
      ∃ s', Repeats (expressionPass R none) (.start R) s (.error (.stream 2 "gone") s') := by
  intro R s
  have hproper : s.scanner.Proper := Scanner.proper_of_free rfl
  have hremaining : s.scanner.remaining = 8 := by decide +kernel
  have hpass : (match expressionPass R none (.start R) s with
      | .ok (.inl _) s' => decide (s'.scanner.held = some (.word ['x']))
      | _ => false) = true := by decide +kernel
  obtain ⟨s₂, hrun⟩ : ∃ s₂, expression R none s = .error (.stream 2 "gone") s₂ :=
    exists_eq_error (by decide +kernel)
  clear_value R s
  obtain ⟨hless, hrepeats, -⟩ := (expression_passes_end s hproper).1 R none
  refine ⟨hproper, hremaining, ?_, s₂, hrun ▸ hrepeats⟩
  cases hresult : expressionPass R none (.start R) s with
  | error e s' =>
    rw [hresult] at hpass
    contradiction
  | ok next s' =>
    rw [hresult] at hpass
    cases next with
    | inr result => contradiction
    | inl acc => exact ⟨acc, s', rfl, of_decide_eq_true hpass, (hless _ _ _ hresult).1⟩

end PolynomialText
