import PolynomialText.Proofs.LineScanning
import PolynomialText.Proofs.SafeSessions
import PolynomialText.Proofs.TokenReaders

/-!
# Reading depends on the tokens only

Two sources without failures may differ in blanks, comments, line breaks, quotes and chunks. If they
have the same tokens, every call gives the same on both of them, but for the lines on which failures
are found. `Reader.Concurs` compares two runs of a reader on sessions that see the same tokens. Their
loops have different bounds, which is why a run that passes its bound is put aside first; calls never
do.
-/

namespace PolynomialText

/-- Two sessions of one description, with the same notes. -/
def Session.Both (Described : Limits → Nat → List Token → Session → Prop) (s s' : Session) : Prop :=
  ∃ limits depth tokens, Described limits depth tokens s ∧ Described limits depth tokens s' ∧
    s.advisories = s'.advisories

/-- Two sessions that see the same tokens. -/
abbrev Session.Abreast : Session → Session → Prop := Session.Both Session.At

/-- Two sessions that have just read a token and can put it back. -/
abbrev Session.Read (t : Token) : Session → Session → Prop :=
  Session.Both fun limits depth tokens s => tokens.headD .eof = t ∧ s.Past limits depth tokens

/-- Behind a token that was read the same tokens are seen. -/
theorem Session.Read.abreast {t : Token} {s s' : Session} (h : Session.Read t s s') :
    s.Abreast s' := by
  obtain ⟨limits, depth, tokens, hs, hs', hnotes⟩ := h
  exact ⟨limits, depth, tokens.tail, hs.2.tail, hs'.2.tail, hnotes⟩

namespace Reader

variable {α β : Type}

/-- Two runs give the same, with failures on whatever lines, or one of them runs into a defect. -/
def Concur (Q : α → Session → Session → Prop) :
    EStateM.Result ParseError Session α → EStateM.Result ParseError Session α → Prop
  | .ok a s, .ok b s' => a = b ∧ Q a s s'
  | .ok _ _, .error e _ => e.Defective false
  | .error e _, .ok _ _ => e.Defective false
  | .error e s, .error e' s' =>
    e.Defective false ∨ e'.Defective false ∨ e.unlined = e'.unlined ∧ s.Abreast s'

/-- From related sessions a reader gives the same and leaves related sessions. -/
def Concurs (P : Session → Session → Prop) (r : Reader α) (Q : α → Session → Session → Prop) : Prop :=
  ∀ s s', P s s' → Concur Q (r s) (r s')

/-- The reader depends on the tokens only. -/
abbrev Tokenwise (r : Reader α) : Prop := Concurs Session.Abreast r fun _ => Session.Abreast

section

variable {r : Reader α} {f : α → Reader β} {a : α} {t : Token} {P P' : Session → Session → Prop}
  {Q : α → Session → Session → Prop} {S : β → Session → Session → Prop}

theorem Concurs.pure (h : ∀ s s', P s s' → Q a s s') : Concurs P (pure a) Q :=
  fun s s' hs => ⟨rfl, h s s' hs⟩

theorem Concurs.of_imp (hr : Concurs P r Q) (hP : ∀ s s', P' s s' → P s s') : Concurs P' r Q :=
  fun s s' hs => hr s s' (hP s s' hs)

/-- Two runs that go on after results that concur. -/
theorem Concur.bind {f f' : α → Reader β} {s s' : Session} (hr : Concur Q (r s) (r s'))
    (hf : ∀ a t t', Q a t t' → Concur S (f a t) (f' a t')) :
    Concur S ((r >>= f) s) ((r >>= f') s') := by
  change Concur S (EStateM.bind r f s) (EStateM.bind r f' s')
  unfold EStateM.bind
  cases hleft : r s with
  | ok a t =>
    cases hright : r s' with
    | ok b t' =>
      rw [hleft, hright] at hr
      obtain ⟨rfl, hQ⟩ := hr
      exact hf a t t' hQ
    | error e t' =>
      rw [hleft, hright] at hr
      dsimp only
      cases f a t with
      | ok b u => exact hr
      | error e' u => exact .inr (.inl hr)
  | error e t =>
    cases hright : r s' with
    | ok b t' =>
      rw [hleft, hright] at hr
      dsimp only
      cases f' b t' with
      | ok c u => exact hr
      | error e' u => exact .inl hr
    | error e' t' =>
      rw [hleft, hright] at hr
      exact hr

/-- Two readers one after the other. -/
theorem Concurs.bind (hr : Concurs P r Q) (hf : ∀ a, Concurs (Q a) (f a) S) :
    Concurs P (r >>= f) S :=
  fun s s' hs => (hr s s' hs).bind fun a => hf a

/-- A reader that settles gives the same from two sessions with the same notes. -/
theorem Settles.concur {result : Except ParseError α} {P Q : Session → Prop} {s s' : Session}
    {S : α → Session → Session → Prop} (h : Settles r P result Q) (hs : P s) (hs' : P s')
    (hnotes : s.advisories = s'.advisories)
    (hok : ∀ a t t', Q t → Q t' → t.advisories = t'.advisories → result = .ok a → S a t t')
    (herror : ∀ e t t', Q t → Q t' → t.advisories = t'.advisories → result = .error e →
      t.Abreast t') : Concur S (r s) (r s') := by
  have hleft := h s hs
  have hright := h s' hs'
  generalize r s = left at hleft ⊢
  generalize r s' = right at hright ⊢
  cases left with
  | ok a t =>
    obtain ⟨hresult, hnotes', ht⟩ := hleft
    cases right with
    | ok b t' =>
      obtain ⟨hresult', hnotes'', ht'⟩ := hright
      refine ⟨Except.ok.inj (hresult.symm.trans hresult'), hok a t t' ht ht' ?_ hresult⟩
      rw [hnotes', hnotes'', hnotes]
    | error e t' =>
      refine hright.resolve_right fun h => ?_
      rw [hresult] at h
      exact nomatch h.1
  | error e t =>
    cases right with
    | ok b t' =>
      refine hleft.resolve_right fun h => ?_
      rw [hright.1] at h
      exact nomatch h.1
    | error e' t' =>
      rcases hleft with hdefect | ⟨hresult, hnotes', ht⟩
      · exact .inl hdefect
      · refine .inr (hright.imp id fun ⟨hresult', hnotes'', ht'⟩ => ?_)
        refine ⟨Except.error.inj (hresult.symm.trans hresult'), herror _ t t' ht ht' ?_ hresult⟩
        rw [hnotes', hnotes'', hnotes]

/-- A reader that settles whatever tokens are ahead depends on them only. -/
theorem tokenwise_of_yields (h : ∀ limits depth tokens, (∀ t ∈ tokens, Token.Solid t) →
    ∃ outcome, Yields r (Session.At limits depth tokens) limits depth outcome) : Tokenwise r := by
  rintro s s' ⟨limits, depth, tokens, hs, hs', hnotes⟩
  obtain ⟨outcome, hyields⟩ := h limits depth tokens hs.sees.solid
  exact hyields.concur hs hs' hnotes
    (fun _ t t' ht ht' hnotes _ => ⟨limits, depth, outcome.rest, ht, ht', hnotes⟩)
    fun _ t t' ht ht' hnotes _ => ⟨limits, depth, outcome.rest, ht, ht', hnotes⟩

theorem concurs_advance : Concurs Session.Abreast advance Session.Read := by
  rintro s s' ⟨limits, depth, tokens, hs, hs', hnotes⟩
  refine settles_advance.concur hs hs' hnotes (fun t u u' hu hu' hnotes ht => ?_)
    fun e _ _ _ _ _ he => nomatch he
  have hhead : tokens.headD .eof = t := Except.ok.inj ht
  exact ⟨limits, depth, tokens, ⟨hhead, hu⟩, ⟨hhead, hu'⟩, hnotes⟩

theorem concurs_pushBack : Concurs (Session.Read t) (pushBack t) fun _ => Session.Abreast := by
  rintro s s' ⟨limits, depth, tokens, ⟨rfl, hs⟩, ⟨-, hs'⟩, hnotes⟩
  exact settles_pushBack.concur hs hs' hnotes
    (fun _ u u' hu hu' hnotes _ => ⟨limits, depth, tokens, hu, hu', hnotes⟩)
    fun e _ _ _ _ _ he => nomatch he

/-- Whether the next character is a given one that is no quote. -/
theorem concurs_peek {c : Char} {yes no : Reader β} (hc : c ≠ '"' ∧ c ≠ '\x27')
    (hyes : Concurs (Session.Read t) yes S) (hno : Concurs (Session.Read t) no S) :
    Concurs (Session.Read t) (peek 0 >>= fun found => if found = some c then yes else no) S := by
  rintro s s' ⟨limits, depth, tokens, ⟨ht, hs⟩, ⟨-, hs'⟩, hnotes⟩
  have hlook : ∀ u : Session, u.Past limits depth tokens → ∃ found scanner,
      Grammar.Sighted tokens.tail found ∧
      Session.Past limits depth tokens { u with scanner } ∧
      (peek 0 >>= fun found => if found = some c then yes else no) u =
        (if found = some c then yes else no) { u with scanner } := by
    intro u hu
    obtain ⟨found, scanner, hpeek, hsighted, hfree, hsees⟩ :=
      hu.sees.sighted [] hu.free
    refine ⟨found, scanner, hsighted, ⟨hu.limits_eq, hu.depth_eq, hsees, hfree, hu.solid⟩, ?_⟩
    change EStateM.bind _ _ u = _
    rw [List.length_nil] at hpeek
    simp only [EStateM.bind, peek, scanning, hpeek]
  obtain ⟨found, scanner, hsighted, hu, hrun⟩ := hlook s hs
  obtain ⟨found', scanner', hsighted', hu', hrun'⟩ := hlook s' hs'
  have hread : Session.Read t { s with scanner } { s' with scanner := scanner' } :=
    ⟨limits, depth, tokens, ⟨ht, hu⟩, ⟨ht, hu'⟩, hnotes⟩
  rw [hrun, hrun']
  by_cases hahead : Grammar.ahead tokens.tail = some c
  · rw [if_pos ((hsighted.eq_some_iff hc).2 hahead), if_pos ((hsighted'.eq_some_iff hc).2 hahead)]
    exact hyes _ _ hread
  · rw [if_neg fun h => hahead ((hsighted.eq_some_iff hc).1 h),
      if_neg fun h => hahead ((hsighted'.eq_some_iff hc).1 h)]
    exact hno _ _ hread

theorem concurs_malformed (hP : ∀ s s', P s s' → s.Abreast s') (cause : Malformation) :
    Concurs P (malformed cause) Q :=
  fun s s' hs => .inr (.inr ⟨rfl, hP s s' hs⟩)

theorem concurs_invalidRing (hP : ∀ s s', P s s' → s.Abreast s') (cause : DescriptorFault) :
    Concurs P (invalidRing cause) Q :=
  fun s s' hs => .inr (.inr ⟨rfl, hP s s' hs⟩)

theorem tokenwise_orInvalidRing (result : Except RingFault α) : Tokenwise (orInvalidRing result) := by
  cases result with
  | ok a => exact .pure fun _ _ h => h
  | error fault => exact concurs_invalidRing (fun _ _ h => h) _

theorem tokenwise_advise (note : String) : Tokenwise (advise note) := by
  rintro s s' ⟨limits, depth, tokens, hs, hs', hnotes⟩
  exact ⟨rfl, limits, depth, tokens, ⟨hs.limits_eq, hs.depth_eq, hs.sees⟩,
    ⟨hs'.limits_eq, hs'.depth_eq, hs'.sees⟩, congrArg (· ++ [note]) hnotes⟩

/-- The limits are the same. -/
theorem tokenwise_limits {f : Limits → Reader β} (hf : ∀ limits, Tokenwise (f limits)) :
    Tokenwise (get >>= fun s => f s.limits) := by
  rintro s s' ⟨limits, depth, tokens, hs, hs', hnotes⟩
  have hrun := hf limits s s' ⟨limits, depth, tokens, hs, hs', hnotes⟩
  change Concur _ (f s.limits s) (f s'.limits s')
  rwa [hs.limits_eq, hs'.limits_eq]

/-- A token that was read is put back and something else is given. -/
theorem concurs_unread (a : α) :
    Concurs (Session.Read t) (pushBack t >>= fun _ => Pure.pure a) fun _ => Session.Abreast :=
  concurs_pushBack.bind fun _ => .pure fun _ _ h => h

theorem tokenwise_skipOp (c : Char) : Tokenwise (skipOp c) := by
  apply concurs_advance.bind
  intro t
  split
  · exact concurs_pushBack
  · exact .pure fun _ _ h => h.abreast

theorem tokenwise_nested (hr : Tokenwise r) : Tokenwise (nested r) := by
  have hcheck : Tokenwise (checkDepth 1) := by
    rintro s s' ⟨limits, depth, tokens, hs, hs', hnotes⟩
    change Concur _ ((if s.limits.maxDepth.toNat < s.depth + 1 then
        malformed (.tooDeep s.limits.maxDepth.toNat) else Pure.pure () : Reader Unit) s)
      ((if s'.limits.maxDepth.toNat < s'.depth + 1 then
        malformed (.tooDeep s'.limits.maxDepth.toNat) else Pure.pure () : Reader Unit) s')
    rw [hs.limits_eq, hs.depth_eq, hs'.limits_eq, hs'.depth_eq]
    split
    · exact concurs_malformed (fun _ _ h => h) _ s s' ⟨limits, depth, tokens, hs, hs', hnotes⟩
    · exact ⟨rfl, limits, depth, tokens, hs, hs', hnotes⟩
  refine hcheck.bind fun _ => ?_
  rintro s s' ⟨limits, depth, tokens, hs, hs', hnotes⟩
  have hrun := hr { s with depth := s.depth + 1 } { s' with depth := s'.depth + 1 }
    ⟨limits, depth + 1, tokens, ⟨hs.limits_eq, congrArg (· + 1) hs.depth_eq, hs.sees⟩,
      ⟨hs'.limits_eq, congrArg (· + 1) hs'.depth_eq, hs'.sees⟩, hnotes⟩
  have hclose : ∀ {t t' : Session}, t.Abreast t' →
      Session.Abreast { t with depth := t.depth - 1 } { t' with depth := t'.depth - 1 } := by
    rintro t t' ⟨limits, depth, tokens, ht, ht', hnotes⟩
    exact ⟨limits, depth - 1, tokens, ⟨ht.limits_eq, congrArg (· - 1) ht.depth_eq, ht.sees⟩,
      ⟨ht'.limits_eq, congrArg (· - 1) ht'.depth_eq, ht'.sees⟩, hnotes⟩
  unfold deeper
  generalize r { s with depth := s.depth + 1 } = left at hrun ⊢
  generalize r { s' with depth := s'.depth + 1 } = right at hrun ⊢
  cases left with
  | ok a t =>
    cases right with
    | ok b t' => exact ⟨hrun.1, hclose hrun.2⟩
    | error e t' => exact hrun
  | error e t =>
    cases right with
    | ok b t' => exact hrun
    | error e' t' => exact hrun.imp id (Or.imp id fun h => ⟨h.1, hclose h.2⟩)

/-- Loops whose passes depend on the tokens only do so as well, whatever their bounds are. -/
theorem tokenwise_loop {σ : Type} {step : σ → Reader (σ ⊕ β)} (hstep : ∀ state, Tokenwise (step state))
    (state : σ) : Tokenwise (loop step state) := by
  have hiterate : ∀ fuel fuel' state s s', s.Abreast s' →
      Concur (fun _ => Session.Abreast) (iterate step fuel state s) (iterate step fuel' state s') := by
    intro fuel
    induction fuel with
    | zero =>
      intro fuel' state s s' _
      cases iterate step fuel' state s' with
      | ok b t' => exact trivial
      | error e t' => exact .inl trivial
    | succ fuel ih =>
      intro fuel' state s s' hs
      cases fuel' with
      | zero =>
        cases iterate step (fuel + 1) state s with
        | ok b t => exact trivial
        | error e t => exact .inr (.inl trivial)
      | succ fuel' =>
        refine (hstep state s s' hs).bind fun next t t' ht => ?_
        cases next with
        | inl state' => exact ih fuel' state' t t' ht
        | inr result => exact ⟨rfl, ht⟩
  intro s s' hs
  exact hiterate _ _ state s s' hs

end

/-! ### Declarations -/

theorem tokenwise_variableStep (closer : Char) (names : List Text) :
    Tokenwise (variableStep closer names) := by
  apply concurs_advance.bind
  intro t
  cases t with
  | eof => exact .pure fun _ _ h => h.abreast
  | word w => exact .pure fun _ _ h => h.abreast
  | quoted t => exact .pure fun _ _ h => h.abreast
  | op c => exact .pure fun _ _ h => h.abreast

theorem tokenwise_variableList : Tokenwise variableList := by
  apply concurs_advance.bind
  intro t
  split
  · exact (tokenwise_loop (tokenwise_variableStep _) _).of_imp fun _ _ h => h.abreast
  · split
    · exact (tokenwise_loop (tokenwise_variableStep _) _).of_imp fun _ _ h => h.abreast
    · exact concurs_unread _

theorem tokenwise_weightStep (row : List UInt64) : Tokenwise (weightStep row) := by
  apply concurs_advance.bind
  intro t
  cases t with
  | eof => exact .pure fun _ _ h => h.abreast
  | word w =>
    dsimp only
    split
    · exact .pure fun _ _ h => h.abreast
    · exact concurs_invalidRing (fun _ _ h => h.abreast) _
  | quoted t => exact concurs_invalidRing (fun _ _ h => h.abreast) _
  | op c =>
    dsimp only
    split
    · exact .pure fun _ _ h => h.abreast
    · split
      · exact .pure fun _ _ h => h.abreast
      · exact concurs_invalidRing (fun _ _ h => h.abreast) _

theorem tokenwise_weightRow : Tokenwise weightRow := tokenwise_loop tokenwise_weightStep _

theorem tokenwise_weightList : Tokenwise weightList := by
  apply concurs_advance.bind
  intro t
  split
  · exact tokenwise_weightRow.of_imp fun _ _ h => h.abreast
  · exact concurs_unread _

theorem tokenwise_weightArrayStep (rows : List (List UInt64)) : Tokenwise (weightArrayStep rows) := by
  apply concurs_advance.bind
  intro t
  split
  · exact (tokenwise_weightRow.of_imp fun _ _ h => h.abreast).bind fun _ => .pure fun _ _ h => h
  · split
    · exact .pure fun _ _ h => h.abreast
    · split
      · exact .pure fun _ _ h => h.abreast
      · exact concurs_invalidRing (fun _ _ h => h.abreast) _

theorem tokenwise_weightArray : Tokenwise weightArray := by
  apply concurs_advance.bind
  intro t
  split
  · apply concurs_peek (by decide)
    · exact (tokenwise_loop tokenwise_weightArrayStep _).of_imp fun _ _ h => h.abreast
    · exact (tokenwise_weightRow.of_imp fun _ _ h => h.abreast).bind fun _ => .pure fun _ _ h => h
  · exact concurs_unread _

theorem tokenwise_splitPoint : Tokenwise splitPoint := by
  apply concurs_advance.bind
  intro t
  cases t with
  | word w =>
    dsimp only
    split
    · exact .pure fun _ _ h => h.abreast
    · exact concurs_invalidRing (fun _ _ h => h.abreast) _
  | quoted t => exact concurs_invalidRing (fun _ _ h => h.abreast) _
  | op c => exact concurs_invalidRing (fun _ _ h => h.abreast) _
  | eof => exact concurs_invalidRing (fun _ _ h => h.abreast) _

theorem tokenwise_splitIndex : Tokenwise splitIndex := by
  apply concurs_advance.bind
  intro t
  have hpoint : Concurs (Session.Read t) splitPoint fun _ => Session.Abreast :=
    tokenwise_splitPoint.of_imp fun _ _ h => h.abreast
  split
  · exact hpoint.bind fun i => (tokenwise_skipOp '|').bind fun _ => .pure fun _ _ h => h
  · split
    · apply hpoint.bind
      intro i
      apply concurs_advance.bind
      intro next
      split
      · apply (tokenwise_splitPoint.of_imp fun _ _ h => h.abreast).bind
        intro j
        exact (tokenwise_skipOp ']').bind fun _ => .pure fun _ _ h => h
      · exact concurs_pushBack.bind fun _ => (tokenwise_skipOp ']').bind fun _ => .pure fun _ _ h => h
    · exact concurs_unread _

theorem tokenwise_fitting (nvars : Nat) (order : TermOrder) : Tokenwise (fitting nvars order) := by
  unfold fitting
  split
  · exact concurs_invalidRing (fun _ _ h => h) _
  · exact .pure fun _ _ h => h

theorem tokenwise_termOrder (nvars : Nat) : Tokenwise (termOrder nvars) := by
  apply concurs_advance.bind
  intro t
  cases t with
  | word w =>
    dsimp only
    split
    · exact (tokenwise_weightArray.of_imp fun _ _ h => h.abreast).bind fun _ => tokenwise_fitting _ _
    · split
      · exact (tokenwise_splitIndex.of_imp fun _ _ h => h.abreast).bind fun _ => tokenwise_fitting _ _
      · exact concurs_unread _
  | quoted t => exact concurs_unread _
  | op c => exact concurs_unread _
  | eof => exact concurs_unread _

/-! ### Expressions and coefficient rings -/

theorem tokenwise_exponent : Tokenwise exponent :=
  tokenwise_of_yields fun _ _ _ _ => ⟨_, yields_exponent⟩

section

variable (R : PolyRing α)

theorem tokenwise_expression (closer : Option Char) : Tokenwise (expression R closer) :=
  tokenwise_of_yields fun limits depth _ hsolid =>
    (Grammar.exists_reads R limits depth closer (.start R) hsolid).imp fun _ => yields_expression

theorem tokenwise_polynomial : Tokenwise (polynomial R) :=
  (tokenwise_expression R none).bind fun _ => .pure fun _ _ h => h

theorem tokenwise_definingPolynomial : Tokenwise (definingPolynomial R) := by
  apply concurs_advance.bind
  intro t
  split
  · apply ((tokenwise_nested (tokenwise_expression R none)).of_imp fun _ _ h => h.abreast).bind
    intro result
    dsimp only
    split
    · exact concurs_malformed (fun _ _ h => h) _
    · exact .pure fun _ _ h => h
  · exact concurs_pushBack.bind fun _ =>
      (tokenwise_expression R _).bind fun _ => .pure fun _ _ h => h

end

theorem tokenwise_extensionOver (A : Arithmetic α) (inverse : α → Except RingFault α)
    (vars : List Text) : Tokenwise (extensionOver A inverse vars) := by
  apply (tokenwise_orInvalidRing _).bind
  intro R
  exact (tokenwise_definingPolynomial R).bind fun p => tokenwise_orInvalidRing _

theorem concurs_modulus {t : Token} (u : Token) :
    Concurs (Session.Read t) (modulus u) fun _ => Session.Abreast := by
  unfold modulus
  split
  · split
    · split
      · exact .pure fun _ _ h => h.abreast
      · exact concurs_invalidRing (fun _ _ h => h.abreast) _
    · exact concurs_invalidRing (fun _ _ h => h.abreast) _
  · exact concurs_invalidRing (fun _ _ h => h.abreast) _

theorem tokenwise_modular : Tokenwise modular := by
  apply concurs_advance.bind
  intro t
  have hresidues : ∀ m, Tokenwise (get >>= fun s =>
      orInvalidRing (residues s.limits.wordModulusLimit m)) := fun m =>
    tokenwise_limits (f := fun limits => orInvalidRing (residues limits.wordModulusLimit m))
      fun _ => tokenwise_orInvalidRing _
  split
  · apply (concurs_advance.of_imp fun _ _ h => h.abreast).bind
    intro word
    apply (concurs_modulus word).bind
    intro m
    exact (tokenwise_skipOp ']').bind fun _ => hresidues m
  · exact (concurs_modulus t).bind hresidues

theorem tokenwise_functionVariables : Tokenwise functionVariables := by
  apply tokenwise_variableList.bind
  intro vars
  split
  · exact concurs_invalidRing (fun _ _ h => h) _
  · exact (tokenwise_orInvalidRing _).bind fun _ => .pure fun _ _ h => h

theorem tokenwise_algebraic : Tokenwise algebraic := by
  apply concurs_advance.bind
  intro t
  split
  · exact concurs_invalidRing (fun _ _ h => h.abreast) _
  · apply (concurs_advance.of_imp fun _ _ h => h.abreast).bind
    intro first
    simp only [pure_bind]
    split
    · apply (concurs_modulus first).bind
      intro m
      apply tokenwise_variableList.bind
      intro vars
      split
      · exact concurs_invalidRing (fun _ _ h => h) _
      · apply (tokenwise_orInvalidRing _).bind
        intro base
        apply (tokenwise_extensionOver _ _ vars).bind
        intro E
        exact (tokenwise_skipOp ']').bind fun _ => .pure fun _ _ h => h
    · apply concurs_pushBack.bind
      intro _
      apply tokenwise_variableList.bind
      intro vars
      split
      · exact concurs_invalidRing (fun _ _ h => h) _
      · apply (tokenwise_extensionOver _ _ vars).bind
        intro E
        exact (tokenwise_skipOp ']').bind fun _ => .pure fun _ _ h => h

theorem tokenwise_coefficientRing : Tokenwise coefficientRing := by
  apply concurs_advance.bind
  intro t
  cases t with
  | word w =>
    dsimp only
    split
    · exact .pure fun _ _ h => h.abreast
    · exact .pure fun _ _ h => h.abreast
    · exact .pure fun _ _ h => h.abreast
    · exact .pure fun _ _ h => h.abreast
    · exact ((tokenwise_advise _).of_imp fun _ _ h => h.abreast).bind fun _ => .pure fun _ _ h => h
    · exact ((tokenwise_advise _).of_imp fun _ _ h => h.abreast).bind fun _ => .pure fun _ _ h => h
    · exact tokenwise_modular.of_imp fun _ _ h => h.abreast
    · exact concurs_invalidRing (fun _ _ h => h.abreast) _
    · exact tokenwise_functionVariables.of_imp fun _ _ h => h.abreast
    · exact tokenwise_algebraic.of_imp fun _ _ h => h.abreast
    · exact concurs_unread _
  | quoted t => exact concurs_unread _
  | op c => exact concurs_unread _
  | eof => exact concurs_unread _

/-! ### Lists and sets -/

section

variable (R : PolyRing α)

theorem tokenwise_listStep (list : List (Poly α)) : Tokenwise (listStep R list) :=
  (tokenwise_expression R none).bind fun _ => .pure fun _ _ h => h

theorem tokenwise_polynomialList : Tokenwise (polynomialList R) := by
  apply concurs_advance.bind
  intro t
  split
  · exact concurs_unread _
  · apply concurs_peek (by decide)
    · exact (concurs_advance.of_imp fun _ _ h => h.abreast).bind fun _ => .pure fun _ _ h => h.abreast
    · exact (tokenwise_loop (tokenwise_listStep R) _).of_imp fun _ _ h => h.abreast

theorem tokenwise_moduleStep (rows : List (List (Poly α))) : Tokenwise (moduleStep R rows) := by
  apply concurs_advance.bind
  intro t
  split
  · exact .pure fun _ _ h => h.abreast
  · split
    · exact .pure fun _ _ h => h.abreast
    · split
      · exact concurs_pushBack.bind fun _ =>
          (tokenwise_polynomialList R).bind fun _ => .pure fun _ _ h => h
      · exact concurs_malformed (fun _ _ h => h.abreast) _

theorem tokenwise_moduleList : Tokenwise (moduleList R) := by
  apply concurs_advance.bind
  intro t
  split
  · exact concurs_unread _
  · exact (tokenwise_loop (tokenwise_moduleStep R) _).of_imp fun _ _ h => h.abreast

end

theorem tokenwise_ringHeader : Tokenwise ringHeader := by
  apply tokenwise_coefficientRing.bind
  intro coefficients
  apply tokenwise_variableList.bind
  intro vars
  apply (tokenwise_termOrder _).bind
  intro order
  exact (tokenwise_orInvalidRing _).bind fun _ => .pure fun _ _ h => h

theorem tokenwise_polynomialSet : Tokenwise polynomialSet :=
  tokenwise_ringHeader.bind fun header =>
    (tokenwise_polynomialList header.ring).bind fun _ => .pure fun _ _ h => h

theorem tokenwise_moduleSet : Tokenwise moduleSet :=
  tokenwise_ringHeader.bind fun header =>
    (tokenwise_moduleList header.ring).bind fun _ => .pure fun _ _ h => h

end Reader

/-- Every call depends on the tokens only. -/
theorem Call.tokenwise_reader (call : Call) : call.reader.Tokenwise := by
  cases call with
  | exponent => exact Reader.tokenwise_exponent
  | variableList => exact Reader.tokenwise_variableList
  | weightList => exact Reader.tokenwise_weightList
  | weightArray => exact Reader.tokenwise_weightArray
  | splitIndex => exact Reader.tokenwise_splitIndex
  | termOrder nvars => exact Reader.tokenwise_termOrder nvars
  | coefficientRing => exact Reader.tokenwise_coefficientRing
  | polynomial R => exact Reader.tokenwise_polynomial R
  | polynomialList R => exact Reader.tokenwise_polynomialList R
  | moduleList R => exact Reader.tokenwise_moduleList R
  | polynomialSet => exact Reader.tokenwise_polynomialSet
  | moduleSet => exact Reader.tokenwise_moduleSet

/-! ### Sources with the same tokens -/

/-- No read of a source fails. -/
def Read.Sound (reads : List Read) : Prop := ∀ message, Read.failure message ∉ reads

namespace Scanner

/-- Lines without failures flow. -/
theorem flows_of_lined {buffer : Text} {reads : List Read} (hbuffer : reads = [] ∨ buffer.EndsLine)
    (hlined : Read.Lined reads) (hsound : Read.Sound reads) : Flows buffer reads := by
  induction reads generalizing buffer with
  | nil => trivial
  | cons read rest ih =>
    have hrest : Read.Sound rest := fun message hmem => hsound message (List.mem_cons_of_mem _ hmem)
    cases read with
    | failure message => exact absurd List.mem_cons_self (hsound message)
    | line t => exact ⟨hbuffer.resolve_left (List.cons_ne_nil _ _), ih hlined.2.1 hlined.2.2 hrest⟩

/-- A source without failures has the tokens of its text. -/
theorem sees_ofReads {reads : List Read} (hlined : Read.Lined reads) (hsound : Read.Sound reads) :
    (ofReads reads).Sees (Token.ofText (unread [] reads)) where
  flows := flows_of_lined (.inr (.inl rfl)) hlined hsound
  tokens_eq := rfl
  eof := fun h => nomatch h
  solid := Token.solid_of_mem_ofText

/-- Calls for tokens are answered with the tokens that are seen, and then with the end. -/
theorem Sees.answer_eq {s : Scanner} {tokens : List Token} (h : s.Sees tokens) (n : Nat) :
    (answer Scanner.next n s).1 = .ok (tokens.getD n .eof) := by
  induction n generalizing s tokens with
  | zero =>
    obtain ⟨s', hnext, -⟩ := h.next
    rw [answer, hnext]
    cases tokens <;> rfl
  | succ n ih =>
    obtain ⟨s', hnext, -, hsees⟩ := h.next
    rw [answer, hnext]
    refine (ih hsees).trans ?_
    cases tokens <;> rfl

/-- Scanners that answer alike see the same tokens. -/
theorem Sees.tokens_eq_of_answers {s s' : Scanner} {tokens tokens' : List Token} (h : s.Sees tokens)
    (h' : s'.Sees tokens') (hsame : ∀ n, (answer Scanner.next n s).1 = (answer Scanner.next n s').1) :
    tokens = tokens' := by
  have hget : ∀ n, tokens.getD n .eof = tokens'.getD n .eof := fun n => by
    have heq := hsame n
    rw [h.answer_eq, h'.answer_eq] at heq
    exact Except.ok.inj heq
  -- The end of the source is none of the tokens, so that it shows where they end.
  have hsome : ∀ {u : Scanner} {list : List Token}, u.Sees list → ∀ n,
      list[n]? = if list.getD n .eof = .eof then none else some (list.getD n .eof) := by
    intro u list hu n
    rw [List.getD_eq_getElem?_getD]
    cases hn : list[n]? with
    | none => rfl
    | some t =>
      have hne := (hu.solid t (List.mem_of_getElem? hn)).ne_eof
      simp [hne]
  apply List.ext_getElem?
  intro n
  rw [hsome h, hsome h', hget]

end Scanner

/-- Two runs of a call give the same value, or failures that differ at most in their lines. -/
def Call.SameAnswer {α : Type} :
    EStateM.Result ParseError Session α → EStateM.Result ParseError Session α → Prop
  | .ok a _, .ok b _ => a = b
  | .error e _, .error e' _ => e.unlined = e'.unlined
  | _, _ => False

namespace Session

/-- A call gives the same on two sessions that see the same tokens, and leaves two of them. -/
theorem Abreast.call {s s' : Session} (h : s.Abreast s') (hs : s.Ready) (hs' : s'.Ready)
    (call : Call) : Call.SameAnswer (call.reader s) (call.reader s') ∧
      (s.afterCall call).Abreast (s'.afterCall call) := by
  have hrun := call.tokenwise_reader s s' h
  have hsafe := (hs.call false call fun h => nomatch h).2
  have hsafe' := (hs'.call false call fun h => nomatch h).2
  unfold afterCall
  cases hleft : call.reader s with
  | ok a t =>
    cases hright : call.reader s' with
    | ok b t' =>
      rw [hleft, hright] at hrun
      exact hrun
    | error e t' =>
      rw [hleft, hright] at hrun
      exact absurd hrun (hsafe' e t' hright)
  | error e t =>
    cases hright : call.reader s' with
    | ok b t' =>
      rw [hleft, hright] at hrun
      exact absurd hrun (hsafe e t hleft)
    | error e' t' =>
      rw [hleft, hright] at hrun
      exact (hrun.resolve_left (hsafe e t hleft)).resolve_left (hsafe' e' t' hright)

/-- Calls leave sessions that see the same tokens. -/
theorem Abreast.calls {s s' : Session} (h : s.Abreast s') (hs : s.Ready) (hs' : s'.Ready)
    (calls : List Call) : (s.afterCalls calls).Abreast (s'.afterCalls calls) := by
  induction calls generalizing s s' with
  | nil => exact h
  | cons call rest ih =>
    have hready := (hs.call false call fun h => nomatch h).1
    have hready' := (hs'.call false call fun h => nomatch h).1
    exact ih (h.call hs hs' call).2 hready hready'

end Session

/-- Two sources without failures that scan to the same tokens, under the same limits and after the
same calls: every further call gives the same value or a failure of the same kind with the same
fields, up to the line of the failure itself, and the notes and the limits are the same. -/
theorem calls_depend_on_tokens_only (chunks others : List Chunk) (limits : Limits)
    (hchunks : Read.Sound (Read.ofChunks chunks)) (hothers : Read.Sound (Read.ofChunks others))
    (hsame : ∀ n, (Scanner.answer Scanner.next n (.ofReads (Read.ofChunks chunks))).1 =
      (Scanner.answer Scanner.next n (.ofReads (Read.ofChunks others))).1)
    (calls : List Call) (call : Call) :
    let s := (Session.ofReads (Read.ofChunks chunks) limits).afterCalls calls
    let s' := (Session.ofReads (Read.ofChunks others) limits).afterCalls calls
    Call.SameAnswer (call.reader s) (call.reader s') ∧
      (s.afterCall call).advisories = (s'.afterCall call).advisories ∧
      (s.afterCall call).limits = (s'.afterCall call).limits := by
  intro s s'
  have hready := Session.ready_ofReads (Read.ofChunks chunks) limits
  have hready' := Session.ready_ofReads (Read.ofChunks others) limits
  have hsees := Scanner.sees_ofReads (Read.lined_ofChunks chunks) hchunks
  have hsees' := Scanner.sees_ofReads (Read.lined_ofChunks others) hothers
  have htokens := hsees.tokens_eq_of_answers hsees' hsame
  rw [← htokens] at hsees'
  have hstart : Session.Abreast (Session.ofReads (Read.ofChunks chunks) limits)
      (Session.ofReads (Read.ofChunks others) limits) :=
    ⟨limits, 0, _, ⟨rfl, rfl, hsees⟩, ⟨rfl, rfl, hsees'⟩, rfl⟩
  obtain ⟨hanswer, _, _, _, hs, hs', hnotes⟩ := (hstart.calls hready hready' calls).call
    (hready.calls calls) (hready'.calls calls) call
  exact ⟨hanswer, hnotes, hs.limits_eq.trans hs'.limits_eq.symm⟩

/-- A list of variables and a negative exponent, written on one line and on several: the exponent is
refused on different lines. -/
theorem same_calls_on_respaced_source :
    let chunks : List Chunk := [.text "(x, \"y z\") ^ -1".toList]
    let others : List Chunk := [.text "(x # a comment\n,'y".toList, .interrupt,
      .bytes [32, 122, 39, 41], .text "\n^-1".toList]
    (Read.Sound (Read.ofChunks chunks) ∧ Read.Sound (Read.ofChunks others) ∧
      ∀ n, (Scanner.answer Scanner.next n (.ofReads (Read.ofChunks chunks))).1 =
        (Scanner.answer Scanner.next n (.ofReads (Read.ofChunks others))).1) ∧
      ∃ s s', s = (Session.ofReads (Read.ofChunks chunks)).afterCalls [.variableList] ∧
        s' = (Session.ofReads (Read.ofChunks others)).afterCalls [.variableList] ∧
        Call.SameAnswer (Call.exponent.reader s) (Call.exponent.reader s') ∧
        Call.exponent.reader s =
          .error (.malformed 1 .negativeExponent) ⟨⟨" -1".toList, [], 1, none⟩, {}, 0, []⟩ ∧
        Call.exponent.reader s' =
          .error (.malformed 3 .negativeExponent) ⟨⟨"-1".toList, [], 3, none⟩, {}, 0, []⟩ := by
  intro chunks others
  have hreads : Read.ofChunks chunks = [.line "(x, \"y z\") ^ -1".toList] := by decide +kernel
  have hreads' : Read.ofChunks others =
      [.line "(x # a comment\n".toList, .line ",'y z')\n".toList, .line "^-1".toList] := by
    decide +kernel
  have hsound : Read.Sound (Read.ofChunks chunks) := by
    rw [hreads]
    simp [Read.Sound]
  have hsound' : Read.Sound (Read.ofChunks others) := by
    rw [hreads']
    simp [Read.Sound]
  have htokens : Token.ofText (Scanner.unread [] (Read.ofChunks chunks)) =
      Token.ofText (Scanner.unread [] (Read.ofChunks others)) := by
    rw [hreads, hreads']
    decide +kernel
  have hsame : ∀ n, (Scanner.answer Scanner.next n (.ofReads (Read.ofChunks chunks))).1 =
      (Scanner.answer Scanner.next n (.ofReads (Read.ofChunks others))).1 := by
    intro n
    rw [(Scanner.sees_ofReads (Read.lined_ofChunks chunks) hsound).answer_eq,
      (Scanner.sees_ofReads (Read.lined_ofChunks others) hsound').answer_eq, htokens]
  have hrun : Call.exponent.reader
      ((Session.ofReads (Read.ofChunks chunks)).afterCalls [.variableList]) =
      .error (.malformed 1 .negativeExponent) ⟨⟨" -1".toList, [], 1, none⟩, {}, 0, []⟩ :=
    Reader.eq_error_of_match (by decide +kernel)
  have hrun' : Call.exponent.reader
      ((Session.ofReads (Read.ofChunks others)).afterCalls [.variableList]) =
      .error (.malformed 3 .negativeExponent) ⟨⟨"-1".toList, [], 3, none⟩, {}, 0, []⟩ :=
    Reader.eq_error_of_match (by decide +kernel)
  have hall := calls_depend_on_tokens_only chunks others {} hsound hsound' hsame [.variableList]
    .exponent
  clear_value chunks others
  exact ⟨⟨hsound, hsound', hsame⟩, _, _, rfl, rfl, hall.1, hrun, hrun'⟩

end PolynomialText
