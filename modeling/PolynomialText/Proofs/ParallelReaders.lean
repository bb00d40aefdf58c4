import PolynomialText.Expression

/-!
# Readers side by side

Two readers run on sessions that are alike: at the same place of the same source, below the same
levels, and under the same limit on nesting. The size of machine words may differ. `Reader.Beside`
compares the two runs. They succeed with results that are related, or fail alike; the second one may
also be the only one to fail, if the first result shows what was lost, and from then on the two may
fail differently. Readers that give the same from sessions that are alike are steady.
-/

namespace PolynomialText

/-- Sessions that differ at most in the size of machine words. -/
structure Session.Alike (s s' : Session) : Prop where
  scanner_eq : s.scanner = s'.scanner
  depth_eq : s.depth = s'.depth
  advisories_eq : s.advisories = s'.advisories
  maxDepth_eq : s.limits.maxDepth = s'.limits.maxDepth

theorem Session.Alike.symm {s s' : Session} (h : s.Alike s') : s'.Alike s :=
  ⟨h.scanner_eq.symm, h.depth_eq.symm, h.advisories_eq.symm, h.maxDepth_eq.symm⟩

namespace Reader

variable {α α' β β' : Type}

/-- What two results of readers have to do with each other. -/
def Compares (Ok : α → β → Prop) (Lost : α → Prop) (lossy : Prop) :
    EStateM.Result ParseError Session α → EStateM.Result ParseError Session β → Prop
  | .ok a s, .ok b s' => Ok a b ∧ s.Alike s'
  | .ok a _, .error _ _ => Lost a
  | .error _ _, .ok _ _ => False
  | .error e s, .error e' s' => (e = e' ∧ s.Alike s') ∨ lossy

/-- Two readers from sessions that are alike. -/
def Beside (Ok : α → β → Prop) (Lost : α → Prop) (lossy : Prop) (r : Reader α) (r' : Reader β) :
    Prop :=
  ∀ s s', s.Alike s' → Compares Ok Lost lossy (r s) (r' s')

/-- Two readers that succeed with related results, or fail alike. -/
def Parallel (Ok : α → β → Prop) (r : Reader α) (r' : Reader β) : Prop :=
  Beside Ok (fun _ => False) False r r'

/-- A reader that gives the same from sessions that are alike. -/
def Steady (r : Reader α) : Prop := Parallel (· = ·) r r

section

variable {Ok : α → β → Prop} {Lost : α → Prop} {lossy : Prop} {Rel : α' → β' → Prop}

theorem Beside.pure {a : α} {b : β} (h : Ok a b) : Beside Ok Lost lossy (pure a) (pure b) :=
  fun _ _ hs => ⟨h, hs⟩

theorem beside_throw (e : ParseError) :
    Beside Ok Lost lossy (throw e : Reader α) (throw e : Reader β) :=
  fun _ _ hs => .inl ⟨rfl, hs⟩

/-- The comparison may be weakened. -/
theorem Beside.imp {Ok' : α → β → Prop} {Lost' : α → Prop} {lossy' : Prop} {r : Reader α}
    {r' : Reader β} (h : Beside Ok Lost lossy r r') (hok : ∀ a b, Ok a b → Ok' a b)
    (hlost : ∀ a, Lost a → Lost' a) (hlossy : lossy → lossy') : Beside Ok' Lost' lossy' r r' := by
  intro s s' hs
  have hrun := h s s' hs
  generalize r s = left at hrun ⊢
  generalize r' s' = right at hrun ⊢
  cases left with
  | ok a t =>
    cases right with
    | ok b t' => exact ⟨hok a b hrun.1, hrun.2⟩
    | error e t' => exact hlost a hrun
  | error e t =>
    cases right with
    | ok b t' => exact hrun
    | error e' t' => exact hrun.imp_right hlossy

/-- The two sides may be exchanged. -/
theorem Parallel.symm {r : Reader α} {r' : Reader β} (h : Parallel Ok r r') :
    Parallel (fun b a => Ok a b) r' r := by
  intro s' s hs
  have hrun := h s s' hs.symm
  generalize r s = left at hrun ⊢
  generalize r' s' = right at hrun ⊢
  cases left with
  | ok a t =>
    cases right with
    | ok b t' => exact ⟨hrun.1, hrun.2.symm⟩
    | error e t' => exact hrun
  | error e t =>
    cases right with
    | ok b t' => exact hrun
    | error e' t' => exact hrun.imp_left fun h => ⟨h.1.symm, h.2.symm⟩

/-- Two readers that go on side by side after two that were parallel. -/
theorem Parallel.bind {r : Reader α'} {r' : Reader β'} {f : α' → Reader α} {f' : β' → Reader β}
    (hr : Parallel Rel r r') (hf : ∀ a b, Rel a b → Beside Ok Lost lossy (f a) (f' b)) :
    Beside Ok Lost lossy (r >>= f) (r' >>= f') := by
  intro s s' hs
  have hrun := hr s s' hs
  change Compares Ok Lost lossy (EStateM.bind r f s) (EStateM.bind r' f' s')
  unfold EStateM.bind
  generalize r s = left at hrun ⊢
  generalize r' s' = right at hrun ⊢
  cases left with
  | ok a t =>
    cases right with
    | ok b t' => exact hf a b hrun.1 t t' hrun.2
    | error e t' => exact absurd hrun id
  | error e t =>
    cases right with
    | ok b t' => exact absurd hrun id
    | error e' t' => exact hrun.imp_right False.elim

/-- A level is opened and closed on both sides. -/
theorem Beside.deeper {r : Reader α} {r' : Reader β} (h : Beside Ok Lost lossy r r') :
    Beside Ok Lost lossy (deeper r) (deeper r') := by
  intro s s' hs
  have hrun := h { s with depth := s.depth + 1 } { s' with depth := s'.depth + 1 }
    ⟨hs.scanner_eq, congrArg (· + 1) hs.depth_eq, hs.advisories_eq, hs.maxDepth_eq⟩
  have hclose : ∀ {t t' : Session}, t.Alike t' →
      Session.Alike { t with depth := t.depth - 1 } { t' with depth := t'.depth - 1 } := fun ht =>
    ⟨ht.scanner_eq, congrArg (· - 1) ht.depth_eq, ht.advisories_eq, ht.maxDepth_eq⟩
  unfold Reader.deeper
  generalize r { s with depth := s.depth + 1 } = left at hrun ⊢
  generalize r' { s' with depth := s'.depth + 1 } = right at hrun ⊢
  cases left with
  | ok a t =>
    cases right with
    | ok b t' => exact ⟨hrun.1, hclose hrun.2⟩
    | error e t' => exact hrun
  | error e t =>
    cases right with
    | ok b t' => exact hrun
    | error e' t' => exact hrun.imp_left fun h => ⟨h.1, hclose h.2⟩

/-- A steady reader on both sides, and readers that go on side by side. -/
theorem Steady.bind {r : Reader α'} {f : α' → Reader α} {f' : α' → Reader β} (hr : Steady r)
    (hf : ∀ a, Beside Ok Lost lossy (f a) (f' a)) :
    Beside Ok Lost lossy (r >>= f) (r >>= f') := by
  apply Parallel.bind hr
  rintro a _ rfl
  exact hf a

end

/-! ### Steady readers -/

section

/-- What the scanner does hangs on nothing but the scanner. -/
theorem steady_scanning (step : EStateM ParseError Scanner α) : Steady (scanning step) := by
  intro s s' hs
  unfold scanning
  rw [← hs.scanner_eq]
  cases step s.scanner with
  | ok a scanner => exact ⟨rfl, rfl, hs.depth_eq, hs.advisories_eq, hs.maxDepth_eq⟩
  | error e scanner => exact .inl ⟨rfl, rfl, hs.depth_eq, hs.advisories_eq, hs.maxDepth_eq⟩

theorem steady_advance : Steady advance := steady_scanning _

theorem steady_pushBack (t : Token) : Steady (pushBack t) := steady_scanning _

theorem steady_peek (n : Nat) : Steady (peek n) := steady_scanning _

theorem steady_digitAhead (n : Nat) : Steady (digitAhead n) :=
  (steady_peek n).bind fun _ => .pure rfl

theorem steady_line : Steady line :=
  fun _ _ hs => ⟨congrArg Scanner.line hs.scanner_eq, hs⟩

theorem steady_passes : Steady passes :=
  fun _ _ hs => ⟨congrArg (Scanner.remaining · + 1) hs.scanner_eq, hs⟩

theorem steady_advise (note : String) : Steady (advise note) :=
  fun _ _ hs => ⟨rfl, hs.scanner_eq, hs.depth_eq, congrArg (· ++ [note]) hs.advisories_eq,
    hs.maxDepth_eq⟩

/-- The state is alike on both sides. -/
theorem parallel_get : Parallel Session.Alike get get := fun _ _ hs => ⟨hs, hs⟩

variable {Ok : α → β → Prop} {Lost : α → Prop} {lossy : Prop}

theorem beside_malformed (cause : Malformation) :
    Beside Ok Lost lossy (malformed cause : Reader α) (malformed cause : Reader β) :=
  steady_line.bind fun _ => beside_throw _

theorem beside_invalidRing (cause : DescriptorFault) :
    Beside Ok Lost lossy (invalidRing cause : Reader α) (invalidRing cause : Reader β) :=
  steady_line.bind fun _ => beside_throw _

theorem beside_exhausted : Beside Ok Lost lossy (exhausted : Reader α) (exhausted : Reader β) :=
  steady_line.bind fun _ => beside_throw _

theorem beside_literalFailure (t : Text) (fault : LiteralFault) :
    Beside Ok Lost lossy (literalFailure t fault : Reader α) (literalFailure t fault : Reader β) := by
  unfold literalFailure
  split
  · exact beside_malformed _
  · exact steady_line.bind fun _ => beside_throw _

theorem steady_orInvalidRing (result : Except RingFault α) : Steady (orInvalidRing result) := by
  cases result with
  | ok a => exact .pure rfl
  | error fault => exact beside_invalidRing _

theorem steady_checkDepth (extra : Nat) : Steady (checkDepth extra) := by
  apply parallel_get.bind
  intro s s' hs
  rw [hs.maxDepth_eq, hs.depth_eq]
  split
  · exact beside_malformed _
  · exact .pure rfl

theorem Beside.nested {r : Reader α} {r' : Reader β} (h : Beside Ok Lost lossy r r') :
    Beside Ok Lost lossy (nested r) (nested r') :=
  (steady_checkDepth 1).bind fun _ => h.deeper

theorem steady_skipOp (c : Char) : Steady (skipOp c) := by
  apply steady_advance.bind
  intro t
  split
  · exact steady_pushBack t
  · exact .pure rfl

end

/-! ### Loops -/

section

variable {σ σ' : Type} {step : σ → Reader (σ ⊕ α)} {step' : σ' → Reader (σ' ⊕ β)}
  {I : σ → σ' → Prop} {Rel : α → β → Prop}

/-- Loops whose passes are parallel are parallel. -/
theorem parallel_iterate
    (hstep : ∀ state state', I state state' →
      Parallel (Sum.LiftRel I Rel) (step state) (step' state')) (fuel : Nat) {state : σ}
    {state' : σ'} (h : I state state') :
    Parallel Rel (iterate step fuel state) (iterate step' fuel state') := by
  induction fuel generalizing state state' with
  | zero => exact beside_exhausted
  | succ fuel ih =>
    apply (hstep state state' h).bind
    intro next next' hnext
    cases hnext with
    | inl hgo => exact ih hgo
    | inr hend => exact .pure hend

theorem parallel_loop
    (hstep : ∀ state state', I state state' →
      Parallel (Sum.LiftRel I Rel) (step state) (step' state')) {state : σ} {state' : σ'}
    (h : I state state') : Parallel Rel (loop step state) (loop step' state') :=
  steady_passes.bind fun fuel => parallel_iterate hstep fuel h

/-- A loop with steady passes is steady. -/
theorem steady_loop (hstep : ∀ state, Steady (step state)) (state : σ) :
    Steady (loop step state) := by
  refine parallel_loop (I := (· = ·)) (fun state state' h => ?_) rfl
  subst h
  refine (hstep state).imp ?_ (fun _ h => h) id
  rintro next _ rfl
  cases next with
  | inl state => exact .inl rfl
  | inr result => exact .inr rfl

end

/-! ### Exponents and braces -/

theorem steady_noExponent (t : Token) : Steady (noExponent t) :=
  (steady_pushBack t).bind fun _ => .pure rfl

theorem steady_exponentWord : Steady exponentWord := by
  apply steady_advance.bind
  intro t
  cases t with
  | word w =>
    dsimp only
    split
    · exact beside_malformed _
    · split
      · exact .pure rfl
      · split
        · exact (steady_pushBack _).bind fun _ => .pure rfl
        · exact beside_malformed _
  | quoted t => exact beside_malformed _
  | op c => exact beside_malformed _
  | eof => exact beside_malformed _

theorem steady_exponentAfter (mark : Token) (ahead : Nat) : Steady (exponentAfter mark ahead) := by
  apply (steady_peek ahead).bind
  intro found
  cases found with
  | none => exact steady_noExponent mark
  | some c =>
    dsimp only
    split
    · split
      · exact steady_advance.bind fun _ => steady_exponentWord
      · exact steady_exponentWord
    · split
      · exact beside_malformed _
      · split
        · apply (steady_digitAhead (ahead + 1)).bind
          intro digit
          cases digit with
          | true => exact beside_malformed _
          | false => exact steady_noExponent mark
        · split
          · exact beside_malformed _
          · exact steady_noExponent mark

theorem steady_exponent : Steady exponent := by
  apply steady_advance.bind
  intro t
  split
  · exact steady_exponentAfter t 0
  · split
    · apply (steady_peek 0).bind
      intro found
      split
      · exact steady_exponentAfter t 1
      · exact steady_noExponent t
    · exact steady_noExponent t

theorem steady_bracesStep (b : Braces) : Steady (bracesStep b) := by
  apply steady_advance.bind
  intro t
  cases t with
  | eof => exact beside_malformed _
  | word w => exact .pure rfl
  | quoted t => exact .pure rfl
  | op c =>
    dsimp only
    split
    · split
      · exact .pure rfl
      · exact .pure rfl
    · split
      · exact (steady_checkDepth _).bind fun _ => .pure rfl
      · exact .pure rfl

theorem steady_bracesText : Steady bracesText := steady_loop steady_bracesStep _

end Reader

end PolynomialText
