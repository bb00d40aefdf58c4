import PolynomialText.Proofs.NestingExpressions
import PolynomialText.Proofs.SafeSessions
import PolynomialText.Proofs.Spelling

/-!
# The limit on nesting

Calls that stay within a limit on nesting give the same under every higher limit, whatever is read.
The limit is exact: `Reader.Needs` says how many levels a factor needs, so that it is read where these
levels are left below the limit, and otherwise the reader fails because it passes the limit. Each pair
of parentheses needs one level more than what stands in it. So do the braces of a literal, and what
the literal needs as an expression of its own is counted on.
-/

namespace PolynomialText

/-! ### Calls under two limits -/

/-- What a reader gave, with the session after it under another limit on nesting. -/
def Reader.raised {α : Type} (d : UInt64) :
    EStateM.Result ParseError Session α → EStateM.Result ParseError Session α
  | .ok a s => .ok a (s.raise d)
  | .error e s => .error e (s.raise d)

/-- The ring of a call, if it is given from outside, endures a higher limit on nesting. -/
def Call.Enduring : Call → Prop
  | polynomial R | polynomialList R | moduleList R => R.coefficients.Enduring
  | _ => True

/-- Every call endures a higher limit on nesting. -/
theorem Call.endures_reader (call : Call) (h : call.Enduring) :
    Reader.Endures false call.reader fun _ => True := by
  cases call with
  | exponent => exact Reader.endures_exponent
  | variableList => exact Reader.endures_variableList
  | weightList => exact Reader.endures_weightList
  | weightArray => exact Reader.endures_weightArray
  | splitIndex => exact Reader.endures_splitIndex
  | termOrder nvars => exact Reader.endures_termOrder nvars
  | coefficientRing => exact Reader.endures_coefficientRing
  | polynomial R => exact Reader.endures_polynomial h
  | polynomialList R => exact Reader.endures_polynomialList h
  | moduleList R => exact Reader.endures_moduleList h
  | polynomialSet => exact Reader.endures_polynomialSet
  | moduleSet => exact Reader.endures_moduleSet

namespace Session

/-- None of the calls, each made on what the one before has left, fails because the limit on nesting
is passed. -/
def StaysWithin (s : Session) : List Call → Prop
  | [] => True
  | call :: rest =>
    (∀ e t, call.reader s = .error e t → ¬ e.TooDeep s.limits.maxDepth) ∧
      (s.afterCall call).StaysWithin rest

section

variable {s : Session} {d : UInt64} (hs : s.scanner.Flat false) (hd : s.limits.maxDepth ≤ d)
include hs hd

/-- A call that stays within the limit gives the same under a higher one. -/
theorem reader_raise {call : Call} (hcall : call.Enduring)
    (h : ∀ e t, call.reader s = .error e t → ¬ e.TooDeep s.limits.maxDepth) :
    call.reader (s.raise d) = Reader.raised d (call.reader s) := by
  have hruns := call.endures_reader hcall s d hs hd
  cases hresult : call.reader s with
  | ok a t =>
    rw [hresult] at hruns
    exact hruns.1
  | error e t =>
    rw [hresult] at hruns
    exact hruns.1.resolve_right fun hdeep => h e t hresult hdeep.2

/-- What a call leaves keeps to the same limits, and a word that is held is flat. -/
theorem flat_afterCall {call : Call} (hcall : call.Enduring) :
    (s.afterCall call).scanner.Flat false ∧ (s.afterCall call).limits = s.limits := by
  have hruns := call.endures_reader hcall s d hs hd
  unfold afterCall
  cases hresult : call.reader s with
  | ok a t =>
    rw [hresult] at hruns
    exact ⟨hruns.2.2.1, hruns.2.1⟩
  | error e t =>
    rw [hresult] at hruns
    exact ⟨hruns.2.2, hruns.2.1⟩

/-- The last of some calls that stay within the limit gives the same under a higher one, where it is
made on what the same calls have left. -/
theorem reader_afterCalls_raise {calls : List Call} {call : Call}
    (hcalls : ∀ c ∈ calls ++ [call], c.Enduring) (h : s.StaysWithin (calls ++ [call])) :
    call.reader ((s.raise d).afterCalls calls) =
      Reader.raised d (call.reader (s.afterCalls calls)) := by
  induction calls generalizing s with
  | nil => exact reader_raise hs hd (hcalls call List.mem_cons_self) h.1
  | cons first rest ih =>
    have hfirst := hcalls first List.mem_cons_self
    obtain ⟨hflat, hlimits⟩ := flat_afterCall hs hd hfirst
    have hafter : (s.raise d).afterCall first = (s.afterCall first).raise d := by
      unfold afterCall
      rw [reader_raise hs hd hfirst h.1]
      cases first.reader s <;> rfl
    change call.reader (((s.raise d).afterCall first).afterCalls rest) = _
    rw [hafter]
    exact ih hflat (hlimits ▸ hd) (fun c hc => hcalls c (List.mem_cons_of_mem _ hc)) h.2

end

end Session

/-! ### Readers that pass the limit -/

namespace Reader

section

variable {α β : Type} {r : Reader α} {f : α → Reader β} {a : α} {P Q : Session → Prop}
  {limit : UInt64}

/-- From every session with the property the reader fails because it passes the limit on nesting. -/
def Exceeds (r : Reader α) (P : Session → Prop) (limit : UInt64) : Prop :=
  ∀ s, P s → ∃ e t, r s = .error e t ∧ e.TooDeep limit

/-- Nothing goes on behind the failure. -/
theorem Exceeds.bind (h : Exceeds r P limit) (f : α → Reader β) : Exceeds (r >>= f) P limit := by
  intro s hs
  obtain ⟨e, t, hrun, hdeep⟩ := h s hs
  refine ⟨e, t, ?_, hdeep⟩
  change EStateM.bind r f s = _
  rw [EStateM.bind, hrun]

/-- The failure comes after a reader that succeeds. -/
theorem Takes.exceeds (hr : Takes r P a Q) (hf : Exceeds (f a) Q limit) :
    Exceeds (r >>= f) P limit := by
  intro s hs
  obtain ⟨s', hrun, hs'⟩ := hr s hs
  obtain ⟨e, t, hfail, hdeep⟩ := hf s' hs'
  refine ⟨e, t, ?_, hdeep⟩
  change EStateM.bind r f s = _
  rw [EStateM.bind, hrun]
  exact hfail

theorem Exceeds.of_imp (h : Exceeds r P limit) (himp : ∀ s, Q s → P s) : Exceeds r Q limit :=
  fun s hs => h s (himp s hs)

end

section

variable {α : Type} {r : Reader α} {limits : Limits} {depth : Nat} {tokens : List Token}

/-- Further levels beyond the limit do not pass the check. -/
theorem exceeds_checkDepth {extra : Nat} (h : limits.maxDepth.toNat < depth + extra) :
    Exceeds (checkDepth extra) (Session.At limits depth tokens) limits.maxDepth := by
  intro s hs
  have hlimit : s.limits.maxDepth.toNat < s.depth + extra := by
    rw [hs.limits_eq, hs.depth_eq]
    exact h
  refine ⟨.malformed s.scanner.line (.tooDeep s.limits.maxDepth.toNat), s, ?_, s.scanner.line, ?_⟩
  · change (if s.limits.maxDepth.toNat < s.depth + extra then
      malformed (.tooDeep s.limits.maxDepth.toNat) else pure () : Reader Unit) s = _
    rw [if_pos hlimit]
    rfl
  · rw [hs.limits_eq]

/-- The limit is passed where a level is opened, or below it. -/
theorem exceeds_nested (hr : depth + 1 ≤ limits.maxDepth.toNat →
      Exceeds r (Session.At limits (depth + 1) tokens) limits.maxDepth) :
    Exceeds (nested r) (Session.At limits depth tokens) limits.maxDepth := by
  by_cases hdepth : depth + 1 ≤ limits.maxDepth.toNat
  · apply (takes_checkDepth hdepth).exceeds
    intro s hs
    obtain ⟨e, t, hrun, hdeep⟩ := hr hdepth { s with depth := s.depth + 1 }
      ⟨hs.limits_eq, congrArg (· + 1) hs.depth_eq, hs.sees⟩
    refine ⟨e, { t with depth := t.depth - 1 }, ?_, hdeep⟩
    rw [deeper, hrun]
  · exact (exceeds_checkDepth (Nat.not_le.1 hdepth)).bind _

/-- A literal that passes the limit fails for that reason. -/
theorem exceeds_literal {R : PolyRing α} {t : Text} {extra : Nat} {e : ParseError}
    (hdeep : e.TooDeep limits.maxDepth)
    (h : R.coefficients.readWithin limits (depth + extra) t = .error (.expression e)) :
    Exceeds (literal R t extra) (Session.At limits depth tokens) limits.maxDepth := by
  obtain ⟨line, rfl⟩ := hdeep
  intro s hs
  rw [← hs.limits_eq, ← hs.depth_eq] at h
  exact ⟨_, s, literal_of_error h, s.scanner.line, by rw [← hs.limits_eq]⟩

end

/-! ### The levels that a factor needs -/

section

variable {α : Type} (R : PolyRing α) (limits : Limits)

/-- The tokens are read as a factor: in front of tokens that start no exponent, the expression goes on
behind them. -/
def Multiplies (depth : Nat) (tokens : List Token) : Prop :=
  ∀ acc rest, Unraised rest → ∃ acc', ∀ out Q, Completes R limits depth acc' rest out Q →
    Completes R limits depth acc (tokens ++ rest) out Q

/-- The tokens pass the limit, whatever follows them. -/
def Overflows (depth : Nat) (tokens : List Token) : Prop :=
  ∀ acc rest fuel, (tokens ++ rest).length < fuel →
    Exceeds (expressionFrom R fuel none acc) (Session.At limits depth (tokens ++ rest))
      limits.maxDepth

/-- The tokens are a factor that needs a number of levels. -/
structure Needs (levels : Nat) (tokens : List Token) : Prop where
  multiplies : ∀ depth, depth + levels ≤ limits.maxDepth.toNat → Multiplies R limits depth tokens
  overflows : ∀ depth, depth ≤ limits.maxDepth.toNat → limits.maxDepth.toNat < depth + levels →
    Overflows R limits depth tokens

end

end Reader

/-- The text is a literal that needs a number of levels. -/
structure Arithmetic.Needs {α : Type} (A : Arithmetic α) (limits : Limits) (levels : Nat) (t : Text) :
    Prop where
  reads : ∀ depth, depth + levels ≤ limits.maxDepth.toNat →
    ∃ c, A.readWithin limits depth t = .ok c
  refuses : ∀ depth, depth ≤ limits.maxDepth.toNat → limits.maxDepth.toNat < depth + levels →
    ∃ e : ParseError, e.TooDeep limits.maxDepth ∧
      A.readWithin limits depth t = .error (.expression e)

namespace Reader

section

variable {α : Type} {R : PolyRing α} {limits : Limits} {levels : Nat}

/-- Behind a factor without an exponent nothing is read. -/
theorem takes_exponent_nothing {depth : Nat} {rest : List Token} (h : Unraised rest) :
    Takes exponent (Session.At limits depth ([] ++ rest)) 1 (Session.At limits depth rest) :=
  takes_exponent_none h

/-- A variable needs no level. -/
theorem needs_variable {v : Text} (hname : v.IsName) (hmem : v ∈ R.vars) :
    Needs R limits 0 [.word v] where
  multiplies := by
    intro depth _ acc rest hrest
    obtain ⟨index, hindex⟩ : ∃ index, R.varIndex? v = some index := by
      rw [← Option.isSome_iff_exists, PolyRing.varIndex?, List.findIdx?_isSome]
      simpa using hmem
    refine ⟨(acc.multiply R (.variable index) 1).settle R rest, fun out Q h => ?_⟩
    exact h.variable (takes_exponent_nothing hrest) hname.2 hindex
  overflows := by
    intro depth hdepth hlevels
    omega

/-- Parentheses need one level more than the factor in them. -/
theorem Needs.parentheses {tokens : List Token} (h : Needs R limits levels tokens) :
    Needs R limits (levels + 1) (.op '(' :: (tokens ++ [.op ')'])) where
  multiplies := by
    intro depth hdepth acc rest hrest
    have hclose : Unraised (.op ')' :: rest) := unraised_of_headD_ne (by simp) (by simp)
    obtain ⟨inner, hinner⟩ := h.multiplies (depth + 1) (by omega) (.start R) _ hclose
    refine ⟨(acc.multiply R (.polynomial (inner.total R)) 1).settle R rest, fun out Q hout => ?_⟩
    have hread := Completes.parentheses (takes_exponent_nothing hrest) (by omega)
      (hinner _ _ completes_close) hout
    simpa using hread
  overflows := by
    intro depth hdepth hlevels acc rest fuel hfuel
    obtain ⟨spare, rfl⟩ := Nat.exists_eq_add_of_lt hfuel
    simp only [List.cons_append, List.append_assoc, List.nil_append]
    apply takes_advance.exceeds
    refine Exceeds.of_imp (P := Session.At limits depth (tokens ++ .op ')' :: rest)) ?_
      fun s hs => hs.tail
    apply Exceeds.bind
    apply exceeds_nested
    intro hopen
    apply h.overflows (depth + 1) hopen (by omega)
    simp only [List.length_append, List.length_cons] at hfuel ⊢
    omega

/-- Braces need one level more than the literal in them. -/
theorem needs_braces {literal : List Token} (hliteral : ∀ t ∈ literal, InLiteral t)
    (h : R.coefficients.Needs limits levels (rebuilt literal)) :
    Needs R limits (levels + 1) (.op '\x7b' :: (literal ++ [.op '\x7d'])) where
  multiplies := by
    intro depth hdepth acc rest hrest
    obtain ⟨c, hc⟩ := h.reads (depth + 1) (by omega)
    refine ⟨(acc.multiply R (.coefficient c) 1).settle R rest, fun out Q hout => ?_⟩
    have hread := Completes.braces (takes_exponent_nothing hrest) hliteral (by omega) hc hout
    simpa using hread
  overflows := by
    intro depth hdepth hlevels acc rest fuel hfuel
    obtain ⟨spare, rfl⟩ := Nat.exists_eq_add_of_lt hfuel
    simp only [List.cons_append, List.append_assoc, List.nil_append]
    apply takes_advance.exceeds
    refine Exceeds.of_imp (P := Session.At limits depth (literal ++ .op '\x7d' :: rest)) ?_
      fun s hs => hs.tail
    -- The brace itself is too deep, or the literal is, which is only known when it is read.
    by_cases hopen : depth + 1 ≤ limits.maxDepth.toNat
    · obtain ⟨e, hdeep, hrefused⟩ := h.refuses (depth + 1) hopen (by omega)
      apply (takes_nested hopen (takes_bracesText hliteral)).exceeds
      exact (exceeds_literal hdeep hrefused).bind _
    · apply Exceeds.bind
      exact exceeds_nested fun h => absurd h hopen

/-- A factor is read as a polynomial where the levels that it needs are left. -/
theorem Needs.takes_polynomial {tokens : List Token} (h : Needs R limits levels tokens) (depth : Nat)
    (hdepth : depth + levels ≤ limits.maxDepth.toNat) :
    ∃ p, Takes (polynomial R) (Session.At limits depth tokens) p (Session.At limits depth []) := by
  have hnone : Unraised [] := unraised_of_headD_ne (by simp) (by simp)
  obtain ⟨acc, hacc⟩ := h.multiplies depth hdepth (.start R) [] hnone
  have hread := hacc _ _ completes_eof
  rw [List.append_nil] at hread
  exact ⟨_, hread.takes_expression.bind (Takes.pure _ _)⟩

/-- A factor passes the limit where the levels that it needs are not left. -/
theorem Needs.exceeds_polynomial {tokens : List Token} (h : Needs R limits levels tokens)
    (depth : Nat) (hdepth : depth ≤ limits.maxDepth.toNat)
    (hlevels : limits.maxDepth.toNat < depth + levels) :
    Exceeds (polynomial R) (Session.At limits depth tokens) limits.maxDepth := by
  have hexpression : Exceeds (expression R none) (Session.At limits depth tokens)
      limits.maxDepth := by
    intro s hs
    have hfuel := hs.sees.length_le_remaining
    have hfails := h.overflows depth hdepth hlevels (.start R) [] (s.scanner.remaining + 1)
    rw [List.append_nil] at hfails
    exact hfails (by omega) s hs
  exact hexpression.bind _

/-- A text that is a factor is read exactly if the levels that it needs are within the limit, and
otherwise passes the limit. -/
theorem Needs.polynomial_iff {tokens : List Token} (h : Needs R limits levels tokens) {t : Text}
    (ht : Token.Spells t tokens) :
    ((∃ p s, polynomial R (.ofText t limits) = .ok p s) ↔ levels ≤ limits.maxDepth.toNat) ∧
      (limits.maxDepth.toNat < levels → ∃ e s, polynomial R (.ofText t limits) = .error e s ∧
        e.TooDeep limits.maxDepth) := by
  have hstart : (Session.ofText t limits 0).At limits 0 tokens := by
    rw [← ht.ofText_eq]
    exact Session.at_ofText t limits 0
  have hfails : limits.maxDepth.toNat < levels → ∃ e s,
      polynomial R (.ofText t limits) = .error e s ∧ e.TooDeep limits.maxDepth := by
    intro hlevels
    exact h.exceeds_polynomial 0 (Nat.zero_le _) (by omega) _ hstart
  refine ⟨⟨?_, fun hlevels => ?_⟩, hfails⟩
  · rintro ⟨p, s, hread⟩
    by_contra hlevels
    obtain ⟨e, s', hfail, -⟩ := hfails (Nat.not_le.1 hlevels)
    rw [hread] at hfail
    contradiction
  · obtain ⟨p, htakes⟩ := h.takes_polynomial 0 (by omega)
    obtain ⟨s, hread, -⟩ := htakes _ hstart
    exact ⟨p, s, hread⟩

end

end Reader

/-! ### Literals that are expressions -/

section

variable {α : Type} {limits : Limits} {levels : Nat} {t : Text} {tokens : List Token}

/-- A polynomial needs as many levels as a literal. -/
theorem Reader.Needs.arithmetic {R : PolyRing α} (h : Needs R limits levels tokens)
    (ht : Token.Spells t tokens) : R.arithmetic.Needs limits levels t where
  reads := by
    intro depth hdepth
    obtain ⟨p, htakes⟩ := h.takes_polynomial depth hdepth
    obtain ⟨s, hread, -⟩ := htakes _ (ht.ofText_eq ▸ Session.at_ofText t limits depth)
    refine ⟨p, ?_⟩
    change (polynomialOf R limits depth t).mapError _ = _
    rw [polynomialOf, hread]
    rfl
  refuses := by
    intro depth hdepth hlevels
    obtain ⟨e, s, hfail, hdeep⟩ := h.exceeds_polynomial depth hdepth hlevels _
      (ht.ofText_eq ▸ Session.at_ofText t limits depth)
    refine ⟨e, hdeep, ?_⟩
    change (polynomialOf R limits depth t).mapError _ = _
    rw [polynomialOf, hfail]
    rfl

/-- So does the residue of a polynomial. -/
theorem Reader.Needs.residues {A : Arithmetic α} {E : Extension α}
    (h : Needs (E.ring A) limits levels tokens) (ht : Token.Spells t tokens) :
    (E.arithmetic A).Needs limits levels t where
  reads := by
    intro depth hdepth
    obtain ⟨p, hread⟩ := (h.arithmetic ht).reads depth hdepth
    exact ⟨E.reduce A p, congrArg (Except.map (E.reduce A)) hread⟩
  refuses := by
    intro depth hdepth hlevels
    obtain ⟨e, hdeep, hrefused⟩ := (h.arithmetic ht).refuses depth hdepth hlevels
    exact ⟨e, hdeep, congrArg (Except.map (E.reduce A)) hrefused⟩

end

/-! ### Runs of parentheses -/

/-- A list behind a run of one element and in front of a run of another one of the same length. -/
def between {β : Type} (opener closer : β) (k : Nat) (inner : List β) : List β :=
  List.replicate k opener ++ inner ++ List.replicate k closer

theorem between_succ {β : Type} (opener closer : β) (k : Nat) (inner : List β) :
    between opener closer (k + 1) inner = opener :: (between opener closer k inner ++ [closer]) := by
  simp [between, List.replicate_succ, ← List.replicate_succ']

theorem Token.Spells.between {t : Text} {tokens : List Token} (h : Spells t tokens) (k : Nat) :
    Spells (between '(' ')' k t) (between (.op '(') (.op ')') k tokens) := by
  induction k with
  | zero => simpa [PolynomialText.between] using h
  | succ k ih =>
    rw [between_succ, between_succ]
    exact ih.enclosed '(' ')'

/-- Each pair of parentheses needs a level. -/
theorem Reader.Needs.between {α : Type} {R : PolyRing α} {limits : Limits} {levels : Nat}
    {tokens : List Token} (h : Needs R limits levels tokens) (k : Nat) :
    Needs R limits (k + levels) (between (.op '(') (.op ')') k tokens) := by
  induction k with
  | zero => simpa [PolynomialText.between] using h
  | succ k ih =>
    rw [between_succ, Nat.add_right_comm]
    exact ih.parentheses

/-- The names that stand for elements of a ring whose literals are expressions. -/
def CoefficientRing.generators : CoefficientRing → List Text
  | function vars => vars
  | algebraicRational E => [E.generator]
  | algebraicModular _ E => [E.generator]
  | _ => []

/-- A generator in parentheses is a literal that needs a level for each pair of them. -/
theorem CoefficientRing.needs_generator {r : CoefficientRing} {a : Text} (ha : a ∈ r.generators)
    (hname : a.IsName) (limits : Limits) (i : Nat) :
    r.arithmetic.Needs limits i (between '(' ')' i a) := by
  have hspells := (Token.spells_word hname.1).between i
  cases r with
  | function vars => exact ((Reader.needs_variable hname ha).between i).arithmetic hspells
  | algebraicRational E => exact ((Reader.needs_variable hname ha).between i).residues hspells
  | algebraicModular m E => exact ((Reader.needs_variable hname ha).between i).residues hspells
  | _ => exact absurd ha List.not_mem_nil

/-- A name in parentheses can stand in braces. -/
theorem isLiteralChar_of_mem_between {a : Text} (hname : a.IsName) (i : Nat) :
    ∀ c ∈ between '(' ')' i a, IsLiteralChar c := by
  intro c hc
  simp only [between, List.mem_append, List.mem_replicate] at hc
  rcases hc with (⟨-, rfl⟩ | hword) | ⟨-, rfl⟩
  · decide
  · have hchar := hname.1.2 c hword
    have hne : ∀ d, isWordChar d = false → c ≠ d := by
      rintro d hd rfl
      rw [hchar] at hd
      contradiction
    exact ⟨isBlank_of_isWordChar hchar, ne_hash_of_isWordChar hchar, hne _ (by decide),
      hne _ (by decide), hne _ (by decide), hne _ (by decide)⟩
  · decide

/-- A literal of parentheses around a generator, in parentheses, needs a level for each pair of them
and one for its braces. -/
theorem CoefficientRing.needs_literal {r : CoefficientRing} {R : PolyRing r.Elem}
    (hR : R.coefficients = r.arithmetic) {a : Text} (ha : a ∈ r.generators) (hname : a.IsName)
    (limits : Limits) (j i : Nat) :
    ∃ tokens, Reader.Needs R limits (j + (i + 1)) tokens ∧
      Token.Spells (between '(' ')' j ('\x7b' :: (between '(' ')' i a ++ ['\x7d']))) tokens := by
  have hchars := isLiteralChar_of_mem_between hname i
  have hneeds : R.coefficients.Needs limits i
      (Reader.rebuilt (Token.ofText (between '(' ')' i a))) := by
    rw [hR, Reader.rebuilt_ofText fun c hc => ⟨(hchars c hc).1, (hchars c hc).2.1,
      (hchars c hc).2.2.1, (hchars c hc).2.2.2.1⟩]
    exact r.needs_generator ha hname limits i
  have hbraces := Reader.needs_braces (Reader.inLiteral_of_mem_ofText hchars) hneeds
  exact ⟨_, hbraces.between j, ((Reader.spells_literal hchars).enclosed '\x7b' '\x7d').between j⟩

/-- Over any source, calls that do not fail because a limit on nesting is passed give the same under a
higher limit: the last one succeeds with the same result or fails alike, and leaves the same session,
with its line and its notes. The rings of the calls have to read their own literals so, as do all rings
that descriptors select, polynomials and residues of polynomials. The limit is exact, also in literals.
Parentheses around braces around parentheses around a generator of the coefficients need a level for
each pair; so do parentheses around a variable. Such a text, with a name that an expression reads as
one word and not as a numeral, is read exactly if these levels are within the limit, and otherwise the
limit is passed. -/
theorem nesting_limit_is_exact :
    (∀ (chunks : List Chunk) (limits : Limits) (d : UInt64) (calls : List Call) (call : Call),
      let low := Session.ofReads (Read.ofChunks chunks) limits
      let high := Session.ofReads (Read.ofChunks chunks) (limits.raise d)
      limits.maxDepth ≤ d → (∀ c ∈ calls ++ [call], c.Enduring) →
        low.StaysWithin (calls ++ [call]) →
        call.reader (high.afterCalls calls) = Reader.raised d (call.reader (low.afterCalls calls))) ∧
      ((∀ r : CoefficientRing, r.arithmetic.Enduring) ∧
        (∀ {α : Type} (R : PolyRing α), R.coefficients.Enduring → R.arithmetic.Enduring) ∧
        ∀ {α : Type} (A : Arithmetic α) (E : Extension α), A.Enduring → (E.arithmetic A).Enduring) ∧
      (∀ (r : CoefficientRing) (vars : List Text) (order : TermOrder) (limits : Limits) (a : Text)
        (j i : Nat), a ∈ r.generators → a.IsName →
        let run := Reader.polynomial ⟨r.arithmetic, vars, order⟩
          (.ofText (between '(' ')' j ('\x7b' :: (between '(' ')' i a ++ ['\x7d']))) limits)
        ((∃ p s, run = .ok p s) ↔ j + 1 + i ≤ limits.maxDepth.toNat) ∧
          (limits.maxDepth.toNat < j + 1 + i →
            ∃ e s, run = .error e s ∧ e.TooDeep limits.maxDepth)) ∧
      ∀ {α : Type} (R : PolyRing α) (limits : Limits) (v : Text) (k : Nat), v ∈ R.vars → v.IsName →
        let run := Reader.polynomial R (.ofText (between '(' ')' k v) limits)
        ((∃ p s, run = .ok p s) ↔ k ≤ limits.maxDepth.toNat) ∧
          (limits.maxDepth.toNat < k → ∃ e s, run = .error e s ∧ e.TooDeep limits.maxDepth) := by
  refine ⟨?_, ?_, ?_, ?_⟩
  · intro chunks limits d calls call low high hd hcalls hwithin
    exact Session.reader_afterCalls_raise (s := low) (Scanner.flat_ofReads _) hd hcalls hwithin
  · exact ⟨CoefficientRing.enduring, fun R => PolyRing.enduring_arithmetic,
      fun A E hA => Extension.enduring_arithmetic hA E⟩
  · intro r vars order limits a j i ha hname run
    obtain ⟨tokens, hneeds, hspells⟩ :=
      CoefficientRing.needs_literal (R := ⟨r.arithmetic, vars, order⟩) rfl ha hname limits j i
    have hlevels : j + (i + 1) = j + 1 + i := by omega
    rw [hlevels] at hneeds
    exact hneeds.polynomial_iff hspells
  · intro α R limits v k hv hname run
    exact ((Reader.needs_variable hname hv).between k).polynomial_iff
      ((Token.spells_word hname.1).between k)

/-- A literal in parentheses, with parentheses of its own, needs three levels. It is read alike under a
limit of three and of five, and passes a limit of two. -/
theorem three_levels_into_literal :
    let r : CoefficientRing := .function [['a']]
    let R : PolyRing r.Elem := ⟨r.arithmetic, [['x']], {}⟩
    let text := between '(' ')' 1 ('\x7b' :: (between '(' ')' 1 ['a'] ++ ['\x7d']))
    text = "(\x7b(a)\x7d)".toList ∧
      (∃ e s, Reader.polynomial R (.ofText text { maxDepth := 2 }) = .error e s ∧ e.TooDeep 2) ∧
      (∃ p s, Reader.polynomial R (.ofText text { maxDepth := 3 }) = .ok p s) ∧
      Reader.polynomial R (.ofText text { maxDepth := 5 }) =
        Reader.raised 5 (Reader.polynomial R (.ofText text { maxDepth := 3 })) ∧
      ¬ ∃ p s, Reader.polynomial R (.ofText "((x))".toList { maxDepth := 1 }) = .ok p s := by
  intro r R text
  obtain ⟨hraise, ⟨hrings, -⟩, hliteral, hvariable⟩ := nesting_limit_is_exact
  have hexact := fun limits => hliteral r [['x']] {} limits ['a'] 1 1 List.mem_cons_self (by decide)
  obtain ⟨p, s, hread⟩ := (hexact { maxDepth := 3 }).1.2 (by decide)
  refine ⟨rfl, (hexact { maxDepth := 2 }).2 (by decide), ⟨p, s, hread⟩, ?_, ?_⟩
  · apply hraise [.text text] { maxDepth := 3 } 5 [] (.polynomial R) (by decide)
    · intro c hc
      obtain rfl := List.mem_singleton.1 hc
      exact hrings r
    · refine ⟨fun e t hfail => ?_, trivial⟩
      have hok : (Call.polynomial R).reader (.ofText text { maxDepth := 3 }) = .ok p s := hread
      exact absurd (hok.symm.trans hfail) (by simp)
  · have hx := hvariable R { maxDepth := 1 } ['x'] 2 List.mem_cons_self (by decide)
    exact fun h => absurd (hx.1.1 h) (by decide)

end PolynomialText
