import PolynomialText.CoefficientRing
import PolynomialText.Proofs.MovedExpressions
import PolynomialText.Proofs.ParallelExpressions
import PolynomialText.Proofs.Spelling

/-!
# Where literals end

Literals of functions and of algebraic numbers are expressions, and an expression ends at the first
comma or closing parenthesis outside of its parentheses and braces. A literal that goes on behind such
a delimiter is read up to it, and what is behind has no part in its value, whatever it is.

A reader is local if its value depends only on the tokens in front of an end: they may be followed by
nothing or by any delimiter. Every part of an expression is local, and so is the expression with the
tokens up to its end.
-/

namespace PolynomialText

namespace Grammar

/-! ### Local readers -/

/-- The value and what is kept of the tokens stay the same with another end behind them. -/
def Local {α : Type} (f : List Token → Outcome α) : Prop :=
  ∀ ⦃tokens kept tail behind : List Token⦄ ⦃a : α⦄ ⦃terminator : Terminator⦄,
    Ends none tail terminator behind → f tokens = .ok a (kept ++ tail) →
    ∃ own, tokens = own ++ tail ∧
      ∀ ⦃tail' behind' : List Token⦄ ⦃terminator' : Terminator⦄,
        Ends none tail' terminator' behind' → f (own ++ tail') = .ok a (kept ++ tail')

section

variable {α β : Type} {closer : Option Char} {tokens kept tail behind : List Token}
  {terminator : Terminator}

/-- No end starts with a word. -/
theorem Ends.exists_eq_word_cons (h : Ends closer tail terminator behind) {w : Text}
    (heq : .word w :: tokens = kept ++ tail) :
    ∃ own, kept = .word w :: own ∧ tokens = own ++ tail := by
  cases kept with
  | nil =>
    rw [List.nil_append] at heq
    subst heq
    cases h
  | cons t own =>
    obtain ⟨rfl, htokens⟩ := List.cons.inj heq
    exact ⟨own, rfl, htokens⟩

/-- Nothing is read. -/
theorem local_ok (a : α) : Local fun tokens => .ok a tokens := by
  intro tokens kept tail behind b terminator hends h
  obtain ⟨rfl, rfl⟩ := Outcome.ok_inj h
  exact ⟨kept, rfl, fun _ _ _ _ => rfl⟩

/-- A word is put back. -/
theorem local_pushed (a : α) (w : Text) : Local fun tokens => .ok a (.word w :: tokens) := by
  intro tokens kept tail behind b terminator hends h
  obtain ⟨rfl, hrest⟩ := Outcome.ok_inj h
  obtain ⟨own, rfl, rfl⟩ := hends.exists_eq_word_cons hrest
  exact ⟨own, rfl, fun _ _ _ _ => rfl⟩

/-- Failures have no value. -/
theorem local_error {e : List Token → ParseError} {left : List Token → List Token} :
    Local fun tokens => (⟨.error (e tokens), left tokens⟩ : Outcome α) :=
  fun _ _ _ _ _ _ _ h => absurd h Outcome.error_ne_ok

/-- One reader behind another. -/
theorem Local.bind {f : List Token → Outcome α} {g : α → List Token → Outcome β} (hf : Local f)
    (hg : ∀ a, Local (g a)) : Local fun tokens => (f tokens).bind g := by
  intro tokens kept tail behind b terminator hends h
  dsimp only at h
  cases hfirst : f tokens with
  | mk result rest =>
    rw [hfirst] at h
    cases result with
    | error e => exact absurd h Outcome.error_ne_ok
    | ok a =>
      obtain ⟨middle, rfl, hsecond⟩ := hg a hends h
      obtain ⟨own, rfl, hown⟩ := hf hends hfirst
      refine ⟨own, rfl, fun tail' behind' terminator' hends' => ?_⟩
      dsimp only
      rw [hown hends']
      exact hsecond hends'

end

/-! ### Exponents and factors -/

theorem local_exponent : Local exponent := by
  intro tokens kept tail behind k terminator hends h
  obtain ⟨own, rfl⟩ : tail <:+ tokens := by
    obtain ⟨after, hafter, rfl | ⟨v, w, -, -, hrest⟩⟩ := remains_exponent h
    · exact (List.suffix_append kept tail).trans hafter
    · obtain ⟨own, -, rfl⟩ := hends.exists_eq_word_cons hrest.symm
      exact (List.suffix_append own tail).trans hafter
  -- The tokens in front of the end have the exponent on their own, and so with any end.
  have hown : exponent own = .ok k kept := by
    have hextends := extends_exponent hends own
    cases hread : exponent own with
    | mk result rest =>
      rw [hread, h] at hextends
      cases result with
      | error e =>
        obtain ⟨e', left, hfailed⟩ := hextends
        exact absurd hfailed.symm Outcome.error_ne_ok
      | ok n =>
        obtain ⟨rfl, hrest⟩ := Outcome.ok_inj hextends
        rw [List.append_cancel_right hrest]
        rfl
  refine ⟨own, rfl, fun tail' behind' terminator' hends' => ?_⟩
  have hextends := extends_exponent hends' own
  rw [hown] at hextends
  exact hextends

section

variable {α : Type} (R : PolyRing α) (limits : Limits) (depth : Nat)

theorem local_braces (b : Reader.Braces) : Local (braces limits depth b) := by
  intro tokens kept tail behind text terminator hends h
  induction tokens generalizing b with
  | nil => exact absurd h Outcome.error_ne_ok
  | cons t tokens ih =>
    rw [braces] at h
    cases hstep : bracesStep limits depth b t with
    | error e =>
      rw [hstep] at h
      exact absurd h Outcome.error_ne_ok
    | ok found =>
      rw [hstep] at h
      cases found with
      | inl b' =>
        obtain ⟨own, rfl, hown⟩ := ih b' h
        refine ⟨t :: own, rfl, fun tail' behind' terminator' hends' => ?_⟩
        rw [List.cons_append, braces, hstep]
        exact hown hends'
      | inr text' =>
        obtain ⟨rfl, rfl⟩ := Outcome.ok_inj h
        refine ⟨t :: kept, rfl, fun _ _ _ _ => ?_⟩
        rw [List.cons_append, braces, hstep]

theorem local_literal (t : Text) : Local (literal R limits depth t) := by
  unfold literal
  split
  · exact local_ok _
  · exact local_error

theorem local_enclosed : Local (enclosed R limits depth) := by
  refine Local.bind (f := fun tokens => nested limits depth tokens _) ?_ (local_literal R limits (depth + 1))
  unfold nested
  split
  · exact local_error
  · exact local_braces limits (depth + 1) _

/-- A numeral takes the same text with another end behind the tokens that it leaves. -/
theorem exists_own_of_joinImaginary {tokens kept tail behind : List Token} {terminator : Terminator}
    (hends : Ends none tail terminator behind) {t text : Text}
    (h : joinImaginary R t tokens = (text, kept ++ tail)) :
    ∃ own, tokens = own ++ tail ∧
      ∀ ⦃tail' behind' : List Token⦄ ⦃terminator' : Terminator⦄, Ends none tail' terminator' behind' →
        joinImaginary R t (own ++ tail') = (text, kept ++ tail') := by
  have hsuffix : (joinImaginary R t tokens).2 <:+ tokens := by
    unfold joinImaginary
    split
    · exact List.drop_suffix 2 tokens
    · exact List.suffix_rfl
  rw [h] at hsuffix
  obtain ⟨own, rfl⟩ := (List.suffix_append kept tail).trans hsuffix
  rw [hends.joinImaginary_append] at h
  obtain ⟨htext, hrest⟩ := Prod.mk.inj h
  refine ⟨own, rfl, fun tail' behind' terminator' hends' => ?_⟩
  rw [hends'.joinImaginary_append, htext, List.append_cancel_right hrest]

theorem local_numeral (w : Text) : Local (numeral R limits depth w) := by
  intro tokens kept tail behind factor terminator hends h
  unfold numeral at h
  split at h
  · exact absurd h Outcome.error_ne_ok
  · rename_i hdigit
    cases hjoin : joinImaginary R (Reader.completeNumeral w) tokens with
    | mk t rest =>
      rw [hjoin] at h
      dsimp only at h
      split at h
      · rename_i c hread
        obtain ⟨rfl, rfl⟩ := Outcome.ok_inj h
        obtain ⟨own, rfl, hown⟩ := exists_own_of_joinImaginary R hends hjoin
        refine ⟨own, rfl, fun tail' behind' terminator' hends' => ?_⟩
        simp only [numeral, hdigit, hown hends', hread]
        rfl
      · rename_i fault hread
        split at h
        · exact absurd h Outcome.error_ne_ok
        · rename_i number symbol hsplit
          have hcut := (local_literal R limits depth number).bind fun c =>
            local_pushed (Factor.coefficient c) symbol
          obtain ⟨middle, rfl, hmiddle⟩ := hcut hends h
          obtain ⟨own, rfl, hown⟩ := exists_own_of_joinImaginary R hends hjoin
          refine ⟨own, rfl, fun tail' behind' terminator' hends' => ?_⟩
          simp only [numeral, hdigit, hown hends', hread, hsplit]
          exact hmiddle hends'

theorem local_symbol (w : Text) : Local (symbol R limits depth w) := by
  unfold symbol
  split
  · exact local_ok _
  · split
    · exact local_ok _
    · exact local_error

theorem local_multiplied (acc : Accumulator α) (factor : Factor α) :
    Local (multiplied R acc factor) := by
  refine local_exponent.bind fun k => ?_
  intro tokens kept tail behind acc' terminator hends h
  obtain ⟨rfl, rfl⟩ := Outcome.ok_inj h
  refine ⟨kept, rfl, fun tail' behind' terminator' hends' => ?_⟩
  simp only [Accumulator.settle, hends.signAhead_append, hends'.signAhead_append]

end

/-! ### Expressions -/

/-- A delimiter stops an expression. -/
theorem ends_of_stop {t : Token} (ht : t ≠ .eof) {terminator : Terminator}
    (h : Role.ofToken none t = .stop terminator) (rest : List Token) :
    Ends none (t :: rest) terminator rest := by
  cases t with
  | eof => exact absurd rfl ht
  | quoted q => simp [Role.ofToken] at h
  | word w =>
    simp only [Role.ofToken] at h
    split at h
    · contradiction
    · contradiction
  | op c =>
    by_cases hclose : c = ')'
    · subst hclose
      obtain rfl : Terminator.close = terminator := Role.stop.inj h
      exact .close rest
    by_cases hcomma : c = ','
    · subst hcomma
      obtain rfl : Terminator.comma = terminator := Role.stop.inj h
      exact .comma rest
    simp only [Role.ofToken, if_neg hclose, if_neg hcomma] at h
    repeat' split at h
    all_goals contradiction

section

variable {α : Type} {R : PolyRing α} {limits : Limits} {depth : Nat} {acc acc' : Accumulator α}
  {tokens kept tail behind rest : List Token} {terminator : Terminator}

/-- An expression ends at an end. -/
theorem ends_of_pass (hsolid : ∀ t ∈ tokens, t.Solid) {p : Poly α}
    (h : pass R limits depth none acc tokens = .last (.ok (p, terminator) rest)) :
    p = acc.total R ∧ Ends none tokens terminator rest := by
  cases tokens with
  | nil =>
    obtain ⟨hresult, rfl⟩ := Outcome.ok_inj (Pass.last.inj h)
    obtain ⟨rfl, rfl⟩ := Prod.mk.inj hresult
    exact ⟨rfl, .finish⟩
  | cons t tokens =>
    have ht : t ≠ .eof := (hsolid t List.mem_cons_self).ne_eof
    unfold pass at h
    simp only [List.headD_cons, List.tail_cons] at h
    cases hrole : Role.ofToken none t with
    | stop found =>
      rw [hrole] at h
      obtain ⟨hresult, rfl⟩ := Outcome.ok_inj (Pass.last.inj h)
      obtain ⟨rfl, rfl⟩ := Prod.mk.inj hresult
      exact ⟨rfl, ends_of_stop ht hrole tokens⟩
    | leave => exact absurd hrole (Role.ofToken_none_ne ht).1
    | negate => rw [hrole] at h; contradiction
    | skip => rw [hrole] at h; contradiction
    | strayBrace => rw [hrole] at h; exact absurd (Pass.last.inj h) Outcome.error_ne_ok
    | openParen =>
      rw [hrole] at h
      dsimp only at h
      split at h
      · exact absurd (Pass.last.inj h) Outcome.error_ne_ok
      · contradiction
    | openBrace => rw [hrole] at h; exact absurd h Pass.behind_ne_last
    | quoted text => rw [hrole] at h; exact absurd h Pass.behind_ne_last
    | numeral w => rw [hrole] at h; exact absurd h Pass.behind_ne_last
    | symbol w => rw [hrole] at h; exact absurd h Pass.behind_ne_last

/-- A pass that goes on does so with another end behind what is kept. -/
theorem exists_own_of_pass (hends : Ends none tail terminator behind)
    (h : pass R limits depth none acc tokens = .more acc' (kept ++ tail)) :
    ∃ own, tokens = own ++ tail ∧
      ∀ ⦃tail' behind' : List Token⦄ ⦃terminator' : Terminator⦄, Ends none tail' terminator' behind' →
        pass R limits depth none acc (own ++ tail') = .more acc' (kept ++ tail') := by
  cases tokens with
  | nil => contradiction
  | cons t tokens =>
    obtain ⟨f, hlocal, hpass⟩ : ∃ f : List Token → Outcome (Accumulator α), Local f ∧
        ∀ rest, pass R limits depth none acc (t :: rest) = .behind (f rest) := by
      unfold pass at h ⊢
      simp only [List.headD_cons, List.tail_cons] at h ⊢
      cases hrole : Role.ofToken none t with
      | negate => exact ⟨_, local_ok (acc.negate R), fun _ => rfl⟩
      | skip => exact ⟨_, local_ok acc, fun _ => rfl⟩
      | openBrace =>
        exact ⟨_, (local_enclosed R limits depth).bind fun c =>
          local_multiplied R acc (.coefficient c), fun _ => rfl⟩
      | quoted text =>
        exact ⟨_, (local_literal R limits (depth + 1) text).bind fun c =>
          local_multiplied R acc (.coefficient c), fun _ => rfl⟩
      | numeral w =>
        exact ⟨_, (local_numeral R limits depth w).bind (local_multiplied R acc), fun _ => rfl⟩
      | symbol w =>
        exact ⟨_, (local_symbol R limits depth w).bind (local_multiplied R acc), fun _ => rfl⟩
      | stop found => rw [hrole] at h; contradiction
      | leave => rw [hrole] at h; contradiction
      | strayBrace => rw [hrole] at h; contradiction
      | openParen =>
        rw [hrole] at h
        dsimp only at h
        split at h
        · contradiction
        · contradiction
    rw [hpass] at h
    obtain ⟨own, rfl, hown⟩ := hlocal hends (Pass.behind_eq_more.1 h)
    refine ⟨t :: own, rfl, fun tail' behind' terminator' hends' => ?_⟩
    rw [List.cons_append, hpass]
    exact Pass.behind_eq_more.2 (hown hends')

/-- An expression is read up to an end, and keeps its value with another one there. -/
theorem Reads.exists_own {asked : Option Char} {outcome : Outcome (Poly α × Terminator)}
    (h : Reads R limits depth asked acc tokens outcome) (hasked : asked = none)
    (hsolid : ∀ t ∈ tokens, t.Solid) {p : Poly α} (houtcome : outcome = .ok (p, terminator) rest) :
    ∃ own tail, tokens = own ++ tail ∧ Ends none tail terminator rest ∧
      ∀ ⦃tail' behind' : List Token⦄ ⦃terminator' : Terminator⦄, Ends none tail' terminator' behind' →
        Reads R limits depth none acc (own ++ tail') (.ok (p, terminator') behind') := by
  induction h generalizing p terminator rest with
  | @last depth asked acc tokens outcome hpass =>
    subst hasked houtcome
    obtain ⟨rfl, hends⟩ := ends_of_pass hsolid hpass
    exact ⟨[], tokens, rfl, hends, fun _ _ _ hends' => .last (hends'.pass_eq R limits depth acc)⟩
  | @more depth asked acc tokens acc' more outcome hpass hmore ih =>
    subst hasked
    have hfits : (pass R limits depth none acc tokens).Fits _ := fits_pass (Fits.of_solid hsolid)
    rw [hpass] at hfits
    obtain ⟨kept, tail, rfl, hends, hkept⟩ := ih rfl hfits.2.1 houtcome
    obtain ⟨own, rfl, hown⟩ := exists_own_of_pass hends hpass
    exact ⟨own, tail, rfl, hends, fun _ _ _ hends' => .more (hown hends') (hkept hends')⟩
  | group hpass hinner hbehind ih =>
    subst houtcome
    exact absurd hbehind Pass.behind_ne_last
  | @groupMore depth asked acc tokens opened inner acc' more outcome hpass hinner hbehind hmore ih
      ihmore =>
    subst hasked
    obtain ⟨q, middle, rfl⟩ := exists_of_behind_closed hbehind
    obtain ⟨hrole, hroom, rfl⟩ := of_pass_eq_opens hpass
    cases tokens with
    | nil => contradiction
    | cons t tokens =>
      have htokens : ∀ u ∈ tokens, u.Solid := (List.forall_mem_cons.1 hsolid).2
      have hopens : ∀ rest, pass R limits depth none acc (t :: rest) = .opens rest := by
        intro rest
        rw [List.headD_cons] at hrole
        simp only [pass, List.headD_cons, hrole, List.tail_cons, if_neg (Nat.not_lt.2 hroom)]
      obtain ⟨inside, closing, rfl, hclosing, hinside⟩ := ih rfl htokens rfl
      cases hclosing
      have hfactor : multiplied R acc (.polynomial q) middle = .ok acc' more :=
        Pass.behind_eq_more.1 hbehind
      have hmiddle : ∀ u ∈ middle, u.Solid := fun u hu =>
        htokens u (List.mem_append_right inside (List.mem_cons_of_mem _ hu))
      have hsolidMore : ∀ u ∈ (multiplied R acc (.polynomial q) middle).rest, u.Solid :=
        (fits_multiplied (Fits.of_solid hmiddle)).1
      rw [hfactor] at hsolidMore
      obtain ⟨kept, tail, rfl, hends, hkept⟩ := ihmore rfl hsolidMore houtcome
      obtain ⟨own, rfl, hown⟩ := local_multiplied R acc (.polynomial q) hends hfactor
      refine ⟨t :: (inside ++ .op ')' :: own), tail, by simp, hends,
        fun tail' behind' terminator' hends' => ?_⟩
      have hbehind' : .behind ((closed (.ok (q, .close) (own ++ tail'))).bind (multiplied R acc)) =
          Pass.more acc' (kept ++ tail') := Pass.behind_eq_more.2 (hown hends')
      rw [List.cons_append, List.append_assoc, List.cons_append]
      exact .groupMore (hopens _) (hinside (.close (own ++ tail'))) hbehind' (hkept hends')

end

end Grammar

/-! ### Literals -/

/-- The tokens of a text are those of another one up to an end: all of them, or the tokens in front of
a delimiter. -/
def Text.IsFront (u t : Text) : Prop :=
  ∃ tail terminator behind,
    Token.ofText t = Token.ofText u ++ tail ∧ Grammar.Ends none tail terminator behind

section

variable {α : Type} (R : PolyRing α) (limits : Limits) (depth : Nat)

/-- The text is an expression from its start to its end. -/
def PolyRing.ReadsWhole (t : Text) (p : Poly α) : Prop :=
  ∃ s, Reader.expression R none (.ofText t limits depth) = .ok (p, .finish) s

variable {limits depth}

theorem PolyRing.readsWhole_iff {t : Text} {p : Poly α} : R.ReadsWhole limits depth t p ↔
    ∃ rest, Grammar.Reads R limits depth none (.start R) (Token.ofText t) (.ok (p, .finish) rest) := by
  constructor
  · rintro ⟨s, hread⟩
    obtain ⟨rest, hreads, -⟩ := Reader.reads_of_expression (Session.at_ofText t limits depth) hread
    exact ⟨rest, hreads⟩
  · rintro ⟨rest, hreads⟩
    obtain ⟨s, hread, -⟩ := Reader.takes_expression_of_reads hreads _ (Session.at_ofText t limits depth)
    exact ⟨s, hread⟩

/-- A polynomial is read from a text if what is in front of an end is an expression as a whole. -/
theorem PolyRing.polynomialOf_eq_ok_iff {t : Text} {p : Poly α} :
    Reader.polynomialOf R limits depth t = .ok p ↔ ∃ u, u.IsFront t ∧ R.ReadsWhole limits depth u p := by
  constructor
  · intro hread
    obtain ⟨⟨result, rest⟩, hreads⟩ := Grammar.exists_reads R limits depth none (.start R)
      (Token.solid_of_mem_ofText (t := t))
    have hrun := Reader.polynomialOf_of_reads hreads
    cases result with
    | error e =>
      obtain ⟨e', hfailed⟩ := hrun
      exact nomatch hread.symm.trans hfailed
    | ok result =>
      obtain ⟨q, terminator⟩ := result
      obtain rfl : q = p := Except.ok.inj (hrun.symm.trans hread)
      obtain ⟨own, tail, hsplit, hends, hown⟩ := hreads.exists_own rfl Token.solid_of_mem_ofText rfl
      obtain ⟨u, hu⟩ := Token.exists_ofText_of_sublist (hsplit ▸ List.sublist_append_left own tail)
      have hwhole := hown .finish
      rw [List.append_nil, ← hu] at hwhole
      exact ⟨u, ⟨tail, terminator, rest, hu ▸ hsplit, hends⟩, R.readsWhole_iff.2 ⟨[], hwhole⟩⟩
  · rintro ⟨u, ⟨tail, terminator, behind, hsplit, hends⟩, hwhole⟩
    obtain ⟨rest, hreads⟩ := R.readsWhole_iff.1 hwhole
    obtain ⟨own, last, hu, hlast, hown⟩ := hreads.exists_own rfl Token.solid_of_mem_ofText rfl
    -- The expression did not end with a delimiter, so that nothing is behind it.
    cases hlast
    rw [List.append_nil] at hu
    exact Reader.polynomialOf_of_reads (hsplit ▸ hu ▸ hown hends)

end

theorem PolyRing.readWithin_eq_ok_iff {α : Type} (R : PolyRing α) {limits : Limits} {depth : Nat}
    {t : Text} {p : Poly α} : R.arithmetic.readWithin limits depth t = .ok p ↔
      Reader.polynomialOf R limits depth t = .ok p :=
  ⟨eq_ok_of_mapError, congrArg (Except.mapError LiteralFault.expression)⟩

theorem PolyRing.read_eq_ok_iff {α : Type} (R : PolyRing α) {t : Text} {p : Poly α} :
    R.arithmetic.read t = .ok p ↔ Reader.polynomialOf R {} 0 t = .ok p :=
  ⟨eq_ok_of_mapError, congrArg (Except.mapError fun e => Refusal.mk t R.descriptor (.expression e))⟩

theorem Extension.readWithin_eq_ok_iff {α : Type} (A : Arithmetic α) (E : Extension α)
    {limits : Limits} {depth : Nat} {t : Text} {c : Poly α} :
    (E.arithmetic A).readWithin limits depth t = .ok c ↔
      ∃ p, Reader.polynomialOf (E.ring A) limits depth t = .ok p ∧ E.reduce A p = c := by
  change ((E.ring A).arithmetic.readWithin limits depth t).map (E.reduce A) = .ok c ↔ _
  simp only [← PolyRing.readWithin_eq_ok_iff]
  cases (E.ring A).arithmetic.readWithin limits depth t with
  | ok p => simp [Except.map]
  | error fault => simp [Except.map]

theorem Extension.read_eq_ok_iff {α : Type} (A : Arithmetic α) (E : Extension α) {t : Text}
    {c : Poly α} : (E.arithmetic A).read t = .ok c ↔
      ∃ p, Reader.polynomialOf (E.ring A) {} 0 t = .ok p ∧ E.reduce A p = c := by
  change E.read A t = .ok c ↔ _
  unfold Extension.read
  cases Reader.polynomialOf (E.ring A) {} 0 t with
  | ok p => simp
  | error e => simp

/-- The literals of a ring of functions or of algebraic numbers are expressions over a ring of
polynomials, which stand for elements. -/
inductive CoefficientRing.Expressions :
    (r : CoefficientRing) → {α : Type} → PolyRing α → (Poly α → r.Elem) → Prop
  | function (vars : List Text) : Expressions (.function vars) (functionRing vars) id
  | algebraicRational (E : Extension Rat) :
    Expressions (.algebraicRational E) (E.ring Rational.arithmetic) (E.reduce Rational.arithmetic)
  | algebraicModular (m : BigModulus) (E : Extension Int) :
    Expressions (.algebraicModular m E) (E.ring m.arithmetic) (E.reduce m.arithmetic)

/-- A text of its own and a literal in an expression are read as polynomials. -/
theorem CoefficientRing.Expressions.read_eq_ok_iff {r : CoefficientRing} {α : Type} {R : PolyRing α}
    {value : Poly α → r.Elem} (h : r.Expressions R value) (t : Text) (c : r.Elem) :
    (∀ limits depth, r.arithmetic.readWithin limits depth t = .ok c ↔
      ∃ p, Reader.polynomialOf R limits depth t = .ok p ∧ value p = c) ∧
    (r.arithmetic.read t = .ok c ↔ ∃ p, Reader.polynomialOf R {} 0 t = .ok p ∧ value p = c) := by
  cases h with
  | function vars =>
    refine ⟨fun limits depth => (functionRing vars).readWithin_eq_ok_iff.trans ?_,
      (functionRing vars).read_eq_ok_iff.trans ?_⟩
    · exact ⟨fun h => ⟨c, h, rfl⟩, fun ⟨p, h, hp⟩ => hp ▸ h⟩
    · exact ⟨fun h => ⟨c, h, rfl⟩, fun ⟨p, h, hp⟩ => hp ▸ h⟩
  | algebraicRational E =>
    exact ⟨fun limits depth => E.readWithin_eq_ok_iff _, E.read_eq_ok_iff _⟩
  | algebraicModular m E =>
    exact ⟨fun limits depth => E.readWithin_eq_ok_iff _, E.read_eq_ok_iff _⟩

/-- Literals of functions and of algebraic numbers are read up to an end: a text in braces or quotes
that is taken as a literal, and a text of its own, is an expression as a whole or in front of a
delimiter, and the expression alone gives the element. -/
theorem literals_end_at_delimiters {r : CoefficientRing} {α : Type} {R : PolyRing α}
    {value : Poly α → r.Elem} (h : r.Expressions R value) (t : Text) (c : r.Elem) :
    (∀ vars order extra (s : Session),
      (∃ s', Reader.literal ⟨r.arithmetic, vars, order⟩ t extra s = .ok c s') ↔
        ∃ u p, u.IsFront t ∧ R.ReadsWhole s.limits (s.depth + extra) u p ∧ value p = c) ∧
    (r.arithmetic.read t = .ok c ↔
      ∃ u p, u.IsFront t ∧ R.ReadsWhole {} 0 u p ∧ value p = c) := by
  have hwhole : ∀ limits depth, (∃ p, Reader.polynomialOf R limits depth t = .ok p ∧ value p = c) ↔
      ∃ u p, u.IsFront t ∧ R.ReadsWhole limits depth u p ∧ value p = c := by
    intro limits depth
    simp only [R.polynomialOf_eq_ok_iff]
    constructor
    · rintro ⟨p, ⟨u, hfront, hread⟩, hvalue⟩
      exact ⟨u, p, hfront, hread, hvalue⟩
    · rintro ⟨u, p, hfront, hread, hvalue⟩
      exact ⟨p, ⟨u, hfront, hread⟩, hvalue⟩
  obtain ⟨hwithin, hread⟩ := h.read_eq_ok_iff t c
  refine ⟨fun vars order extra s => ?_, hread.trans (hwhole {} 0)⟩
  rw [← hwhole, ← hwithin]
  let P : PolyRing r.Elem := ⟨r.arithmetic, vars, order⟩
  cases hresult : r.arithmetic.readWithin s.limits (s.depth + extra) t with
  | ok d =>
    rw [Reader.literal_of_ok (R := P) hresult]
    constructor
    · rintro ⟨s', hs⟩
      rw [(EStateM.Result.ok.inj hs).1]
    · intro hd
      rw [Except.ok.inj hd]
      exact ⟨s, rfl⟩
  | error fault =>
    rw [Reader.literal_of_error (R := P) hresult]
    obtain ⟨e, s', hfailed⟩ := Reader.literalFailure_fails (α := r.Elem) t fault s
    rw [hfailed]
    exact ⟨fun ⟨_, hs⟩ => (nomatch hs), fun hd => (nomatch hd)⟩

/-- Behind the comma there is no expression. -/
theorem literal_of_front :
    let vars : List Text := [['a'], ['b']]
    let t : Text := "2 (a + b)^2, \x7d (".toList
    let u : Text := "2 (a + b)^2".toList
    let p : Poly Rat := ⟨[([0, 2], 2), ([1, 1], 4), ([2, 0], 2)]⟩
    (CoefficientRing.function vars).Expressions (CoefficientRing.functionRing vars) id ∧
      u.IsFront t ∧ (CoefficientRing.functionRing vars).ReadsWhole {} 0 u p ∧
      (CoefficientRing.function vars).arithmetic.read t = .ok p := by
  intro vars t u p
  have hfront : u.IsFront t :=
    ⟨[.op ',', .op '\x7d', .op '('], .comma, [.op '\x7d', .op '('], by decide +kernel, .comma _⟩
  have hwhole : (CoefficientRing.functionRing vars).ReadsWhole {} 0 u p :=
    Reader.exists_eq_ok (by decide +kernel)
  exact ⟨.function vars, hfront, hwhole,
    (literals_end_at_delimiters (.function vars) t p).2.2 ⟨u, p, hfront, hwhole, rfl⟩⟩

/-- What is behind the comma is neither read nor missed. -/
theorem literal_behind_comma_is_ignored :
    let vars : List Text := [['a'], ['b']]
    let p : Poly Rat := ⟨[([1, 0], 1)]⟩
    (CoefficientRing.function vars).arithmetic.read "a, b".toList = .ok p ∧
      ∃ s, Reader.expression (CoefficientRing.functionRing vars) none (.ofText "a, b".toList) =
        .ok (p, .comma) s := by
  intro vars p
  have hread : ∃ s, Reader.expression (CoefficientRing.functionRing vars) none
      (.ofText "a, b".toList) = .ok (p, .comma) s := Reader.exists_eq_ok (by decide +kernel)
  refine ⟨(CoefficientRing.functionRing vars).read_eq_ok_iff.2 ?_, hread⟩
  obtain ⟨s, hread⟩ := hread
  simp only [Reader.polynomialOf, Reader.polynomial, Bind.bind, EStateM.bind, hread]
  rfl

end PolynomialText
