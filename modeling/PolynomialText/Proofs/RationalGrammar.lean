import PolynomialText.Proofs.ResidueMaps
import Mathlib.Tactic.FieldSimp

/-!
# The grammar of rational literals

A rational literal is a decimal numeral or a quotient of two, where each numeral has a sign of its own,
if any, and digits with a point between, in front of or behind them, if any. The grammar gives each
literal its value: a digit behind the point counts by its place. Reading cuts a text at the first slash
and each part at the first point. Since numerals have no slash, and digits no point and no sign, these
cuts are the only ones that can succeed, and the texts that are read are exactly those of the grammar.
-/

namespace PolynomialText

/-- A text behind another one moves its value by as many places as it has digits. -/
theorem Text.value_append (t u : Text) : value (t ++ u) = value t * 10 ^ u.length + value u := by
  rw [value, Nat.ofDigitChars_append, Nat.ofDigitChars_eq_ofDigitChars_zero, mul_comm]
  rfl

theorem Text.allDigits_append (t u : Text) : allDigits (t ++ u) = (allDigits t && allDigits u) :=
  List.all_append

namespace Rational

/-! ### The grammar -/

/-- At most one sign, and the factor that it stands for. -/
inductive IsSign : Text → Rat → Prop
  | absent : IsSign [] 1
  | plus : IsSign ['+'] 1
  | minus : IsSign ['-'] (-1)

/-- Digits with at most one point, and at least one digit, with their value. -/
inductive IsUnsigned : Text → Rat → Prop
  | digits {whole : Text} (ne_nil : whole ≠ []) (all_digits : whole.allDigits = true) :
    IsUnsigned whole whole.value
  | point {whole fraction : Text} (ne_nil : whole ≠ [] ∨ fraction ≠ [])
    (whole_digits : whole.allDigits = true) (fraction_digits : fraction.allDigits = true) :
    IsUnsigned (whole ++ '.' :: fraction) (whole.value + fraction.value / 10 ^ fraction.length)

/-- A decimal numeral and its value. -/
inductive IsDecimal : Text → Rat → Prop
  | signed {sign body : Text} {factor size : Rat} (sign_eq : IsSign sign factor)
    (body_eq : IsUnsigned body size) : IsDecimal (sign ++ body) (factor * size)

/-- A rational literal without white space and tildes, and its value. -/
inductive IsLiteral : Text → Rat → Prop
  | decimal {t : Text} {r : Rat} (numeral : IsDecimal t r) : IsLiteral t r
  | quotient {t u : Text} {r s : Rat} (numerator : IsDecimal t r) (denominator : IsDecimal u s)
    (ne_zero : s ≠ 0) : IsLiteral (t ++ '/' :: u) (r / s)

/-! ### Decimal numerals -/

/-- The characters of a numeral without a sign. -/
theorem IsUnsigned.isDigit_or_point {t : Text} {r : Rat} (h : IsUnsigned t r) {c : Char} (hc : c ∈ t) :
    c.isDigit = true ∨ c = '.' := by
  cases h with
  | digits _ hwhole => exact .inl (List.all_eq_true.1 hwhole c hc)
  | point _ hwhole hfraction =>
    rcases List.mem_append.1 hc with hmem | hmem
    · exact .inl (List.all_eq_true.1 hwhole c hmem)
    · rcases List.mem_cons.1 hmem with hpoint | hmem
      · exact .inr hpoint
      · exact .inl (List.all_eq_true.1 hfraction c hmem)

theorem IsUnsigned.ne_nil {t : Text} {r : Rat} (h : IsUnsigned t r) : t ≠ [] := by
  cases h with
  | digits hne _ => exact hne
  | point _ _ _ => simp

/-- The value of all digits, divided for each place behind the point, counts those by their places. -/
theorem mkRat_value_append (whole fraction : Text) :
    mkRat (Text.value (whole ++ fraction)) (Nat.pow 10 fraction.length) =
      whole.value + fraction.value / 10 ^ fraction.length := by
  have hpow : (10 : Rat) ^ fraction.length ≠ 0 := pow_ne_zero _ (by decide)
  rw [Rat.mkRat_eq_div, Text.value_append,
    show Nat.pow 10 fraction.length = 10 ^ fraction.length from rfl]
  push_cast
  field_simp

/-- The first point, if there is one, divides a numeral without a sign. -/
theorem isUnsigned_iff {t : Text} {r : Rat} : IsUnsigned t r ↔
    ∃ whole fraction, (Text.splitOnce? '.' t).getD (t, []) = (whole, fraction) ∧
      ¬ (whole = [] ∧ fraction = []) ∧ Text.allDigits (whole ++ fraction) = true ∧
      r = mkRat (Text.value (whole ++ fraction)) (Nat.pow 10 fraction.length) := by
  have hpoint : ∀ {whole : Text}, whole.allDigits = true → '.' ∉ whole := fun hwhole hmem =>
    absurd (List.all_eq_true.1 hwhole _ hmem) (by decide)
  constructor
  · intro h
    cases h with
    | digits hne hwhole =>
      rw [Text.splitOnce?_eq_none_iff.2 (hpoint hwhole)]
      exact ⟨t, [], rfl, by simpa using hne, by simpa using hwhole, by simp [Rat.mkRat_one]⟩
    | @point whole fraction hne hwhole hfraction =>
      rw [Text.splitOnce?_append (hpoint hwhole)]
      refine ⟨whole, fraction, rfl, by tauto, ?_, (mkRat_value_append whole fraction).symm⟩
      rw [Text.allDigits_append, hwhole, hfraction]
      rfl
  · rintro ⟨whole, fraction, hsplit, hne, hdigits, rfl⟩
    cases hcut : Text.splitOnce? '.' t with
    | none =>
      rw [hcut, Option.getD_none, Prod.mk.injEq] at hsplit
      obtain ⟨rfl, rfl⟩ := hsplit
      simpa [Rat.mkRat_one] using IsUnsigned.digits (by simpa using hne) (by simpa using hdigits)
    | some parts =>
      rw [hcut, Option.getD_some] at hsplit
      subst hsplit
      rw [Text.allDigits_append, Bool.and_eq_true] at hdigits
      rw [Text.eq_of_splitOnce?_eq_some hcut, mkRat_value_append]
      exact .point (by tauto) hdigits.1 hdigits.2

/-- A numeral that is read, behind its sign. -/
theorem readDecimal_eq_ok_iff_signed {t : Text} {r : Rat} : readDecimal t = .ok r ↔
    ∃ size, IsUnsigned (Literal.signed t).2 size ∧
      r = (if (Literal.signed t).1 then -1 else 1) * size := by
  unfold readDecimal
  obtain ⟨negative, body⟩ := Literal.signed t
  simp only [isUnsigned_iff]
  obtain ⟨whole, fraction⟩ := (Text.splitOnce? '.' body).getD (body, [])
  dsimp only
  split
  · rename_i hnil
    refine iff_of_false (by simp) ?_
    rintro ⟨_, ⟨_, _, hparts, hne, -⟩, -⟩
    obtain ⟨rfl, rfl⟩ := Prod.mk.inj hparts
    exact hne hnil
  · rename_i hne
    split
    · rename_i hdigits
      refine iff_of_false (by simp) ?_
      rintro ⟨_, ⟨_, _, hparts, -, hall, -⟩, -⟩
      obtain ⟨rfl, rfl⟩ := Prod.mk.inj hparts
      rw [hall] at hdigits
      contradiction
    · rename_i hdigits
      have hall : Text.allDigits (whole ++ fraction) = true := by simpa using hdigits
      rw [Except.ok.injEq, eq_comm]
      constructor
      · rintro rfl
        exact ⟨_, ⟨whole, fraction, rfl, hne, hall, rfl⟩, by cases negative <;> simp⟩
      · rintro ⟨_, ⟨_, _, hparts, -, -, rfl⟩, rfl⟩
        obtain ⟨rfl, rfl⟩ := Prod.mk.inj hparts
        cases negative <;> simp

/-- A sign is cut off where there is one. -/
theorem exists_isSign (t : Text) : ∃ sign, t = sign ++ (Literal.signed t).2 ∧
    IsSign sign (if (Literal.signed t).1 then -1 else 1) := by
  unfold Literal.signed
  split
  · exact ⟨['-'], rfl, .minus⟩
  · exact ⟨['+'], rfl, .plus⟩
  · exact ⟨[], rfl, .absent⟩

/-- Digits and points do not start with a sign, so no more than the sign in front of them is cut off. -/
theorem signed_append {sign body : Text} {factor size : Rat} (hsign : IsSign sign factor)
    (hbody : IsUnsigned body size) :
    ∃ negative, Literal.signed (sign ++ body) = (negative, body) ∧
      factor = if negative then -1 else 1 := by
  cases hsign with
  | minus => exact ⟨true, rfl, rfl⟩
  | plus => exact ⟨false, rfl, rfl⟩
  | absent =>
    refine ⟨false, ?_, rfl⟩
    rw [List.nil_append]
    unfold Literal.signed
    split
    · exact absurd (hbody.isDigit_or_point List.mem_cons_self) (by decide)
    · exact absurd (hbody.isDigit_or_point List.mem_cons_self) (by decide)
    · rfl

/-- The decimal numerals of the grammar are those that are read. -/
theorem readDecimal_eq_ok_iff {t : Text} {r : Rat} : readDecimal t = .ok r ↔ IsDecimal t r := by
  rw [readDecimal_eq_ok_iff_signed]
  constructor
  · rintro ⟨size, hbody, rfl⟩
    obtain ⟨sign, ht, hsign⟩ := exists_isSign t
    have hdecimal := IsDecimal.signed hsign hbody
    rwa [← ht] at hdecimal
  · rintro ⟨hsign, hbody⟩
    obtain ⟨negative, hsigned, rfl⟩ := signed_append hsign hbody
    rw [hsigned]
    exact ⟨_, hbody, rfl⟩

/-! ### Rational literals -/

theorem IsDecimal.ne_nil {t : Text} {r : Rat} (h : IsDecimal t r) : t ≠ [] := by
  obtain ⟨_, hbody⟩ := h
  exact List.append_ne_nil_of_right_ne_nil _ hbody.ne_nil

/-- A numeral has no slash. -/
theorem IsDecimal.not_slash {t : Text} {r : Rat} (h : IsDecimal t r) : '/' ∉ t := by
  intro hmem
  rcases mem_of_readDecimal (readDecimal_eq_ok_iff.2 h) hmem with hdigit | hsign | hsign | hpoint
  · exact absurd hdigit (by decide)
  all_goals contradiction

/-- The literals of the grammar are those that are read, without white space and with tildes as minus
signs. -/
theorem readRational_eq_ok_iff {t : Text} {r : Rat} :
    readRational t = .ok r ↔ IsLiteral (Literal.normalise t) r := by
  unfold readRational
  generalize Literal.normalise t = s
  dsimp only
  constructor
  · intro h
    split at h
    · contradiction
    · split at h
      · exact .decimal (readDecimal_eq_ok_iff.1 h)
      · rename_i upper lower hsplit
        simp only [bind, Except.bind] at h
        cases hupper : readDecimal upper with
        | error fault => simp [hupper] at h
        | ok numerator =>
          cases hlower : readDecimal lower with
          | error fault => simp [hupper, hlower] at h
          | ok denominator =>
            simp only [hupper, hlower] at h
            split at h
            · contradiction
            · rename_i hne
              rw [Text.eq_of_splitOnce?_eq_some hsplit, ← Except.ok.inj h]
              exact .quotient (readDecimal_eq_ok_iff.1 hupper) (readDecimal_eq_ok_iff.1 hlower) hne
  · intro h
    cases h with
    | decimal hr =>
      rw [if_neg hr.ne_nil, Text.splitOnce?_eq_none_iff.2 hr.not_slash]
      exact readDecimal_eq_ok_iff.2 hr
    | quotient hr hs hne =>
      rw [if_neg (by simp), Text.splitOnce?_append hr.not_slash]
      simp only [readDecimal_eq_ok_iff.2 hr, readDecimal_eq_ok_iff.2 hs, bind, Except.bind, if_neg hne]

/-- A text is read as a rational number exactly if it is a literal of the grammar with that value, in
lowest terms and with a positive denominator. Every other text is refused. -/
theorem rational_literals_are_grammatical (t : Text) :
    (∀ r, readRational t = .ok r ↔ IsLiteral (Literal.normalise t) r) ∧
    ((∃ fault, readRational t = .error fault) ↔ ¬ ∃ r, IsLiteral (Literal.normalise t) r) ∧
    ∀ r, IsLiteral (Literal.normalise t) r → 0 < r.den ∧ r.num.natAbs.Coprime r.den := by
  refine ⟨fun r => readRational_eq_ok_iff, ?_, fun r _ => ⟨r.den_pos, r.reduced⟩⟩
  simp only [← readRational_eq_ok_iff]
  cases readRational t with
  | error fault => exact iff_of_true ⟨fault, rfl⟩ (by rintro ⟨r, hr⟩; contradiction)
  | ok r => exact iff_of_false (by rintro ⟨fault, hfault⟩; contradiction) (fun hnone => hnone ⟨r, rfl⟩)

/-- Signs may stand in front of both numerals, and a point in front of all digits. -/
theorem quotient_of_signed_decimals :
    let t : Text := " ~.50 / +2".toList
    IsLiteral (Literal.normalise t) (-1 / 4) ∧ readRational t = .ok (-1 / 4) ∧
      0 < (-1 / 4 : Rat).den ∧ (-1 / 4 : Rat).num.natAbs.Coprime (-1 / 4 : Rat).den := by
  intro t
  have hread : readRational t = .ok (-1 / 4) := by decide +kernel
  obtain ⟨hiff, -, hlowest⟩ := rational_literals_are_grammatical t
  have hliteral := (hiff (-1 / 4)).1 hread
  exact ⟨hliteral, hread, hlowest _ hliteral⟩

end Rational

end PolynomialText
