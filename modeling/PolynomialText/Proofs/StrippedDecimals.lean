import PolynomialText.Proofs.ReadPolynomials

/-!
# Decimals without trailing zeros

Every decimal that is read or computed has no zero at the end of its fraction, because every result
is put together by one function that drops them. Among such decimals the mantissa and the number of
places are determined by the value, so that equality of what is stored is equality of numbers.
-/

namespace PolynomialText.FixedDecimal

/-- There is no zero at the end of the fraction. -/
def Stripped (a : FixedDecimal) : Prop := a.scale = 0 ∨ ¬ (10 : Int) ∣ a.mantissa

/-- The number that a decimal stands for. -/
def value (a : FixedDecimal) : Rat := a.mantissa / 10 ^ a.scale

theorem strip_stripped (m scale : Nat) : (strip m scale).2 = 0 ∨ (strip m scale).1 % 10 ≠ 0 := by
  induction scale generalizing m with
  | zero => exact .inl rfl
  | succ scale ih =>
    rw [strip]
    split
    · exact ih (m / 10)
    · rename_i hdigit
      exact .inr hdigit

theorem stripped_ofParts (negative : Bool) (m scale : Nat) : (ofParts negative m scale).Stripped := by
  have hstrip := strip_stripped m scale
  unfold Stripped ofParts
  dsimp only
  split <;> omega

theorem stripped_saturated (overflowNegative negative : Bool) (m scale : Nat) :
    (saturated overflowNegative negative m scale).Stripped := by
  unfold saturated
  split
  · exact stripped_ofParts _ _ _
  · exact stripped_ofParts _ _ _

theorem Stripped.neg {a : FixedDecimal} (ha : a.Stripped) : a.neg.Stripped := by
  unfold Stripped FixedDecimal.neg at *
  rwa [Int.dvd_neg]

/-- Decimals without trailing zeros are closed under the arithmetic. -/
theorem closed : arithmetic.Closed Stripped where
  zero := .inl rfl
  one := .inl rfl
  add {a b} ha hb := by
    change (add a b).Stripped
    unfold add
    split
    · exact hb
    · split
      · exact ha
      · exact stripped_saturated _ _ _ _
  mul _ _ := stripped_saturated _ _ _ _
  neg ha := ha.neg
  neg_ne_zero {a} _ hne hneg := by
    obtain ⟨mantissa, scale⟩ := a
    obtain ⟨hmantissa, rfl⟩ := FixedDecimal.mk.inj hneg
    obtain rfl : mantissa = 0 := Int.neg_eq_zero.1 hmantissa
    exact hne rfl

/-! ### Literals -/

theorem stripped_of_readPlain {t : Text} {a : FixedDecimal} (h : readPlain t = .ok a) :
    a.Stripped := by
  unfold readPlain at h
  split at h
  · contradiction
  · cases hdigits : readDigits false false 0 0 (Literal.signed t).2 with
    | error fault =>
      simp only [hdigits] at h
      contradiction
    | ok parts =>
      simp only [hdigits] at h
      rw [← Except.ok.inj h]
      exact stripped_ofParts _ _ _

theorem stripped_of_shiftUp? {a b : FixedDecimal} {exponent : Nat}
    (h : a.shiftUp? exponent = some b) : b.Stripped := by
  obtain ⟨first, -, h⟩ := Option.bind_eq_some_iff.1 h
  obtain ⟨second, -, h⟩ := Option.bind_eq_some_iff.1 h
  rw [← Option.some.inj h]
  exact stripped_ofParts _ _ _

theorem stripped_of_div? {a b c : FixedDecimal} (h : a.div? b = some c) : c.Stripped := by
  unfold div? at h
  split at h
  · contradiction
  · obtain ⟨scale, -, h⟩ := Option.bind_eq_some_iff.1 h
    dsimp only at h
    split at h
    · rw [← Option.some.inj h]
      exact stripped_ofParts _ _ _
    · rw [← Option.some.inj h]
      exact stripped_ofParts _ _ _

theorem stripped_of_readScientific {base exponent : Text} {a : FixedDecimal}
    (h : readScientific base exponent = .ok a) : a.Stripped := by
  unfold readScientific at h
  cases hbase : readPlain base with
  | error fault =>
    rw [hbase] at h
    contradiction
  | ok b =>
    rw [hbase] at h
    simp only [bind, Except.bind, pure, Except.pure] at h
    split at h
    · split at h
      · contradiction
      · split at h
        · contradiction
        · rw [← Except.ok.inj h]
          exact stripped_ofParts _ _ _
    · split at h
      · contradiction
      · split at h
        · rw [← Except.ok.inj h]
          exact stripped_ofParts _ _ _
        · split at h
          · contradiction
          · split at h
            · rename_i c hc
              rw [← Except.ok.inj h]
              exact stripped_of_shiftUp? hc
            · contradiction

theorem stripped_of_readNumber {t : Text} {a : FixedDecimal} (h : readNumber t = .ok a) :
    a.Stripped := by
  unfold readNumber at h
  split at h
  · rename_i b hplain
    rw [← Except.ok.inj h]
    exact stripped_of_readPlain hplain
  · dsimp only at h
    split at h
    · contradiction
    · exact stripped_of_readScientific h

theorem stripped_of_readLiteral {t : Text} {a : FixedDecimal} (h : readLiteral t = .ok a) :
    a.Stripped := by
  unfold readLiteral at h
  dsimp only at h
  split at h
  · exact stripped_of_readNumber (eq_ok_of_mapError h)
  · simp only [bind, Except.bind] at h
    split at h
    · contradiction
    · split at h
      · contradiction
      · split at h
        · rename_i q hq
          rw [← Except.ok.inj h]
          exact stripped_of_div? hq
        · contradiction

/-- Decimals that are read or computed have no trailing zeros. -/
theorem readsInto : arithmetic.ReadsInto Stripped where
  closed := closed
  read_mem h := stripped_of_readLiteral (eq_ok_of_mapError (eq_ok_of_mapError h))

/-! ### Values -/

theorem value_eq_iff {a b : FixedDecimal} :
    a.value = b.value ↔ a.mantissa * 10 ^ b.scale = b.mantissa * 10 ^ a.scale := by
  have hne : ∀ n : Nat, (10 : Rat) ^ n ≠ 0 := fun n => pow_ne_zero n (by decide)
  rw [value, value, div_eq_div_iff (hne _) (hne _)]
  exact_mod_cast Iff.rfl

/-- Without trailing zeros, the number of places is not larger than that of an equal number. -/
theorem scale_le_of_value_eq {a b : FixedDecimal} (hb : b.Stripped) (h : a.value = b.value) :
    b.scale ≤ a.scale := by
  by_contra hlt
  obtain ⟨extra, hextra⟩ : ∃ extra, b.scale = a.scale + (extra + 1) :=
    ⟨b.scale - a.scale - 1, by omega⟩
  have hcross := value_eq_iff.1 h
  have hten : b.mantissa = 10 * (a.mantissa * 10 ^ extra) := by
    apply mul_right_cancel₀ (pow_ne_zero a.scale (show (10 : Int) ≠ 0 by decide))
    rw [← hcross, hextra, pow_add, pow_succ]
    ring
  rcases hb with hzero | hdigit
  · omega
  · exact hdigit ⟨_, hten⟩

/-- Decimals without trailing zeros are determined by their values. -/
theorem eq_of_value_eq {a b : FixedDecimal} (ha : a.Stripped) (hb : b.Stripped)
    (h : a.value = b.value) : a = b := by
  have hscale : a.scale = b.scale :=
    Nat.le_antisymm (scale_le_of_value_eq ha h.symm) (scale_le_of_value_eq hb h)
  have hcross := value_eq_iff.1 h
  rw [hscale] at hcross
  have hmantissa : a.mantissa = b.mantissa :=
    mul_right_cancel₀ (pow_ne_zero b.scale (show (10 : Int) ≠ 0 by decide)) hcross
  obtain ⟨mantissa, scale⟩ := a
  obtain ⟨_, _⟩ := b
  exact congrArg₂ FixedDecimal.mk hmantissa hscale

end PolynomialText.FixedDecimal
