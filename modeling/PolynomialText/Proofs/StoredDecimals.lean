import PolynomialText.Proofs.StrippedDecimals

/-!
# Decimals that fit

Every decimal that is read or computed has a mantissa below the bound and at most the largest number
of places. A product with one is formed without rounding for such decimals and gives them back.
-/

namespace PolynomialText

theorem roundDiv_le (n d : Nat) : roundDiv n d ≤ n / d + 1 := by
  unfold roundDiv
  dsimp only
  split
  · omega
  · omega

theorem roundDiv_one (n : Nat) : roundDiv n 1 = n := by
  simp [roundDiv, Nat.mod_one]

namespace FixedDecimal

/-- The mantissa and the places fit, and there is no zero at the end of the fraction. -/
structure Stored (a : FixedDecimal) : Prop where
  stripped : a.Stripped
  mantissa_lt : a.mantissa.natAbs < bound
  scale_le : a.scale ≤ maxScale

theorem strip_le (m scale : Nat) : (strip m scale).1 ≤ m ∧ (strip m scale).2 ≤ scale := by
  induction scale generalizing m with
  | zero => exact ⟨Nat.le_refl _, Nat.le_refl _⟩
  | succ scale ih =>
    rw [strip]
    split
    · exact ⟨Nat.le_trans (ih (m / 10)).1 (Nat.div_le_self m 10), Nat.le_succ_of_le (ih (m / 10)).2⟩
    · exact ⟨Nat.le_refl _, Nat.le_refl _⟩

theorem stored_ofParts (negative : Bool) {m scale : Nat} (hm : m < bound) (hscale : scale ≤ maxScale) :
    (ofParts negative m scale).Stored := by
  have hle := strip_le m scale
  refine ⟨stripped_ofParts negative m scale, ?_, Nat.le_trans hle.2 hscale⟩
  unfold ofParts
  dsimp only
  split <;> omega

theorem bounds_of_fit? {m scale : Nat} {parts : Nat × Nat} (h : fit? m scale = some parts) :
    parts.1 < bound ∧ parts.2 ≤ maxScale := by
  obtain ⟨dropped, hfound, h⟩ := Option.bind_eq_some_iff.1 h
  have hfits := List.find?_some hfound
  simp only [Bool.and_eq_true, decide_eq_true_eq] at hfits
  have hround := roundDiv_le m (Nat.pow 10 dropped)
  dsimp only at h
  split at h
  · rename_i hlt
    rw [← Option.some.inj h]
    exact ⟨hlt, hfits.1⟩
  · split at h
    · contradiction
    · rw [← Option.some.inj h]
      have hagain := roundDiv_le (roundDiv m (Nat.pow 10 dropped)) 10
      have hbound : 20 < bound := by decide
      dsimp only
      omega

theorem stored_saturated (overflowNegative negative : Bool) (m scale : Nat) :
    (saturated overflowNegative negative m scale).Stored := by
  unfold saturated
  split
  · rename_i m' scale' hfit
    have hbounds := bounds_of_fit? hfit
    exact stored_ofParts _ hbounds.1 hbounds.2
  · exact stored_ofParts _ (by decide) (by decide)

/-- Decimals that fit are closed under the arithmetic. -/
theorem closed_stored : arithmetic.Closed Stored where
  zero := ⟨closed.zero, by decide, by decide⟩
  one := ⟨closed.one, by decide, by decide⟩
  add {a b} ha hb := by
    change (add a b).Stored
    unfold add
    split
    · exact hb
    · split
      · exact ha
      · exact stored_saturated _ _ _ _
  mul _ _ := stored_saturated _ _ _ _
  neg {a} ha := ⟨ha.stripped.neg, by simpa [arithmetic, FixedDecimal.neg] using ha.mantissa_lt, ha.scale_le⟩
  neg_ne_zero ha := closed.neg_ne_zero ha.stripped

/-! ### Literals -/

theorem bounds_of_roundUp {digit m scale : Nat} {parts : Nat × Nat}
    (h : roundUp digit m scale = .ok parts) (hm : m < bound) (hscale : scale ≤ maxScale) :
    parts.1 < bound ∧ parts.2 ≤ maxScale := by
  have hbound : 20 < bound := by decide
  unfold roundUp at h
  split at h
  · rw [← Except.ok.inj h]
    exact ⟨hm, hscale⟩
  · split at h
    · rename_i hlt
      rw [← Except.ok.inj h]
      exact ⟨hlt, hscale⟩
    · split at h
      · contradiction
      · rw [← Except.ok.inj h]
        dsimp only
        omega

theorem bounds_of_readDigits {point digits : Bool} {m scale : Nat} {t : Text} {parts : Nat × Nat}
    (h : readDigits point digits m scale t = .ok parts) (hm : m < bound) (hscale : scale ≤ maxScale) :
    parts.1 < bound ∧ parts.2 ≤ maxScale := by
  induction t generalizing point digits m scale with
  | nil =>
    rw [readDigits] at h
    split at h
    · rw [← Except.ok.inj h]
      exact ⟨hm, hscale⟩
    · contradiction
  | cons c rest ih =>
    rw [readDigits] at h
    split at h
    · dsimp only at h
      split at h
      · split at h
        · simp only [bind, Except.bind] at h
          split at h
          · contradiction
          · rename_i rounded hround
            split at h
            · contradiction
            · rw [← Except.ok.inj h]
              exact bounds_of_roundUp hround hm hscale
        · contradiction
      · rename_i hfits
        refine ih h (by omega) ?_
        split <;> omega
    · split at h
      · exact ih h hm hscale
      · split at h
        · split at h
          · simp only [bind, Except.bind] at h
            split at h
            · contradiction
            · rw [← Except.ok.inj h]
              exact ⟨hm, hscale⟩
          · exact ih h hm hscale
        · contradiction

theorem stored_of_readPlain {t : Text} {a : FixedDecimal} (h : readPlain t = .ok a) : a.Stored := by
  unfold readPlain at h
  split at h
  · contradiction
  · cases hdigits : readDigits false false 0 0 (Literal.signed t).2 with
    | error fault =>
      simp only [hdigits] at h
      contradiction
    | ok parts =>
      simp only [hdigits] at h
      rw [← Except.ok.inj h]
      have hbounds := bounds_of_readDigits hdigits (by decide) (by decide)
      exact stored_ofParts _ hbounds.1 hbounds.2

theorem stored_shiftDown {a : FixedDecimal} (ha : a.Stored) (exponent : Nat) :
    (a.shiftDown exponent).Stored := by
  have hm := ha.mantissa_lt
  unfold shiftDown
  dsimp only
  refine stored_ofParts _ ?_ (by omega)
  split
  · exact hm
  · rename_i hexcess
    obtain ⟨k, hk⟩ := Nat.exists_eq_succ_of_ne_zero hexcess
    have hpos : 0 < Nat.pow 10 k := Nat.pow_pos (by decide)
    have hpow : Nat.pow 10 (k + 1) = Nat.pow 10 k * 10 := rfl
    have hbound : bound = 79228162514264337593543950336 := rfl
    rw [hk, Nat.succ_sub_one, Nat.succ_eq_add_one, Nat.div_lt_iff_lt_mul (by omega), hpow]
    generalize Nat.pow 10 k = unit at hpos
    rw [hbound] at hm ⊢
    omega

theorem stored_of_shiftUp? {a b : FixedDecimal} {exponent : Nat} (h : a.shiftUp? exponent = some b) :
    b.Stored := by
  obtain ⟨first, -, h⟩ := Option.bind_eq_some_iff.1 h
  obtain ⟨second, hsecond, h⟩ := Option.bind_eq_some_iff.1 h
  have hbounds := bounds_of_fit? hsecond
  rw [← Option.some.inj h]
  exact stored_ofParts _ hbounds.1 hbounds.2

theorem stored_of_div? {a b c : FixedDecimal} (h : a.div? b = some c) : c.Stored := by
  unfold div? at h
  split at h
  · contradiction
  · obtain ⟨scale, hscale, h⟩ := Option.bind_eq_some_iff.1 h
    have hfits := List.find?_some hscale
    have hmem := List.mem_of_find?_eq_some hscale
    simp only [decide_eq_true_eq] at hfits
    simp only [List.mem_reverse, List.mem_range] at hmem
    dsimp only at h
    split at h
    · rw [← Option.some.inj h]
      exact stored_ofParts _ hfits (by omega)
    · rename_i hplaces
      rw [← Option.some.inj h]
      refine stored_ofParts _ (Nat.lt_of_le_of_lt (roundDiv_le _ _) ?_) (by decide)
      have hten : 10 ≤ Nat.pow 10 (scale - quotientScale) :=
        Nat.le_self_pow (Nat.sub_ne_zero_of_lt (Nat.lt_of_not_le hplaces)) 10
      have hbound : 20 < bound := by decide
      have hle := Nat.div_le_div_left (a := roundDiv (a.mantissa.natAbs * Nat.pow 10 (scale + b.scale))
        (b.mantissa.natAbs * Nat.pow 10 a.scale)) hten (by decide)
      omega

theorem stored_of_readScientific {base exponent : Text} {a : FixedDecimal}
    (h : readScientific base exponent = .ok a) : a.Stored := by
  unfold readScientific at h
  cases hbase : readPlain base with
  | error fault =>
    rw [hbase] at h
    contradiction
  | ok b =>
    have hb := stored_of_readPlain hbase
    rw [hbase] at h
    simp only [bind, Except.bind, pure, Except.pure] at h
    split at h
    · split at h
      · contradiction
      · split at h
        · contradiction
        · rw [← Except.ok.inj h]
          exact stored_shiftDown hb _
    · split at h
      · contradiction
      · split at h
        · rw [← Except.ok.inj h]
          exact stored_ofParts _ hb.mantissa_lt (Nat.le_trans (Nat.sub_le _ _) hb.scale_le)
        · split at h
          · contradiction
          · split at h
            · rename_i c hc
              rw [← Except.ok.inj h]
              exact stored_of_shiftUp? hc
            · contradiction

theorem stored_of_readNumber {t : Text} {a : FixedDecimal} (h : readNumber t = .ok a) : a.Stored := by
  unfold readNumber at h
  split at h
  · rename_i b hplain
    rw [← Except.ok.inj h]
    exact stored_of_readPlain hplain
  · dsimp only at h
    split at h
    · contradiction
    · exact stored_of_readScientific h

theorem stored_of_readLiteral {t : Text} {a : FixedDecimal} (h : readLiteral t = .ok a) : a.Stored := by
  unfold readLiteral at h
  dsimp only at h
  split at h
  · exact stored_of_readNumber (eq_ok_of_mapError h)
  · simp only [bind, Except.bind] at h
    split at h
    · contradiction
    · split at h
      · contradiction
      · split at h
        · rename_i q hq
          rw [← Except.ok.inj h]
          exact stored_of_div? hq
        · contradiction

/-- Decimals that are read or computed fit. -/
theorem readsInto_stored : arithmetic.ReadsInto Stored where
  closed := closed_stored
  read_mem h := stored_of_readLiteral (eq_ok_of_mapError (eq_ok_of_mapError h))

/-! ### The product with one -/

theorem fit?_of_fits {m scale : Nat} (hm : m < bound) (hscale : scale ≤ maxScale) :
    fit? m scale = some (m, scale) := by
  have hfirst : (List.range (scale + 1)).find?
      (fun k => scale - k ≤ maxScale && m / Nat.pow 10 k < bound) = some 0 := by
    rw [List.range_succ_eq_map, List.find?_cons_of_pos]
    simp [hm, hscale]
  unfold fit?
  rw [hfirst]
  simp [roundDiv_one, hm]

theorem ofParts_of_stripped {a : FixedDecimal} (ha : a.Stripped) :
    ofParts (a.mantissa < 0) a.mantissa.natAbs a.scale = a := by
  obtain ⟨mantissa, scale⟩ := a
  have hstrip : strip mantissa.natAbs scale = (mantissa.natAbs, scale) := by
    cases scale with
    | zero => rfl
    | succ scale =>
      have hdigit : ¬ mantissa.natAbs % 10 = 0 := by
        rcases ha with hzero | hdigit
        · contradiction
        · dsimp only at hdigit
          omega
      rw [strip, if_neg hdigit]
  unfold ofParts
  rw [hstrip]
  have hsign : (if decide (mantissa < 0) = true then -(mantissa.natAbs : Int) else mantissa.natAbs) =
      mantissa := by
    simp only [decide_eq_true_eq]
    split <;> omega
  exact congrArg (FixedDecimal.mk · scale) hsign

/-- One is a neutral factor from the left. -/
theorem one_mul {a : FixedDecimal} (ha : a.Stored) : mul ⟨1, 0⟩ a = a := by
  unfold mul saturated
  simp only [Int.one_mul, Nat.zero_add]
  rw [fit?_of_fits ha.mantissa_lt ha.scale_le]
  exact ofParts_of_stripped ha.stripped

end FixedDecimal

end PolynomialText
