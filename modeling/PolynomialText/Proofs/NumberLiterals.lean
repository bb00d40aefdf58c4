import PolynomialText.Proofs.NumberLaws
import PolynomialText.Proofs.TokenStream

/-!
# Literals of numbers

The literal that a ring of numbers writes for an element is read as the element. The characters of
such literals are digits, minus signs, slashes and the letters of components, so that nothing in
them is dropped or rewritten before reading. A run of digits is read as the sum of that many ones.
-/

namespace PolynomialText

/-- A number as a sum of ones. -/
def Arithmetic.natural {α : Type} (A : Arithmetic α) : Nat → α
  | 0 => A.zero
  | n + 1 => A.add (A.natural n) A.one

/-- A ring that reads literals as everywhere, and digits as sums of ones. -/
structure Arithmetic.NumberRing {α : Type} (A : Arithmetic α) (C : α → Prop) : Prop where
  laws : A.RingLaws C
  readWithin_eq : ∀ limits depth t, A.readWithin limits depth t = (A.read t).mapError Refusal.reason
  read_mem : ∀ {t : Text} {c : α}, A.read t = .ok c → C c
  read_digits : ∀ {t : Text}, t ≠ [] → (∀ c ∈ t, c.isDigit = true) →
    A.read t = .ok (A.natural t.value)

/-! ### Digits -/

/-- A digit is a character of words. -/
theorem isWordChar_of_isDigit {c : Char} (h : c.isDigit = true) : isWordChar c = true := by
  simp [isWordChar, Char.isAlphanum, h]

/-- No digit is white space. -/
theorem isWhite_of_isDigit {c : Char} (h : c.isDigit = true) : Text.isWhite c = false :=
  isWhite_of_isWordChar (isWordChar_of_isDigit h)

/-- A digit differs from every character that is none. -/
theorem ne_of_isDigit {c d : Char} (hc : c.isDigit = true) (hd : d.isDigit = false) :
    c ≠ d := by
  rintro rfl
  rw [hc] at hd
  contradiction

namespace Text

/-- The characters of a decimal numeral are digits. -/
theorem isDigit_of_mem_decimal {n : Nat} {c : Char} (hc : c ∈ decimal n) : c.isDigit = true :=
  List.all_eq_true.1 (allDigits_decimal n) c hc

/-- A decimal numeral starts with a digit. -/
theorem exists_decimal_eq_cons (n : Nat) : ∃ c t, decimal n = c :: t ∧ c.isDigit = true := by
  obtain ⟨c, t, h⟩ := List.exists_cons_of_ne_nil (decimal_ne_nil n)
  exact ⟨c, t, h, isDigit_of_mem_decimal (h ▸ List.mem_cons_self)⟩

/-- A text is cut at the first occurrence of a character. -/
theorem splitOnce?_append {c : Char} {t : Text} (ht : c ∉ t) (u : Text) :
    splitOnce? c (t ++ c :: u) = some (t, u) := by
  induction t with
  | nil => simp [splitOnce?]
  | cons d t ih =>
    have hd : d ≠ c := fun h => ht (h ▸ List.mem_cons_self)
    rw [List.cons_append, splitOnce?, if_neg hd, ih fun h => ht (List.mem_cons_of_mem _ h)]
    rfl

/-- The numeral of a negative integer is that of its negative behind a minus sign. -/
theorem decimalInt_of_neg {z : Int} (h : z < 0) : decimalInt z = '-' :: decimalInt (-z) := by
  cases z with
  | ofNat n => exact absurd h (by simp)
  | negSucc n => rfl

/-- The numeral of an integer that is not negative is that of a natural number. -/
theorem decimalInt_of_nonneg {z : Int} (h : 0 ≤ z) : decimalInt z = decimal z.toNat := by
  cases z with
  | ofNat n => rfl
  | negSucc n => exact absurd h (by simp)

/-- The characters of the numeral of an integer are digits and minus signs. -/
theorem mem_decimalInt {z : Int} {c : Char} (hc : c ∈ decimalInt z) : c.isDigit = true ∨ c = '-' := by
  cases z with
  | ofNat n => exact .inl (isDigit_of_mem_decimal hc)
  | negSucc n =>
    rcases List.mem_cons.1 hc with rfl | hmem
    · exact .inr rfl
    · exact .inl (isDigit_of_mem_decimal hmem)

end Text

namespace Literal

/-- A text without white space and tildes is normal. -/
theorem normalise_eq_self {t : Text} (ht : ∀ c ∈ t, Text.isWhite c = false ∧ c ≠ '~') :
    normalise t = t := by
  have hfilter : t.filter (!Text.isWhite ·) = t :=
    List.filter_eq_self.2 fun c hc => by simp [(ht c hc).1]
  rw [normalise, hfilter]
  conv_rhs => rw [← List.map_id t]
  apply List.map_congr_left
  intro c hc
  simp [(ht c hc).2]

/-- Characters other than white space and tildes are kept. -/
theorem mem_normalise {t : Text} {c : Char} (hc : c ∈ t) (hwhite : ¬ Text.isWhite c = true)
    (htilde : c ≠ '~') : c ∈ normalise t := by
  simp only [normalise, List.mem_map, List.mem_filter]
  exact ⟨c, ⟨hc, by simp [hwhite]⟩, by simp [htilde]⟩

end Literal

namespace Rational

/-- Digits without a sign are read as their value. -/
theorem readDecimal_digits {t : Text} (hne : t ≠ []) (ht : ∀ c ∈ t, c.isDigit = true) :
    readDecimal t = .ok (t.value : Rat) := by
  obtain ⟨c, rest, rfl⟩ := List.exists_cons_of_ne_nil hne
  have hc := ht c List.mem_cons_self
  have hsigned : Literal.signed (c :: rest) = (false, c :: rest) := by
    unfold Literal.signed
    split
    · rename_i heq
      exact absurd (List.cons.inj heq).1 (ne_of_isDigit hc (by decide))
    · rename_i heq
      exact absurd (List.cons.inj heq).1 (ne_of_isDigit hc (by decide))
    · rfl
  have hpoint : Text.splitOnce? '.' (c :: rest) = none :=
    Text.splitOnce?_eq_none_iff.2 fun hmem => absurd (ht _ hmem) (by decide)
  have hdigits : Text.allDigits (c :: rest) = true := List.all_eq_true.2 ht
  simp [readDecimal, hsigned, hpoint, hdigits, Rat.mkRat_one]

/-- The numeral of a natural number is read as the number. -/
theorem readDecimal_decimal (n : Nat) : readDecimal (Text.decimal n) = .ok (n : Rat) := by
  rw [readDecimal_digits (Text.decimal_ne_nil n) fun c hc => Text.isDigit_of_mem_decimal hc,
    Text.value_decimal]

/-- A minus sign in front of digits negates their value. -/
theorem readDecimal_minus {t : Text} (hne : t ≠ []) (ht : ∀ c ∈ t, c.isDigit = true) :
    readDecimal ('-' :: t) = .ok (-(t.value : Rat)) := by
  have hpoint : Text.splitOnce? '.' t = none :=
    Text.splitOnce?_eq_none_iff.2 fun hmem => absurd (ht _ hmem) (by decide)
  have hdigits : Text.allDigits t = true := List.all_eq_true.2 ht
  simp [readDecimal, Literal.signed, hpoint, hdigits, hne, Rat.mkRat_one]

/-- The numeral of an integer is read as the integer. -/
theorem readDecimal_decimalInt (z : Int) : readDecimal (Text.decimalInt z) = .ok (z : Rat) := by
  cases z with
  | ofNat n => exact readDecimal_decimal n
  | negSucc n =>
    have hread := readDecimal_minus (Text.decimal_ne_nil (n + 1))
      fun c hc => Text.isDigit_of_mem_decimal hc
    rw [Text.value_decimal] at hread
    rw [Text.decimalInt, hread, Int.cast_negSucc]

/-- The characters of a rational literal that is written. -/
theorem mem_format {r : Rat} {c : Char} (hc : c ∈ format r) :
    c.isDigit = true ∨ c = '-' ∨ c = '/' := by
  unfold format at hc
  split at hc
  · rcases Text.mem_decimalInt hc with h | h
    · exact .inl h
    · exact .inr (.inl h)
  · rcases List.mem_append.1 hc with hnum | hden
    · rcases Text.mem_decimalInt hnum with h | h
      · exact .inl h
      · exact .inr (.inl h)
    · rcases List.mem_cons.1 hden with rfl | hmem
      · exact .inr (.inr rfl)
      · exact .inl (Text.isDigit_of_mem_decimal hmem)

/-- A written rational literal is normal. -/
theorem normalise_format (r : Rat) : Literal.normalise (format r) = format r := by
  apply Literal.normalise_eq_self
  intro c hc
  rcases mem_format hc with h | rfl | rfl
  · exact ⟨isWhite_of_isDigit h, ne_of_isDigit h (by decide)⟩
  · decide
  · decide

/-- A written rational literal is not empty. -/
theorem format_ne_nil (r : Rat) : format r ≠ [] := by
  have hnum : Text.decimalInt r.num ≠ [] := by
    cases r.num with
    | ofNat n => exact Text.decimal_ne_nil n
    | negSucc n => exact List.cons_ne_nil _ _
  unfold format
  split
  · exact hnum
  · simp

/-- The literal of a rational number is read as the number. -/
theorem readRational_format (r : Rat) : readRational (format r) = .ok r := by
  have hslash : ∀ z : Int, '/' ∉ Text.decimalInt z := by
    intro z hmem
    rcases Text.mem_decimalInt hmem with h | h <;> exact absurd h (by decide)
  simp only [readRational, normalise_format, if_neg (format_ne_nil r)]
  by_cases hden : r.den = 1
  · have hformat : format r = Text.decimalInt r.num := by rw [format, if_pos hden]
    have hint : (r.num : Rat) = r := Rat.coe_int_num_of_den_eq_one hden
    simp only [hformat, Text.splitOnce?_eq_none_iff.2 (hslash r.num), readDecimal_decimalInt, hint]
  · have hformat : format r = Text.decimalInt r.num ++ '/' :: Text.decimal r.den := by
      rw [format, if_neg hden]
    have hne : (r.den : Rat) ≠ 0 := by exact_mod_cast r.den_ne_zero
    simp only [hformat, Text.splitOnce?_append (hslash r.num), readDecimal_decimalInt,
      readDecimal_decimal, bind, Except.bind, if_neg hne, Rat.num_div_den]

/-- A run of digits is read as its value. -/
theorem readRational_digits {t : Text} (hne : t ≠ []) (ht : ∀ c ∈ t, c.isDigit = true) :
    readRational t = .ok (t.value : Rat) := by
  have hnormal : Literal.normalise t = t := Literal.normalise_eq_self fun c hc =>
    ⟨isWhite_of_isDigit (ht c hc), ne_of_isDigit (ht c hc) (by decide)⟩
  have hslash : Text.splitOnce? '/' t = none :=
    Text.splitOnce?_eq_none_iff.2 fun hmem => absurd (ht _ hmem) (by decide)
  simp only [readRational, hnormal, if_neg hne, hslash, readDecimal_digits hne ht]

/-- The literal of a negative number is that of its negative behind a minus sign. -/
theorem format_of_neg {r : Rat} (h : r < 0) : format r = '-' :: format (-r) := by
  have hnum : r.num < 0 := Rat.num_neg.2 h
  simp only [format, Rat.den_neg_eq_den, Rat.num_neg_eq_neg_num, Text.decimalInt_of_neg hnum]
  split <;> rfl

/-- The literal of a number that is not negative starts with a digit. -/
theorem format_of_nonneg {r : Rat} (h : 0 ≤ r) : ∃ c t, format r = c :: t ∧ c.isDigit = true := by
  have hnum : 0 ≤ r.num := Rat.num_nonneg.2 h
  obtain ⟨c, t, hdecimal, hc⟩ := Text.exists_decimal_eq_cons r.num.toNat
  simp only [format, Text.decimalInt_of_nonneg hnum, hdecimal]
  split
  · exact ⟨c, t, rfl, hc⟩
  · exact ⟨c, t ++ '/' :: Text.decimal r.den, rfl, hc⟩

/-- A literal starts with a minus sign exactly in front of the literal of the negative. -/
theorem eq_format_neg_of_minus {r : Rat} {size : Text} (h : format r = '-' :: size) :
    size = format (-r) := by
  by_cases hneg : r < 0
  · rw [format_of_neg hneg] at h
    exact (List.cons.inj h).2.symm
  · obtain ⟨c, t, hformat, hc⟩ := format_of_nonneg (not_lt.1 hneg)
    rw [h] at hformat
    rw [← (List.cons.inj hformat).1] at hc
    exact absurd hc (by decide)

end Rational

namespace Integer

/-- A run of digits is a natural number. -/
theorem readNatural_digits {t : Text} (hne : t ≠ []) (ht : ∀ c ∈ t, c.isDigit = true) :
    readNatural t = .ok t.value := by
  obtain ⟨c, rest, rfl⟩ := List.exists_cons_of_ne_nil hne
  have hplus : c ≠ '+' := ne_of_isDigit (ht c List.mem_cons_self) (by decide)
  have hscore : c ≠ '_' := ne_of_isDigit (ht c List.mem_cons_self) (by decide)
  have hfilter : (c :: rest).filter (· ≠ '_') = c :: rest := List.filter_eq_self.2 fun d hd =>
    decide_eq_true (ne_of_isDigit (ht d hd) (by decide))
  have hdigits : Text.allDigits (c :: rest) = true := List.all_eq_true.2 ht
  unfold readNatural
  dsimp only
  split
  · rename_i heq
    split at heq <;> simp_all
  · rename_i heq
    split at heq <;> simp_all
  · split
    · rename_i heq
      exact absurd (List.cons.inj heq).1 hplus
    · rename_i heq
      exact absurd (List.cons.inj heq).1 hplus
    · rw [hfilter, if_pos hdigits]

/-- A run of digits is an integer. -/
theorem readInteger_digits {t : Text} (hne : t ≠ []) (ht : ∀ c ∈ t, c.isDigit = true) :
    readInteger t = .ok (t.value : Int) := by
  obtain ⟨c, rest, rfl⟩ := List.exists_cons_of_ne_nil hne
  have hminus : c ≠ '-' := ne_of_isDigit (ht c List.mem_cons_self) (by decide)
  unfold readInteger
  split
  · rename_i heq
    exact absurd (List.cons.inj heq).1 hminus
  · rename_i heq
    exact absurd (List.cons.inj heq).1 hminus
  · rw [readNatural_digits hne ht]
    rfl

/-- A minus sign in front of digits negates their value. -/
theorem readInteger_minus {t : Text} (hne : t ≠ []) (ht : ∀ c ∈ t, c.isDigit = true) :
    readInteger ('-' :: t) = .ok (-(t.value : Int)) := by
  obtain ⟨c, rest, rfl⟩ := List.exists_cons_of_ne_nil hne
  have hplus : c ≠ '+' := ne_of_isDigit (ht c List.mem_cons_self) (by decide)
  unfold readInteger
  split
  · rename_i heq
    exact absurd (List.cons.inj (List.cons.inj heq).2).1 hplus
  · rename_i heq
    rw [← (List.cons.inj heq).2, readNatural_digits hne ht]
    rfl
  · rename_i hnot
    exact absurd rfl (hnot _)

/-- An integer literal without white space, tildes and a plus sign is read as it is. -/
theorem read_eq_ok {t : Text} {z : Int} (ht : ∀ c ∈ t, c.isDigit = true ∨ c = '-')
    (hz : readInteger t = .ok z) : read t = .ok z := by
  have hnormal : Literal.normalise t = t := by
    apply Literal.normalise_eq_self
    intro c hc
    rcases ht c hc with h | rfl
    · exact ⟨isWhite_of_isDigit h, ne_of_isDigit h (by decide)⟩
    · decide
  have hdrop : Text.dropOne '+' t = t := by
    cases t with
    | nil => rfl
    | cons c rest =>
      have hc : c ≠ '+' := by
        rcases ht c List.mem_cons_self with h | rfl
        · exact ne_of_isDigit h (by decide)
        · decide
      simp [Text.dropOne, Text.strip?, hc]
  rw [read, hnormal, hdrop, hz]
  rfl

/-- A run of digits is read as its value. -/
theorem read_digits {t : Text} (hne : t ≠ []) (ht : ∀ c ∈ t, c.isDigit = true) :
    read t = .ok (t.value : Int) :=
  read_eq_ok (fun c hc => .inl (ht c hc)) (readInteger_digits hne ht)

/-- The literal of an integer is read as the integer. -/
theorem read_decimalInt (z : Int) : read (Text.decimalInt z) = .ok z := by
  apply read_eq_ok (fun c hc => Text.mem_decimalInt hc)
  have hdigits : ∀ n, ∀ c ∈ Text.decimal n, c.isDigit = true := fun n c hc =>
    Text.isDigit_of_mem_decimal hc
  cases z with
  | ofNat n =>
    rw [Text.decimalInt, readInteger_digits (Text.decimal_ne_nil n) (hdigits n), Text.value_decimal]
    rfl
  | negSucc n =>
    rw [Text.decimalInt, readInteger_minus (Text.decimal_ne_nil _) (hdigits _), Text.value_decimal]
    rfl

end Integer

namespace Residue

/-- One is its own inverse. -/
theorem inverse?_one {m : Nat} (hm : 2 ≤ m) : inverse? m 1 = some 1 := by
  have hone : (1 : Int) % m = 1 := Int.emod_eq_of_lt (by decide) (by omega)
  have heuclid : euclid m 0 1 1 (m + 1) = (1, 1) := by
    obtain ⟨n, rfl⟩ : ∃ n, m = n + 1 := ⟨m - 1, by omega⟩
    simp [euclid]
  simp [inverse?, hone, heuclid]

/-- The residue of an integer. -/
theorem ofRat?_intCast {m : Nat} (hm : 2 ≤ m) (z : Int) : ofRat? m z = some (z % m).toNat := by
  have hden : ((z : Rat).den : Int) = 1 := by simp
  rw [ofRat?, hden, inverse?_one hm]
  simp

/-- The residue of a rational number is reduced. -/
theorem lt_of_ofRat?_eq_some {m : Nat} (hm : 2 ≤ m) {r : Rat} {a : Nat} (h : ofRat? m r = some a) :
    a < m := by
  obtain ⟨d, _, rfl⟩ := Option.map_eq_some_iff.1 h
  have hpos : (0 : Int) < m := by omega
  have hlt := Int.emod_lt_of_pos (r.num * d) hpos
  have hnonneg := Int.emod_nonneg (r.num * d) (Int.ne_of_gt hpos)
  omega

/-- A residue that is read is reduced. -/
theorem lt_of_read_eq_ok {m : Nat} (hm : 2 ≤ m) {t : Text} {a : Nat} (h : read m t = .ok a) :
    a < m := by
  unfold read at h
  split at h
  · contradiction
  · split at h
    · rename_i hsome
      cases h
      exact lt_of_ofRat?_eq_some hm hsome
    · contradiction

/-- A run of digits is read as the residue of its value. -/
theorem read_digits {m : Nat} (hm : 2 ≤ m) {t : Text} (hne : t ≠ []) (ht : ∀ c ∈ t, c.isDigit = true) :
    read m t = .ok (t.value % m) := by
  have hresidue := ofRat?_intCast hm t.value
  rw [Int.cast_natCast] at hresidue
  simp only [read, Rational.readRational_digits hne ht, hresidue]
  norm_cast

end Residue

namespace Literal

/-- Without separators there is one part, and empty ones behind it. -/
theorem components_of_not_mem {separators : List Char} {t : Text} (h : ∀ c ∈ separators, c ∉ t) :
    components separators t = t :: List.replicate separators.length [] := by
  induction separators with
  | nil => rfl
  | cons c rest ih =>
    have hsplit : Text.splitOnce? c t = none :=
      Text.splitOnce?_eq_none_iff.2 (h c List.mem_cons_self)
    simp only [components, hsplit, ih fun d hd => h d (List.mem_cons_of_mem _ hd), List.length_cons,
      List.replicate_succ]

/-- A text with every separator is cut into its parts. -/
theorem components_zipWith {separators : List Char} {first : Text} {parts : List Text}
    (hlength : parts.length = separators.length)
    (h : ∀ c ∈ separators, c ∉ first ∧ ∀ part ∈ parts, c ∉ part) :
    components separators (first ++ (List.zipWith List.cons separators parts).flatten) =
      first :: parts := by
  induction separators generalizing first parts with
  | nil =>
    obtain rfl : parts = [] := List.length_eq_zero_iff.1 hlength
    simp [components]
  | cons c rest ih =>
    cases parts with
    | nil => exact absurd hlength (by simp)
    | cons part parts =>
      have hsplit := Text.splitOnce?_append (h c List.mem_cons_self).1
        (part ++ (List.zipWith List.cons rest parts).flatten)
      simp only [List.zipWith_cons_cons, List.flatten_cons, List.cons_append, components, hsplit]
      rw [ih (Nat.succ.inj hlength) fun d hd => ?_]
      have hd' := (h d (List.mem_cons_of_mem _ hd)).2
      exact ⟨hd' part List.mem_cons_self, fun p hp => hd' p (List.mem_cons_of_mem _ hp)⟩

end Literal

namespace Components

/-- Letters that separate components: they occur in no rational literal and are kept when a literal
is made normal. -/
def Separators (separators : List Char) : Prop :=
  ∀ c ∈ separators, c.isDigit = false ∧ c ≠ '-' ∧ c ≠ '/' ∧ c ≠ '.' ∧ Text.isWhite c = false ∧ c ≠ '~'

instance : DecidablePred Separators := fun separators => List.decidableBAll _ separators

variable {separators : List Char} {first : Rat} {others : List Rat}

/-- No separator occurs in a rational literal. -/
theorem Separators.not_mem_format (h : Separators separators) {c : Char} (hc : c ∈ separators)
    (r : Rat) : c ∉ Rational.format r := by
  intro hmem
  obtain ⟨hdigit, hminus, hslash, _⟩ := h c hc
  rcases Rational.mem_format hmem with hyes | rfl | rfl
  · rw [hdigit] at hyes
    contradiction
  · exact hminus rfl
  · exact hslash rfl

/-- The part of a literal behind the first component. -/
theorem format_eq (separators : List Char) (first : Rat) (others : List Rat) :
    format separators first others = Rational.format first ++ if others.all (· = 0) then []
      else (List.zipWith List.cons separators (others.map Rational.format)).flatten := by
  simp only [format, List.zipWith_map_right]

/-- The characters of a literal with components. -/
theorem mem_format {c : Char} (hc : c ∈ format separators first others) :
    c.isDigit = true ∨ c = '-' ∨ c = '/' ∨ c ∈ separators := by
  have hrational : ∀ {r : Rat}, c ∈ Rational.format r →
      c.isDigit = true ∨ c = '-' ∨ c = '/' ∨ c ∈ separators := by
    intro r hr
    rcases Rational.mem_format hr with h | h | h
    · exact .inl h
    · exact .inr (.inl h)
    · exact .inr (.inr (.inl h))
  rcases List.mem_append.1 hc with hfirst | hothers
  · exact hrational hfirst
  · split at hothers
    · exact absurd hothers List.not_mem_nil
    · obtain ⟨part, hpart, hmem⟩ := List.mem_flatten.1 hothers
      obtain ⟨n, hn, rfl⟩ := List.mem_iff_getElem.1 hpart
      rw [List.getElem_zipWith] at hmem
      rcases List.mem_cons.1 hmem with rfl | hr
      · exact .inr (.inr (.inr (List.getElem_mem _)))
      · exact hrational hr

/-- A written literal with components is normal. -/
theorem normalise_format (h : Separators separators) :
    Literal.normalise (format separators first others) = format separators first others := by
  apply Literal.normalise_eq_self
  intro c hc
  rcases mem_format hc with hdigit | rfl | rfl | hmem
  · exact ⟨isWhite_of_isDigit hdigit, ne_of_isDigit hdigit (by decide)⟩
  · decide
  · decide
  · exact (h c hmem).2.2.2.2

/-- The parts of a literal are read one by one. -/
theorem mapM_readOne {parts : List Text} {values : List Rat}
    (h : List.Forall₂ (fun part value => readOne part = .ok value) parts values) :
    parts.mapM readOne = .ok values := by
  induction h with
  | nil => rfl
  | cons hhead _ ih =>
    rw [List.mapM_cons, hhead, ih]
    rfl

/-- A rational literal is a component. -/
theorem readOne_format (r : Rat) : readOne (Rational.format r) = .ok r := by
  rw [readOne, if_neg (Rational.format_ne_nil r), Rational.readRational_format]

/-- The literal of components is read as the components. -/
theorem read_format (ring : Text) (h : Separators separators)
    (hlength : others.length = separators.length) :
    read ring separators (format separators first others) = .ok (first :: others) := by
  have hparts : ∀ parts, Literal.components separators (format separators first others) =
      Rational.format first :: parts →
      List.Forall₂ (fun part value => readOne part = .ok value) parts others →
      read ring separators (format separators first others) = .ok (first :: others) := by
    intro parts hcomponents hvalues
    have hne : ¬ ((Rational.format first :: parts).all (· = []) = true) := by
      simp [Rational.format_ne_nil]
    simp only [read, normalise_format h, hcomponents, if_neg hne,
      mapM_readOne (List.Forall₂.cons (readOne_format first) hvalues)]
    rfl
  by_cases hzero : others.all (· = 0) = true
  · refine hparts (List.replicate separators.length []) ?_ ?_
    · rw [format_eq, if_pos hzero, List.append_nil]
      exact Literal.components_of_not_mem fun c hc => h.not_mem_format hc first
    · have hothers : others = List.replicate separators.length 0 := by
        refine List.eq_replicate_iff.2 ⟨hlength, ?_⟩
        simpa using hzero
      rw [hothers]
      induction separators.length with
      | zero => exact List.Forall₂.nil
      | succ n ih => exact List.Forall₂.cons rfl ih
  · refine hparts (others.map Rational.format) ?_ ?_
    · rw [format_eq, if_neg hzero]
      apply Literal.components_zipWith (by simpa using hlength)
      intro c hc
      refine ⟨h.not_mem_format hc first, fun part hpart => ?_⟩
      obtain ⟨r, _, rfl⟩ := List.mem_map.1 hpart
      exact h.not_mem_format hc r
    · exact List.forall₂_map_left_iff.2 (List.forall₂_same.2 fun r _ => readOne_format r)

/-- A run of digits is read as a first component. -/
theorem read_digits (ring : Text) (h : Separators separators) {t : Text} (hne : t ≠ [])
    (ht : ∀ c ∈ t, c.isDigit = true) :
    read ring separators t = .ok ((t.value : Rat) :: List.replicate separators.length 0) := by
  have hnormal : Literal.normalise t = t := Literal.normalise_eq_self fun c hc =>
    ⟨isWhite_of_isDigit (ht c hc), ne_of_isDigit (ht c hc) (by decide)⟩
  have hnone : ∀ c ∈ separators, c ∉ t := by
    intro c hc hmem
    have hdigit := ht c hmem
    rw [(h c hc).1] at hdigit
    contradiction
  have hfirst : readOne t = .ok (t.value : Rat) := by
    rw [readOne, if_neg hne, Rational.readRational_digits hne ht]
  have hnot : ¬ ((t :: List.replicate separators.length []).all (· = []) = true) := by
    simp [hne]
  have hzeros : List.Forall₂ (fun part value => readOne part = .ok value)
      (List.replicate separators.length []) (List.replicate separators.length 0) := by
    induction separators.length with
    | zero => exact List.Forall₂.nil
    | succ n ih => exact List.Forall₂.cons rfl ih
  simp only [read, hnormal, Literal.components_of_not_mem hnone, if_neg hnot,
    mapM_readOne (List.Forall₂.cons hfirst hzeros)]
  rfl

/-- A plain numeral behind a minus sign is the literal of the negative components. -/
theorem eq_format_neg_of_minus (h : Separators separators)
    (hlength : others.length = separators.length) {size : Text}
    (hsize : format separators first others = '-' :: size)
    (hplain : PolyRing.isPlainNumeral size = true) :
    size = format separators (-first) (others.map (- ·)) := by
  by_cases hzero : others.all (· = 0) = true
  · have hnegzero : (others.map (- ·)).all (· = 0) = true := by
      simpa using hzero
    rw [format_eq, if_pos hzero, List.append_nil] at hsize
    rw [format_eq, if_pos hnegzero, List.append_nil]
    exact Rational.eq_format_neg_of_minus hsize
  · rw [format_eq, if_neg hzero] at hsize
    cases separators with
    | nil =>
      obtain rfl : others = [] := List.length_eq_zero_iff.1 hlength
      exact absurd rfl hzero
    | cons c rest =>
      obtain ⟨r, others, rfl⟩ := List.exists_cons_of_length_eq_add_one hlength
      obtain ⟨hdigit, hminus, hslash, hpoint, _⟩ := h c List.mem_cons_self
      have hmem : c ∈ '-' :: size := by
        rw [← hsize]
        simp
      have hc : c ∈ size := (List.mem_cons.1 hmem).resolve_left hminus
      have hall := List.all_eq_true.1 (Bool.and_eq_true _ _ ▸ hplain).2 c hc
      simp [hdigit, hslash, hpoint] at hall

end Components

namespace Gaussian

/-- The letter between the components. -/
theorem separators : Components.Separators ['i'] := by decide

/-- The literal of a complex number is read as the number. -/
theorem read_format (a : Gaussian) : read (format a) = .ok a := by
  rw [read, format, Components.read_format _ separators rfl]
  rfl

/-- A run of digits is read as a real number. -/
theorem read_digits {t : Text} (hne : t ≠ []) (ht : ∀ c ∈ t, c.isDigit = true) :
    read t = .ok ⟨t.value, 0⟩ := by
  rw [read, Components.read_digits _ separators hne ht]
  rfl

end Gaussian

namespace Quaternion

/-- The letters between the components. -/
theorem separators : Components.Separators ['i', 'j', 'k'] := by decide

/-- The literal of a quaternion is read as the quaternion. -/
theorem readFor_format (ring : Text) (a : Quaternion) : readFor ring (format a) = .ok a := by
  rw [readFor, format, Components.read_format _ separators rfl]
  rfl

/-- A run of digits is read as a real number. -/
theorem readFor_digits (ring : Text) {t : Text} (hne : t ≠ []) (ht : ∀ c ∈ t, c.isDigit = true) :
    readFor ring t = .ok ⟨t.value, 0, 0, 0⟩ := by
  rw [readFor, Components.read_digits _ separators hne ht]
  rfl

/-- The literal of a quaternion is not empty. -/
theorem format_ne_nil (a : Quaternion) : format a ≠ [] := by
  simp [format, Components.format, Rational.format_ne_nil]

end Quaternion

namespace Octonion

/-- The characters of the literal of an octonion. -/
theorem mem_format {x : Octonion} {c : Char} (hc : c ∈ format x) :
    c.isDigit = true ∨ c = '-' ∨ c = '/' ∨ c ∈ ['i', 'j', 'k'] ∨ c = 'o' := by
  have hhalf : ∀ {a : Quaternion}, c ∈ a.format →
      c.isDigit = true ∨ c = '-' ∨ c = '/' ∨ c ∈ ['i', 'j', 'k'] ∨ c = 'o' := by
    intro a ha
    rcases Components.mem_format ha with h | h | h | h
    · exact .inl h
    · exact .inr (.inl h)
    · exact .inr (.inr (.inl h))
    · exact .inr (.inr (.inr (.inl h)))
  rcases List.mem_append.1 hc with hleft | hright
  · exact hhalf hleft
  · split at hright
    · exact absurd hright List.not_mem_nil
    · rcases List.mem_cons.1 hright with rfl | hmem
      · exact .inr (.inr (.inr (.inr rfl)))
      · exact hhalf hmem

/-- The letter between the halves occurs in neither. -/
theorem not_mem_format_half (a : Quaternion) : 'o' ∉ a.format := by
  intro hmem
  rcases Components.mem_format hmem with h | h | h | h <;> exact absurd h (by decide)

/-- The literal of an octonion is read as the octonion. -/
theorem read_format (x : Octonion) : read (format x) = .ok x := by
  have hnormal : Literal.normalise (format x) = format x := by
    apply Literal.normalise_eq_self
    intro c hc
    rcases mem_format hc with h | rfl | rfl | h | rfl
    · exact ⟨isWhite_of_isDigit h, ne_of_isDigit h (by decide)⟩
    · decide
    · decide
    · exact (Quaternion.separators c h).2.2.2.2
    · decide
  have hhalf : ∀ a : Quaternion, readHalf a.format = .ok a := by
    intro a
    rw [readHalf, if_neg a.format_ne_nil, Quaternion.readFor_format]
  by_cases hright : x.right = .ofRat 0
  · have hsplit := Text.splitOnce?_eq_none_iff.2 (not_mem_format_half x.left)
    have hformat : format x = x.left.format := by rw [format, if_pos hright, List.append_nil]
    have hzero : readHalf [] = .ok x.right := by rw [hright]; rfl
    rw [hformat] at hnormal
    simp only [read, hnormal, hsplit, hformat, Option.getD_none, x.left.format_ne_nil, false_and,
      if_false, hhalf, hzero]
    rfl
  · have hformat : format x = x.left.format ++ 'o' :: x.right.format := by
      rw [format, if_neg hright]
    have hsplit := Text.splitOnce?_append (not_mem_format_half x.left) x.right.format
    rw [← hformat] at hsplit
    simp only [read, hnormal, hsplit, Option.getD_some, x.left.format_ne_nil, false_and, if_false,
      hhalf]
    rfl

/-- A plain numeral behind a minus sign is the literal of the negative octonion. -/
theorem eq_format_neg_of_minus {x : Octonion} {size : Text} (hsize : format x = '-' :: size)
    (hplain : PolyRing.isPlainNumeral size = true) : size = format x.neg := by
  by_cases hright : x.right = .ofRat 0
  · have hneg : x.neg.right = .ofRat 0 := by
      rw [neg, hright]
      rfl
    rw [format, if_pos hright, List.append_nil] at hsize
    rw [format, if_pos hneg, List.append_nil]
    exact Components.eq_format_neg_of_minus Quaternion.separators rfl hsize hplain
  · have hmem : 'o' ∈ '-' :: size := by
      rw [← hsize, format, if_neg hright]
      simp
    have ho : 'o' ∈ size := (List.mem_cons.1 hmem).resolve_left (by decide)
    exact absurd (List.all_eq_true.1 (Bool.and_eq_true _ _ ▸ hplain).2 'o' ho) (by decide)

end Octonion

end PolynomialText
