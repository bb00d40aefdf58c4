import PolynomialText.CoefficientRing
import PolynomialText.Proofs.ResidueMaps

/-!
# Characters of literals

Every ring of numbers takes literals of the same few characters: digits, signs, points, slashes,
underscores, white space, the letters between components and the letter of an exponent. A text with
any other character is refused by all of them.
-/

namespace PolynomialText

/-- The characters of literals of numbers. -/
def isNumberChar (c : Char) : Bool :=
  c.isDigit || Text.isWhite c || "~+-./_ijkoeE".toList.contains c

/-- Every character can stand in a literal of a number. -/
def Text.Numeric (t : Text) : Prop := ∀ c ∈ t, isNumberChar c = true

instance (t : Text) : Decidable t.Numeric := List.decidableBAll _ t

theorem isNumberChar_of_isDigit {c : Char} (h : c.isDigit = true) : isNumberChar c = true := by
  simp [isNumberChar, h]

theorem isNumberChar_of_mem {c : Char} (h : c ∈ "~+-./_ijkoeE".toList) : isNumberChar c = true := by
  rw [isNumberChar, List.contains_iff_mem.2 h, Bool.or_true]

namespace Text.Numeric

variable {t u : Text}

theorem nil : Numeric [] := fun _ hc => absurd hc List.not_mem_nil

theorem cons {c : Char} (hc : isNumberChar c = true) (ht : t.Numeric) : Numeric (c :: t) :=
  List.forall_mem_cons.2 ⟨hc, ht⟩

theorem append (ht : t.Numeric) (hu : u.Numeric) : Numeric (t ++ u) :=
  fun c hc => (List.mem_append.1 hc).elim (ht c) (hu c)

theorem of_allDigits (h : t.allDigits = true) : t.Numeric := fun c hc =>
  isNumberChar_of_isDigit (List.all_eq_true.1 h c hc)

/-- A sign in front does not matter. -/
theorem of_signed (h : Numeric (Literal.signed t).2) : t.Numeric := by
  unfold Literal.signed at h
  split at h
  · exact .cons (by decide) h
  · exact .cons (by decide) h
  · exact h

/-- Neither does a plus sign that is dropped. -/
theorem of_dropOne (h : Numeric (dropOne '+' t)) : t.Numeric := by
  cases t with
  | nil => exact .nil
  | cons c rest =>
    by_cases hc : c = '+'
    · subst hc
      exact .cons (by decide) h
    · simpa [dropOne, strip?, hc] using h

/-- Neither do white space and tildes. -/
theorem of_normalise (h : Numeric (Literal.normalise t)) : t.Numeric := by
  intro c hc
  by_cases hwhite : isWhite c = true
  · simp [isNumberChar, hwhite]
  · by_cases htilde : c = '~'
    · exact isNumberChar_of_mem (htilde ▸ by decide)
    · exact h c (Literal.mem_normalise hc hwhite htilde)

/-- A text that is cut at such a character. -/
theorem of_splitOnce? {c : Char} {before after : Text} (h : splitOnce? c t = some (before, after))
    (hc : isNumberChar c = true) (hbefore : before.Numeric) (hafter : after.Numeric) : t.Numeric := by
  rw [eq_of_splitOnce?_eq_some h]
  exact hbefore.append (hafter.cons hc)

end Text.Numeric

/-! ### Integers, rational numbers and residues -/

/-- The characters of a natural number. -/
theorem Integer.mem_of_readNatural {t : Text} {n : Nat} (h : readNatural t = .ok n) {c : Char}
    (hc : c ∈ t) : c.isDigit = true ∨ c = '_' ∨ c = '+' := by
  unfold readNatural at h
  extract_lets unsigned at h
  generalize hbody : unsigned = body at h
  have hdigits : ∀ d ∈ body, d.isDigit = true ∨ d = '_' := by
    split at h
    · contradiction
    · contradiction
    · split at h
      · rename_i hdigits
        intro d hd
        by_cases hunderscore : d = '_'
        · exact .inr hunderscore
        · have hdigit : d ∈ unsigned.filter (· ≠ '_') :=
            List.mem_filter.2 ⟨hbody ▸ hd, by simpa using hunderscore⟩
          exact .inl (List.all_eq_true.1 hdigits d hdigit)
      · contradiction
  have hmem : c ∈ body ∨ c = '+' := by
    rw [← hbody]
    unfold unsigned
    split
    · exact .inl hc
    · exact (List.mem_cons.1 hc).symm
    · exact .inl hc
  rcases hmem with hmem | hplus
  · exact (hdigits c hmem).imp_right .inl
  · exact .inr (.inr hplus)

/-- The characters of an integer. -/
theorem Integer.mem_of_readInteger {t : Text} {z : Int} (h : readInteger t = .ok z) {c : Char}
    (hc : c ∈ t) : c.isDigit = true ∨ c = '_' ∨ c = '+' ∨ c = '-' := by
  have hnatural : ∀ {u : Text} {n : Nat}, readNatural u = .ok n → c ∈ u →
      c.isDigit = true ∨ c = '_' ∨ c = '+' ∨ c = '-' := fun hn hmem =>
    (mem_of_readNatural hn hmem).imp_right fun hsign => hsign.imp_right .inl
  unfold readInteger at h
  split at h
  · contradiction
  · rename_i rest _
    cases hrest : readNatural rest with
    | ok n =>
      rcases List.mem_cons.1 hc with hminus | hmem
      · exact .inr (.inr (.inr hminus))
      · exact hnatural hrest hmem
    | error fault =>
      rw [hrest] at h
      contradiction
  · cases ht : readNatural t with
    | ok n => exact hnatural ht hc
    | error fault =>
      rw [ht] at h
      contradiction

theorem Integer.numeric_of_readInteger {t : Text} {z : Int} (h : readInteger t = .ok z) : t.Numeric := by
  intro c hc
  rcases mem_of_readInteger h hc with hdigit | rfl | rfl | rfl
  · exact isNumberChar_of_isDigit hdigit
  all_goals decide

theorem Rational.numeric_of_readRational {t : Text} {r : Rat} (h : readRational t = .ok r) :
    t.Numeric := by
  apply Text.Numeric.of_normalise
  intro c hc
  rcases mem_of_readRational h hc with hdigit | rfl | rfl | rfl | rfl
  · exact isNumberChar_of_isDigit hdigit
  all_goals decide

theorem Residue.numeric_of_read {m : Nat} {t : Text} {n : Nat} (h : read m t = .ok n) : t.Numeric := by
  unfold read at h
  split at h
  · contradiction
  · rename_i r hr
    exact Rational.numeric_of_readRational hr

/-! ### Numbers with components -/

namespace Components

theorem numeric_of_readOne {part : Text} {r : Rat} (h : readOne part = .ok r) : part.Numeric := by
  unfold readOne at h
  split at h
  · rename_i hnil
    exact hnil ▸ .nil
  · exact Rational.numeric_of_readRational h

theorem numeric_of_mapM {parts : List Text} {values : List Rat} (h : parts.mapM readOne = .ok values) :
    ∀ part ∈ parts, Text.Numeric part := by
  induction parts generalizing values with
  | nil => exact fun _ hmem => absurd hmem List.not_mem_nil
  | cons part parts ih =>
    rw [List.mapM_cons] at h
    cases hpart : readOne part with
    | error fault =>
      rw [hpart] at h
      contradiction
    | ok r =>
      cases hparts : parts.mapM readOne with
      | error fault =>
        rw [hpart, hparts] at h
        contradiction
      | ok rest => exact List.forall_mem_cons.2 ⟨numeric_of_readOne hpart, ih hparts⟩

/-- A text that is cut at separators has the characters of its parts and the separators. -/
theorem numeric_of_components {separators : List Char} (hseparators : Text.Numeric separators)
    {t : Text} (h : ∀ part ∈ Literal.components separators t, Text.Numeric part) : t.Numeric := by
  induction separators generalizing t with
  | nil => exact h t List.mem_cons_self
  | cons separator separators ih =>
    obtain ⟨hseparator, hseparators⟩ := List.forall_mem_cons.1 hseparators
    rw [Literal.components] at h
    split at h
    · rename_i before after hsplit
      obtain ⟨hbefore, hafter⟩ := List.forall_mem_cons.1 h
      exact .of_splitOnce? hsplit hseparator hbefore (ih hseparators hafter)
    · apply ih hseparators
      split at h
      · rename_i current others hparts
        obtain ⟨hcurrent, -, hothers⟩ : _ ∧ _ ∧ _ := by simpa only [List.forall_mem_cons] using h
        rw [hparts]
        exact List.forall_mem_cons.2 ⟨hcurrent, hothers⟩
      · rename_i hparts
        rw [hparts]
        exact h

theorem numeric_of_read {ring : Text} {separators : List Char} (hseparators : Text.Numeric separators)
    {t : Text} {values : List Rat} (h : read ring separators t = .ok values) : t.Numeric := by
  unfold read at h
  dsimp only at h
  split at h
  · contradiction
  · exact .of_normalise (numeric_of_components hseparators (numeric_of_mapM (eq_ok_of_mapError h)))

end Components

theorem Quaternion.numeric_of_readFor {ring t : Text} {q : Quaternion} (h : readFor ring t = .ok q) :
    t.Numeric := by
  unfold readFor at h
  cases hread : Components.read ring ['i', 'j', 'k'] t with
  | ok values => exact Components.numeric_of_read (by decide) hread
  | error fault =>
    rw [hread] at h
    contradiction

theorem Gaussian.numeric_of_read {t : Text} {a : Gaussian} (h : read t = .ok a) : t.Numeric := by
  unfold read at h
  cases hread : Components.read ['C'] ['i'] t with
  | ok values => exact Components.numeric_of_read (by decide) hread
  | error fault =>
    rw [hread] at h
    contradiction

theorem Octonion.numeric_of_readHalf {part : Text} {q : Quaternion} (h : readHalf part = .ok q) :
    part.Numeric := by
  unfold readHalf at h
  split at h
  · rename_i hnil
    exact hnil ▸ .nil
  · exact Quaternion.numeric_of_readFor h

theorem Octonion.numeric_of_read {t : Text} {x : Octonion} (h : read t = .ok x) : t.Numeric := by
  apply Text.Numeric.of_normalise
  unfold read at h
  dsimp only at h
  split at h
  · contradiction
  · simp only [bind, Except.bind] at h
    split at h
    · contradiction
    · rename_i left hleft
      split at h
      · contradiction
      · rename_i right hright
        cases hsplit : Text.splitOnce? 'o' (Literal.normalise t) with
        | none =>
          rw [hsplit] at hleft
          exact numeric_of_readHalf hleft
        | some parts =>
          rw [hsplit] at hleft hright
          exact .of_splitOnce? hsplit (by decide) (numeric_of_readHalf hleft) (numeric_of_readHalf hright)

/-! ### Decimals -/

namespace FixedDecimal

theorem numeric_of_checkRest {t : Text} (h : checkRest t = .ok ()) : t.Numeric := by
  induction t with
  | nil => exact .nil
  | cons c rest ih =>
    rw [checkRest] at h
    split at h
    · rename_i hc
      refine .cons ?_ (ih h)
      rcases Bool.or_eq_true _ _ ▸ hc with hdigit | hunderscore
      · exact isNumberChar_of_isDigit hdigit
      · exact isNumberChar_of_mem (of_decide_eq_true hunderscore ▸ by decide)
    · contradiction

theorem numeric_of_readDigits {point digits : Bool} {m scale : Nat} {t : Text} {parts : Nat × Nat}
    (h : readDigits point digits m scale t = .ok parts) : t.Numeric := by
  induction t generalizing point digits m scale with
  | nil => exact .nil
  | cons c rest ih =>
    rw [readDigits] at h
    split at h
    · rename_i hdigit
      refine .cons (isNumberChar_of_isDigit hdigit) ?_
      dsimp only at h
      split at h
      · split at h
        · simp only [bind, Except.bind] at h
          split at h
          · contradiction
          · split at h
            · contradiction
            · rename_i hcheck
              exact numeric_of_checkRest hcheck
        · contradiction
      · exact ih h
    · split at h
      · rename_i hpoint
        exact .cons (isNumberChar_of_mem (hpoint.1 ▸ by decide)) (ih h)
      · split at h
        · rename_i hunderscore
          refine .cons (isNumberChar_of_mem (hunderscore.1 ▸ by decide)) ?_
          split at h
          · simp only [bind, Except.bind] at h
            split at h
            · contradiction
            · rename_i hcheck
              exact numeric_of_checkRest hcheck
          · exact ih h
        · contradiction

theorem numeric_of_readPlain {t : Text} {a : FixedDecimal} (h : readPlain t = .ok a) : t.Numeric := by
  unfold readPlain at h
  split at h
  · contradiction
  · apply Text.Numeric.of_signed
    cases hdigits : readDigits false false 0 0 (Literal.signed t).2 with
    | ok parts => exact numeric_of_readDigits hdigits
    | error fault =>
      simp only [hdigits] at h
      contradiction

theorem numeric_of_readExponent {t : Text} {n : Nat} (h : readExponent t = .ok n) : t.Numeric := by
  unfold readExponent at h
  dsimp only at h
  split at h
  · rename_i hdigits
    exact .of_dropOne (.of_allDigits hdigits.2.1)
  · contradiction

theorem numeric_of_readScientific {base exponent : Text} {a : FixedDecimal}
    (h : readScientific base exponent = .ok a) : base.Numeric ∧ exponent.Numeric := by
  unfold readScientific at h
  cases hbase : readPlain base with
  | error fault =>
    rw [hbase] at h
    contradiction
  | ok b =>
    refine ⟨numeric_of_readPlain hbase, ?_⟩
    rw [hbase] at h
    simp only [bind, Except.bind] at h
    split at h
    · split at h
      · contradiction
      · rename_i hexponent
        exact (numeric_of_readExponent hexponent).cons (by decide)
    · split at h
      · contradiction
      · rename_i hexponent
        exact numeric_of_readExponent hexponent

theorem numeric_of_readNumber {t : Text} {a : FixedDecimal} (h : readNumber t = .ok a) : t.Numeric := by
  unfold readNumber at h
  split at h
  · rename_i b hplain
    exact numeric_of_readPlain hplain
  · dsimp only at h
    split at h
    · contradiction
    · rename_i mark exponent hmark
      obtain ⟨hbase, hexponent⟩ := numeric_of_readScientific h
      have hmarkChar : isNumberChar mark = true := by
        have hhead := List.head?_dropWhile_not (fun c => !(c = 'e' || c = 'E')) t
        simp only [hmark, List.head?_cons, Bool.not_eq_false', Bool.or_eq_true, decide_eq_true_eq] at hhead
        rcases hhead with rfl | rfl
        · decide
        · decide
      rw [← List.takeWhile_append_dropWhile (p := fun c => !(c = 'e' || c = 'E')) (l := t), hmark]
      exact hbase.append (hexponent.cons hmarkChar)

theorem numeric_of_readLiteral {t : Text} {a : FixedDecimal} (h : readLiteral t = .ok a) :
    t.Numeric := by
  apply Text.Numeric.of_normalise
  unfold readLiteral at h
  dsimp only at h
  split at h
  · exact numeric_of_readNumber (eq_ok_of_mapError h)
  · rename_i upper lower hsplit
    simp only [bind, Except.bind] at h
    split at h
    · contradiction
    · rename_i a ha
      split at h
      · contradiction
      · rename_i b hb
        exact .of_splitOnce? hsplit (by decide) (numeric_of_readNumber (eq_ok_of_mapError ha))
          (numeric_of_readNumber (eq_ok_of_mapError hb))

end FixedDecimal

/-! ### Rings of numbers -/

/-- What a ring takes as a literal has the characters of numbers only. -/
def Arithmetic.TakesNumbers {α : Type} (A : Arithmetic α) : Prop :=
  ∀ ⦃limits : Limits⦄ ⦃depth : Nat⦄ ⦃t : Text⦄ ⦃a : α⦄, A.readWithin limits depth t = .ok a → t.Numeric

theorem Rational.takesNumbers : Rational.arithmetic.TakesNumbers := fun _ _ _ _ h =>
  numeric_of_readRational (eq_ok_of_mapError (eq_ok_of_mapError h))

theorem Integer.takesNumbers : Integer.arithmetic.TakesNumbers := fun _ _ _ _ h =>
  .of_normalise (.of_dropOne (numeric_of_readInteger (eq_ok_of_mapError (eq_ok_of_mapError h))))

theorem WordModulus.takesNumbers (m : WordModulus) : m.arithmetic.TakesNumbers := by
  intro limits depth t a h
  have hread : (Residue.read m.value.toNat t).map UInt64.ofNat = .ok a := eq_ok_of_mapError h
  cases hresidue : Residue.read m.value.toNat t with
  | ok n => exact Residue.numeric_of_read hresidue
  | error fault =>
    rw [hresidue] at hread
    contradiction

theorem BigModulus.takesNumbers (m : BigModulus) : m.arithmetic.TakesNumbers := by
  intro limits depth t a h
  have hread : m.read t = .ok a := eq_ok_of_mapError h
  unfold BigModulus.read at hread
  cases hresidue : Residue.read m.value t with
  | ok n => exact Residue.numeric_of_read hresidue
  | error fault =>
    rw [hresidue] at hread
    contradiction

theorem Gaussian.takesNumbers : Gaussian.arithmetic.TakesNumbers := fun _ _ _ _ h =>
  numeric_of_read (eq_ok_of_mapError h)

theorem Quaternion.takesNumbers : Quaternion.arithmetic.TakesNumbers := fun _ _ _ _ h =>
  numeric_of_readFor (eq_ok_of_mapError h)

theorem Octonion.takesNumbers : Octonion.arithmetic.TakesNumbers := fun _ _ _ _ h =>
  numeric_of_read (eq_ok_of_mapError h)

theorem FixedDecimal.takesNumbers : FixedDecimal.arithmetic.TakesNumbers := fun _ _ _ _ h =>
  numeric_of_readLiteral (eq_ok_of_mapError (eq_ok_of_mapError h))

end PolynomialText
