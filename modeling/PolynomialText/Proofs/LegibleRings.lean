import PolynomialText.Proofs.PolynomialLiterals

/-!
# Rings that read their own literals

Every coefficient ring but that of fixed-point decimals reads the literals that it writes, on its
own and inside the literals of polynomials over it. The rings of numbers do so because of the form
of their literals. A ring of polynomials does so over coefficients that need no braces, and an
extension because its elements are already reduced.
-/

namespace PolynomialText

/-! ### Numbers -/

/-- A digit may stand in a literal. -/
theorem isLiteralChar_of_isDigit {c : Char} (h : c.isDigit = true) : IsLiteralChar c :=
  ⟨isBlank_of_isWordChar (isWordChar_of_isDigit h), ne_of_isDigit h (by decide),
    ne_of_isDigit h (by decide), ne_of_isDigit h (by decide), ne_of_isDigit h (by decide),
    ne_of_isDigit h (by decide)⟩

section

variable {α : Type} {A : Arithmetic α} {C : α → Prop}

/-- A ring of numbers whose literals hold no blanks, quotes and braces reads them back. -/
theorem Arithmetic.Units.legible (hunits : A.Units C)
    (hwithin : ∀ limits depth t, A.readWithin limits depth t = (A.read t).mapError Refusal.reason)
    (hzero : A.format A.zero = ['0']) (hchars : ∀ {c : α}, C c → ∀ d ∈ A.format c, IsLiteralChar d)
    (hread : ∀ {c : α}, C c → A.read (A.format c) = .ok c)
    (hminus : ∀ {c : α} {size : Text}, C c → A.format c = '-' :: size →
      PolyRing.isPlainNumeral size = true → size = A.format (A.neg c)) : A.Legible C where
  toUnits := hunits
  format_zero := hzero
  spells hc := Reader.spells_literal (hchars hc)
  inLiteral hc := Reader.inLiteral_of_mem_ofText (hchars hc)
  read_format hc limits depth := by
    rw [hwithin, hread hc]
    rfl
  read_rebuilt hc limits depth := by
    have hrebuilt := Reader.rebuilt_ofText fun d hd =>
      ⟨(hchars hc d hd).1, (hchars hc d hd).2.1, (hchars hc d hd).2.2.1, (hchars hc d hd).2.2.2.1⟩
    rw [hrebuilt, hwithin, hread hc]
    rfl
  eq_format_neg := hminus

end

/-- Rational numbers are read back. -/
theorem Rational.legible : Rational.arithmetic.Legible AnyElement := by
  refine (ringLaws.units (by decide)).legible (fun _ _ _ => rfl) (by decide) ?_ ?_ ?_
  · intro r _ d hd
    rcases mem_format hd with hdigit | rfl | rfl
    · exact isLiteralChar_of_isDigit hdigit
    · decide
    · decide
  · intro r _
    change read (format r) = _
    rw [read, readRational_format]
    rfl
  · exact fun _ hformat _ => eq_format_neg_of_minus hformat

/-- Integers are read back. -/
theorem Integer.legible : Integer.arithmetic.Legible AnyElement := by
  refine (ringLaws.units (by decide)).legible (fun _ _ _ => rfl) (by decide) ?_ ?_ ?_
  · intro z _ d hd
    rcases Text.mem_decimalInt hd with hdigit | rfl
    · exact isLiteralChar_of_isDigit hdigit
    · decide
  · exact fun _ => read_decimalInt _
  · intro z size _ hformat _
    by_cases hneg : z < 0
    · have hminus := hformat.symm.trans (Text.decimalInt_of_neg hneg)
      exact (List.cons.inj hminus).2
    · obtain ⟨c, t, hdecimal, hc⟩ := Text.exists_decimal_eq_cons z.toNat
      have hdigits := hformat.symm.trans (Text.decimalInt_of_nonneg (not_lt.1 hneg))
      rw [hdecimal] at hdigits
      rw [← (List.cons.inj hdigits).1] at hc
      exact absurd hc (by decide)

/-- The literals of residues in machine words are digits. -/
theorem WordModulus.legible (m : WordModulus) : m.arithmetic.Legible m.Reduced := by
  have hdigits : ∀ a : UInt64, ∀ d ∈ m.arithmetic.format a, d.isDigit = true :=
    fun a d hd => Text.isDigit_of_mem_decimal hd
  have hone : m.arithmetic.one ≠ m.arithmetic.zero := (by decide : (1 : UInt64) ≠ 0)
  have hzero : m.arithmetic.format m.arithmetic.zero = ['0'] := by
    simp only [arithmetic]
    decide
  refine (m.represents.ringLaws.units hone).legible (fun _ _ _ => rfl) hzero ?_ ?_ ?_
  · exact fun _ d hd => isLiteralChar_of_isDigit (hdigits _ d hd)
  · intro a ha
    change m.read (Text.decimal a.toNat) = _
    rw [read, Residue.read_digits m.two_le (Text.decimal_ne_nil _) (hdigits a), Text.value_decimal,
      Nat.mod_eq_of_lt ha]
    exact congrArg Except.ok (UInt64.ofNat_toNat)
  · intro a size _ hformat _
    have hminus := hdigits a '-' (hformat ▸ List.mem_cons_self)
    exact absurd hminus (by decide)

/-- The literals of residues as integers are digits. -/
theorem BigModulus.legible (m : BigModulus) : m.arithmetic.Legible m.Reduced := by
  have hdigits : ∀ {a : Int}, m.Reduced a → ∀ d ∈ m.arithmetic.format a, d.isDigit = true := by
    intro a ha d hd
    rw [show m.arithmetic.format a = Text.decimal a.toNat from Text.decimalInt_of_nonneg ha.1] at hd
    exact Text.isDigit_of_mem_decimal hd
  have hone : m.arithmetic.one ≠ m.arithmetic.zero := (by decide : (1 : Int) ≠ 0)
  have hzero : Text.decimalInt 0 = ['0'] := by decide
  refine (m.represents.ringLaws.units hone).legible (fun _ _ _ => rfl) hzero ?_ ?_ ?_
  · exact fun ha d hd => isLiteralChar_of_isDigit (hdigits ha d hd)
  · intro a ha
    have hformat : m.arithmetic.format a = Text.decimal a.toNat := Text.decimalInt_of_nonneg ha.1
    have hlt : a.toNat < m.value := by
      have := ha.2
      have := ha.1
      omega
    have hread := hdigits ha
    rw [hformat] at hread ⊢
    change m.read (Text.decimal a.toNat) = _
    rw [read, Residue.read_digits m.two_le (Text.decimal_ne_nil _) hread, Text.value_decimal,
      Nat.mod_eq_of_lt hlt]
    exact congrArg Except.ok (Int.toNat_of_nonneg ha.1)
  · intro a size ha hformat _
    have hminus := hdigits ha '-' (hformat ▸ List.mem_cons_self)
    exact absurd hminus (by decide)

/-- The characters of literals with components may stand in a literal. -/
theorem Components.isLiteralChar_of_mem_format {separators : List Char}
    (hseparators : ∀ c ∈ separators, IsLiteralChar c) {first : Rat} {others : List Rat} :
    ∀ d ∈ format separators first others, IsLiteralChar d := by
  intro d hd
  rcases mem_format hd with hdigit | rfl | rfl | hmem
  · exact isLiteralChar_of_isDigit hdigit
  · decide
  · decide
  · exact hseparators d hmem

/-- Complex numbers are read back. -/
theorem Gaussian.legible : Gaussian.arithmetic.Legible AnyElement := by
  refine (ringLaws.units (by decide)).legible (fun _ _ _ => rfl) (by decide) ?_ ?_ ?_
  · exact fun _ => Components.isLiteralChar_of_mem_format Text.forall_mem_of_all
  · exact fun _ => read_format _
  · exact fun _ hformat hplain =>
      Components.eq_format_neg_of_minus separators rfl hformat hplain

/-- Quaternions are read back. -/
theorem Quaternion.legible : Quaternion.arithmetic.Legible AnyElement := by
  refine (ringLaws.units (by decide)).legible (fun _ _ _ => rfl) (by decide) ?_ ?_ ?_
  · exact fun _ => Components.isLiteralChar_of_mem_format Text.forall_mem_of_all
  · exact fun _ => readFor_format _ _
  · exact fun _ hformat hplain =>
      Components.eq_format_neg_of_minus separators rfl hformat hplain

/-- Octonions have neutral elements and signs, although their products do not associate. -/
theorem Octonion.units : Octonion.arithmetic.Units AnyElement where
  zero_mem := trivial
  one_mem := trivial
  neg_mem _ := trivial
  one_ne_zero := by decide
  one_mul _ := by ext <;> simp [arithmetic, mul, ofRat, Quaternion.mul, Quaternion.add,
    Quaternion.neg, Quaternion.conj, Quaternion.ofRat]
  mul_one _ := by ext <;> simp [arithmetic, mul, ofRat, Quaternion.mul, Quaternion.add,
    Quaternion.neg, Quaternion.conj, Quaternion.ofRat]
  neg_one_mul _ := by ext <;> simp [arithmetic, mul, neg, ofRat, Quaternion.mul, Quaternion.add,
    Quaternion.neg, Quaternion.conj, Quaternion.ofRat]
  neg_neg _ := by ext <;> simp [arithmetic, neg, Quaternion.neg]

/-- Octonions are read back. -/
theorem Octonion.legible : Octonion.arithmetic.Legible AnyElement := by
  refine units.legible (fun _ _ _ => rfl) (by decide) ?_ ?_ ?_
  · intro x _ d hd
    rcases mem_format hd with hdigit | rfl | rfl | hmem | rfl
    · exact isLiteralChar_of_isDigit hdigit
    · decide
    · decide
    · exact Text.forall_mem_of_all (t := ['i', 'j', 'k']) (by decide) d hmem
    · decide
  · exact fun _ => read_format _
  · exact fun _ hformat hplain => eq_format_neg_of_minus hformat hplain

/-- Rational numbers need no braces. -/
theorem Rational.plainlyWritten : Rational.arithmetic.PlainlyWritten AnyElement := by
  intro r _
  have hpoint : '.' ∉ format r := by
    intro hmem
    rcases mem_format hmem with h | h | h
    · exact absurd h (by decide)
    · exact absurd h (by decide)
    · exact absurd h (by decide)
  have hnumeral : ∀ {s : Rat}, 0 ≤ s → PolyRing.isPlainNumeral (format s) = true := by
    intro s hs
    obtain ⟨c, t, hcons, hc⟩ := format_of_nonneg hs
    have hdigit : ∀ {n : Nat} {d : Char}, d ∈ Text.decimal n →
        (d.isDigit || d = '/' || d = '.') = true := by
      intro n d hd
      simp [Text.isDigit_of_mem_decimal hd]
    have hall : ∀ d ∈ format s, (d.isDigit || d = '/' || d = '.') = true := by
      intro d hd
      rw [format, Text.decimalInt_of_nonneg (Rat.num_nonneg.2 hs)] at hd
      split at hd
      · exact hdigit hd
      · rcases List.mem_append.1 hd with hnum | hden
        · exact hdigit hnum
        · rcases List.mem_cons.1 hden with rfl | hmem
          · decide
          · exact hdigit hmem
    rw [PolyRing.isPlainNumeral, Bool.and_eq_true]
    exact ⟨by simp [hcons, hc], List.all_eq_true.2 hall⟩
  refine ⟨hpoint, ?_⟩
  rcases lt_or_ge r 0 with hneg | hnonneg
  · exact .inr ⟨format (-r), format_of_neg hneg, hnumeral (neg_nonneg.2 hneg.le)⟩
  · exact .inl (hnumeral hnonneg)

/-- Residues need no braces. -/
theorem BigModulus.plainlyWritten (m : BigModulus) : m.arithmetic.PlainlyWritten m.Reduced := by
  intro a ha
  obtain ⟨c, t, hcons, hc⟩ := Text.exists_decimal_eq_cons a.toNat
  rw [show m.arithmetic.format a = Text.decimal a.toNat from Text.decimalInt_of_nonneg ha.1]
  refine ⟨fun hmem => absurd (Text.isDigit_of_mem_decimal hmem) (by decide), .inl ?_⟩
  rw [PolyRing.isPlainNumeral, Bool.and_eq_true]
  refine ⟨by simp [hcons, hc], List.all_eq_true.2 fun d hd => ?_⟩
  simp [Text.isDigit_of_mem_decimal hd]

/-! ### Polynomials that need no inner braces -/

namespace Token.Sealed

theorem nil : Sealed [] :=
  ⟨fun _ h => absurd h List.not_mem_nil, fun _ h => absurd h List.not_mem_nil, List.isChain_nil⟩

/-- A word alone is rebuilt. -/
theorem word {w : Text} (hw : w.IsWord) : Sealed [.word w] :=
  ⟨fun _ ht => List.mem_singleton.1 ht ▸ hw, fun _ ht => List.mem_singleton.1 ht ▸ trivial,
    List.isChain_singleton _⟩

/-- Tokens are rebuilt together if they do not run together in the middle. -/
theorem append {ts us : List Token} (ht : Sealed ts) (hu : Sealed us)
    (h : ∀ t ∈ ts.getLast?, ∀ u ∈ us.head?, t.Follows u) : Sealed (ts ++ us) where
  written t hmem := (List.mem_append.1 hmem).elim (ht.written t) (hu.written t)
  inLiteral t hmem := (List.mem_append.1 hmem).elim (ht.inLiteral t) (hu.inLiteral t)
  chain := List.isChain_append.2 ⟨ht.chain, hu.chain, h⟩

/-- An operator follows everything. -/
theorem append_op {ts us : List Token} {c : Char} (ht : Sealed ts) (hu : Sealed us)
    (hc : IsOperator c) (hbrace : c ≠ '\x7b' ∧ c ≠ '\x7d') : Sealed (ts ++ .op c :: us) := by
  have hop : Sealed [.op c] := ⟨fun _ ht => List.mem_singleton.1 ht ▸ hc,
    fun _ ht => List.mem_singleton.1 ht ▸ hbrace, List.isChain_singleton _⟩
  have hbehind : Sealed ([.op c] ++ us) := by
    apply hop.append hu
    intro t htop u _ w v hw
    rw [← Option.some.inj htop] at hw
    contradiction
  apply ht.append hbehind
  intro t _ u hu w v _ hv
  rw [← Option.some.inj hu] at hv
  contradiction

end Token.Sealed

namespace PolyRing

variable {α : Type} {R : PolyRing α} {C : α → Prop}

/-- Powers of variables are rebuilt. -/
theorem sealed_monomialTokens {factors : List (Text × UInt64)} (hnames : ∀ f ∈ factors, f.1.IsWord) :
    Token.Sealed (monomialTokens factors) := by
  have hfactor : ∀ f ∈ factors, Token.Sealed (factorTokens f.1 f.2) := by
    intro f hf
    have hname := Token.Sealed.word (hnames f hf)
    unfold factorTokens
    split
    · exact hname
    · exact hname.append_op (.word (Text.isWord_decimal _)) (by decide) (by decide)
  clear hnames
  induction factors with
  | nil => exact .nil
  | cons f rest ih =>
    have hfirst := hfactor f List.mem_cons_self
    have hrest := ih fun g hg => hfactor g (List.mem_cons_of_mem _ hg)
    cases rest with
    | nil => exact hfirst
    | cons g rest => exact hfirst.append_op hrest (by decide) (by decide)

/-- A term whose coefficient is written plainly is rebuilt. -/
theorem sealed_termTokens (hA : R.coefficients.Legible C) (hplain : R.coefficients.PlainlyWritten C)
    (hnames : ∀ v ∈ R.vars, v.IsWord) {term : Exponents × α} (hc : C term.2) (first : Bool) :
    Token.Sealed (R.termTokens first term) := by
  have hmonomial : Token.Sealed (monomialTokens (R.factors term.1)) :=
    sealed_monomialTokens fun f hf => hnames f.1 (mem_vars_of_mem_factors hf)
  have hbody : Token.Sealed (Token.ofText (R.coefficientText term.2 (R.monomialText term.1).isEmpty).2 ++
      monomialTokens (R.factors term.1)) := by
    have hwrites := writesCoefficient hA hc (R.monomialText term.1).isEmpty
    generalize R.coefficientText term.2 (R.monomialText term.1).isEmpty = written at hwrites ⊢
    cases hwrites with
    | unit =>
      rw [Token.spells_nil.ofText_eq]
      exact hmonomial
    | @numeral negative size b hnumeral hb hsize =>
      have hword := Text.isWord_of_isPlainNumeral hnumeral
      rw [(Token.spells_word hword).ofText_eq]
      apply (Token.Sealed.word hword).append hmonomial
      intro t ht u _ w v hw _ hlast
      obtain rfl : size = w := Token.word.inj ((Option.some.inj ht).trans hw)
      -- A plain literal has no point, not even a last one.
      exact (hplain hb).1 (hsize ▸ List.mem_of_getLast? hlast)
    | braces hnumeral hminus =>
      rcases (hplain hc).2 with hyes | ⟨size, hformat, hyes⟩
      · exact absurd hyes hnumeral
      · exact absurd hyes (hminus size hformat)
  unfold termTokens signTokens
  split
  · exact Token.Sealed.nil.append_op hbody (by decide) (by decide)
  · split
    · exact hbody
    · exact Token.Sealed.nil.append_op hbody (by decide) (by decide)

/-- A polynomial whose coefficients are written plainly is rebuilt. -/
theorem sealed_formatTokens (hA : R.coefficients.Legible C)
    (hplain : R.coefficients.PlainlyWritten C) (hnames : ∀ v ∈ R.vars, v.IsWord) {p : Poly α}
    (hp : ∀ t ∈ p.terms, C t.2) : Token.Sealed (R.formatTokens p) := by
  have hmem : ∀ t ∈ R.descending p, C t.2 := fun t ht => hp t ((R.descending_perm p).subset ht)
  have hterms : ∀ {ts : List Token} {terms : List (Exponents × α)}, Token.Sealed ts →
      (∀ t ∈ terms, C t.2) → Token.Sealed (ts ++ terms.flatMap (R.termTokens false)) := by
    intro ts terms hts hterms
    induction terms generalizing ts with
    | nil => simpa using hts
    | cons t terms ih =>
      have ht := sealed_termTokens hA hplain hnames (hterms t List.mem_cons_self) false
      have hnext : Token.Sealed (ts ++ R.termTokens false t) := by
        apply hts.append ht
        intro s _ u hu w v _ hv
        obtain ⟨tail, htail | htail⟩ := exists_termTokens_eq (R := R) t
        · rw [htail] at hu
          rw [← Option.some.inj hu] at hv
          contradiction
        · rw [htail] at hu
          rw [← Option.some.inj hu] at hv
          contradiction
      rw [List.flatMap_cons, ← List.append_assoc]
      exact ih hnext fun u hu => hterms u (List.mem_cons_of_mem _ hu)
  unfold formatTokens
  split
  · exact .word (by decide)
  · rename_i first rest heq
    rw [heq] at hmem
    exact hterms (sealed_termTokens hA hplain hnames (hmem first List.mem_cons_self) true)
      fun u hu => hmem u (List.mem_cons_of_mem _ hu)

/-- No variable with a name that is read as something else occurs in a product. -/
theorem closed_supports (R : PolyRing α) : Exponents.Closed R.nvars R.Supports :=
  R.closed_confined fun name => name.head?.any isNumeralStart = false

/-- Every vector of exponents is permitted if all names are read as variables. -/
theorem supports_of_length (hnames : ∀ v ∈ R.vars, v.IsName) {e : Exponents}
    (he : e.length = R.nvars) : R.Supports e :=
  ⟨he, fun factor hmem _ => (hnames factor.1 (List.of_mem_zip hmem).1).2⟩

/-- A monomial starts with the name of a variable that occurs. -/
theorem exists_monomialText_eq {e : Exponents} (hnames : ∀ v ∈ R.vars, v.IsWord)
    (he : R.Supports e) (hne : R.monomialText e ≠ []) :
    ∃ c tail, R.monomialText e = c :: tail ∧ isWordChar c = true ∧ isNumeralStart c = false := by
  have hfactors : R.factors e ≠ [] := fun h => hne ((monomialText_eq_nil_iff hnames e).2 h)
  obtain ⟨f, rest, hcons⟩ := List.exists_cons_of_ne_nil hfactors
  have hname : f.1.IsName := isName_of_mem_factors hnames he (hcons ▸ List.mem_cons_self)
  obtain ⟨c, w, hw⟩ := List.exists_cons_of_ne_nil hname.1.1
  have htext : R.monomialText e =
      Text.join " * ".toList ((R.factors e).map fun f => factorText f.1 f.2) := rfl
  have hfirst : ∃ tail, factorText f.1 f.2 = c :: tail := by
    unfold factorText
    split
    · exact ⟨w, hw⟩
    · rw [hw]
      exact ⟨_, rfl⟩
  obtain ⟨tail, htail⟩ := hfirst
  have hstart : ∃ tail, R.monomialText e = c :: tail := by
    rw [htext, hcons]
    cases rest with
    | nil => exact ⟨tail, by rw [List.map_singleton, Text.join_singleton, htail]⟩
    | cons g rest =>
      rw [List.map_cons, List.map_cons, Text.join_cons_cons, htail]
      exact ⟨_, rfl⟩
  obtain ⟨tail, htail⟩ := hstart
  refine ⟨c, tail, htail, hname.1.2 c (hw ▸ List.mem_cons_self), ?_⟩
  have hhead := hname.2
  rw [hw] at hhead
  simpa using hhead

/-- A literal that starts with a digit is written without braces where it stands alone. -/
theorem coefficientText_of_isPlainNumeral {c : α}
    (h : isPlainNumeral (R.coefficients.format c) = true) :
    R.coefficientText c true = (false, R.coefficients.format c) := by
  obtain ⟨d, rest, hcons, hd⟩ := Reader.exists_digit_of_isPlainNumeral h
  have hstrip : Text.strip? '-' (R.coefficients.format c) = none := by
    rw [hcons, Text.strip?, if_neg]
    rintro rfl
    exact absurd hd (by decide)
  simp [coefficientText, hstrip, h]

/-- There is no blank in a numeral behind a minus sign. -/
theorem blank_not_mem_minus {size : Text} (hplain : isPlainNumeral size = true) :
    ' ' ∉ '-' :: size := by
  rw [List.mem_cons, not_or]
  exact ⟨by decide, fun hmem =>
    absurd ((Text.isWord_of_isPlainNumeral hplain).2 ' ' hmem) (by decide)⟩

/-- A polynomial that is written without blanks has one term at most. -/
theorem eq_nil_or_singleton_of_blank_not_mem {p : Poly α} (hblank : ' ' ∉ R.format p) :
    R.descending p = [] ∨ ∃ term, R.descending p = [term] := by
  unfold format at hblank
  cases hterms : R.descending p with
  | nil => exact .inl rfl
  | cons term rest =>
    rw [hterms] at hblank
    cases rest with
    | nil => exact .inr ⟨term, rfl⟩
    | cons next rest =>
      obtain ⟨tail, htail⟩ := exists_termText_eq (R := R) next
      exact absurd (by simp [htail]) hblank

/-- A term that is a numeral behind a minus sign is a constant, and its negative is the numeral. -/
theorem eq_termText_neg_of_minus (hA : R.coefficients.Legible C)
    (hnames : ∀ v ∈ R.vars, v.IsWord) {e : Exponents} {c : α} (he : R.Supports e) (hc : C c)
    {size : Text} (htext : R.termText true (e, c) = '-' :: size)
    (hplain : isPlainNumeral size = true) :
    size = R.termText true (e, R.coefficients.neg c) := by
  have hblank : ' ' ∉ R.termText true (e, c) := htext ▸ blank_not_mem_minus hplain
  have hwrites := writesCoefficient hA hc (R.monomialText e).isEmpty
  unfold termText at htext hblank
  dsimp only at htext hblank
  generalize R.coefficientText c (R.monomialText e).isEmpty = written at hwrites htext hblank
  cases hwrites with
  | @unit negative hbare _ =>
    have hne : R.monomialText e ≠ [] := by
      intro hnil
      rw [hnil] at hbare
      contradiction
    obtain ⟨d, tail, htail, hword, hstart⟩ := exists_monomialText_eq hnames he hne
    rw [htail] at htext
    cases negative with
    | false =>
      have hd : d = '-' := by simpa using (List.cons.inj htext).1
      exact absurd hword (by rw [hd]; decide)
    | true =>
      have hsize : size = d :: tail := by simpa using (List.cons.inj htext).2.symm
      obtain ⟨d', rest, hcons, hdigit⟩ := Reader.exists_digit_of_isPlainNumeral hplain
      rw [hsize] at hcons
      rw [← (List.cons.inj hcons).1] at hdigit
      simp [isNumeralStart, hdigit] at hstart
  | @numeral negative literal b hnumeral hb hliteral hsign =>
    have hnonempty := (Text.isWord_of_isPlainNumeral hnumeral).1
    -- A monomial would bring a blank.
    have hnil : R.monomialText e = [] := by
      by_contra hne
      exact absurd (by simp [hnonempty, hne]) hblank
    rw [hnil] at htext
    obtain ⟨d, rest, hcons, hdigit⟩ := Reader.exists_digit_of_isPlainNumeral hnumeral
    cases negative with
    | false =>
      have hd : d = '-' := by
        rw [hcons] at htext
        simpa using (List.cons.inj htext).1
      exact absurd hdigit (by rw [hd]; decide)
    | true =>
      have hsize : size = literal := by simpa using (List.cons.inj htext).2.symm
      have hb' : R.coefficients.neg c = b := by
        rw [← hsign]
        exact hA.neg_neg hb
      have hwritten : R.coefficientText b true = (false, literal) := by
        rw [hliteral] at hnumeral ⊢
        exact coefficientText_of_isPlainNumeral hnumeral
      simp [termText, hnil, hb', hwritten, hsize]
  | braces => simp at htext

/-- A numeral behind a minus sign is the text of a negative constant. -/
theorem eq_format_neg_of_minus (hA : R.coefficients.Legible C) (hnames : ∀ v ∈ R.vars, v.IsWord)
    {p : Poly α} (hp : Poly.Regular R.coefficients R.Supports C p) {size : Text}
    (hformat : R.format p = '-' :: size) (hplain : isPlainNumeral size = true) :
    size = R.format (p.neg R.coefficients) := by
  have hblank : ' ' ∉ R.format p := hformat ▸ blank_not_mem_minus hplain
  obtain hterms | ⟨⟨e, c⟩, hterms⟩ := eq_nil_or_singleton_of_blank_not_mem hblank
  · rw [format, hterms] at hformat
    simp at hformat
  · have hsingle : p.terms = [(e, c)] :=
      List.perm_singleton.1 (hterms ▸ (R.descending_perm p).symm)
    have hmem : (e, c) ∈ p.terms := hsingle ▸ List.mem_singleton_self _
    have hneg : R.descending (p.neg R.coefficients) = [(e, R.coefficients.neg c)] := by
      simp [descending, Poly.neg, hsingle]
    rw [format, hterms] at hformat
    rw [format, hneg]
    simp only [List.flatMap_nil, List.append_nil] at hformat ⊢
    exact eq_termText_neg_of_minus hA hnames (hp.exponents _ hmem) (hp.coefficients _ hmem) hformat
      hplain

end PolyRing

/-! ### Polynomials and residues as coefficients -/

/-- Neutral elements and signs of a smaller set. -/
theorem Arithmetic.Units.restrict {α : Type} {A : Arithmetic α} {C D : α → Prop} (h : A.Units C)
    (hsub : ∀ {c : α}, D c → C c) (hzero : D A.zero) (hone : D A.one)
    (hneg : ∀ {c : α}, D c → D (A.neg c)) : A.Units D where
  zero_mem := hzero
  one_mem := hone
  neg_mem := hneg
  one_ne_zero := h.one_ne_zero
  one_mul hc := h.one_mul (hsub hc)
  mul_one hc := h.mul_one (hsub hc)
  neg_one_mul hc := h.neg_one_mul (hsub hc)
  neg_neg hc := h.neg_neg (hsub hc)

namespace PolyRing

variable {α : Type} {R : PolyRing α} {C : α → Prop}

/-- The polynomial one is not zero. -/
theorem one_ne_zero (hone : R.coefficients.one ≠ R.coefficients.zero) : R.one ≠ Poly.zero := by
  rw [one_eq_single hone]
  intro h
  exact absurd (congrArg Poly.terms h) (List.cons_ne_nil _ _)

/-- Polynomials with coefficients that need no braces are read back in turn. -/
theorem legible (hA : R.coefficients.Legible C) (hlaws : R.coefficients.RingLaws C)
    (hplain : R.coefficients.PlainlyWritten C) (hnodup : R.vars.Nodup)
    (hnames : ∀ v ∈ R.vars, v.IsWord) :
    R.arithmetic.Legible (Poly.Regular R.coefficients R.Supports C) := by
  have hclosed := R.closed_supports
  have hunits : R.arithmetic.Units (Poly.Regular R.coefficients R.Supports C) :=
    ((ringLaws hlaws).units (one_ne_zero hA.one_ne_zero)).restrict
      (fun hp => hp.canonicalOver hclosed) Poly.regular_zero (regular_constant hclosed hA.one_mem)
      fun hp => hp.neg hlaws.closed
  have hspells : ∀ {p : Poly α}, Poly.Regular R.coefficients R.Supports C p →
      Token.Spells (R.format p) (R.formatTokens p) := fun hp => spells_format hA hnames hp.coefficients
  have hsealed : ∀ {p : Poly α}, Poly.Regular R.coefficients R.Supports C p →
      Token.Sealed (R.formatTokens p) :=
    fun hp => sealed_formatTokens hA hplain hnames hp.coefficients
  have hread : ∀ {p : Poly α} {t : Text}, Poly.Regular R.coefficients R.Supports C p →
      Token.ofText t = R.formatTokens p → ∀ limits depth, R.readWithin limits depth t = .ok p := by
    intro p t hp ht limits depth
    rw [readWithin, polynomialOf_eq_ok hA hnodup hnames hp (.inr hplain) ht]
    rfl
  exact
    { toUnits := hunits
      format_zero := by simp [arithmetic, format, descending, Poly.zero]
      spells hp := by
        change Token.Spells (R.format _) (Token.ofText (R.format _))
        rw [(hspells hp).ofText_eq]
        exact hspells hp
      inLiteral hp := by
        change ∀ t ∈ Token.ofText (R.format _), _
        rw [(hspells hp).ofText_eq]
        exact (hsealed hp).inLiteral
      read_format hp := hread hp (hspells hp).ofText_eq
      read_rebuilt {p} hp := by
        apply hread hp
        change Token.ofText (Reader.rebuilt (Token.ofText (R.format p))) = _
        rw [(hspells hp).ofText_eq, Reader.ofText_rebuilt (hsealed hp)]
      eq_format_neg hp hformat hnumeral := eq_format_neg_of_minus hA hnames hp hformat hnumeral }

end PolyRing

namespace Extension

variable {α : Type} {A : Arithmetic α} {E : Extension α} {C : Poly α → Prop}

/-- Signs do not change the degree. -/
theorem Low.neg {p : Poly α} (h : E.Low p) : E.Low (p.neg A) := by
  intro top lead htop
  simp only [Poly.top?, Poly.neg, List.getLast?_map, Option.map_map] at htop
  obtain ⟨term, hterm, heq⟩ := Option.map_eq_some_iff.1 htop
  obtain ⟨rfl, -⟩ := Prod.mk.inj heq
  exact h _ term.2 (by rw [Poly.top?, hterm]; rfl)

/-- The residue one has degree zero. -/
theorem low_one (hdegree : E.degree ≠ 0) : E.Low (E.ring A).one := by
  intro top lead htop
  have hpos : 0 < E.degree := UInt64.pos_iff_ne_zero.2 hdegree
  simp only [PolyRing.one, PolyRing.constant, Poly.monomial, Poly.top?] at htop
  split at htop
  · contradiction
  · obtain ⟨rfl, -⟩ := Prod.mk.inj (Option.some.inj htop)
    exact hpos

/-- Residues are read back if the polynomials in the generator are. -/
theorem legible (h : (E.ring A).arithmetic.Legible C) (hdegree : E.degree ≠ 0) :
    (E.arithmetic A).Legible fun p => C p ∧ E.Low p := by
  have hreduce : ∀ {p q : Poly α}, q = p → E.Low p → E.reduce A q = p := by
    rintro p q rfl hlow
    exact E.reduce_of_top_lt A hlow
  have hread : ∀ {p : Poly α} {t : Text} {limits : Limits} {depth : Nat}, E.Low p →
      (E.ring A).arithmetic.readWithin limits depth t = .ok p →
      E.readWithin A limits depth t = .ok p := by
    intro p t limits depth hlow hread
    change ((E.ring A).arithmetic.readWithin limits depth t).map _ = _
    rw [hread]
    exact congrArg Except.ok (hreduce rfl hlow)
  exact
    { zero_mem := ⟨h.zero_mem, fun _ _ htop => absurd htop (by simp [arithmetic, Poly.top?, Poly.zero])⟩
      one_mem := ⟨h.one_mem, low_one hdegree⟩
      neg_mem hp := ⟨h.neg_mem hp.1, hp.2.neg⟩
      one_ne_zero := h.one_ne_zero
      one_mul hp := hreduce (h.one_mul hp.1) hp.2
      mul_one hp := hreduce (h.mul_one hp.1) hp.2
      neg_one_mul hp := hreduce (h.neg_one_mul hp.1) hp.2.neg
      neg_neg hp := h.neg_neg hp.1
      format_zero := h.format_zero
      spells hp := h.spells hp.1
      inLiteral hp := h.inLiteral hp.1
      read_format hp limits depth := hread hp.2 (h.read_format hp.1 limits depth)
      read_rebuilt hp limits depth := hread hp.2 (h.read_rebuilt hp.1 limits depth)
      eq_format_neg hp := h.eq_format_neg hp.1 }

end Extension

/-! ### The rings that a descriptor can select -/

/-- A result whose refusal would have been worded anew. -/
theorem eq_ok_of_mapError {ε δ β : Type} {x : Except ε β} {f : ε → δ} {b : β}
    (h : x.mapError f = .ok b) : x = .ok b := by
  cases x with
  | ok c => exact congrArg Except.ok (Except.ok.inj h)
  | error e => contradiction

/-- Elements that are read back differ in their literals. -/
theorem Arithmetic.injOn_format {α : Type} {A : Arithmetic α} {C : α → Prop}
    (h : ∀ {a : α}, C a → A.read (A.format a) = .ok a) : Set.InjOn A.format {a | C a} := by
  intro a ha b hb heq
  have hread := h ha
  rw [heq, h hb] at hread
  exact (Except.ok.inj hread).symm

namespace CoefficientRing

/-- The names that a ring declares are distinct and of a given form, and its defining polynomial
is not constant. -/
def WellFormed (N : Text → Prop) : CoefficientRing → Prop
  | function vars => vars.Nodup ∧ ∀ v ∈ vars, N v
  | algebraicRational E => N E.generator ∧ E.degree ≠ 0
  | algebraicModular _ E => N E.generator ∧ E.degree ≠ 0
  | _ => True

/-- The canonical elements in whose literals only names occur that are read as variables. -/
def Readable : (r : CoefficientRing) → r.Elem → Prop
  | function vars =>
    Poly.Regular Rational.arithmetic (functionRing vars).Supports AnyElement
  | algebraicRational E => fun p =>
    Poly.Regular Rational.arithmetic (E.ring Rational.arithmetic).Supports AnyElement p ∧ E.Low p
  | algebraicModular m E => fun p =>
    Poly.Regular m.arithmetic (E.ring m.arithmetic).Supports m.Reduced p ∧ E.Low p
  | r => r.Canonical

/-- Every ring but that of fixed-point decimals reads its elements back. -/
theorem legible {r : CoefficientRing} (hr : r ≠ .decimal) (hnames : r.WellFormed Text.IsWord) :
    r.arithmetic.Legible r.Readable := by
  have hgenerator : ∀ {E : Text}, Text.IsWord E → ∀ v ∈ [E], v.IsWord :=
    fun hE v hv => List.mem_singleton.1 hv ▸ hE
  cases r with
  | rational => exact Rational.legible
  | integer => exact Integer.legible
  | word m => exact m.legible
  | big m => exact m.legible
  | complex => exact Gaussian.legible
  | quaternion => exact Quaternion.legible
  | octonion => exact Octonion.legible
  | decimal => exact absurd rfl hr
  | function vars =>
    exact PolyRing.legible (R := functionRing vars) Rational.legible Rational.ringLaws
      Rational.plainlyWritten hnames.1 hnames.2
  | algebraicRational E =>
    exact Extension.legible (PolyRing.legible Rational.legible Rational.ringLaws
      Rational.plainlyWritten (List.nodup_singleton _) (hgenerator hnames.1)) hnames.2
  | algebraicModular m E =>
    exact Extension.legible (PolyRing.legible m.legible m.represents.ringLaws
      m.plainlyWritten (List.nodup_singleton _) (hgenerator hnames.1)) hnames.2

/-- Names are words. -/
theorem WellFormed.imp {N M : Text → Prop} (h : ∀ {v : Text}, N v → M v) {r : CoefficientRing}
    (hr : r.WellFormed N) : r.WellFormed M := by
  cases r with
  | function vars => exact ⟨hr.1, fun v hv => h (hr.2 v hv)⟩
  | algebraicRational E => exact ⟨h hr.1, hr.2⟩
  | algebraicModular m E => exact ⟨h hr.1, hr.2⟩
  | _ => trivial

/-- Canonical elements are readable if all names are read as variables. -/
theorem readable_of_canonical {r : CoefficientRing} (hnames : r.WellFormed Text.IsName) {a : r.Elem}
    (ha : r.Canonical a) : r.Readable a := by
  have hregular : ∀ {α : Type} {R : PolyRing α} {C : α → Prop} {p : Poly α},
      (∀ v ∈ R.vars, v.IsName) → R.CanonicalPoly C p →
      Poly.Regular R.coefficients R.Supports C p := fun hnames hp =>
    ⟨hp.ascending, hp.nonzero, fun t ht => PolyRing.supports_of_length hnames (hp.length t ht),
      hp.coefficients⟩
  have hgenerator : ∀ {E : Text}, Text.IsName E → ∀ v ∈ [E], v.IsName :=
    fun hE v hv => List.mem_singleton.1 hv ▸ hE
  cases r with
  | function vars => exact hregular (R := functionRing vars) hnames.2 ha
  | algebraicRational E =>
    exact ⟨hregular (R := E.ring Rational.arithmetic) (hgenerator hnames.1) ha.canonical, ha.low⟩
  | algebraicModular m E =>
    exact ⟨hregular (R := E.ring m.arithmetic) (hgenerator hnames.1) ha.canonical, ha.low⟩
  | _ => exact ha

/-- A literal that is read at the start of an expression is read on its own. -/
theorem read_eq_ok {r : CoefficientRing} {t : Text} {a : r.Elem}
    (h : r.arithmetic.readWithin {} 0 t = .ok a) : r.arithmetic.read t = .ok a := by
  have hextension : ∀ {β : Type} {A : Arithmetic β} {E : Extension β} {p : Poly β},
      E.readWithin A {} 0 t = .ok p → E.read A t = .ok p := by
    intro β A E p hread
    rw [Extension.readWithin, PolyRing.readWithin] at hread
    rw [Extension.read]
    cases hpoly : Reader.polynomialOf (E.ring A) {} 0 t with
    | ok q =>
      rw [hpoly] at hread
      exact congrArg Except.ok (Except.ok.inj hread)
    | error e =>
      rw [hpoly] at hread
      contradiction
  cases r with
  | function vars =>
    change (Reader.polynomialOf (functionRing vars) {} 0 t).mapError _ = _
    rw [eq_ok_of_mapError (x := Reader.polynomialOf (functionRing vars) {} 0 t) h]
    rfl
  | algebraicRational E => exact hextension h
  | algebraicModular m E => exact hextension h
  | _ => exact eq_ok_of_mapError h

end CoefficientRing

end PolynomialText
