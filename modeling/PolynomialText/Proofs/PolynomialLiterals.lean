import PolynomialText.Proofs.CoefficientRings
import PolynomialText.Proofs.Powers
import PolynomialText.Proofs.Spelling
import Mathlib.Data.List.Chain

/-!
# Literals of polynomials

A polynomial is written as its terms from the largest one down, and reading the text puts the terms
together again one by one. Each term is a sign, a coefficient and powers of variables; what is read
of them is a polynomial with a single term throughout. The sum of the terms does not depend on the
order in which they are written, because their exponents differ.

`Arithmetic.Legible` collects what the coefficients have to satisfy. It asks for neutral elements
and signs only, so that octonions are covered too.
-/

namespace PolynomialText

/-! ### Sums of different terms -/

namespace Poly

variable {α : Type} {A : Arithmetic α}

/-- A term with new exponents is put among the others. -/
theorem insertTerm_perm {e : Exponents} {c : α} {terms : List (Exponents × α)}
    (h : ∀ t ∈ terms, t.1 ≠ e) : (insertTerm A e c terms).Perm ((e, c) :: terms) := by
  induction terms with
  | nil => exact List.Perm.refl _
  | cons head rest ih =>
    obtain ⟨f, d⟩ := head
    rw [insertTerm]
    split
    · exact List.Perm.refl _
    · rename_i heq
      exact absurd (Std.LawfulEqCmp.eq_of_compare heq).symm (h _ List.mem_cons_self)
    · have hrest := ih fun t ht => h t (List.mem_cons_of_mem _ ht)
      exact (hrest.cons (f, d)).trans (List.Perm.swap _ _ _)

/-- Terms with different exponents and without zeros are collected as they are. -/
theorem foldl_addTerm_perm {start terms : List (Exponents × α)}
    (hdistinct : (start ++ terms).Pairwise fun s t => s.1 ≠ t.1)
    (hnonzero : ∀ t ∈ terms, t.2 ≠ A.zero) :
    (terms.foldl (addTerm A) start).Perm (start ++ terms) := by
  induction terms generalizing start with
  | nil => simp
  | cons t rest ih =>
    have ht : ¬ A.isZero t.2 = true := fun hzero =>
      hnonzero t List.mem_cons_self (A.isZero_eq_true_iff.1 hzero)
    have hnew : ∀ s ∈ start, s.1 ≠ t.1 := fun s hs =>
      (List.pairwise_append.1 hdistinct).2.2 s hs t List.mem_cons_self
    have hinsert : (addTerm A start t).Perm (t :: start) := by
      rw [addTerm, if_neg ht]
      exact insertTerm_perm hnew
    have hmiddle : (t :: start ++ rest).Perm (start ++ t :: rest) := List.perm_middle.symm
    have hperm : (addTerm A start t ++ rest).Perm (start ++ t :: rest) :=
      (hinsert.append_right rest).trans hmiddle
    rw [List.foldl_cons]
    refine (ih ?_ fun s hs => hnonzero s (List.mem_cons_of_mem _ hs)).trans hperm
    exact (hperm.pairwise_iff fun h => Ne.symm h).2 hdistinct

/-- The terms of a canonical polynomial, added in any order, give the polynomial. -/
theorem ofTerms_of_perm {nvars : Nat} {p : Poly α} (hp : Canonical A nvars p)
    {terms : List (Exponents × α)} (hperm : terms.Perm p.terms) : ofTerms A terms = p := by
  have hdistinct : p.terms.Pairwise fun s t => s.1 ≠ t.1 := by
    refine hp.ascending.imp fun {s t} hlt heq => ?_
    exact t.1.not_cmp_self_lt (heq ▸ hlt)
  have hfold : (terms.foldl (addTerm A) []).Perm p.terms := by
    refine (foldl_addTerm_perm ?_ fun t ht => hp.nonzero t (hperm.subset ht)).trans hperm
    exact (hperm.pairwise_iff fun h => Ne.symm h).2 hdistinct
  have hascending : ∀ {start : List (Exponents × α)},
      start.Pairwise (fun s t => s.1.cmp t.1 = .lt) →
      (terms.foldl (addTerm A) start).Pairwise fun s t => s.1.cmp t.1 = .lt := by
    clear hperm hfold
    induction terms with
    | nil => exact id
    | cons t rest ih =>
      intro start hstart
      apply ih
      unfold addTerm
      split
      · exact hstart
      · exact pairwise_insertTerm hstart
  have hasymm : ∀ s t : Exponents × α, s ∈ terms.foldl (addTerm A) [] → t ∈ p.terms →
      s.1.cmp t.1 = .lt → t.1.cmp s.1 = .lt → s = t := fun s t _ _ hst hts =>
    absurd (Std.TransCmp.lt_trans hst hts) s.1.not_cmp_self_lt
  have hterms := hfold.eq_of_pairwise hasymm (hascending List.Pairwise.nil) hp.ascending
  rw [ofTerms, hterms]

end Poly

/-! ### Coefficients that can be read back -/

/-- Neutral elements and signs, all that is needed to put a single term together again. -/
structure Arithmetic.Units {α : Type} (A : Arithmetic α) (C : α → Prop) : Prop where
  zero_mem : C A.zero
  one_mem : C A.one
  neg_mem : ∀ {c : α}, C c → C (A.neg c)
  one_ne_zero : A.one ≠ A.zero
  one_mul : ∀ {c : α}, C c → A.mul A.one c = c
  mul_one : ∀ {c : α}, C c → A.mul c A.one = c
  neg_one_mul : ∀ {c : α}, C c → A.mul (A.neg A.one) c = A.neg c
  neg_neg : ∀ {c : α}, C c → A.neg (A.neg c) = c

/-- Coefficients that are read back: their literals stand for themselves as a plain numeral, behind
a minus sign and between braces. -/
structure Arithmetic.Legible {α : Type} (A : Arithmetic α) (C : α → Prop) : Prop
    extends A.Units C where
  format_zero : A.format A.zero = ['0']
  spells : ∀ {c : α}, C c → Token.Spells (A.format c) (Token.ofText (A.format c))
  inLiteral : ∀ {c : α}, C c → ∀ t ∈ Token.ofText (A.format c), Reader.InLiteral t
  read_format : ∀ {c : α}, C c → ∀ limits depth, A.readWithin limits depth (A.format c) = .ok c
  read_rebuilt : ∀ {c : α}, C c → ∀ limits depth,
    A.readWithin limits depth (Reader.rebuilt (Token.ofText (A.format c))) = .ok c
  eq_format_neg : ∀ {c : α} {size : Text}, C c → A.format c = '-' :: size →
    PolyRing.isPlainNumeral size = true → size = A.format (A.neg c)

/-- A ring with at least two elements has neutral elements and signs. -/
theorem Arithmetic.RingLaws.units {α : Type} {A : Arithmetic α} {C : α → Prop} (h : A.RingLaws C)
    (hone : A.one ≠ A.zero) : A.Units C where
  zero_mem := h.zero_mem
  one_mem := h.one_mem
  neg_mem := h.neg_mem
  one_ne_zero := hone
  one_mul := h.one_mul
  mul_one := h.mul_one
  neg_one_mul hc := by rw [h.neg_mul h.one_mem hc, h.one_mul hc]
  neg_neg := h.neg_neg

/-- Every literal is a plain numeral without a point, with an optional minus sign. -/
def Arithmetic.PlainlyWritten {α : Type} (A : Arithmetic α) (C : α → Prop) : Prop :=
  ∀ {c : α}, C c → '.' ∉ A.format c ∧ (PolyRing.isPlainNumeral (A.format c) = true ∨
    ∃ size, A.format c = '-' :: size ∧ PolyRing.isPlainNumeral size = true)

/-- Exponents that are zero for every variable whose name is read as something else. -/
def PolyRing.Supports {α : Type} (R : PolyRing α) (e : Exponents) : Prop :=
  e.length = R.nvars ∧
    ∀ factor ∈ R.vars.zip e, factor.2 ≠ 0 → factor.1.head?.any isNumeralStart = false

/-! ### Exponents, one variable at a time -/

/-- An exponent is set where it was zero. -/
theorem Exponents.add_single {nvars index : Nat} {e : Exponents} (hlength : e.length = nvars)
    (hzero : e[index]? = some 0) (k : UInt64) : e.add (single nvars index k) = e.set index k := by
  apply List.ext_getElem?
  intro i
  simp only [add, single, zero, List.getElem?_zipWith, List.getElem?_set, List.length_replicate,
    List.getElem?_replicate, hlength]
  by_cases hi : index = i
  · subst hi
    have hlt : index < nvars := by
      rw [← hlength]
      exact (List.getElem?_eq_some_iff.1 hzero).1
    simp [hzero, hlt, clampAdd_comm 0 k, clampAdd_zero]
  · by_cases hlt : i < nvars
    · have hlt' : i < e.length := hlength.symm ▸ hlt
      simp [hi, hlt, hlt', clampAdd_zero]
    · have hge : e.length ≤ i := by omega
      simp [hi, hlt, hge]

namespace PolyRing

variable {α : Type} {R : PolyRing α}

/-- The exponents after the powers of some variables were multiplied. -/
def multiplied (R : PolyRing α) (e : Exponents) (factors : List (Text × UInt64)) : Exponents :=
  factors.foldl (fun d f => d.add (.single R.nvars ((R.varIndex? f.1).getD 0) f.2)) e

/-- The powers of the variables from a position on complete the exponents in front of it. -/
theorem multiplied_zip (hnodup : R.vars.Nodup) {before behind : List Text}
    (hvars : R.vars = before ++ behind) {d e : Exponents} (hd : d.length = before.length)
    (he : e.length = behind.length) :
    R.multiplied (d ++ .zero behind.length) ((behind.zip e).filter fun f => f.2 ≠ 0) = d ++ e := by
  induction behind generalizing before d e with
  | nil =>
    obtain rfl : e = [] := List.length_eq_zero_iff.1 he
    simp [multiplied, Exponents.zero]
  | cons v behind ih =>
    obtain ⟨k, e, rfl⟩ := List.exists_cons_of_length_eq_add_one he
    have hvars' : R.vars = (before ++ [v]) ++ behind := by
      rw [hvars, List.append_assoc, List.singleton_append]
    have hlength : ∀ x : UInt64, (d ++ [x]).length = (before ++ [v]).length := by
      simp [hd]
    have hstep : ∀ x : UInt64, d ++ x :: Exponents.zero behind.length =
        (d ++ [x]) ++ Exponents.zero behind.length := by simp
    have hzeros : Exponents.zero (behind.length + 1) = 0 :: Exponents.zero behind.length := rfl
    rw [List.length_cons, hzeros]
    by_cases hk : k = 0
    · have hfilter : ((v :: behind).zip (k :: e)).filter (fun f => f.2 ≠ 0) =
          (behind.zip e).filter fun f => f.2 ≠ 0 := by simp [hk]
      have hrest := ih hvars' (hlength 0) (Nat.succ.inj he)
      rw [← hstep] at hrest
      rw [hfilter, hrest, hk, List.append_assoc, List.singleton_append]
    · have hfilter : ((v :: behind).zip (k :: e)).filter (fun f => f.2 ≠ 0) =
          (v, k) :: (behind.zip e).filter fun f => f.2 ≠ 0 := by simp [hk]
      have hindex : R.varIndex? v = some before.length := by
        have hlt : before.length < R.vars.length := by simp [hvars]
        have hget : R.vars[before.length] = v := by simp [hvars]
        rw [← hget]
        exact varIndex?_getElem hnodup hlt
      have hset : (d ++ 0 :: Exponents.zero behind.length).add
          (.single R.nvars before.length k) = d ++ k :: Exponents.zero behind.length := by
        rw [Exponents.add_single, ← hd]
        · simp
        · simp [nvars, hvars, hd, Exponents.zero]
        · simp [← hd]
      have hrest := ih hvars' (hlength k) (Nat.succ.inj he)
      rw [← hstep] at hrest
      rw [multiplied] at hrest
      rw [hfilter, multiplied, List.foldl_cons, hindex, Option.getD_some, hset, hrest,
        List.append_assoc, List.singleton_append]

/-- The powers of the variables that occur multiply to the monomial. -/
theorem multiplied_factors (hnodup : R.vars.Nodup) {e : Exponents} (he : e.length = R.nvars) :
    R.multiplied (.zero R.nvars) ((R.vars.zip e).filter fun f => f.2 ≠ 0) = e :=
  multiplied_zip hnodup (List.nil_append _).symm (d := []) rfl he

end PolyRing

/-! ### Powers of variables -/

/-- Texts are joined one after the other. -/
theorem Text.join_cons_cons (separator first second : Text) (rest : List Text) :
    Text.join separator (first :: second :: rest) =
      first ++ (separator ++ Text.join separator (second :: rest)) := by
  simp [Text.join, List.intercalate]

/-- A single text stands alone. -/
theorem Text.join_singleton (separator only : Text) : Text.join separator [only] = only := by
  simp [Text.join, List.intercalate]

/-- The numeral of a number is a word. -/
theorem Text.isWord_decimal (n : Nat) : (Text.decimal n).IsWord :=
  ⟨decimal_ne_nil n, fun _ hc => isWordChar_of_isDigit (isDigit_of_mem_decimal hc)⟩

namespace PolyRing

/-- The tokens of a power of a variable. -/
def factorTokens (name : Text) (k : UInt64) : List Token :=
  if k = 1 then [.word name] else [.word name, .op '^', .word (Text.decimal k.toNat)]

/-- The tokens of powers of variables with stars between them. -/
def monomialTokens : List (Text × UInt64) → List Token
  | [] => []
  | [factor] => factorTokens factor.1 factor.2
  | factor :: next :: rest => factorTokens factor.1 factor.2 ++ .op '*' :: monomialTokens (next :: rest)

/-- A power of a variable stands for its tokens. -/
theorem spells_factorText {name : Text} (hname : name.IsWord) (k : UInt64) :
    Token.Spells (factorText name k) (factorTokens name k) := by
  unfold factorText factorTokens
  split
  · exact Token.spells_word hname
  · have hexponent := (Token.spells_word (Text.isWord_decimal k.toNat)).op_cons '^'
    exact (Token.spells_word hname).append hexponent Text.apart_cons

/-- Powers of variables joined by stars stand for their tokens. -/
theorem spells_monomial {factors : List (Text × UInt64)} (hnames : ∀ f ∈ factors, f.1.IsWord) :
    Token.Spells (Text.join " * ".toList (factors.map fun f => factorText f.1 f.2))
      (monomialTokens factors) := by
  induction factors with
  | nil => exact Token.spells_nil
  | cons f rest ih =>
    have hfirst := spells_factorText (hnames f List.mem_cons_self) f.2
    have hrest := ih fun g hg => hnames g (List.mem_cons_of_mem _ hg)
    cases rest with
    | nil =>
      rw [List.map_singleton, Text.join_singleton]
      exact hfirst
    | cons g rest =>
      rw [List.map_cons, List.map_cons, Text.join_cons_cons]
      have hstar := ((hrest.blank_cons ' ').op_cons '*').blank_cons ' '
      exact hfirst.append hstar Text.apart_cons

/-- The tokens of a power start with the name. -/
theorem exists_factorTokens_eq (name : Text) (k : UInt64) :
    ∃ rest, factorTokens name k = .word name :: rest := by
  unfold factorTokens
  split
  · exact ⟨_, rfl⟩
  · exact ⟨_, rfl⟩

/-- The tokens of powers start with the first name. -/
theorem exists_monomialTokens_eq (f : Text × UInt64) (rest : List (Text × UInt64)) :
    ∃ others, monomialTokens (f :: rest) = .word f.1 :: others := by
  obtain ⟨tail, htail⟩ := exists_factorTokens_eq f.1 f.2
  cases rest with
  | nil => exact ⟨tail, htail⟩
  | cons g rest =>
    refine ⟨tail ++ .op '*' :: monomialTokens (g :: rest), ?_⟩
    rw [monomialTokens, htail, List.cons_append]

variable {α : Type} {R : PolyRing α}

/-- A coefficient multiplies a single term. -/
theorem multiply_coefficient_single {sum : Poly α} {e : Exponents} {a b c : α} {pending : Bool}
    (hmul : R.coefficients.mul a (R.coefficients.mul R.coefficients.one b) = c)
    (hc : c ≠ R.coefficients.zero) :
    (⟨sum, ⟨[(e, a)]⟩, pending⟩ : Accumulator α).multiply R (.coefficient b) 1 =
      ⟨sum, ⟨[(e, c)]⟩, true⟩ := by
  have hzero : R.coefficients.isZero c = false := by
    rw [← Bool.not_eq_true, R.coefficients.isZero_eq_true_iff]
    exact hc
  simp [Accumulator.multiply, Poly.scale, Arithmetic.pow_one, hmul, hzero]

/-- A power of a variable multiplies a single term. -/
theorem multiply_variable_single {sum : Poly α} {e : Exponents} {a : α} {pending : Bool}
    (hone : R.coefficients.one ≠ R.coefficients.zero)
    (hmul : R.coefficients.mul a R.coefficients.one = a) (ha : a ≠ R.coefficients.zero)
    (index : Nat) (k : UInt64) :
    (⟨sum, ⟨[(e, a)]⟩, pending⟩ : Accumulator α).multiply R (.variable index) k =
      ⟨sum, ⟨[(e.add (.single R.nvars index k), a)]⟩, true⟩ := by
  have hzero : ∀ {c : α}, c ≠ R.coefficients.zero → R.coefficients.isZero c = false := by
    intro c hc
    rw [← Bool.not_eq_true, R.coefficients.isZero_eq_true_iff]
    exact hc
  simp [Accumulator.multiply, univariate, Poly.monomial, hzero hone, Poly.mul, Poly.ofTerms,
    Poly.mulTerm, hmul, Poly.addTerm, hzero ha, Poly.insertTerm]

section

variable {limits : Limits} {depth : Nat} {rest : List Token} {out : Poly α × Terminator}
  {Q : Session → Prop} {sum : Poly α} {a : α}
  (hone : R.coefficients.one ≠ R.coefficients.zero)
  (hmul : R.coefficients.mul a R.coefficients.one = a) (ha : a ≠ R.coefficients.zero)
include hone hmul ha

/-- Reading a power of a variable multiplies the monomial by it. -/
theorem completes_factor {name : Text} {index : Nat} {k : UInt64} {e : Exponents} {pending : Bool}
    (hname : name.IsName) (hindex : R.varIndex? name = some index) (hrest : Unraised rest)
    (hnext : Reader.Completes R limits depth
      ((⟨sum, ⟨[(e.add (.single R.nvars index k), a)]⟩, true⟩ : Accumulator α).settle R rest) rest
      out Q) :
    Reader.Completes R limits depth ⟨sum, ⟨[(e, a)]⟩, pending⟩ (factorTokens name k ++ rest) out Q := by
  unfold factorTokens
  split
  · rename_i hk
    have hnone : Reader.Takes Reader.exponent (Session.At limits depth ([] ++ rest)) 1
        (Session.At limits depth rest) := Reader.takes_exponent_none hrest
    apply Reader.Completes.variable hnone hname.2 hindex
    rw [multiply_variable_single hone hmul ha, ← hk]
    exact hnext
  · refine Reader.Completes.variable (Reader.takes_exponent_caret (Text.word?_decimal k)) hname.2
      hindex ?_
    rw [multiply_variable_single hone hmul ha]
    exact hnext

/-- Reading powers of variables multiplies the monomial by them. -/
theorem completes_monomial {factors : List (Text × UInt64)} (hne : factors ≠ [])
    (hnames : ∀ f ∈ factors, f.1.IsName ∧ ∃ index, R.varIndex? f.1 = some index)
    (hrest : Unraised rest) {e : Exponents} {pending : Bool}
    (hnext : Reader.Completes R limits depth
      ((⟨sum, ⟨[(R.multiplied e factors, a)]⟩, true⟩ : Accumulator α).settle R rest) rest out Q) :
    Reader.Completes R limits depth ⟨sum, ⟨[(e, a)]⟩, pending⟩ (monomialTokens factors ++ rest) out
      Q := by
  induction factors generalizing e pending with
  | nil => exact absurd rfl hne
  | cons f factors ih =>
    obtain ⟨hname, index, hindex⟩ := hnames f List.mem_cons_self
    cases factors with
    | nil =>
      apply completes_factor hone hmul ha hname hindex hrest
      simpa only [multiplied, List.foldl_cons, List.foldl_nil, hindex, Option.getD_some] using hnext
    | cons g factors =>
      have hg := (hnames g (List.mem_cons_of_mem _ List.mem_cons_self)).1.1
      obtain ⟨others, hothers⟩ := exists_monomialTokens_eq g factors
      have hbehind : Unraised (.op '*' :: (monomialTokens (g :: factors) ++ rest)) := by
        refine ⟨by simp, fun tail htail => ?_⟩
        obtain ⟨c, w, hcw⟩ := List.exists_cons_of_ne_nil hg.1
        refine ⟨.word g.1, c, w, others ++ rest, ?_, id, hcw, ?_⟩
        · rw [← (List.cons.inj htail).2, hothers, List.cons_append]
        · rintro rfl
          exact absurd (hg.2 '*' (hcw ▸ List.mem_cons_self)) (by decide)
      rw [monomialTokens, List.append_assoc, List.cons_append]
      apply completes_factor hone hmul ha hname hindex hbehind
      rw [Accumulator.settle_of_not_sign rfl]
      refine Reader.Completes.star (ih (List.cons_ne_nil _ _)
        (fun f hf => hnames f (List.mem_cons_of_mem _ hf)) ?_)
      simpa only [multiplied, List.foldl_cons, hindex, Option.getD_some] using hnext

end

end PolyRing

/-! ### Tokens that can be rebuilt -/

/-- The tokens do not run together when they are rebuilt: a word that ends in a point stands in
front of no word. -/
def Token.Follows (t u : Token) : Prop :=
  ∀ w v, t = .word w → u = .word v → w.getLast? ≠ some '.'

/-- Tokens without inner braces that are rebuilt to a text with the same tokens. -/
structure Token.Sealed (tokens : List Token) : Prop where
  written : ∀ t ∈ tokens, t.Written
  inLiteral : ∀ t ∈ tokens, Reader.InLiteral t
  chain : tokens.IsChain Token.Follows

namespace Reader

/-- The text that is being rebuilt stands for the tokens taken so far. -/
theorem spells_foldl_take {tokens done : List Token} (hwritten : ∀ t ∈ tokens, t.Written)
    (hchain : tokens.IsChain Token.Follows) {b : Braces} (hb : Token.Spells b.text done)
    (hword : b.afterWord = true → ∀ v, tokens.head? = some (.word v) → b.text.getLast? ≠ some '.')
    (hopen : b.afterWord = false → ∀ c ∈ b.text.getLast?, isWordChar c = false) :
    Token.Spells (tokens.foldl Braces.take b).text (done ++ tokens) := by
  induction tokens generalizing done b with
  | nil => rwa [List.append_nil]
  | cons t tokens ih =>
    have ht := hwritten t List.mem_cons_self
    obtain ⟨hnext, hchain'⟩ := List.isChain_cons.1 hchain
    have hrest := fun u hu => hwritten u (List.mem_cons_of_mem t hu)
    rw [List.foldl_cons, List.append_cons]
    cases t with
    | op c =>
      have hc : isWordChar c = false := ht.2.2.2.2
      have hop : Token.Spells [c] [.op c] := Token.spells_nil.op_cons c ht
      refine ih hrest hchain' (hb.append hop (Text.apart_cons hc)) ?_ ?_
      · exact fun h => absurd h (by simp [Braces.take])
      · intro _ d hd
        obtain rfl : c = d := by simpa [Braces.take] using hd
        exact hc
    | word w =>
      have hspells : Token.Spells (b.take (.word w)).text (done ++ [.word w]) := by
        cases hafter : b.afterWord with
        | false =>
          have htext : (b.take (.word w)).text = b.text ++ w := by simp [Braces.take, hafter]
          rw [htext]
          exact hb.append (Token.spells_word ht) (Text.apart_of_getLast? (hopen hafter))
        | true =>
          have hlast := hword hafter w rfl
          have htext : (b.take (.word w)).text = b.text ++ ' ' :: w := by
            simp [Braces.take, hafter, hlast]
          rw [htext]
          have hblank := (Token.spells_word ht).blank_cons ' '
          exact hb.append hblank Text.apart_cons
      refine ih hrest hchain' hspells ?_ ?_
      · intro _ v hv
        have hlast : (b.take (.word w)).text.getLast? = w.getLast? := by
          rw [Braces.take, List.getLast?_append, Option.or_of_isSome (by simp [ht.1])]
        rw [hlast]
        exact hnext (.word v) hv w v rfl rfl
      · exact fun h => absurd h (by simp [Braces.take])
    | quoted t => exact ht.elim
    | eof => exact ht.elim

/-- Rebuilt tokens are read again. -/
theorem ofText_rebuilt {tokens : List Token} (h : Token.Sealed tokens) :
    Token.ofText (rebuilt tokens) = tokens := by
  have hspells := spells_foldl_take h.written h.chain (b := ⟨[], 0, false⟩) Token.spells_nil
    (fun h => absurd h (by simp)) (by simp)
  exact hspells.ofText_eq

end Reader

/-! ### Coefficients -/

/-- A plain numeral is a word. -/
theorem Text.isWord_of_isPlainNumeral {w : Text} (hw : PolyRing.isPlainNumeral w = true) :
    w.IsWord := by
  obtain ⟨c, rest, hcons, _⟩ := Reader.exists_digit_of_isPlainNumeral hw
  refine ⟨by simp [hcons], fun d hd => ?_⟩
  have hall := List.all_eq_true.1 (Bool.and_eq_true _ _ ▸ hw).2 d hd
  simp only [Bool.or_eq_true, decide_eq_true_eq] at hall
  rcases hall with (hdigit | rfl) | rfl
  · exact isWordChar_of_isDigit hdigit
  · decide
  · decide

namespace PolyRing

variable {α : Type} {R : PolyRing α} {C : α → Prop}

/-- An element with the sign that was pulled out of it. -/
def resigned (A : Arithmetic α) (negative : Bool) (c : α) : α := if negative then A.neg c else c

/-- What is written for a coefficient: nothing for a unit in front of a monomial, a plain numeral
with its sign pulled out, or the whole literal between braces. -/
inductive WritesCoefficient (R : PolyRing α) (C : α → Prop) (c : α) (bare : Bool) : Bool × Text → Prop
  | unit {negative : Bool} : bare = false →
      resigned R.coefficients negative R.coefficients.one = c →
      WritesCoefficient R C c bare (negative, [])
  | numeral {negative : Bool} {size : Text} {b : α} : isPlainNumeral size = true → C b →
      size = R.coefficients.format b → resigned R.coefficients negative b = c →
      WritesCoefficient R C c bare (negative, size)
  | braces : ¬ isPlainNumeral (R.coefficients.format c) = true →
      (∀ size, R.coefficients.format c = '-' :: size → ¬ isPlainNumeral size = true) →
      WritesCoefficient R C c bare
        (false, '\x7b' :: R.coefficients.format c ++ ['\x7d'])

/-- The three ways to write a coefficient. -/
theorem writesCoefficient (hA : R.coefficients.Legible C) {c : α} (hc : C c) (bare : Bool) :
    WritesCoefficient R C c bare (R.coefficientText c bare) := by
  unfold coefficientText
  dsimp only
  split
  · rename_i hunit
    simp only [Bool.and_eq_true, Bool.not_eq_true', R.coefficients.isOne_eq_true_iff] at hunit
    exact .unit hunit.1 hunit.2.symm
  · split
    · rename_i hunit
      simp only [Bool.and_eq_true, Bool.not_eq_true', R.coefficients.isOne_eq_true_iff] at hunit
      refine .unit hunit.1 ?_
      rw [resigned, if_pos rfl, ← hunit.2, hA.neg_neg hc]
    · split
      · rename_i size hstrip
        have hformat : R.coefficients.format c = '-' :: size := by
          cases hwritten : R.coefficients.format c with
          | nil => simp [hwritten, Text.strip?] at hstrip
          | cons d rest =>
            rw [hwritten, Text.strip?] at hstrip
            split at hstrip
            · rename_i hd
              rw [hd, Option.some.inj hstrip]
            · contradiction
        split
        · rename_i hplain
          refine .numeral hplain (hA.neg_mem hc) (hA.eq_format_neg hc hformat hplain) ?_
          rw [resigned, if_pos rfl, hA.neg_neg hc]
        · rename_i hplain
          refine .braces ?_ fun other hother => ?_
          · intro hnumeral
            obtain ⟨d, rest, hcons, hd⟩ := Reader.exists_digit_of_isPlainNumeral hnumeral
            rw [hformat] at hcons
            rw [← (List.cons.inj hcons).1] at hd
            exact absurd hd (by decide)
          · rw [hformat] at hother
            rwa [← (List.cons.inj hother).2]
      · rename_i hstrip
        split
        · rename_i hplain
          exact .numeral hplain hc rfl rfl
        · rename_i hplain
          refine .braces hplain fun size hsize => ?_
          rw [hsize, Text.strip?, if_pos rfl] at hstrip
          contradiction

/-- A written coefficient stands for its tokens. -/
theorem WritesCoefficient.spells (hA : R.coefficients.Legible C) {c : α} (hc : C c) {bare : Bool}
    {written : Bool × Text} (h : WritesCoefficient R C c bare written) :
    Token.Spells written.2 (Token.ofText written.2) := by
  have hself : ∀ {t : Text} {tokens : List Token}, Token.Spells t tokens →
      Token.Spells t (Token.ofText t) := by
    intro t tokens ht
    rwa [ht.ofText_eq]
  cases h with
  | unit => exact hself Token.spells_nil
  | numeral hplain => exact hself (Token.spells_word (Text.isWord_of_isPlainNumeral hplain))
  | braces =>
    exact hself ((hA.spells hc).enclosed '\x7b' '\x7d')

/-- The tokens of a literal between braces. -/
theorem ofText_braced {t : Text} (ht : Token.Spells t (Token.ofText t)) :
    Token.ofText ('\x7b' :: t ++ ['\x7d']) = .op '\x7b' :: (Token.ofText t ++ [.op '\x7d']) := by
  exact (ht.enclosed '\x7b' '\x7d').ofText_eq

/-- A sign and a written coefficient make the coefficient. -/
theorem mul_resigned (hA : R.coefficients.Legible C) {b : α} (hb : C b) (negative : Bool) :
    R.coefficients.mul (resigned R.coefficients negative R.coefficients.one)
      (R.coefficients.mul R.coefficients.one b) = resigned R.coefficients negative b := by
  rw [hA.one_mul hb]
  cases negative with
  | false => exact hA.one_mul hb
  | true => exact hA.neg_one_mul hb

section

variable {limits : Limits} {depth : Nat} {rest : List Token} {out : Poly α × Terminator}
  {Q : Session → Prop} {sum : Poly α}

/-- Reading a written coefficient behind its sign gives the coefficient. -/
theorem WritesCoefficient.completes (hA : R.coefficients.Legible C) {c : α} (hc : C c)
    (hne : c ≠ R.coefficients.zero) {bare : Bool} {written : Bool × Text}
    (h : WritesCoefficient R C c bare written) (hwritten : written.2 ≠ [])
    (hdepth : depth + 1 ≤ limits.maxDepth.toNat ∨ R.coefficients.PlainlyWritten C)
    (hrest : Unraised rest) {e : Exponents} {pending : Bool}
    (hnext : Reader.Completes R limits depth
      ((⟨sum, ⟨[(e, c)]⟩, true⟩ : Accumulator α).settle R rest) rest out Q) :
    Reader.Completes R limits depth
      ⟨sum, ⟨[(e, resigned R.coefficients written.1 R.coefficients.one)]⟩, pending⟩
      (Token.ofText written.2 ++ rest) out Q := by
  have hnone : Reader.Takes Reader.exponent (Session.At limits depth ([] ++ rest)) 1
      (Session.At limits depth rest) := Reader.takes_exponent_none hrest
  cases h with
  | unit => exact absurd rfl hwritten
  | @numeral negative size b hplain hb hsize hsign =>
    rw [(Token.spells_word (Text.isWord_of_isPlainNumeral hplain)).ofText_eq]
    apply Reader.Completes.numeral hnone hplain (hsize ▸ hA.read_format hb limits depth)
    rw [multiply_coefficient_single ((mul_resigned hA hb negative).trans hsign) hne]
    exact hnext
  | braces hnumeral hminus =>
    have hdepth' : depth + 1 ≤ limits.maxDepth.toNat := by
      apply hdepth.resolve_right
      intro hplain
      rcases (hplain hc).2 with hyes | ⟨size, hformat, hyes⟩
      · exact hnumeral hyes
      · exact hminus size hformat hyes
    have htokens : Token.ofText ('\x7b' :: R.coefficients.format c ++ ['\x7d']) ++ rest =
        .op '\x7b' :: (Token.ofText (R.coefficients.format c) ++ .op '\x7d' :: ([] ++ rest)) := by
      rw [ofText_braced (hA.spells hc)]
      simp
    rw [htokens]
    apply Reader.Completes.braces hnone (hA.inLiteral hc) hdepth' (hA.read_rebuilt hc _ _)
    rw [multiply_coefficient_single (mul_resigned hA hc false) hne]
    exact hnext

/-! ### Terms -/

/-- The powers of variables that occur in a monomial. -/
def factors (R : PolyRing α) (e : Exponents) : List (Text × UInt64) :=
  (R.vars.zip e).filter fun factor => factor.2 ≠ 0

/-- The token of the sign of a term; the first term has no plus sign. -/
def signTokens (first negative : Bool) : List Token :=
  if negative then [.op '-'] else if first then [] else [.op '+']

/-- The tokens of a term. -/
def termTokens (R : PolyRing α) (first : Bool) (term : Exponents × α) : List Token :=
  signTokens first (R.coefficientText term.2 (R.monomialText term.1).isEmpty).1 ++
    (Token.ofText (R.coefficientText term.2 (R.monomialText term.1).isEmpty).2 ++
      monomialTokens (R.factors term.1))

/-- The power of a variable that occurs is one of a declared variable. -/
theorem mem_vars_of_mem_factors {e : Exponents} {f : Text × UInt64} (hf : f ∈ R.factors e) :
    f.1 ∈ R.vars :=
  (List.of_mem_zip (List.mem_filter.1 hf).1).1

/-- A variable that occurs in a permitted monomial is read as a variable. -/
theorem isName_of_mem_factors (hnames : ∀ v ∈ R.vars, v.IsWord) {e : Exponents} (he : R.Supports e)
    {f : Text × UInt64} (hf : f ∈ R.factors e) : f.1.IsName := by
  obtain ⟨hmem, hzero⟩ := List.mem_filter.1 hf
  exact ⟨hnames f.1 (mem_vars_of_mem_factors hf), he.2 f hmem (by simpa using hzero)⟩

/-- A variable that occurs in a monomial has an index. -/
theorem exists_varIndex?_of_mem_factors (hnodup : R.vars.Nodup) {e : Exponents}
    {f : Text × UInt64} (hf : f ∈ R.factors e) : ∃ index, R.varIndex? f.1 = some index := by
  obtain ⟨index, hlt, hindex⟩ := List.mem_iff_getElem.1 (mem_vars_of_mem_factors hf)
  rw [← hindex]
  exact ⟨index, varIndex?_getElem hnodup hlt⟩

/-- A monomial is written as nothing exactly when no variable occurs. -/
theorem monomialText_eq_nil_iff (hnames : ∀ v ∈ R.vars, v.IsWord) (e : Exponents) :
    R.monomialText e = [] ↔ R.factors e = [] := by
  have htext : R.monomialText e =
      Text.join " * ".toList ((R.factors e).map fun f => factorText f.1 f.2) := rfl
  constructor
  · intro hnil
    cases hfactors : R.factors e with
    | nil => rfl
    | cons f rest =>
      have hmem : f ∈ R.factors e := hfactors ▸ List.mem_cons_self
      have hname : f.1.IsWord := hnames f.1 (mem_vars_of_mem_factors hmem)
      have hfirst : factorText f.1 f.2 ≠ [] := by
        unfold factorText
        split
        · exact hname.1
        · simp
      rw [htext, hfactors] at hnil
      cases rest with
      | nil =>
        rw [List.map_singleton, Text.join_singleton] at hnil
        exact absurd hnil hfirst
      | cons g rest =>
        rw [List.map_cons, List.map_cons, Text.join_cons_cons] at hnil
        exact absurd (List.append_eq_nil_iff.1 hnil).1 hfirst
  · intro hnil
    rw [htext, hnil]
    rfl

/-- A term stands for its tokens. -/
theorem spells_termText (hA : R.coefficients.Legible C) (hnames : ∀ v ∈ R.vars, v.IsWord)
    {term : Exponents × α} (hc : C term.2) (first : Bool) :
    Token.Spells (R.termText first term) (R.termTokens first term) := by
  have hfactors : ∀ f ∈ R.factors term.1, f.1.IsWord := by
    intro f hf
    exact hnames f.1 (mem_vars_of_mem_factors hf)
  have hmonomial : Token.Spells (R.monomialText term.1) (monomialTokens (R.factors term.1)) :=
    spells_monomial hfactors
  have hwrites := writesCoefficient hA hc (R.monomialText term.1).isEmpty
  have hcoefficient := hwrites.spells hA hc
  unfold termText termTokens
  dsimp only
  generalize R.coefficientText term.2 (R.monomialText term.1).isEmpty = written at hcoefficient ⊢
  obtain ⟨negative, coefficient⟩ := written
  dsimp only at hcoefficient ⊢
  have hbody : Token.Spells (coefficient ++ (if coefficient ≠ [] ∧ R.monomialText term.1 ≠ []
      then [' '] else []) ++ R.monomialText term.1)
      (Token.ofText coefficient ++ monomialTokens (R.factors term.1)) := by
    split
    · rw [List.append_assoc]
      exact hcoefficient.append (hmonomial.blank_cons ' ') Text.apart_cons
    · rename_i hgap
      rw [List.append_nil]
      apply hcoefficient.append hmonomial
      by_cases hnil : coefficient = []
      · rw [hnil]
        exact Text.apart_nil_left _
      · have hempty : R.monomialText term.1 = [] := by
          by_contra hne
          exact hgap ⟨hnil, hne⟩
        rw [hempty]
        exact Text.apart_nil_right _
  simp only [List.append_assoc] at hbody ⊢
  cases first <;> cases negative
  · exact ((hbody.blank_cons ' ').op_cons '+').blank_cons ' '
  · exact ((hbody.blank_cons ' ').op_cons '-').blank_cons ' '
  · exact hbody
  · exact hbody.op_cons '-'

/-- The polynomial one is a single term. -/
theorem one_eq_single (hone : R.coefficients.one ≠ R.coefficients.zero) :
    R.one = ⟨[(.zero R.nvars, R.coefficients.one)]⟩ := by
  have hzero : R.coefficients.isZero R.coefficients.one = false := by
    rw [← Bool.not_eq_true, R.coefficients.isZero_eq_true_iff]
    exact hone
  simp [one, constant, Poly.monomial, hzero]

/-- Reading the sign of a term from the start of the term on. -/
theorem completes_sign (hone : R.coefficients.one ≠ R.coefficients.zero) {first negative : Bool}
    (hnext : Reader.Completes R limits depth ⟨sum, ⟨[(.zero R.nvars,
      resigned R.coefficients negative R.coefficients.one)]⟩, false⟩ rest out Q) :
    Reader.Completes R limits depth ⟨sum, R.one, false⟩ (signTokens first negative ++ rest) out Q := by
  rw [one_eq_single hone]
  cases negative with
  | true => exact hnext.minus
  | false =>
    cases first with
    | true => exact hnext
    | false => exact hnext.plus

/-- Reading a term from the start of the term on gives the term. -/
theorem completes_term (hA : R.coefficients.Legible C) (hnodup : R.vars.Nodup)
    (hnames : ∀ v ∈ R.vars, v.IsWord) {term : Exponents × α} (he : R.Supports term.1)
    (hc : C term.2) (hne : term.2 ≠ R.coefficients.zero) (first : Bool)
    (hdepth : depth + 1 ≤ limits.maxDepth.toNat ∨ R.coefficients.PlainlyWritten C)
    (hrest : Unraised rest)
    (hnext : Reader.Completes R limits depth
      ((⟨sum, ⟨[term]⟩, true⟩ : Accumulator α).settle R rest) rest out Q) :
    Reader.Completes R limits depth ⟨sum, R.one, false⟩ (R.termTokens first term ++ rest) out Q := by
  obtain ⟨e, c⟩ := term
  have hmultiplied : R.multiplied (.zero R.nvars) (R.factors e) = e := multiplied_factors hnodup he.1
  have hfactors : ∀ f ∈ R.factors e, f.1.IsName ∧ ∃ index, R.varIndex? f.1 = some index := by
    intro f hf
    exact ⟨isName_of_mem_factors hnames he hf, exists_varIndex?_of_mem_factors hnodup hf⟩
  have hpowers : R.factors e ≠ [] → ∀ {pending : Bool}, Reader.Completes R limits depth
      ⟨sum, ⟨[(.zero R.nvars, c)]⟩, pending⟩ (monomialTokens (R.factors e) ++ rest) out Q := by
    intro hnonempty pending
    apply completes_monomial hA.one_ne_zero (hA.mul_one hc) hne hnonempty hfactors hrest
    rwa [hmultiplied]
  have hwrites := writesCoefficient hA hc (R.monomialText e).isEmpty
  unfold termTokens
  rw [List.append_assoc, List.append_assoc]
  apply completes_sign hA.one_ne_zero
  dsimp only
  generalize hwritten : R.coefficientText c (R.monomialText e).isEmpty = written at hwrites ⊢
  by_cases hcoefficient : written.2 = []
  · cases hwrites with
    | unit hbare hsign =>
      have hnonempty : R.factors e ≠ [] := by
        intro hnil
        rw [← monomialText_eq_nil_iff hnames] at hnil
        rw [hnil] at hbare
        contradiction
      rw [hsign, Token.spells_nil.ofText_eq]
      exact hpowers hnonempty
    | numeral hplain => exact absurd hcoefficient (Text.isWord_of_isPlainNumeral hplain).1
    | braces => exact absurd hcoefficient (by simp)
  · by_cases hmonomial : R.factors e = []
    · rw [hmonomial] at hmultiplied ⊢
      have hzero : Exponents.zero R.nvars = e := hmultiplied
      rw [hzero]
      exact hwrites.completes hA hc hne hcoefficient hdepth hrest hnext
    · obtain ⟨f, others, hcons⟩ := List.exists_cons_of_ne_nil hmonomial
      obtain ⟨tail, htail⟩ := exists_monomialTokens_eq f others
      have hword : monomialTokens (R.factors e) ++ rest = .word f.1 :: (tail ++ rest) := by
        rw [hcons, htail, List.cons_append]
      refine hwrites.completes hA hc hne hcoefficient hdepth ?_ ?_
      · rw [hword]
        exact unraised_of_headD_ne (by simp) (by simp)
      · rw [Accumulator.settle_of_not_sign (by rw [hword]; rfl)]
        exact hpowers hmonomial

/-! ### Polynomials -/

/-- The tokens of a polynomial as it is written. -/
def formatTokens (R : PolyRing α) (p : Poly α) : List Token :=
  match R.descending p with
  | [] => [.word ['0']]
  | first :: rest => R.termTokens true first ++ rest.flatMap (R.termTokens false)

/-- Every term but the first starts with a blank. -/
theorem exists_termText_eq (term : Exponents × α) : ∃ tail, R.termText false term = ' ' :: tail := by
  unfold termText
  dsimp only
  cases (R.coefficientText term.2 (R.monomialText term.1).isEmpty).1 with
  | true => exact ⟨_, rfl⟩
  | false => exact ⟨_, rfl⟩

/-- Every term but the first starts with the token of a sign. -/
theorem exists_termTokens_eq (term : Exponents × α) :
    ∃ tail, R.termTokens false term = .op '-' :: tail ∨ R.termTokens false term = .op '+' :: tail := by
  unfold termTokens signTokens
  split
  · exact ⟨_, .inl rfl⟩
  · exact ⟨_, .inr rfl⟩

/-- The terms behind the first stand for their tokens. -/
theorem spells_terms (hA : R.coefficients.Legible C) (hnames : ∀ v ∈ R.vars, v.IsWord)
    {terms : List (Exponents × α)} (hterms : ∀ t ∈ terms, C t.2) :
    Token.Spells (terms.flatMap (R.termText false)) (terms.flatMap (R.termTokens false)) := by
  induction terms with
  | nil => exact Token.spells_nil
  | cons t terms ih =>
    rw [List.flatMap_cons, List.flatMap_cons]
    have hfirst := spells_termText hA hnames (hterms t List.mem_cons_self) false
    apply hfirst.append (ih fun u hu => hterms u (List.mem_cons_of_mem _ hu))
    cases terms with
    | nil => exact Text.apart_nil_right _
    | cons u terms =>
      obtain ⟨tail, htail⟩ := exists_termText_eq (R := R) u
      rw [List.flatMap_cons, htail]
      exact Text.apart_cons

/-- A written polynomial stands for its tokens. -/
theorem spells_format (hA : R.coefficients.Legible C) (hnames : ∀ v ∈ R.vars, v.IsWord)
    {p : Poly α} (hp : ∀ t ∈ p.terms, C t.2) : Token.Spells (R.format p) (R.formatTokens p) := by
  have hmem : ∀ t ∈ R.descending p, C t.2 := fun t ht => hp t ((R.descending_perm p).subset ht)
  unfold format formatTokens
  cases heq : R.descending p with
  | nil =>
    have hzero : Text.IsWord ['0'] := by decide
    exact Token.spells_word hzero
  | cons first rest =>
    rw [heq] at hmem
    have hfirst := spells_termText hA hnames (hmem first List.mem_cons_self) true
    apply hfirst.append (spells_terms hA hnames fun u hu => hmem u (List.mem_cons_of_mem _ hu))
    cases rest with
    | nil => exact Text.apart_nil_right _
    | cons u rest =>
      obtain ⟨tail, htail⟩ := exists_termText_eq (R := R) u
      rw [List.flatMap_cons, htail]
      exact Text.apart_cons

/-- Reading terms one after the other adds them. -/
theorem completes_terms (hA : R.coefficients.Legible C) (hnodup : R.vars.Nodup)
    (hnames : ∀ v ∈ R.vars, v.IsWord) {terms : List (Exponents × α)} {term : Exponents × α}
    (hterms : ∀ t ∈ term :: terms, R.Supports t.1 ∧ C t.2 ∧ t.2 ≠ R.coefficients.zero) (first : Bool)
    (hdepth : depth + 1 ≤ limits.maxDepth.toNat ∨ R.coefficients.PlainlyWritten C)
    (hrest : Unraised rest)
    (hnext : ∀ acc : Accumulator α,
      acc.total R = ⟨(term :: terms).foldl (Poly.addTerm R.coefficients) sum.terms⟩ →
      Reader.Completes R limits depth (acc.settle R rest) rest out Q) :
    Reader.Completes R limits depth ⟨sum, R.one, false⟩
      (R.termTokens first term ++ (terms.flatMap (R.termTokens false) ++ rest)) out Q := by
  induction terms generalizing term sum first with
  | nil =>
    obtain ⟨he, hc, hne⟩ := hterms term List.mem_cons_self
    exact completes_term hA hnodup hnames he hc hne first hdepth hrest (hnext _ rfl)
  | cons next terms ih =>
    obtain ⟨he, hc, hne⟩ := hterms term List.mem_cons_self
    have hsign : Unraised (R.termTokens false next ++ (terms.flatMap (R.termTokens false) ++ rest)) ∧
        signAhead (R.termTokens false next ++ (terms.flatMap (R.termTokens false) ++ rest)) = true := by
      obtain ⟨tail, htail | htail⟩ := exists_termTokens_eq (R := R) next
      · rw [htail]
        exact ⟨unraised_of_headD_ne (by simp) (by simp), rfl⟩
      · rw [htail]
        exact ⟨unraised_of_headD_ne (by simp) (by simp), rfl⟩
    rw [List.flatMap_cons, List.append_assoc]
    apply completes_term hA hnodup hnames he hc hne first hdepth hsign.1
    rw [Accumulator.settle_of_sign hsign.2]
    exact ih (fun t ht => hterms t (List.mem_cons_of_mem _ ht)) false hnext

/-- Reading a written polynomial gives the polynomial. -/
theorem completes_format (hA : R.coefficients.Legible C) (hnodup : R.vars.Nodup)
    (hnames : ∀ v ∈ R.vars, v.IsWord) {p : Poly α}
    (hp : Poly.Regular R.coefficients R.Supports C p)
    (hdepth : depth + 1 ≤ limits.maxDepth.toNat ∨ R.coefficients.PlainlyWritten C)
    (hrest : Unraised rest)
    (hnext : ∀ acc : Accumulator α, acc.total R = p →
      Reader.Completes R limits depth (acc.settle R rest) rest out Q) :
    Reader.Completes R limits depth (.start R) (R.formatTokens p ++ rest) out Q := by
  have hcanonical : Poly.Canonical R.coefficients R.nvars p :=
    ⟨hp.ascending, fun t ht => (hp.exponents t ht).1, hp.nonzero⟩
  have hsum := Poly.ofTerms_of_perm hcanonical (R.descending_perm p)
  have hmem : ∀ t ∈ R.descending p,
      R.Supports t.1 ∧ C t.2 ∧ t.2 ≠ R.coefficients.zero := by
    intro t ht
    have ht' := (R.descending_perm p).subset ht
    exact ⟨hp.exponents t ht', hp.coefficients t ht', hp.nonzero t ht'⟩
  unfold formatTokens
  split
  · rename_i hnil
    rw [hnil] at hsum
    have hread : R.coefficients.readWithin limits depth ['0'] = .ok R.coefficients.zero := by
      rw [← hA.format_zero]
      exact hA.read_format hA.zero_mem limits depth
    have hnone : Reader.Takes Reader.exponent (Session.At limits depth ([] ++ rest)) 1
        (Session.At limits depth rest) := Reader.takes_exponent_none hrest
    refine Reader.Completes.numeral hnone (by decide) hread (hnext _ ?_)
    have hzero : R.coefficients.isZero R.coefficients.zero = true :=
      R.coefficients.isZero_eq_true_iff.2 rfl
    rw [← hsum]
    simp [Accumulator.multiply, Accumulator.start, Accumulator.total, one_eq_single hA.one_ne_zero,
      Poly.scale, Arithmetic.pow_one, hA.one_mul hA.zero_mem, hzero, Poly.add, Poly.zero,
      Poly.ofTerms]
  · rename_i first terms heq
    rw [heq] at hmem hsum
    rw [List.append_assoc]
    apply completes_terms hA hnodup hnames hmem true hdepth hrest
    intro acc hacc
    exact hnext acc (hacc.trans hsum)

/-- A text with the tokens of a written polynomial is read as the polynomial. -/
theorem polynomialOf_eq_ok (hA : R.coefficients.Legible C) (hnodup : R.vars.Nodup)
    (hnames : ∀ v ∈ R.vars, v.IsWord) {p : Poly α}
    (hp : Poly.Regular R.coefficients R.Supports C p)
    (hdepth : depth + 1 ≤ limits.maxDepth.toNat ∨ R.coefficients.PlainlyWritten C) {t : Text}
    (ht : Token.ofText t = R.formatTokens p) : Reader.polynomialOf R limits depth t = .ok p := by
  have hcompletes : Reader.Completes R limits depth (.start R) (R.formatTokens p ++ [])
      (p, .finish) (Session.At limits depth []) := by
    apply completes_format hA hnodup hnames hp hdepth (unraised_of_headD_ne (by simp) (by simp))
    intro acc hacc
    rw [← hacc]
    exact Reader.completes_eof
  rw [List.append_nil, ← ht] at hcompletes
  exact Reader.polynomialOf_of_completes hcompletes

end

end PolyRing

end PolynomialText
