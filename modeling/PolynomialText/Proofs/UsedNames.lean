import PolynomialText.Names
import PolynomialText.Proofs.PowerMarks

/-!
# Names that an expression uses

The names of an expression are found without reading it. Words are cut at operators and white space,
leading digits are dropped, and a letter has to follow. A reader of expressions finds symbols in three
places: as words, behind the numeral that a word starts with, and behind the digits of an exponent. All
of them are found among the names, unless the numeral in front has a point, which the names do not
drop. What a polynomial contains is followed through its reading: every variable with an exponent was
such a symbol.
-/

namespace PolynomialText

/-! ### Variables with a property -/

section

variable {α : Type} (R : PolyRing α) (P : Text → Prop) (C : α → Prop)

/-- The variables of a polynomial have the property, and its coefficients are among the elements. -/
abbrev Poly.Uses (p : Poly α) : Prop := p.Regular R.coefficients (R.Confined P) C

/-- The variables of a factor have the property. -/
def Factor.Uses : Factor α → Prop
  | .coefficient c => C c
  | .variable index => ∀ k, R.Confined P (.single R.nvars index k)
  | .polynomial p => p.Uses R P C

/-- The variables of the sum and of the term have the property. -/
structure Accumulator.Uses (acc : Accumulator α) : Prop where
  sum : acc.sum.Uses R P C
  term : acc.term.Uses R P C

variable {R P C} (hA : R.coefficients.Closed C)
include hA

namespace Accumulator.Uses

variable {acc : Accumulator α}

theorem start : Accumulator.Uses R P C (.start R) :=
  ⟨Poly.regular_zero, PolyRing.regular_constant (R.closed_confined P) hA.one⟩

theorem negate (h : acc.Uses R P C) : (acc.negate R).Uses R P C :=
  ⟨h.sum, h.term.neg hA⟩

theorem total (h : acc.Uses R P C) : (acc.total R).Uses R P C := by
  unfold Accumulator.total
  split
  · exact h.sum.add hA h.term
  · exact h.sum

theorem settle (h : acc.Uses R P C) (rest : List Token) : (acc.settle R rest).Uses R P C := by
  unfold Accumulator.settle
  split
  · exact ⟨h.total hA, PolyRing.regular_constant (R.closed_confined P) hA.one⟩
  · exact h

theorem multiply (h : acc.Uses R P C) {factor : Factor α} (hfactor : factor.Uses R P C)
    (k : UInt64) : (acc.multiply R factor k).Uses R P C := by
  have hK := R.closed_confined P
  refine ⟨h.sum, ?_⟩
  match factor, hfactor with
  | .coefficient c, hc => exact h.term.scale hA (hA.pow hc k)
  | .variable index, hindex => exact h.term.mul hA hK (Poly.regular_monomial (hindex k) hA.one)
  | .polynomial p, hp => exact h.term.mul hA hK (PolyRing.regular_pow hA hK hp k)

end Accumulator.Uses

end

/-! ### Words that are left to be read -/

/-- Words with a property that stays with what is behind digits and points; no brace is opened. -/
structure Text.Cuts (P : Text → Prop) : Prop where
  plain : ∀ {w : Text}, P w → ∀ c ∈ w, c.isAlphanum = true ∨ c = '_' ∨ c = '.'
  behind : ∀ {n w : Text}, (∀ c ∈ n, c.isDigit = true ∨ c = '.') → P (n ++ w) → P w

/-- A word with the property, or an operator that opens no brace. -/
def Token.Names (P : Text → Prop) : Token → Prop
  | word w => P w
  | op c => c ≠ '\x7b'
  | _ => True

/-- Values have a property, and so have the words that are left behind them. -/
def Outcome.Leaves {α : Type} (P : Text → Prop) (Q : α → Prop) (o : Outcome α) : Prop :=
  ∀ a rest, o = .ok a rest → Q a ∧ ∀ t ∈ rest, t.Names P

namespace Outcome

variable {α β : Type} {P : Text → Prop} {Q : α → Prop} {Q' : β → Prop}

theorem leaves_ok {a : α} {rest : List Token} (ha : Q a) (h : ∀ t ∈ rest, t.Names P) :
    (ok a rest).Leaves P Q := by
  intro b rest' heq
  obtain ⟨rfl, rfl⟩ := ok_inj heq
  exact ⟨ha, h⟩

theorem leaves_error {e : ParseError} {rest : List Token} :
    (Outcome.mk (.error e) rest : Outcome α).Leaves P Q := by
  intro b rest' heq
  exact absurd heq error_ne_ok

/-- What follows a value. -/
theorem Leaves.bind {o : Outcome α} {f : α → List Token → Outcome β} (h : o.Leaves P Q)
    (hf : ∀ a rest, Q a → (∀ t ∈ rest, t.Names P) → (f a rest).Leaves P Q') :
    (o.bind f).Leaves P Q' := by
  obtain ⟨result, rest⟩ := o
  cases result with
  | ok a =>
    obtain ⟨ha, hrest⟩ := h a rest rfl
    exact hf a rest ha hrest
  | error e => exact leaves_error

end Outcome

namespace Grammar

section

variable {P : Text → Prop} (hP : Text.Cuts P) {tokens : List Token}

include hP in
theorem leaves_exponentWord (h : ∀ t ∈ tokens, t.Names P) :
    (exponentWord tokens).Leaves P fun _ => True := by
  cases tokens with
  | nil => exact Outcome.leaves_error
  | cons t tokens =>
    obtain ⟨ht, htokens⟩ := List.forall_mem_cons.1 h
    cases t with
    | word w =>
      simp only [exponentWord, List.headD_cons, List.tail_cons]
      split
      · exact Outcome.leaves_error
      · split
        · exact Outcome.leaves_ok trivial htokens
        · rename_i c rest hrest
          split
          · have hw : P (w.takeWhile Char.isDigit ++ c :: rest) := by
              rw [← hrest, List.takeWhile_append_dropWhile]
              exact ht
            have hsymbol : P (c :: rest) :=
              hP.behind (fun d hd => .inl (List.all_eq_true.1 List.all_takeWhile d hd)) hw
            exact Outcome.leaves_ok trivial (List.forall_mem_cons.2 ⟨hsymbol, htokens⟩)
          · exact Outcome.leaves_error
    | quoted q => exact Outcome.leaves_error
    | op c => exact Outcome.leaves_error
    | eof => exact Outcome.leaves_error

include hP in
theorem leaves_exponentAfter {left behind : List Token} (h : ∀ t ∈ tokens, t.Names P)
    (hbehind : ∀ t ∈ behind, t.Names P) :
    (exponentAfter tokens left behind).Leaves P fun _ => True := by
  have hnone := Outcome.leaves_ok (Q := fun _ : UInt64 => True) (a := 1) trivial h
  unfold exponentAfter
  split
  · exact hnone
  · split
    · exact leaves_exponentWord hP hbehind
    · split
      · exact Outcome.leaves_error
      · split
        · split
          · exact Outcome.leaves_error
          · exact hnone
        · split
          · exact Outcome.leaves_error
          · exact hnone

include hP in
theorem leaves_exponent (h : ∀ t ∈ tokens, t.Names P) :
    (exponent tokens).Leaves P fun _ => True := by
  have htail : ∀ t ∈ tokens.tail, t.Names P := fun t ht => h t (List.mem_of_mem_tail ht)
  unfold exponent
  split
  · exact leaves_exponentAfter hP h htail
  · split
    · exact leaves_exponentAfter hP h fun t ht => htail t (List.mem_of_mem_tail ht)
    · exact Outcome.leaves_ok trivial h

end

section

variable {α : Type} {R : PolyRing α} {limits : Limits} {depth : Nat} {P : Text → Prop}
  {C : α → Prop} {tokens : List Token}

theorem leaves_literal (hA : R.coefficients.ReadsInto C) (t : Text) (h : ∀ t ∈ tokens, t.Names P) :
    (literal R limits depth t tokens).Leaves P C := by
  unfold literal
  split
  · rename_i hread
    exact Outcome.leaves_ok (hA.read_mem hread) h
  · exact Outcome.leaves_error

/-- What completes a numeral starts no symbol. -/
theorem dropWhile_completeNumeral (w : Text) :
    (Reader.completeNumeral w).dropWhile (!isSymbolStart ·) = w.dropWhile (!isSymbolStart ·) := by
  have hdigit : isSymbolStart '1' = false ∧ isSymbolStart '0' = false := by decide +kernel
  unfold Reader.completeNumeral
  split
  · simp [hdigit]
  · simp [hdigit]
  · rfl

/-- A symbol that is cut off a numeral stands behind digits and points. -/
theorem of_splitJuxtaposed?_completeNumeral (hP : Text.Cuts P) {w number symbol : Text} (hw : P w)
    (h : splitJuxtaposed? (Reader.completeNumeral w) = some (number, symbol)) : P symbol := by
  obtain ⟨-, rfl, -⟩ := splitJuxtaposed?_eq_some h
  rw [dropWhile_completeNumeral]
  have hsplit : P (w.takeWhile (!isSymbolStart ·) ++ w.dropWhile (!isSymbolStart ·)) := by
    rwa [List.takeWhile_append_dropWhile]
  refine hP.behind (fun c hc => ?_) hsplit
  have hstart : (!isSymbolStart c) = true := List.all_eq_true.1 List.all_takeWhile c hc
  rcases hP.plain hw c ((List.takeWhile_prefix _).subset hc) with halnum | rfl | rfl
  · rcases Bool.or_eq_true _ _ ▸ halnum with hletter | hdigit
    · rw [isSymbolStart, Text.isAlphabetic_of_isAlpha hletter] at hstart
      contradiction
    · exact .inl hdigit
  · exact absurd hstart (by decide +kernel)
  · exact .inr rfl

theorem leaves_numeral (hkind : R.coefficients.kind.isHypercomplex = false)
    (hA : R.coefficients.ReadsInto C) (hP : Text.Cuts P) {w : Text} (hw : P w)
    (h : ∀ t ∈ tokens, t.Names P) :
    (numeral R limits depth w tokens).Leaves P (Factor.Uses R P C) := by
  have hjoin : joinImaginary R (Reader.completeNumeral w) tokens =
      (Reader.completeNumeral w, tokens) :=
    if_neg fun hjoin => by simp [hkind] at hjoin
  unfold numeral
  split
  · exact Outcome.leaves_error
  · rw [hjoin]
    dsimp only
    split
    · rename_i hread
      exact Outcome.leaves_ok (hA.read_mem hread) h
    · split
      · exact Outcome.leaves_error
      · rename_i number symbol hsplit
        have hsymbol := of_splitJuxtaposed?_completeNumeral hP hw hsplit
        exact (leaves_literal hA number h).bind fun c rest hc hrest =>
          Outcome.leaves_ok hc (List.forall_mem_cons.2 ⟨hsymbol, hrest⟩)

theorem leaves_symbol (hA : R.coefficients.ReadsInto C) {w : Text} (hw : P w)
    (h : ∀ t ∈ tokens, t.Names P) :
    (symbol R limits depth w tokens).Leaves P (Factor.Uses R P C) := by
  unfold symbol
  split
  · rename_i index hindex
    exact Outcome.leaves_ok (fun k => PolyRing.confined_single hw hindex k) h
  · split
    · rename_i hread
      exact Outcome.leaves_ok (hA.read_mem hread) h
    · exact Outcome.leaves_error

theorem leaves_multiplied (hA : R.coefficients.Closed C) (hP : Text.Cuts P) {acc : Accumulator α}
    (hacc : acc.Uses R P C) {factor : Factor α} (hfactor : factor.Uses R P C)
    (h : ∀ t ∈ tokens, t.Names P) :
    (multiplied R acc factor tokens).Leaves P (Accumulator.Uses R P C) :=
  (leaves_exponent hP h).bind fun k rest _ hrest =>
    Outcome.leaves_ok ((hacc.multiply hA hfactor k).settle hA rest) hrest

/-- A symbol is a word. -/
theorem eq_word_of_ofToken_eq_symbol {closer : Option Char} {t : Token} {w : Text}
    (h : Role.ofToken closer t = .symbol w) : t = .word w := by
  cases t with
  | word v =>
    rw [Role.ofToken] at h
    split at h
    · contradiction
    · rw [Role.symbol.inj h]
  | op c =>
    unfold Role.ofToken at h
    dsimp only at h
    repeat' split at h
    all_goals contradiction
  | quoted v => contradiction
  | eof => contradiction

/-- A brace is opened by a brace. -/
theorem eq_op_of_ofToken_eq_openBrace {closer : Option Char} {t : Token}
    (h : Role.ofToken closer t = .openBrace) : t = .op '\x7b' := by
  cases t with
  | word v =>
    rw [Role.ofToken] at h
    split at h
    · contradiction
    · contradiction
  | op c =>
    unfold Role.ofToken at h
    dsimp only at h
    repeat' split at h
    all_goals first | contradiction | simp_all
  | quoted v => contradiction
  | eof => contradiction

/-- What a pass leaves has words with the property, as far as it does not fail. -/
def Pass.Leaves (R : PolyRing α) (P : Text → Prop) (C : α → Prop) : Pass α → Prop
  | .more acc rest => acc.Uses R P C ∧ ∀ t ∈ rest, t.Names P
  | .opens rest => ∀ t ∈ rest, t.Names P
  | .last outcome => outcome.Leaves P fun result => result.1.Uses R P C

theorem Pass.leaves_behind {o : Outcome (Accumulator α)} (h : o.Leaves P (Accumulator.Uses R P C)) :
    (Pass.behind o).Leaves R P C := by
  obtain ⟨result, rest⟩ := o
  cases result with
  | ok acc => exact h acc rest rfl
  | error e => exact Outcome.leaves_error

theorem leaves_pass (hkind : R.coefficients.kind.isHypercomplex = false)
    (hA : R.coefficients.ReadsInto C) (hP : Text.Cuts P) {acc : Accumulator α}
    (hacc : acc.Uses R P C) (h : ∀ t ∈ tokens, t.Names P) :
    (pass R limits depth none acc tokens).Leaves R P C := by
  have htail : ∀ t ∈ tokens.tail, t.Names P := fun t ht => h t (List.mem_of_mem_tail ht)
  have hhead : (tokens.headD .eof).Names P := by
    cases tokens with
    | nil => trivial
    | cons t tokens => exact h t List.mem_cons_self
  have hfactor : ∀ {o : Outcome (Factor α)}, o.Leaves P (Factor.Uses R P C) →
      (Pass.behind (o.bind (multiplied R acc))).Leaves R P C := fun ho =>
    Pass.leaves_behind (ho.bind fun factor rest hfactor hrest =>
      leaves_multiplied hA.closed hP hacc hfactor hrest)
  unfold pass
  cases hrole : Role.ofToken none (tokens.headD .eof) with
  | negate => exact ⟨hacc.negate hA.closed, htail⟩
  | skip => exact ⟨hacc, htail⟩
  | stop terminator => exact Outcome.leaves_ok (hacc.total hA.closed) htail
  | leave => exact Outcome.leaves_ok (hacc.total hA.closed) h
  | strayBrace => exact Outcome.leaves_error
  | openBrace =>
    rw [eq_op_of_ofToken_eq_openBrace hrole] at hhead
    exact absurd rfl hhead
  | openParen =>
    dsimp only
    split
    · exact Outcome.leaves_error
    · exact htail
  | quoted text =>
    exact Pass.leaves_behind ((leaves_literal hA text htail).bind fun c rest hc hrest =>
      leaves_multiplied hA.closed hP hacc hc hrest)
  | numeral w =>
    rw [(Reader.of_ofToken_eq_numeral hrole).1] at hhead
    exact hfactor (leaves_numeral hkind hA hP hhead htail)
  | symbol w =>
    rw [eq_word_of_ofToken_eq_symbol hrole] at hhead
    exact hfactor (leaves_symbol hA hhead htail)

/-- So has what follows an expression in parentheses. -/
theorem leaves_behind_closed (hA : R.coefficients.Closed C) (hP : Text.Cuts P) {acc : Accumulator α}
    (hacc : acc.Uses R P C) {inner : Outcome (Poly α × Terminator)}
    (h : inner.Leaves P fun result => result.1.Uses R P C) :
    (Pass.behind ((closed inner).bind (multiplied R acc))).Leaves R P C := by
  have hclosed : (closed inner).Leaves P (Factor.Uses R P C) := by
    refine h.bind fun result rest hresult hrest => ?_
    split
    · exact Outcome.leaves_error
    · exact Outcome.leaves_ok hresult hrest
  exact Pass.leaves_behind (hclosed.bind fun factor rest hfactor hrest =>
    leaves_multiplied hA hP hacc hfactor hrest)

/-- The variables of an expression that is read have the property. -/
theorem Reads.leaves (hkind : R.coefficients.kind.isHypercomplex = false)
    (hA : R.coefficients.ReadsInto C) (hP : Text.Cuts P) {closer : Option Char}
    {acc : Accumulator α} {outcome : Outcome (Poly α × Terminator)}
    (h : Reads R limits depth closer acc tokens outcome) (hcloser : closer = none)
    (hacc : acc.Uses R P C) (htokens : ∀ t ∈ tokens, t.Names P) :
    outcome.Leaves P fun result => result.1.Uses R P C := by
  have hpasses : ∀ (depth : Nat) {acc : Accumulator α} {tokens : List Token}, acc.Uses R P C →
      (∀ t ∈ tokens, t.Names P) → (pass R limits depth none acc tokens).Leaves R P C :=
    fun _ _ _ hacc htokens => leaves_pass hkind hA hP hacc htokens
  induction h with
  | @last depth closer acc tokens outcome hpass =>
    subst hcloser
    have hleaves := hpasses depth hacc htokens
    rwa [hpass] at hleaves
  | @more depth closer acc tokens acc' rest outcome hpass hrest ih =>
    subst hcloser
    have hleaves := hpasses depth hacc htokens
    rw [hpass] at hleaves
    exact ih rfl hleaves.1 hleaves.2
  | @group depth closer acc tokens rest inner outcome hopens hinner hbehind ih =>
    subst hcloser
    have hleaves := hpasses depth hacc htokens
    rw [hopens] at hleaves
    have hclosed := leaves_behind_closed hA.closed hP hacc (ih rfl (.start hA.closed) hleaves)
    rwa [hbehind] at hclosed
  | @groupMore depth closer acc tokens rest inner acc' rest' outcome hopens hinner hbehind hrest ih
      ihrest =>
    subst hcloser
    have hleaves := hpasses depth hacc htokens
    rw [hopens] at hleaves
    have hclosed := leaves_behind_closed hA.closed hP hacc (ih rfl (.start hA.closed) hleaves)
    rw [hbehind] at hclosed
    exact ihrest rfl hclosed.1 hclosed.2

end

end Grammar

/-! ### Words of a text -/

namespace Names

section

variable {p : Char → Bool}

/-- Separators in front of a text cut off nothing. -/
theorem pieces_append_of_forall {a : Text} (ha : ∀ c ∈ a, p c = true) (t : Text) :
    pieces p (a ++ t) = pieces p t := by
  induction a with
  | nil => rfl
  | cons c a ih =>
    obtain ⟨hc, ha⟩ := List.forall_mem_cons.1 ha
    rw [← ih ha]
    unfold pieces
    rw [List.cons_append, List.splitOnP_cons_eq_if_modifyHead, if_pos hc]
    simp

/-- A run of other characters in front of a text is a piece, if it ends there. -/
theorem pieces_word_append {w : Text} (hne : w ≠ []) (hw : ∀ c ∈ w, p c = false) {t : Text}
    (ht : ∀ c ∈ t.head?, p c = true) : pieces p (w ++ t) = w :: pieces p t := by
  cases t with
  | nil =>
    unfold pieces
    rw [List.append_nil, List.splitOnP_eq_singleton hw]
    simp [hne]
  | cons c t =>
    have hc : p c = true := ht c rfl
    unfold pieces
    rw [List.splitOnP_append_cons_of_forall_mem hw c hc, List.splitOnP_cons_eq_if_modifyHead,
      if_pos hc]
    simp [hne]

/-- Where the separators are the characters that no word has, the word that a text starts with is a
piece. -/
theorem pieces_word_cons {c : Char} {t : Text} (hp : ∀ d ∈ c :: t, p d = !isWordChar d)
    (hc : isWordChar c = true) :
    pieces p (c :: t) = (c :: t.takeWhile isWordChar) :: pieces p (t.dropWhile isWordChar) := by
  have hsplit : c :: t = (c :: t.takeWhile isWordChar) ++ t.dropWhile isWordChar := by
    rw [List.cons_append, List.takeWhile_append_dropWhile]
  have hrun : ∀ d ∈ c :: t.takeWhile isWordChar, isWordChar d = true :=
    List.forall_mem_cons.2 ⟨hc, List.all_eq_true.1 List.all_takeWhile⟩
  rw [hsplit] at hp ⊢
  apply pieces_word_append (List.cons_ne_nil _ _)
  · intro d hd
    rw [hp d (List.mem_append_left _ hd), hrun d hd]
    rfl
  · intro d hd
    have hchar : isWordChar d = false := by
      have hfirst := List.head?_dropWhile_not isWordChar t
      rwa [Option.mem_def.1 hd] at hfirst
    rw [hp d (List.mem_append_right _ (List.mem_of_mem_head? hd)), hchar]
    rfl

/-- A piece is made of characters of the text that are no separators. -/
theorem of_mem_pieces {t w : Text} (hw : w ∈ pieces p t) : ∀ c ∈ w, c ∈ t ∧ p c = false := by
  have hmem : w ∈ t.splitOnP p := (List.mem_filter.1 hw).1
  clear hw
  induction t generalizing w with
  | nil =>
    obtain rfl : w = [] := by simpa using hmem
    exact fun _ hc => absurd hc List.not_mem_nil
  | cons d t ih =>
    have hlater : ∀ {v : Text}, v ∈ t.splitOnP p → ∀ c ∈ v, c ∈ d :: t ∧ p c = false :=
      fun hv c hc => ⟨List.mem_cons_of_mem _ (ih hv c hc).1, (ih hv c hc).2⟩
    rw [List.splitOnP_cons_eq_if_modifyHead] at hmem
    split at hmem
    · rcases List.mem_cons.1 hmem with rfl | hrest
      · exact fun _ hc => absurd hc List.not_mem_nil
      · exact hlater hrest
    · rename_i hd
      cases hsplit : t.splitOnP p with
      | nil =>
        rw [hsplit] at hmem
        exact absurd hmem List.not_mem_nil
      | cons first rest =>
        rw [hsplit, List.modifyHead_cons] at hmem
        rcases List.mem_cons.1 hmem with rfl | hrest
        · refine List.forall_mem_cons.2 ⟨⟨List.mem_cons_self, Bool.eq_false_iff.2 hd⟩, ?_⟩
          exact hlater (hsplit ▸ List.mem_cons_self)
        · exact hlater (hsplit ▸ List.mem_cons_of_mem _ hrest)

/-- Blanks stand in front of the first token of a text without comments. -/
theorem exists_append_start {t : Text} (h : '#' ∉ t) :
    ∃ a, t = a ++ Token.start t ∧ ∀ c ∈ a, isWordChar c = false := by
  induction t with
  | nil => exact ⟨[], rfl, by simp⟩
  | cons c t ih =>
    obtain ⟨a, ht, ha⟩ := ih (List.not_mem_of_not_mem_cons h)
    by_cases hblank : Text.isBlank c = true
    · have hword : isWordChar c = false := by
        refine Bool.eq_false_iff.2 fun hword => ?_
        rw [isBlank_of_isWordChar hword] at hblank
        contradiction
      refine ⟨c :: a, ?_, List.forall_mem_cons.2 ⟨hword, ha⟩⟩
      rw [Token.start_blank_cons hblank, List.cons_append, ← ht]
    · refine ⟨[], ?_, by simp⟩
      have hstart : Token.start (c :: t) = c :: t :=
        Token.start_cons (Bool.eq_false_iff.2 hblank) (Ne.symm (List.ne_of_not_mem_cons h))
      rw [hstart, List.nil_append]

/-- The words of a text without quotes and comments are its pieces between other characters. -/
theorem mem_pieces_of_mem_ofText {t : Text} (ht : t.Unquoted)
    (hp : ∀ c ∈ t, p c = !isWordChar c) {w : Text} (hw : .word w ∈ Token.ofText t) :
    w ∈ pieces p t := by
  induction t using Token.ofText_induction with
  | nil t hstart =>
    rw [Token.ofText_of_start_nil hstart] at hw
    exact absurd hw List.not_mem_nil
  | cons t c rest hstart ih =>
    obtain ⟨a, htext, ha⟩ := exists_append_start fun hhash => (ht '#' hhash).2.2 rfl
    rw [hstart] at htext
    subst htext
    have hquote : ¬ (c = '"' ∨ c = '\x27') := by
      have hc := ht c (by simp)
      exact not_or.2 ⟨hc.1, hc.2.1⟩
    have hrest : ∀ d ∈ (Token.lex c rest).2, d ∈ a ++ c :: rest := fun d hd =>
      List.mem_append_right _ (List.mem_cons_of_mem _ ((Token.lex_suffix c rest).subset hd))
    have ih := ih (fun d hd => ht d (hrest d hd)) fun d hd => hp d (hrest d hd)
    rw [pieces_append_of_forall fun d hd => by rw [hp d (List.mem_append_left _ hd), ha d hd]; rfl]
    rw [Token.ofText_of_start_cons hstart] at hw
    unfold Token.lex at ih hw
    rw [if_neg hquote] at ih hw
    by_cases hword : isWordChar c = true
    · rw [if_pos hword] at ih hw
      rw [pieces_word_cons (fun d hd => hp d (List.mem_append_right _ hd)) hword]
      rcases List.mem_cons.1 hw with hfirst | hlater
      · rw [Token.word.inj hfirst]
        exact List.mem_cons_self
      · exact List.mem_cons_of_mem _ (ih hlater)
    · rw [if_neg hword] at ih hw
      have hc : p c = true := by
        rw [hp c (by simp), Bool.eq_false_iff.2 hword]
        rfl
      have hpieces : pieces p (c :: rest) = pieces p rest :=
        pieces_append_of_forall (a := [c]) (by simpa using hc) rest
      rw [hpieces]
      rcases List.mem_cons.1 hw with hfirst | hlater
      · contradiction
      · exact ih hlater

end

/-! ### Names in ascending order -/

theorem mem_insert {name other : Text} {list : List Text} :
    name ∈ insert other list ↔ name = other ∨ name ∈ list := by
  induction list with
  | nil => simp [insert]
  | cons first rest ih =>
    rw [insert]
    split
    · simp
    · rename_i heq
      obtain rfl : other = first := Std.LawfulEqOrd.eq_of_compare heq
      simp
    · rw [List.mem_cons, ih, List.mem_cons]
      exact or_left_comm

theorem pairwise_insert {name : Text} {list : List Text}
    (h : list.Pairwise fun a b => compare a b = .lt) :
    (insert name list).Pairwise fun a b => compare a b = .lt := by
  induction list with
  | nil => exact List.pairwise_singleton _ _
  | cons first rest ih =>
    obtain ⟨hfirst, hrest⟩ := List.pairwise_cons.1 h
    rw [insert]
    split
    · rename_i hlt
      refine List.pairwise_cons.2 ⟨fun other hother => ?_, h⟩
      rcases List.mem_cons.1 hother with rfl | hmem
      · exact hlt
      · exact Std.TransCmp.lt_trans hlt (hfirst other hmem)
    · exact h
    · rename_i hgt
      refine List.pairwise_cons.2 ⟨fun other hother => ?_, ih hrest⟩
      rcases mem_insert.1 hother with rfl | hmem
      · exact Std.OrientedCmp.lt_of_gt hgt
      · exact hfirst other hmem

/-- The names of an expression are those of its pieces, in ascending order. -/
theorem mem_ofExpression {t name : Text} :
    name ∈ ofExpression t ↔ ∃ word ∈ pieces isDelimiter t, ofWord? word = some name := by
  have hfold : ∀ {list : List Text}, name ∈ list.foldr insert [] ↔ name ∈ list := by
    intro list
    induction list with
    | nil => exact Iff.rfl
    | cons first rest ih => rw [List.foldr_cons, mem_insert, ih, List.mem_cons]
  unfold ofExpression
  rw [hfold, List.mem_filterMap]

theorem pairwise_ofExpression (t : Text) :
    (ofExpression t).Pairwise fun a b => compare a b = .lt := by
  unfold ofExpression
  induction (pieces isDelimiter t).filterMap ofWord? with
  | nil => exact List.Pairwise.nil
  | cons first rest ih => exact pairwise_insert ih

/-- The name behind digits. -/
theorem ofWord?_append {n w : Text} (hn : ∀ c ∈ n, c.isDigit = true) {c : Char}
    (hdigit : c.isDigit = false) (hletter : Text.isAlphabetic c = true) :
    ofWord? (n ++ c :: w) = some (c :: w) := by
  obtain ⟨-, hdrop⟩ := @Token.span_run Char.isDigit n (c :: w) hn (by simpa using hdigit)
  simp [ofWord?, hdrop, hletter]

/-! ### Names and variables -/

/-- A letter, a digit, an underscore or a point, white space, or an operator of expressions. -/
def IsPlainChar (c : Char) : Prop :=
  c.isAlphanum = true ∨ Text.isWhite c = true ∨ c ∈ "_.+-*^()".toList

instance : DecidablePred IsPlainChar := fun _ => inferInstanceAs (Decidable (_ ∨ _))

namespace IsPlainChar

variable {c : Char} (h : IsPlainChar c)
include h

/-- Names and tokens are separated by the same of these characters. -/
theorem isDelimiter_eq : isDelimiter c = !isWordChar c := by
  rcases h with halnum | hwhite | hmem
  · have hword : isWordChar c = true := by simp [isWordChar, halnum]
    have hmem : ",+-*/()\x7b\x7d[]^".toList.contains c = false := by
      refine Bool.eq_false_iff.2 fun hmem => ?_
      have hnone : ∀ d ∈ ",+-*/()\x7b\x7d[]^".toList, d.isAlphanum = false :=
        Text.forall_mem_of_all
      rw [hnone c (List.contains_iff_mem.1 hmem)] at halnum
      contradiction
    rw [isDelimiter, isWhite_of_isWordChar hword, hmem, hword]
    rfl
  · have hword : isWordChar c = false := by
      refine Bool.eq_false_iff.2 fun hword => ?_
      rw [isWhite_of_isWordChar hword] at hwhite
      contradiction
    rw [isDelimiter, hwhite, hword]
    rfl
  · have hall : ∀ d ∈ "_.+-*^()".toList, isDelimiter d = !isWordChar d := Text.forall_mem_of_all
    exact hall c hmem

/-- None of them is a quote or starts a comment. -/
theorem unquoted : c ≠ '"' ∧ c ≠ '\x27' ∧ c ≠ '#' := by
  have hnone : ∀ d ∈ ['"', '\x27', '#'], ¬ IsPlainChar d := Text.forall_mem_of_all
  refine ⟨?_, ?_, ?_⟩
  all_goals
    rintro rfl
    exact hnone _ (by decide) h

theorem ne_brace : c ≠ '\x7b' := by
  rintro rfl
  exact absurd h (by decide)

/-- Those that separate no names are letters, digits, underscores and points. -/
theorem of_isDelimiter (hc : isDelimiter c = false) : c.isAlphanum = true ∨ c = '_' ∨ c = '.' := by
  rcases h with halnum | hwhite | hmem
  · exact .inl halnum
  · rw [isDelimiter, hwhite] at hc
    contradiction
  · have hall : ∀ d ∈ "_.+-*^()".toList, isDelimiter d = false → d = '_' ∨ d = '.' :=
      Text.forall_mem_of_all
    exact .inr (hall c hmem hc)

end IsPlainChar

/-- The symbol stands in the text behind digits and points of a word. -/
def StandsBehind (t : Text) (n symbol : Text) : Prop :=
  (∀ c ∈ n, c.isDigit = true ∨ c = '.') ∧ .word (n ++ symbol) ∈ Token.ofText t

theorem cuts_standsBehind {t : Text} (ht : ∀ c ∈ t, IsPlainChar c) :
    Text.Cuts fun symbol => ∃ n, StandsBehind t n symbol where
  plain := by
    rintro w ⟨n, -, hw⟩ c hc
    have hpiece := mem_pieces_of_mem_ofText (p := isDelimiter) (fun d hd => (ht d hd).unquoted)
      (fun d hd => (ht d hd).isDelimiter_eq) hw
    obtain ⟨hmem, hdelimiter⟩ := of_mem_pieces hpiece c (List.mem_append_right _ hc)
    exact (ht c hmem).of_isDelimiter hdelimiter
  behind := by
    rintro n w hn ⟨m, hm, hw⟩
    refine ⟨m ++ n, fun c hc => (List.mem_append.1 hc).elim (hm c) (hn c), ?_⟩
    rwa [List.append_assoc]

end Names

/-- An ASCII letter, then ASCII letters, digits and underscores. -/
def Text.IsIdentifier (w : Text) : Prop :=
  w.head?.any Char.isAlpha = true ∧ ∀ c ∈ w, c.isAlphanum = true ∨ c = '_'

instance : DecidablePred Text.IsIdentifier := fun w =>
  @instDecidableAnd _ _ inferInstance
    (List.decidableBAll (fun c => c.isAlphanum = true ∨ c = '_') w)

end PolynomialText
