import PolynomialText.Expression
import PolynomialText.Proofs.NumberLiterals
import PolynomialText.Proofs.SafeReaders

/-!
# Expressions are read without defects

An expression reads its numerals with one token to spare. A numeral that ends in the imaginary unit
reads on behind a sign, and a symbol that is run on to a numeral is put back, so that two tokens
could be put back in a row. They are not: a sign and a digit ahead are an operator and a word, and
the word becomes part of the numeral. What looking ahead finds decides the token that is read.

In every pass of an expression a token is read for good, so that the bound on the passes holds.
-/

namespace PolynomialText

/-- A result that is a failure only with some property. -/
def Refuses {ε α : Type} (P : ε → Prop) (result : Except ε α) : Prop :=
  ∀ e, result = .error e → P e

/-- Literals are refused without a defect among the reasons. -/
def Arithmetic.Reliable {α : Type} (A : Arithmetic α) : Prop :=
  ∀ limits depth t, Refuses (¬ ·.Defective) (A.readWithin limits depth t)

/-! ### Starts of symbols -/

/-- A symbol that is run on to a numeral starts with an underscore or a letter. -/
theorem of_isSymbolStart {c : Char} (h : isSymbolStart c = true) :
    c = '_' ∨ ∃ range ∈ Text.alphabeticRanges, range.1 ≤ c.toNat ∧ c.toNat ≤ range.2 := by
  unfold isSymbolStart Text.isAlphabetic Char.isAlpha Char.isUpper Char.isLower at h
  simp only [Bool.or_eq_true, Bool.and_eq_true, decide_eq_true_eq, ge_iff_le,
    UInt32.le_iff_toNat_le] at h
  rcases h with ((hupper | hlower) | hletter) | hunderscore
  · exact .inr ⟨(0x41, 0x5A), List.mem_cons_self, hupper⟩
  · exact .inr ⟨(0x61, 0x7A), List.mem_cons_of_mem _ List.mem_cons_self, hlower⟩
  · obtain ⟨range, hmem, hin⟩ := List.any_eq_true.1 hletter
    exact .inr ⟨range, hmem, by simpa using hin⟩
  · exact .inl hunderscore

/-- Letters and the underscore come behind the digits. -/
theorem isSymbolStart_of_toNat_lt {c : Char} (h : c.toNat < 0x41) : isSymbolStart c = false := by
  have hranges : ∀ range ∈ Text.alphabeticRanges, 0x41 ≤ range.1 := by decide +kernel
  rw [Bool.eq_false_iff]
  intro hstart
  rcases of_isSymbolStart hstart with rfl | ⟨range, hmem, hle, -⟩
  · exact absurd h (by decide)
  · exact absurd (Nat.le_trans (hranges range hmem) hle) (Nat.not_le.2 h)

/-- No digit is the start of a symbol. -/
theorem isSymbolStart_of_isDigit {c : Char} (h : c.isDigit = true) : isSymbolStart c = false := by
  apply isSymbolStart_of_toNat_lt
  simp only [Char.isDigit, Bool.and_eq_true, decide_eq_true_eq, UInt32.le_iff_toNat_le] at h
  exact Nat.lt_of_le_of_lt h.2 (by decide)

/-- No numeral starts with a letter or an underscore. -/
theorem isSymbolStart_of_isNumeralStart {c : Char} (h : isNumeralStart c = true) :
    isSymbolStart c = false := by
  simp only [isNumeralStart, Bool.or_eq_true, decide_eq_true_eq] at h
  rcases h with ((hdigit | rfl) | rfl) | rfl
  · exact isSymbolStart_of_isDigit hdigit
  · exact isSymbolStart_of_toNat_lt (by decide)
  · exact isSymbolStart_of_toNat_lt (by decide)
  · decide +kernel

namespace Scanner

/-- Nothing is held, and less than an amount is left with a number of characters to spare. -/
def Spare (k n : Nat) (s : Scanner) : Prop := s.held = none ∧ s.remaining + n < k

theorem Behind.spare {k : Nat} {t : Token} {s : Scanner} (h : s.Behind k t) : s.Spare k t.weight :=
  ⟨h.free, h.below⟩

/-- Behind an expression no more is left than before, and less if a delimiter was read. -/
def After {α : Type} (k : Nat) (result : Poly α × Terminator) (s : Scanner) : Prop :=
  s.Below k ∧ (result.2 ≠ .finish → s.Below (k - 1))

/-- The next token starts with the significant character that is ahead. -/
theorem next_of_significant? {s : Scanner} {c : Char} (hheld : s.held = none)
    (h : Token.significant? false 0 s.buffer = some c) :
    ∃ rest line, next s = .ok (Token.lex c rest).1 ⟨(Token.lex c rest).2, s.pending, line, none⟩ ∧
      (∀ n, Token.significant? false n s.buffer = Token.significant? false n (c :: rest)) ∧
      c ≠ '\n' ∧ c ≠ '#' ∧ Text.isBlank c = false := by
  have hsignificant : ∀ n, Token.significant? false n (Token.skip false s.line s.buffer).2 =
      Token.significant? false n s.buffer := fun n => Token.significant?_skip false s.line n s.buffer
  cases hskip : Token.skip false s.line s.buffer with
  | mk line found =>
    rw [hskip] at hsignificant
    cases found with
    | nil =>
      rw [← hsignificant] at h
      simp [Token.significant?] at h
    | cons d rest =>
      obtain ⟨hnl, hhash, hblank⟩ := Token.skip_cons_spec (congrArg Prod.snd hskip)
      have hd : d = c := by
        rw [← hsignificant] at h
        simpa [Token.significant?, hnl, hhash, hblank] using h
      subst hd
      refine ⟨rest, line, ?_, fun n => (hsignificant n).symm, hnl, hhash, hblank⟩
      unfold next scan
      simp [hheld, hskip]

end Scanner

namespace Reader

open Scanner (Below Behind Spare)

variable {deep : Bool} {k : Nat} {α : Type} {R : PolyRing α}

/-! ### Exponents -/

theorem keeps_digitAhead {P : Scanner → Prop} (hP : ∀ s s', s.Extends s' → P s → P s') (n : Nat) :
    Keeps deep P (digitAhead n) fun found s =>
      P s ∧ (s.held = none → found = (Token.significant? false n s.buffer).any Char.isDigit) := by
  apply (keeps_peek hP n).bind
  intro found
  refine .pure fun s hs => ⟨hs.1, fun hheld => ?_⟩
  rw [hs.2 hheld]

theorem keeps_noExponent (t : Token) :
    Keeps deep (Behind k t) (noExponent t) fun _ => Below k :=
  (keeps_unread t).bind fun _ => .pure fun _ h => h

/-- What is left of an exponent word can be put back. -/
theorem keeps_exponentWord : Keeps deep (Below k) exponentWord fun _ => Below k := by
  apply keeps_advance.bind
  intro t
  cases t with
  | word w =>
    dsimp only
    split
    · exact keeps_malformed _
    · split
      · exact .pure fun _ h => h.toBelow
      · rename_i c rest hrest
        have hle : (c :: rest).length ≤ w.length := by
          rw [← hrest]
          exact (List.dropWhile_sublist _).length_le
        split
        · have hput : Keeps deep (Behind k (.word w)) (pushBack (.word (c :: rest))) fun _ => Below k :=
            (keeps_unread _).of_imp fun _ hs => hs.replace (Nat.succ_pos _) hle
          exact hput.bind fun _ => .pure fun _ h => h
        · exact keeps_malformed _
  | quoted t => exact keeps_malformed _
  | op c => exact keeps_malformed _
  | eof => exact keeps_malformed _

theorem keeps_exponentAfter (mark : Token) (ahead : Nat) :
    Keeps deep (Behind k mark) (exponentAfter mark ahead) fun _ => Below k := by
  apply (keeps_peek behind_of_extends ahead).bind
  intro found
  refine Keeps.of_imp ?_ fun s hs => hs.1
  cases found with
  | none => exact keeps_noExponent mark
  | some c =>
    dsimp only
    split
    · split
      · have hbelow : Keeps deep (Behind k mark) advance fun _ => Below k :=
          (keeps_advance.of_imp fun _ h => h.toBelow).weaken fun _ _ h => h.toBelow
        exact hbelow.bind fun _ => keeps_exponentWord
      · exact keeps_exponentWord.of_imp fun _ h => h.toBelow
    · split
      · exact keeps_malformed _
      · split
        · apply (keeps_digitAhead behind_of_extends (ahead + 1)).bind
          intro digit
          refine Keeps.of_imp ?_ fun s hs => hs.1
          cases digit with
          | true => exact keeps_malformed _
          | false => exact keeps_noExponent mark
        · split
          · exact keeps_malformed _
          · exact keeps_noExponent mark

theorem keeps_exponent : Keeps deep (Below k) exponent fun _ => Below k := by
  apply keeps_advance.bind
  intro t
  split
  · exact keeps_exponentAfter t 0
  · split
    · apply (keeps_peek behind_of_extends 0).bind
      intro found
      refine Keeps.of_imp ?_ fun s hs => hs.1
      split
      · exact keeps_exponentAfter t 1
      · exact keeps_noExponent t
    · exact keeps_noExponent t

theorem keeps_multiplied (acc : Accumulator α) (factor : Factor α) :
    Keeps deep (Below k) (multiplied R acc factor) fun _ => Below k := by
  apply keeps_exponent.bind
  intro exponent
  apply keeps_advance.bind
  intro next
  exact (keeps_unread next).bind fun _ => .pure fun _ h => h

/-! ### Numerals -/

/-- A numeral is a word that starts as one. -/
theorem of_ofToken_eq_numeral {closer : Option Char} {t : Token} {w : Text}
    (h : Role.ofToken closer t = .numeral w) :
    t = .word w ∧ w.head?.any isNumeralStart = true := by
  cases t with
  | word v =>
    simp only [Role.ofToken] at h
    split at h
    · rename_i hstart
      obtain rfl := Role.numeral.inj h
      exact ⟨rfl, hstart⟩
    · contradiction
  | quoted v => simp [Role.ofToken] at h
  | eof => simp [Role.ofToken] at h
  | op c =>
    simp only [Role.ofToken] at h
    repeat' split at h
    all_goals contradiction

/-- A numeral is completed in front of its first character. -/
theorem exists_completeNumeral_eq_append {c : Char} (hc : isNumeralStart c = true) (rest : Text) :
    ∃ front, completeNumeral (c :: rest) = front ++ rest ∧ ∀ d ∈ front, isSymbolStart d = false := by
  have hlow : ∀ {front : Text}, front.all (·.toNat < 0x41) = true →
      ∀ d ∈ front, isSymbolStart d = false := by
    intro front hall d hd
    exact isSymbolStart_of_toNat_lt (of_decide_eq_true (List.all_eq_true.1 hall d hd))
  by_cases hslash : c = '/'
  · subst hslash
    exact ⟨['1', '/'], rfl, hlow (by decide)⟩
  · by_cases hpoint : c = '.'
    · subst hpoint
      exact ⟨['0', '.'], rfl, hlow (by decide)⟩
    · refine ⟨[c], ?_, ?_⟩
      · unfold completeNumeral
        split
        · simp_all
        · simp_all
        · rfl
      · intro d hd
        rw [List.mem_singleton.1 hd]
        exact isSymbolStart_of_isNumeralStart hc

/-- A symbol that is run on to a numeral is shorter than what was read of both. -/
theorem length_of_splitJuxtaposed? {w more number symbol : Text}
    (hw : w.head?.any isNumeralStart = true)
    (h : splitJuxtaposed? (completeNumeral w ++ more) = some (number, symbol)) :
    0 < symbol.length ∧ symbol.length < w.length + more.length := by
  cases w with
  | nil => simp at hw
  | cons c rest =>
    obtain ⟨front, hfront, hstart⟩ :=
      exists_completeNumeral_eq_append (by simpa using hw) rest
    rw [hfront, List.append_assoc] at h
    obtain ⟨-, rfl, hne⟩ := splitJuxtaposed?_eq_some h
    refine ⟨List.length_pos_iff.2 hne, ?_⟩
    rw [List.dropWhile_append_of_pos fun d hd => by simp [hstart d hd]]
    have hle := (List.dropWhile_sublist (!isSymbolStart ·) (l := rest ++ more)).length_le
    simp only [List.length_append, List.length_cons] at hle ⊢
    omega

theorem spare_of_extends {n : Nat} (s s' : Scanner) (h : s.Extends s') (hs : s.Spare k n) :
    s'.Spare k n :=
  ⟨h.held_eq.trans hs.1, Nat.lt_of_le_of_lt (Nat.add_le_add_right h.remaining_le _) hs.2⟩

/-- A sign ahead is read as an operator, and what was ahead of it comes next. -/
theorem keeps_advance_sign {n : Nat} {sign : Char} (hsign : sign = '-' ∨ sign = '+') :
    Keeps deep (fun s => s.Spare k n ∧ Token.significant? false 0 s.buffer = some sign ∧
        (Token.significant? false 1 s.buffer).any Char.isDigit = true)
      advance fun _ s =>
        s.Spare k (n + 1) ∧ (Token.significant? false 0 s.buffer).any Char.isDigit = true := by
  intro s hproper ⟨⟨hheld, hlt⟩, hfirst, hsecond⟩
  obtain ⟨rest, line, hnext, hahead, hnl, hhash, hblank⟩ := Scanner.next_of_significant? hheld hfirst
  have hlex : Token.lex sign rest = (.op sign, rest) := by
    rcases hsign with rfl | rfl <;> rfl
  have hspec := Scanner.next_spec deep hproper
  rw [hlex] at hnext
  simp only [advance, scanning]
  rw [hnext] at hspec ⊢
  obtain ⟨hfree, -, hle⟩ := hspec
  refine ⟨rfl, Scanner.proper_of_free hfree, ⟨hfree, ?_⟩, ?_⟩
  · dsimp only [Token.weight] at hle ⊢
    omega
  · rw [hahead 1] at hsecond
    simpa [Token.significant?, hnl, hhash, hblank] using hsecond

/-- A digit ahead is read as the start of a word. -/
theorem keeps_advance_digit {n : Nat} :
    Keeps deep (fun s => s.Spare k n ∧
        (Token.significant? false 0 s.buffer).any Char.isDigit = true)
      advance fun t s => ∃ w, t = .word w ∧ s.Spare k (n + w.length) := by
  intro s hproper ⟨⟨hheld, hlt⟩, hdigit⟩
  obtain ⟨c, hfirst, hc⟩ := (Option.any_eq_true _ _).1 hdigit
  obtain ⟨rest, line, hnext, -⟩ := Scanner.next_of_significant? hheld hfirst
  have hlex : (Token.lex c rest).1 = .word (c :: rest.takeWhile isWordChar) := by
    have hquote : ¬ (c = '"' ∨ c = '\x27') :=
      not_or.2 ⟨ne_of_isDigit hc (by decide), ne_of_isDigit hc (by decide)⟩
    rw [Token.lex, if_neg hquote, if_pos (isWordChar_of_isDigit hc)]
  have hspec := Scanner.next_spec deep hproper
  simp only [advance, scanning]
  rw [hnext] at hspec ⊢
  obtain ⟨hfree, -, hle⟩ := hspec
  refine ⟨rfl, Scanner.proper_of_free hfree, _, hlex, hfree, ?_⟩
  rw [hlex] at hle
  dsimp only [Token.weight] at hle ⊢
  omega

/-- Nothing is put back where a numeral is joined with a signed number: what was looked at makes the
second token a word. -/
theorem keeps_joinImaginary (n : Nat) (t : Text) :
    Keeps deep (Spare k n) (joinImaginary R t) fun u s =>
      ∃ more, u = t ++ more ∧ s.Spare k (n + more.length) := by
  have hsame : ∀ P : Scanner → Prop, (∀ s, P s → s.Spare k n) → Keeps deep P (pure t) fun u s =>
      ∃ more, u = t ++ more ∧ s.Spare k (n + more.length) := by
    intro P hP
    exact .pure fun s hs => ⟨[], (List.append_nil t).symm, hP s hs⟩
  unfold joinImaginary
  split
  · apply (keeps_peek spare_of_extends 0).bind
    intro found
    cases found with
    | none => exact hsame _ fun _ h => h.1
    | some sign =>
      dsimp only
      split
      · rename_i hsign
        have hkept : ∀ s s' : Scanner, s.Extends s' →
            s.Spare k n ∧ Token.significant? false 0 s.buffer = some sign →
            s'.Spare k n ∧ Token.significant? false 0 s'.buffer = some sign := by
          intro s s' hs ⟨hspare, hfirst⟩
          obtain ⟨tail, htail⟩ := hs.buffer_prefix
          refine ⟨spare_of_extends s s' hs hspare, ?_⟩
          rw [← htail]
          exact Scanner.significant?_append hfirst tail
        apply ((keeps_digitAhead hkept 1).of_imp fun s hs => ⟨hs.1, (hs.2 hs.1.1).symm⟩).bind
        intro digit
        cases digit with
        | false => exact hsame _ fun _ h => h.1.1
        | true =>
          apply ((keeps_advance_sign hsign).of_imp fun s hs =>
            ⟨hs.1.1, hs.1.2, (hs.2 hs.1.1.1).symm⟩).bind
          intro _
          apply keeps_advance_digit.bind
          intro second
          cases second with
          | word w =>
            refine .pure fun s hs => ⟨sign :: w, rfl, ?_⟩
            obtain ⟨w', hw, hspare⟩ := hs
            obtain rfl := Token.word.inj hw
            simpa [Nat.add_assoc, Nat.add_comm 1] using hspare
          | quoted u =>
            intro s hproper hs
            simp at hs
          | op c =>
            intro s hproper hs
            simp at hs
          | eof =>
            intro s hproper hs
            simp at hs
      · exact hsame _ fun _ h => h.1
  · exact hsame _ fun _ h => h

/-! ### Literals -/

/-- The passes over a literal in braces read a token each. -/
theorem keeps_bracesStep (b : Braces) (k : Nat) :
    Keeps deep (Below k) (bracesStep b) (AfterPass k) := by
  apply keeps_advance.bind
  intro t
  cases t with
  | eof => exact keeps_malformed _
  | word w => exact keeps_inl (by simp) _
  | quoted t => exact keeps_inl (by simp) _
  | op c =>
    dsimp only
    split
    · split
      · exact keeps_inr _ _
      · exact keeps_inl (by simp) _
    · split
      · exact (keeps_checkDepth _).bind fun _ => keeps_inl (by simp) _
      · exact keeps_inl (by simp) _

theorem keeps_bracesText : Keeps deep (Below k) bracesText fun _ => Below k :=
  keeps_loop keeps_bracesStep k _

/-! ### The passes of an expression -/

/-- What a pass does with the token behind the signs: it ends the expression, or starts a factor,
or is skipped. Expressions in parentheses are read by the given reader. -/
def passBehind (R : PolyRing α) (inner : Reader (Poly α × Terminator)) (closer : Option Char)
    (acc : Accumulator α) (t : Token) : Reader (Accumulator α ⊕ Poly α × Terminator) := do
  match Role.ofToken closer t with
  | .negate => return .inl (acc.negate R)
  | .skip => return .inl acc
  | .stop terminator => return .inr (acc.total R, terminator)
  | .leave =>
    pushBack t
    return .inr (acc.total R, .finish)
  | .strayBrace => malformed .strayBrace
  | .openBrace =>
    let text ← nested bracesText
    let c ← literal R text 1
    return .inl (← multiplied R acc (.coefficient c))
  | .openParen =>
    let (p, terminator) ← nested inner
    if terminator ≠ .close then malformed .missingParen
    else return .inl (← multiplied R acc (.polynomial p))
  | .quoted text =>
    let c ← literal R text 1
    return .inl (← multiplied R acc (.coefficient c))
  | .numeral w =>
    let factor ← numeral R w
    return .inl (← multiplied R acc factor)
  | .symbol w =>
    let factor ← symbol R w
    return .inl (← multiplied R acc factor)

/-- An expression is a token, what a pass does with it, and the expression behind that. -/
theorem expressionFrom_succ (fuel : Nat) (closer : Option Char) (acc : Accumulator α) :
    expressionFrom R (fuel + 1) closer acc = (do
      let t ← advance
      match ← passBehind R (expressionFrom R fuel none (.start R)) closer acc t with
      | .inl acc' => expressionFrom R fuel closer acc'
      | .inr result => return result) := by
  rw [expressionFrom]
  congr 1
  funext t
  unfold passBehind
  cases Role.ofToken closer t with
  | openParen =>
    simp only [bind_assoc]
    congr 1
    funext result
    obtain ⟨p, terminator⟩ := result
    dsimp only
    split
    · rfl
    · simp only [bind_assoc, pure_bind]
  | strayBrace => rfl
  | _ => simp only [bind_assoc, pure_bind]

/-! ### Literals of the coefficient ring -/

section

variable (hR : deep = true → R.coefficients.Reliable)

include hR

theorem keeps_literal? {P : Scanner → Prop} (t : Text) (extra : Nat) :
    Keeps deep P (literal? R t extra) fun result s =>
      Refuses (fun fault => deep = true → ¬ fault.Defective) result ∧ P s :=
  fun _ hproper hP => ⟨rfl, hproper, fun _ hresult hdeep => hR hdeep _ _ _ _ hresult, hP⟩

theorem keeps_literal {P : Scanner → Prop} (t : Text) (extra : Nat) :
    Keeps deep P (literal R t extra) fun _ => P := by
  apply (keeps_literal? hR t extra).bind
  intro result
  apply Keeps.of_fact
  intro hfault
  cases result with
  | ok c => exact .pure fun _ h => h
  | error fault => exact keeps_literalFailure t (hfault fault rfl)

theorem keeps_numeral {w : Text} (hw : w.head?.any isNumeralStart = true) :
    Keeps deep (Behind k (.word w)) (numeral R w) fun _ => Below (k - 1) := by
  unfold numeral
  split
  · exact keeps_line.bind fun _ => keeps_throw fun h => h.2
  · have hpos : 0 < w.length := by
      cases w with
      | nil => simp at hw
      | cons c rest => exact Nat.succ_pos _
    apply ((keeps_joinImaginary w.length (completeNumeral w)).of_imp fun _ hs => hs.spare).bind
    intro t
    apply (keeps_literal? hR t 0).bind
    intro result
    apply Keeps.of_fact
    intro hfault
    cases result with
    | ok c =>
      refine .pure fun s hs => ?_
      obtain ⟨more, -, -, hlt⟩ := hs
      unfold Below
      omega
    | error fault =>
      dsimp only
      split
      · exact keeps_literalFailure t (hfault fault rfl)
      · rename_i number symbol hsplit
        apply (keeps_literal hR number 0).bind
        intro c
        -- The symbol is shorter than what was read, and nothing is held.
        have hbehind : ∀ s : Scanner,
            (∃ more, t = completeNumeral w ++ more ∧ s.Spare k (w.length + more.length)) →
            s.Behind (k - 1) (.word symbol) := by
          rintro s ⟨more, rfl, hfree, hlt⟩
          obtain ⟨hsolid, hlength⟩ := length_of_splitJuxtaposed? hw hsplit
          refine ⟨hfree, .inr hsolid, ?_⟩
          simp only [Token.weight]
          omega
        exact ((keeps_unread (.word symbol)).of_imp hbehind).bind fun _ => .pure fun _ h => h

theorem keeps_symbol (w : Text) {P : Scanner → Prop} : Keeps deep P (symbol R w) fun _ => P := by
  unfold symbol
  split
  · exact .pure fun _ h => h
  · apply (keeps_literal? hR w 0).bind
    intro result
    apply Keeps.of_fact
    intro hfault
    cases result with
    | ok c => exact .pure fun _ h => h
    | error fault =>
      exact keeps_line.bind fun _ => keeps_throw fun h => hfault fault rfl h.1 h.2

/-! ### What passes and expressions leave -/

/-- Where an inner expression leaves no more than it finds, a pass ends the expression, or leaves less
than there was with its token. -/
theorem keeps_passBehind {inner : Reader (Poly α × Terminator)}
    (hinner : Keeps deep (Below (k - 1)) inner fun _ => Below (k - 1)) (closer : Option Char)
    (acc : Accumulator α) (t : Token) :
    Keeps deep (Behind k t) (passBehind R inner closer acc t)
      fun next s => next.elim (fun _ => s.Below (k - 1)) fun result => Scanner.After k result s := by
  have hfactor : ∀ factor : Factor α, Keeps deep (Below (k - 1))
      (do return .inl (← multiplied R acc factor) : Reader (Accumulator α ⊕ Poly α × Terminator))
      fun next s => next.elim (fun _ => s.Below (k - 1)) fun result => Scanner.After k result s :=
    fun factor => (keeps_multiplied acc factor).bind fun _ => .pure fun _ h => h
  have hread : Role.ofToken closer t ≠ .stop .finish → ∀ s, Behind k t s → Below (k - 1) s := by
    intro hrole s hs
    refine hs.below_pred ?_
    rintro rfl
    exact hrole rfl
  unfold passBehind
  cases hrole : Role.ofToken closer t with
  | negate => exact .pure (hread (by simp [hrole]))
  | skip => exact .pure (hread (by simp [hrole]))
  | stop terminator =>
    refine .pure fun s hs => ⟨hs.toBelow, fun hterminator => ?_⟩
    exact hread (by simpa [hrole] using hterminator) s hs
  | leave =>
    exact (keeps_unread t).bind fun _ => .pure fun s hs => ⟨hs, fun h => absurd rfl h⟩
  | strayBrace => exact keeps_malformed _
  | openBrace =>
    apply ((keeps_nested keeps_bracesText).of_imp (hread (by simp [hrole]))).bind
    intro text
    exact (keeps_literal hR text 1).bind fun c => hfactor _
  | openParen =>
    apply ((keeps_nested hinner).of_imp (hread (by simp [hrole]))).bind
    intro result
    dsimp only
    split
    · exact keeps_malformed _
    · exact hfactor _
  | quoted text =>
    exact ((keeps_literal hR text 1).of_imp (hread (by simp [hrole]))).bind fun c => hfactor _
  | numeral w =>
    obtain ⟨rfl, hw⟩ := of_ofToken_eq_numeral hrole
    exact (keeps_numeral hR hw).bind fun factor => hfactor _
  | symbol w =>
    exact ((keeps_symbol hR w).of_imp (hread (by simp [hrole]))).bind fun factor => hfactor _

/-- An expression reads a token in each pass, so that it ends within the passes that what is left
allows. -/
theorem keeps_expressionFrom {fuel k : Nat} (hfuel : k ≤ fuel) (closer : Option Char)
    (acc : Accumulator α) :
    Keeps deep (Below k) (expressionFrom R fuel closer acc) (Scanner.After k) := by
  induction fuel generalizing k closer acc with
  | zero =>
    intro s _ hbelow
    exact absurd hbelow (by unfold Below; omega)
  | succ fuel ih =>
    have hshorter : ∀ (closer : Option Char) (acc : Accumulator α), Keeps deep (Below (k - 1))
        (expressionFrom R fuel closer acc) (Scanner.After (k - 1)) := ih (by omega)
    rw [expressionFrom_succ]
    apply keeps_advance.bind
    intro t
    apply (keeps_passBehind hR ((hshorter none _).weaken fun _ _ hs => hs.1) closer acc t).bind
    intro next
    cases next with
    | inl acc' =>
      refine (hshorter closer acc').weaken fun _ s hs => ⟨?_, fun _ => hs.1⟩
      exact Nat.lt_of_lt_of_le hs.1 (Nat.sub_le k 1)
    | inr result => exact .pure fun _ h => h

theorem keeps_expression (k : Nat) (closer : Option Char) :
    Keeps deep (Below k) (expression R closer) (Scanner.After k) := by
  intro s hproper hbelow
  have hrun := keeps_expressionFrom hR (Nat.le_refl (s.scanner.remaining + 1)) closer (.start R) s
    hproper (Nat.lt_succ_self _)
  have hexpression :
      expression R closer s = expressionFrom R (s.scanner.remaining + 1) closer (.start R) s := rfl
  rw [hexpression]
  split at hrun
  · obtain ⟨hdepth, hproper', hle, hless⟩ := hrun
    refine ⟨hdepth, hproper', Nat.lt_of_lt_of_le hle hbelow, fun hterminator => ?_⟩
    have hlt := hless hterminator
    unfold Below at hbelow hlt ⊢
    omega
  · exact hrun

theorem keeps_polynomial (k : Nat) : Keeps deep (Below k) (polynomial R) fun _ => Below k :=
  (keeps_expression hR k none).bind fun _ => .pure fun _ h => h.1

end

end Reader

end PolynomialText
