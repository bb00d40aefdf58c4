import PolynomialText.Proofs.ExpressionSteps
import PolynomialText.Proofs.SafeExpressions

/-!
# Expressions as tokens

What a reader of expressions gives is described by the tokens ahead of it alone. The functions of
`Grammar` go by the names of the readers that they describe. They take a list of tokens to an
outcome: a value or a failure without its line, and the tokens that are left. Where a reader looks
at a character, its description looks at the first character of a token.

`Grammar.Reads` derives the outcome of an expression pass by pass. Every list of solid tokens has a
derivation, because every pass leaves less than it found.
-/

namespace PolynomialText

/-- A failure without the line it was found on. -/
def ParseError.unlined : ParseError → ParseError
  | .malformed _ cause => .malformed 0 cause
  | .unknownLiteral _ symbol reason => .unknownLiteral 0 symbol reason
  | .descriptor _ cause => .descriptor 0 cause
  | .literal _ t reason => .literal 0 t reason
  | .stream _ message => .stream 0 message
  | .defect _ cause => .defect 0 cause

/-- A value or a failure, and the tokens that are left. -/
structure Outcome (α : Type) where
  result : Except ParseError α
  rest : List Token

namespace Outcome

variable {α β : Type}

/-- A value. -/
def ok (a : α) (rest : List Token) : Outcome α := ⟨.ok a, rest⟩

/-- A structural fault. -/
def malformed (cause : Malformation) (rest : List Token) : Outcome α :=
  ⟨.error (.malformed 0 cause), rest⟩

theorem ok_inj {a b : α} {rest rest' : List Token} (h : Outcome.ok a rest = .ok b rest') :
    a = b ∧ rest = rest' :=
  ⟨Except.ok.inj (Outcome.mk.inj h).1, (Outcome.mk.inj h).2⟩

theorem error_ne_ok {e : ParseError} {a : α} {rest rest' : List Token} :
    (⟨.error e, rest⟩ : Outcome α) ≠ .ok a rest' := fun h => nomatch (Outcome.mk.inj h).1

/-- Go on behind a value. -/
def bind (o : Outcome α) (f : α → List Token → Outcome β) : Outcome β :=
  match o.result with
  | .ok a => f a o.rest
  | .error e => ⟨.error e, o.rest⟩

end Outcome

namespace Grammar

/-! ### Exponents -/

/-- The first character ahead. -/
def ahead (tokens : List Token) : Option Char := (tokens.headD .eof).lexeme.head?

/-- A digit is ahead. -/
def digitAhead (tokens : List Token) : Bool := (ahead tokens).any Char.isDigit

/-- The digits at the start of an exponent word; a symbol that is run on to them is left. -/
def exponentWord (tokens : List Token) : Outcome UInt64 :=
  match tokens.headD .eof with
  | .word w =>
    let digits := w.takeWhile Char.isDigit
    match Text.word? digits with
    | none => .malformed (.exponentOutOfRange digits) tokens.tail
    | some exponent =>
      match w.dropWhile Char.isDigit with
      | [] => .ok exponent tokens.tail
      | c :: rest =>
        if isSymbolStart c then .ok exponent (.word (c :: rest) :: tokens.tail)
        else .malformed (.exponentWord w) tokens.tail
  | other => .malformed (.missingExponent other) tokens.tail

/-- The exponent behind a mark, from the tokens with the mark, those that a failure leaves, and
those behind the mark. -/
def exponentAfter (tokens left behind : List Token) : Outcome UInt64 :=
  match ahead behind with
  | none => .ok 1 tokens
  | some c =>
    if c.isDigit then exponentWord behind
    else if c = '~' then .malformed .negativeExponent left
    else if c = '-' then
      if digitAhead behind.tail then .malformed .negativeExponent left else .ok 1 tokens
    else if c = '.' ∨ c = '/' then .malformed .fractionalExponent left
    else .ok 1 tokens

/-- An exponent after a caret or two stars, or else one. -/
def exponent (tokens : List Token) : Outcome UInt64 :=
  if tokens.headD .eof = .op '^' then exponentAfter tokens tokens.tail tokens.tail
  else if tokens.headD .eof = .op '*' ∧ ahead tokens.tail = some '*' then
    exponentAfter tokens tokens.tail tokens.tail.tail
  else .ok 1 tokens

/-! ### Factors -/

/-- The failure that a refused literal is. -/
def literalError (t : Text) : LiteralFault → ParseError
  | .expression (.malformed _ cause) => .malformed 0 cause
  | fault => .literal 0 t fault

/-- The text of a literal in braces after one more token, or all of it. -/
def bracesStep (limits : Limits) (depth : Nat) (b : Reader.Braces) :
    Token → Except ParseError (Reader.Braces ⊕ Text)
  | .eof => .error (.malformed 0 .openBrace)
  | .op c =>
    if c = '\x7d' then
      if b.level = 0 then .ok (.inr b.text) else .ok (.inl ⟨b.text ++ [c], b.level - 1, false⟩)
    else if c = '\x7b' then
      if limits.maxDepth.toNat < depth + (b.level + 1) then
        .error (.malformed 0 (.tooDeep limits.maxDepth.toNat))
      else .ok (.inl ⟨b.text ++ [c], b.level + 1, false⟩)
    else .ok (.inl ⟨b.text ++ [c], b.level, false⟩)
  | .word w =>
    let gap := if b.afterWord ∧ b.text.getLast? ≠ some '.' then [' '] else []
    .ok (.inl ⟨b.text ++ gap ++ w, b.level, true⟩)
  | .quoted t => .ok (.inl ⟨b.text ++ '"' :: t ++ ['"'], b.level, false⟩)

/-- The text of a literal in braces, as far as it was read. -/
def braces (limits : Limits) (depth : Nat) (b : Reader.Braces) : List Token → Outcome Text
  | [] => .malformed .openBrace []
  | t :: rest =>
    match bracesStep limits depth b t with
    | .ok (.inl b') => braces limits depth b' rest
    | .ok (.inr text) => .ok text rest
    | .error e => ⟨.error e, rest⟩

/-- What is read one level deeper, if the limit allows it. -/
def nested {β : Type} (limits : Limits) (depth : Nat) (tokens : List Token) (o : Outcome β) :
    Outcome β :=
  if limits.maxDepth.toNat < depth + 1 then .malformed (.tooDeep limits.maxDepth.toNat) tokens
  else o

section

variable {α : Type} (R : PolyRing α) (limits : Limits) (depth : Nat)

/-- A literal of the coefficient ring. -/
def literal (t : Text) (rest : List Token) : Outcome α :=
  match R.coefficients.readWithin limits depth t with
  | .ok c => .ok c rest
  | .error fault => ⟨.error (literalError t fault), rest⟩

/-- A literal in braces, after the opening brace. -/
def enclosed (tokens : List Token) : Outcome α :=
  (nested limits depth tokens (braces limits (depth + 1) ⟨[], 0, false⟩ tokens)).bind
    (literal R limits (depth + 1))

/-- A numeral that ends in the imaginary unit takes the signed number behind it. -/
def joinImaginary (t : Text) (tokens : List Token) : Text × List Token :=
  if t.getLast? = some 'i' ∧ R.coefficients.kind.isHypercomplex ∧ signAhead tokens ∧
      digitAhead tokens.tail then
    (t ++ (tokens.take 2).flatMap Token.lexeme, tokens.drop 2)
  else (t, tokens)

/-- A numeral. -/
def numeral (w : Text) (tokens : List Token) : Outcome (Factor α) :=
  if !w.any Char.isDigit then ⟨.error (.literal 0 w .noNumeralDigits), tokens⟩
  else
    let (t, rest) := joinImaginary R (Reader.completeNumeral w) tokens
    match R.coefficients.readWithin limits depth t with
    | .ok c => .ok (.coefficient c) rest
    | .error fault =>
      match splitJuxtaposed? t with
      | none => ⟨.error (literalError t fault), rest⟩
      | some (number, symbol) =>
        (literal R limits depth number rest).bind fun c rest =>
          .ok (.coefficient c) (.word symbol :: rest)

/-- A declared variable, or else a literal of the coefficient ring. -/
def symbol (w : Text) (rest : List Token) : Outcome (Factor α) :=
  match R.varIndex? w with
  | some index => .ok (.variable index) rest
  | none =>
    match R.coefficients.readWithin limits depth w with
    | .ok c => .ok (.coefficient c) rest
    | .error fault => ⟨.error (.unknownLiteral 0 w fault), rest⟩

/-- An expression that was read in parentheses, as a factor. -/
def closed (inner : Outcome (Poly α × Terminator)) : Outcome (Factor α) :=
  inner.bind fun result rest =>
    if result.2 ≠ .close then .malformed .missingParen rest else .ok (.polynomial result.1) rest

/-- The accumulator behind a factor with its exponent. -/
def multiplied (acc : Accumulator α) (factor : Factor α) (tokens : List Token) :
    Outcome (Accumulator α) :=
  (exponent tokens).bind fun k rest => .ok ((acc.multiply R factor k).settle R rest) rest

end

/-! ### Passes -/

/-- What a pass over the tokens of an expression does. -/
inductive Pass (α : Type) where
  /-- The expression goes on. -/
  | more (acc : Accumulator α) (rest : List Token)
  /-- A parenthesis is opened. -/
  | opens (rest : List Token)
  /-- The expression ends or fails. -/
  | last (outcome : Outcome (Poly α × Terminator))

/-- The expression goes on behind an accumulator, and fails with it. -/
def Pass.behind {α : Type} (o : Outcome (Accumulator α)) : Pass α :=
  match o.result with
  | .ok acc => .more acc o.rest
  | .error e => .last ⟨.error e, o.rest⟩

theorem Pass.behind_eq_more {α : Type} {o : Outcome (Accumulator α)} {acc : Accumulator α}
    {rest : List Token} : Pass.behind o = .more acc rest ↔ o = .ok acc rest := by
  obtain ⟨result, left⟩ := o
  cases result with
  | ok found =>
    constructor
    · intro h
      obtain ⟨rfl, rfl⟩ := Pass.more.inj h
      rfl
    · intro h
      obtain ⟨rfl, rfl⟩ := Outcome.ok_inj h
      rfl
  | error e => exact ⟨(nomatch ·), fun h => absurd h Outcome.error_ne_ok⟩

/-- Behind an accumulator an expression only ends by failing. -/
theorem Pass.behind_ne_last {α : Type} {o : Outcome (Accumulator α)} {result : Poly α × Terminator}
    {rest : List Token} : Pass.behind o ≠ .last (.ok result rest) := by
  obtain ⟨found, left⟩ := o
  cases found with
  | ok found => exact fun h => nomatch h
  | error e => exact fun h => absurd (Pass.last.inj h) Outcome.error_ne_ok

section

variable {α : Type} (R : PolyRing α) (limits : Limits)

/-- A pass from an accumulator on. -/
def pass (depth : Nat) (closer : Option Char) (acc : Accumulator α) (tokens : List Token) : Pass α :=
  match Role.ofToken closer (tokens.headD .eof) with
  | .negate => .more (acc.negate R) tokens.tail
  | .skip => .more acc tokens.tail
  | .stop terminator => .last (.ok (acc.total R, terminator) tokens.tail)
  | .leave => .last (.ok (acc.total R, .finish) tokens)
  | .strayBrace => .last (.malformed .strayBrace tokens.tail)
  | .openBrace =>
    .behind ((enclosed R limits depth tokens.tail).bind fun c => multiplied R acc (.coefficient c))
  | .openParen =>
    if limits.maxDepth.toNat < depth + 1 then
      .last (.malformed (.tooDeep limits.maxDepth.toNat) tokens.tail)
    else .opens tokens.tail
  | .quoted text =>
    .behind ((literal R limits (depth + 1) text tokens.tail).bind fun c =>
      multiplied R acc (.coefficient c))
  | .numeral w => .behind ((numeral R limits depth w tokens.tail).bind (multiplied R acc))
  | .symbol w => .behind ((symbol R limits depth w tokens.tail).bind (multiplied R acc))

variable {R limits}

/-- A parenthesis is opened by a parenthesis, where the limit allows another level. -/
theorem of_pass_eq_opens {depth : Nat} {closer : Option Char} {acc : Accumulator α}
    {tokens rest : List Token} (h : pass R limits depth closer acc tokens = .opens rest) :
    Role.ofToken closer (tokens.headD .eof) = .openParen ∧ depth + 1 ≤ limits.maxDepth.toNat ∧
      rest = tokens.tail := by
  have hbehind : ∀ o : Outcome (Accumulator α), Pass.behind o ≠ .opens rest := by
    intro o h
    unfold Pass.behind at h
    split at h
    · contradiction
    · contradiction
  unfold pass at h
  cases hrole : Role.ofToken closer (tokens.headD .eof) with
  | openParen =>
    rw [hrole] at h
    dsimp only at h
    split at h
    · contradiction
    · rename_i hge
      exact ⟨rfl, Nat.le_of_not_lt hge, (Pass.opens.inj h).symm⟩
  | negate => rw [hrole] at h; contradiction
  | skip => rw [hrole] at h; contradiction
  | stop terminator => rw [hrole] at h; contradiction
  | leave => rw [hrole] at h; contradiction
  | strayBrace => rw [hrole] at h; contradiction
  | openBrace => rw [hrole] at h; exact absurd h (hbehind _)
  | quoted text => rw [hrole] at h; exact absurd h (hbehind _)
  | numeral w => rw [hrole] at h; exact absurd h (hbehind _)
  | symbol w => rw [hrole] at h; exact absurd h (hbehind _)

variable (R limits)

/-- From an accumulator on, the tokens give the outcome. -/
inductive Reads : Nat → Option Char → Accumulator α → List Token → Outcome (Poly α × Terminator) →
    Prop
  /-- The last pass. -/
  | last {depth closer acc tokens outcome} (h : pass R limits depth closer acc tokens = .last outcome) :
    Reads depth closer acc tokens outcome
  /-- A pass that goes on. -/
  | more {depth closer acc tokens acc' rest outcome}
    (h : pass R limits depth closer acc tokens = .more acc' rest)
    (hrest : Reads depth closer acc' rest outcome) : Reads depth closer acc tokens outcome
  /-- An expression in parentheses, with which the expression around it fails. -/
  | group {depth closer acc tokens rest inner outcome}
    (h : pass R limits depth closer acc tokens = .opens rest)
    (hinner : Reads (depth + 1) none (.start R) rest inner)
    (hbehind : .behind ((closed inner).bind (multiplied R acc)) = Pass.last outcome) :
    Reads depth closer acc tokens outcome
  /-- An expression in parentheses, behind which the expression around it goes on. -/
  | groupMore {depth closer acc tokens rest inner acc' rest' outcome}
    (h : pass R limits depth closer acc tokens = .opens rest)
    (hinner : Reads (depth + 1) none (.start R) rest inner)
    (hbehind : .behind ((closed inner).bind (multiplied R acc)) = Pass.more acc' rest')
    (hrest : Reads depth closer acc' rest' outcome) : Reads depth closer acc tokens outcome

end

/-! ### Every list of tokens has an outcome -/

/-- The tokens are solid, and stand for no more than a number of characters. -/
def Fits (n : Nat) (tokens : List Token) : Prop :=
  (∀ t ∈ tokens, t.Solid) ∧ (tokens.map Token.weight).sum ≤ n

namespace Fits

variable {n : Nat} {t : Token} {tokens : List Token}

/-- Solid tokens fit what they stand for. -/
theorem of_solid (h : ∀ t ∈ tokens, t.Solid) : Fits (tokens.map Token.weight).sum tokens :=
  ⟨h, Nat.le_refl _⟩

theorem mono {m : Nat} (h : Fits n tokens) (hle : n ≤ m) : Fits m tokens :=
  ⟨h.1, Nat.le_trans h.2 hle⟩

/-- A token in front takes its share. -/
theorem cons_iff : Fits n (t :: tokens) ↔ t.Solid ∧ t.weight ≤ n ∧ Fits (n - t.weight) tokens := by
  simp only [Fits, List.forall_mem_cons, List.map_cons, List.sum_cons]
  constructor
  · rintro ⟨⟨ht, htokens⟩, hle⟩
    exact ⟨ht, by omega, htokens, by omega⟩
  · rintro ⟨ht, hle, htokens, hsum⟩
    exact ⟨⟨ht, htokens⟩, by omega⟩

/-- What is behind the first token fits as well. -/
theorem tail (h : Fits n tokens) : Fits n tokens.tail := by
  cases tokens with
  | nil => exact h
  | cons t tokens => exact (cons_iff.1 h).2.2.mono (Nat.sub_le _ _)

/-- Behind a token less is left. -/
theorem tail_pred (h : Fits n tokens) (hne : tokens ≠ []) : 0 < n ∧ Fits (n - 1) tokens.tail := by
  cases tokens with
  | nil => exact absurd rfl hne
  | cons t tokens =>
    obtain ⟨ht, hle, htokens⟩ := cons_iff.1 h
    have hpos : 0 < t.weight := ht
    exact ⟨by omega, htokens.mono (by omega)⟩

end Fits

section

variable {n : Nat} {tokens : List Token}

/-- The tokens behind an exponent fit. -/
theorem fits_exponentWord (h : Fits n tokens) : Fits n (exponentWord tokens).rest := by
  unfold exponentWord
  split
  · rename_i w hhead
    dsimp only
    split
    · exact h.tail
    · split
      · exact h.tail
      · rename_i c rest hrest
        split
        · cases tokens with
          | nil => exact absurd hhead (by simp)
          | cons t tokens =>
            obtain rfl : t = .word w := hhead
            obtain ⟨-, hle, htokens⟩ := Fits.cons_iff.1 h
            have hlength : (c :: rest).length ≤ w.length := by
              rw [← hrest]
              exact (List.dropWhile_sublist _).length_le
            simp only [Token.weight] at hle htokens
            refine Fits.cons_iff.2 ⟨Nat.succ_pos _, ?_, htokens.mono ?_⟩
            · simp only [Token.weight]
              omega
            · simp only [Token.weight]
              omega
        · exact h.tail
  · exact h.tail

theorem fits_exponentAfter {left behind : List Token} (h : Fits n tokens) (hleft : Fits n left)
    (hbehind : Fits n behind) : Fits n (exponentAfter tokens left behind).rest := by
  unfold exponentAfter
  split
  · exact h
  · split
    · exact fits_exponentWord hbehind
    · split
      · exact hleft
      · split
        · split
          · exact hleft
          · exact h
        · split
          · exact hleft
          · exact h

theorem fits_exponent (h : Fits n tokens) : Fits n (exponent tokens).rest := by
  unfold exponent
  split
  · exact fits_exponentAfter h h.tail h.tail
  · split
    · exact fits_exponentAfter h h.tail h.tail.tail
    · exact h

theorem fits_braces {limits : Limits} {depth : Nat} {b : Reader.Braces} (h : Fits n tokens) :
    Fits n (braces limits depth b tokens).rest := by
  induction tokens generalizing b with
  | nil => exact h
  | cons t rest ih =>
    have hrest : Fits n rest := h.tail
    rw [braces]
    split
    · exact ih hrest
    · exact hrest
    · exact hrest

variable {α β : Type} {R : PolyRing α} {limits : Limits} {depth : Nat}

theorem fits_bind {o : Outcome α} {f : α → List Token → Outcome β} (ho : Fits n o.rest)
    (hf : ∀ a rest, Fits n rest → Fits n (f a rest).rest) : Fits n (o.bind f).rest := by
  unfold Outcome.bind
  split
  · exact hf _ _ ho
  · exact ho

theorem fits_literal {t : Text} (h : Fits n tokens) :
    Fits n (literal R limits depth t tokens).rest := by
  unfold literal
  split
  · exact h
  · exact h

theorem fits_enclosed (h : Fits n tokens) : Fits n (enclosed R limits depth tokens).rest := by
  refine fits_bind ?_ fun t rest => fits_literal
  unfold nested
  split
  · exact h
  · exact fits_braces h

theorem fits_symbol {w : Text} (h : Fits n tokens) :
    Fits n (symbol R limits depth w tokens).rest := by
  unfold symbol
  split
  · exact h
  · split
    · exact h
    · exact h

/-- Where a sign and a digit are ahead, two tokens are. -/
theorem exists_of_signAhead (hsign : signAhead tokens = true)
    (hdigit : digitAhead tokens.tail = true) :
    ∃ sign t rest, (sign = '-' ∨ sign = '+') ∧ tokens = .op sign :: t :: rest ∧
      t.lexeme.head?.any Char.isDigit = true := by
  match tokens with
  | [] => contradiction
  | [t] => contradiction
  | t :: u :: rest =>
    rcases Bool.or_eq_true _ _ ▸ hsign with hminus | hplus
    · obtain rfl := of_decide_eq_true hminus
      exact ⟨'-', u, rest, .inl rfl, rfl, hdigit⟩
    · obtain rfl := of_decide_eq_true hplus
      exact ⟨'+', u, rest, .inr rfl, rfl, hdigit⟩

/-- What a numeral takes from the tokens behind it makes its text longer. -/
theorem fits_joinImaginary {t : Text} (h : Fits n tokens) :
    ∃ more, (joinImaginary R t tokens).1 = t ++ more ∧ more.length ≤ n ∧
      Fits (n - more.length) (joinImaginary R t tokens).2 := by
  unfold joinImaginary
  split
  · rename_i hjoin
    obtain ⟨sign, u, rest, -, rfl, hu⟩ := exists_of_signAhead hjoin.2.2.1 hjoin.2.2.2
    have hweight : u.lexeme.length = u.weight := by
      cases u with
      | quoted q => contradiction
      | word w => rfl
      | op c => rfl
      | eof => rfl
    obtain ⟨-, hsign, hrest⟩ := Fits.cons_iff.1 h
    obtain ⟨-, hword, hrest⟩ := Fits.cons_iff.1 hrest
    have hone : (Token.op sign).weight = 1 := rfl
    have hlength : ([.op sign, u].flatMap Token.lexeme).length = 1 + u.weight := by
      rw [List.flatMap_cons, List.flatMap_singleton, List.length_append, hweight]
      rfl
    refine ⟨[.op sign, u].flatMap Token.lexeme, rfl, ?_, hrest.mono ?_⟩
    · omega
    · omega
  · exact ⟨[], (List.append_nil t).symm, Nat.zero_le n, h⟩

/-- A numeral takes at least one of its characters for good. -/
theorem fits_numeral {w : Text} (hw : w.head?.any isNumeralStart = true)
    (h : Fits n (.word w :: tokens)) : Fits (n - 1) (numeral R limits depth w tokens).rest := by
  obtain ⟨hsolid, hle, htokens⟩ := Fits.cons_iff.1 h
  have hpos : 0 < w.length := hsolid
  simp only [Token.weight] at hle htokens
  unfold numeral
  split
  · exact htokens.mono (by omega)
  · obtain ⟨more, htext, hmore, hrest⟩ :=
      fits_joinImaginary (R := R) (t := Reader.completeNumeral w) htokens
    dsimp only
    split
    · exact hrest.mono (by omega)
    · split
      · exact hrest.mono (by omega)
      · rename_i number symbol hsplit
        rw [htext] at hsplit
        obtain ⟨hsymbol, hlength⟩ := Reader.length_of_splitJuxtaposed? hw hsplit
        unfold literal Outcome.bind
        split
        · rename_i c hc
          split at hc
          · refine Fits.cons_iff.2 ⟨hsymbol, ?_, hrest.mono ?_⟩
            · simp only [Token.weight]
              omega
            · simp only [Token.weight]
              omega
          · contradiction
        · split
          · exact hrest.mono (by omega)
          · exact hrest.mono (by omega)

theorem fits_multiplied {acc : Accumulator α} {factor : Factor α} (h : Fits n tokens) :
    Fits n (multiplied R acc factor tokens).rest :=
  fits_bind (fits_exponent h) fun _ _ hrest => hrest

theorem fits_closed {inner : Outcome (Poly α × Terminator)} (h : Fits n inner.rest) :
    Fits n (closed inner).rest := by
  refine fits_bind h fun result rest hrest => ?_
  split
  · exact hrest
  · exact hrest

/-- The tokens that a pass leaves fit, and those behind which the expression goes on are less. -/
def Pass.Fits (n : Nat) : Pass α → Prop
  | .more _ rest => 0 < n ∧ Grammar.Fits (n - 1) rest
  | .opens rest => 0 < n ∧ Grammar.Fits (n - 1) rest
  | .last outcome => Grammar.Fits n outcome.rest

theorem Pass.fits_behind {o : Outcome (Accumulator α)} (hn : 0 < n) (h : Grammar.Fits (n - 1) o.rest) :
    (Pass.behind o).Fits n := by
  unfold Pass.behind
  split
  · exact ⟨hn, h⟩
  · exact h.mono (Nat.sub_le n 1)

/-- A pass reads a token for good. -/
theorem fits_pass {closer : Option Char} {acc : Accumulator α} (h : Fits n tokens) :
    (pass R limits depth closer acc tokens).Fits n := by
  have hread : ∀ {role}, Role.ofToken closer (tokens.headD .eof) = role → role ≠ .stop .finish →
      0 < n ∧ Fits (n - 1) tokens.tail := by
    intro role hrole hne
    apply h.tail_pred
    rintro rfl
    exact hne hrole.symm
  unfold pass
  cases hrole : Role.ofToken closer (tokens.headD .eof) with
  | negate => exact hread hrole (by simp)
  | skip => exact hread hrole (by simp)
  | stop terminator => exact h.tail
  | leave => exact h
  | strayBrace => exact h.tail
  | openBrace =>
    obtain ⟨hn, htail⟩ := hread hrole (by simp)
    exact Pass.fits_behind hn (fits_bind (fits_enclosed htail) fun _ _ => fits_multiplied)
  | openParen =>
    dsimp only
    split
    · exact h.tail
    · exact hread hrole (by simp)
  | quoted text =>
    obtain ⟨hn, htail⟩ := hread hrole (by simp)
    exact Pass.fits_behind hn (fits_bind (fits_literal htail) fun _ _ => fits_multiplied)
  | numeral w =>
    obtain ⟨hn, -⟩ := hread hrole (by simp)
    obtain ⟨hhead, hw⟩ := Reader.of_ofToken_eq_numeral hrole
    cases tokens with
    | nil => contradiction
    | cons t tokens =>
      obtain rfl : t = .word w := hhead
      exact Pass.fits_behind hn (fits_bind (fits_numeral hw h) fun _ _ => fits_multiplied)
  | symbol w =>
    obtain ⟨hn, htail⟩ := hread hrole (by simp)
    exact Pass.fits_behind hn (fits_bind (fits_symbol htail) fun _ _ => fits_multiplied)

/-- Tokens that fit have an outcome, and what it leaves fits. -/
theorem exists_reads_of_fits {closer : Option Char} {acc : Accumulator α} (h : Fits n tokens) :
    ∃ outcome, Reads R limits depth closer acc tokens outcome ∧ Fits n outcome.rest := by
  induction n using Nat.strong_induction_on generalizing depth closer acc tokens with
  | _ n ih =>
    have hpass : (pass R limits depth closer acc tokens).Fits n := fits_pass h
    cases hcase : pass R limits depth closer acc tokens with
    | last outcome =>
      rw [hcase] at hpass
      exact ⟨outcome, .last hcase, hpass⟩
    | more acc' rest =>
      rw [hcase] at hpass
      obtain ⟨outcome, hreads, hrest⟩ := ih (n - 1) (Nat.sub_one_lt_of_lt hpass.1) hpass.2
      exact ⟨outcome, .more hcase hreads, hrest.mono (Nat.sub_le n 1)⟩
    | opens rest =>
      rw [hcase] at hpass
      have hlt := Nat.sub_one_lt_of_lt hpass.1
      obtain ⟨inner, hinner, hfits⟩ : ∃ inner,
          Reads R limits (depth + 1) none (.start R) rest inner ∧ Fits (n - 1) inner.rest :=
        ih (n - 1) hlt hpass.2
      have hbehind : Fits (n - 1) ((closed inner).bind (multiplied R acc)).rest :=
        fits_bind (fits_closed hfits) fun _ _ => fits_multiplied
      cases hresult : ((closed inner).bind (multiplied R acc)).result with
      | error e =>
        exact ⟨_, .group hcase hinner (by rw [Pass.behind, hresult]), hbehind.mono (Nat.sub_le n 1)⟩
      | ok acc' =>
        obtain ⟨outcome, hreads, hrest⟩ := ih (n - 1) hlt hbehind
        exact ⟨outcome, .groupMore hcase hinner (by rw [Pass.behind, hresult]) hreads,
          hrest.mono (Nat.sub_le n 1)⟩

/-- Every list of solid tokens has an outcome. -/
theorem exists_reads (R : PolyRing α) (limits : Limits) (depth : Nat) (closer : Option Char)
    (acc : Accumulator α) (h : ∀ t ∈ tokens, t.Solid) :
    ∃ outcome, Reads R limits depth closer acc tokens outcome :=
  (exists_reads_of_fits (Fits.of_solid h)).imp fun _ => And.left

end

end Grammar

end PolynomialText
