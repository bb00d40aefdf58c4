import PolynomialText.Proofs.CanonicalResults
import PolynomialText.Proofs.NestingExpressions
import PolynomialText.Proofs.TokenReaders

/-!
# Expressions in other places

An expression that was read up to the end of its tokens is read in the same way in front of a comma,
a closing parenthesis or a closing bracket that the caller asks for: where the readers look ahead at
the end, a delimiter tells them no more than the end does. It is also read in the same way below more
open levels, if the limit leaves room for them. The literals in it keep their values for the same
reason, and a text that opens nothing is a literal everywhere or nowhere, so that a numeral is cut at
the same place.
-/

namespace PolynomialText

/-- The number of levels that can still be opened. -/
def Limits.room (limits : Limits) (depth : Nat) : Int := limits.maxDepth.toNat - depth

/-- A literal keeps its value where there is as much room, and everywhere if it opens nothing. -/
def Arithmetic.Portable {α : Type} (A : Arithmetic α) : Prop :=
  ∀ {limits limits' : Limits} {depth depth' : Nat} {t : Text} {a : α},
    limits.room depth ≤ limits'.room depth' ∨ Text.Flat t →
    A.readWithin limits depth t = .ok a → A.readWithin limits' depth' t = .ok a

/-- A token of a source: not its end and not a closing character, with flat words, and in flat text a
word or a sign. -/
def Token.Given (plain : Bool) (closer : Option Char) (t : Token) : Prop :=
  t ≠ .eof ∧ t.Flat plain ∧ ∀ c ∈ closer, t ≠ .op c

theorem Token.given_of_mem_ofText {plain : Bool} {t : Text} (h : plain = true → Text.Flat t) :
    ∀ token ∈ ofText t, token.Given plain none := by
  induction t using ofText_induction with
  | nil t hstart =>
    rw [ofText_of_start_nil hstart]
    exact fun _ hmem => absurd hmem List.not_mem_nil
  | cons t c rest hstart ih =>
    have hsuffix : (c :: rest) <:+ t := hstart ▸ skip_suffix false 0 t
    obtain ⟨hflat, hrest⟩ := @flat_lex _ c rest fun htrue =>
      (h htrue).of_subset fun _ hd => hsuffix.subset hd
    rw [ofText_of_start_cons hstart]
    exact List.forall_mem_cons.2 ⟨⟨(solid_lex c rest).ne_eof, hflat, fun _ => nofun⟩, ih hrest⟩

theorem Token.Given.word {plain : Bool} {closer : Option Char} {w : Text} (hw : Text.Flat w) :
    (Token.word w).Given plain closer := ⟨by simp, hw, by simp⟩

/-- Without a closing character that the caller names, an expression is left at the end only. -/
theorem Role.ofToken_none_ne {t : Token} (ht : t ≠ .eof) :
    Role.ofToken none t ≠ .leave ∧ Role.ofToken none t ≠ .stop .finish := by
  cases t with
  | eof => exact absurd rfl ht
  | quoted q => exact ⟨by simp [ofToken], by simp [ofToken]⟩
  | word w =>
    simp only [ofToken]
    split
    · exact ⟨by simp, by simp⟩
    · exact ⟨by simp, by simp⟩
  | op c =>
    simp only [ofToken]
    repeat' split
    all_goals simp_all

/-- A closing character that the caller names gives no other token another role. -/
theorem Role.ofToken_of_ne {closer : Option Char} {t : Token} (ht : ∀ c ∈ closer, t ≠ .op c) :
    Role.ofToken closer t = Role.ofToken none t := by
  cases t with
  | eof => rfl
  | quoted q => rfl
  | word w => rfl
  | op c =>
    have hc : some c ≠ closer := fun h => ht c h.symm rfl
    simp only [ofToken, if_neg hc, reduceCtorEq, if_false]

/-- With more tokens behind it, an outcome has the same value in front of them, or fails as well. -/
def Outcome.Extends {α : Type} (tail : List Token) (o o' : Outcome α) : Prop :=
  match o.result with
  | .ok a => o' = .ok a (o.rest ++ tail)
  | .error _ => ∃ e rest, o' = ⟨.error e, rest⟩

/-- What is read with a value has the same value in front of further tokens. -/
def Outcome.Carried {α : Type} (plain : Bool) (closer : Option Char) (tail : List Token)
    (o o' : Outcome α) : Prop :=
  ∀ a rest, o = .ok a rest → o' = .ok a (rest ++ tail) ∧ ∀ t ∈ rest, t.Given plain closer

namespace Outcome

variable {α β : Type} {plain : Bool} {closer : Option Char} {tail : List Token}

theorem carried_ok {a : α} {rest : List Token} (h : ∀ t ∈ rest, t.Given plain closer) :
    (ok a rest).Carried plain closer tail (ok a (rest ++ tail)) := by
  intro b rest' heq
  obtain ⟨rfl, rfl⟩ := ok_inj heq
  exact ⟨rfl, h⟩

theorem carried_error {e : ParseError} {rest : List Token} {o' : Outcome α} :
    (Outcome.mk (.error e) rest).Carried plain closer tail o' := by
  intro b rest' heq
  exact absurd heq error_ne_ok

/-- A value in front of other readers. -/
theorem Carried.bind {o o' : Outcome α} {f g : α → List Token → Outcome β}
    (h : o.Carried plain closer tail o')
    (hf : ∀ a rest, (∀ t ∈ rest, t.Given plain closer) →
      (f a rest).Carried plain closer tail (g a (rest ++ tail))) :
    (o.bind f).Carried plain closer tail (o'.bind g) := by
  obtain ⟨result, rest⟩ := o
  cases result with
  | ok a =>
    obtain ⟨rfl, hrest⟩ := h a rest rfl
    exact hf a rest hrest
  | error e => exact carried_error

end Outcome

namespace Grammar

/-- How tokens behind an expression end it: there are none, or the first one is a delimiter, or it is
the closing bracket that the caller names, which is left. -/
inductive Ends : Option Char → List Token → Terminator → List Token → Prop
  | finish {closer : Option Char} : Ends closer [] .finish []
  | comma {closer : Option Char} (rest : List Token) : Ends closer (.op ',' :: rest) .comma rest
  | close {closer : Option Char} (rest : List Token) : Ends closer (.op ')' :: rest) .close rest
  | bracket (rest : List Token) : Ends (some ']') (.op ']' :: rest) .finish (.op ']' :: rest)

namespace Ends

variable {closer : Option Char} {tail behind : List Token} {terminator : Terminator}
  (h : Ends closer tail terminator behind) (tokens : List Token)
include h

/-- Neither the end nor a delimiter is a sign, a digit or a mark. -/
theorem cases_ahead : ahead tail = none ∨
    ∃ c, ahead tail = some c ∧ (c = ',' ∨ c = ')' ∨ c = ']') := by
  cases h with
  | finish => exact .inl rfl
  | comma rest => exact .inr ⟨',', rfl, .inl rfl⟩
  | close rest => exact .inr ⟨')', rfl, .inr (.inl rfl)⟩
  | bracket rest => exact .inr ⟨']', rfl, .inr (.inr rfl)⟩

theorem digitAhead_append : digitAhead (tokens ++ tail) = digitAhead tokens := by
  cases tokens with
  | nil =>
    cases h with
    | finish => rfl
    | comma rest => rfl
    | close rest => rfl
    | bracket rest => rfl
  | cons t tokens => rfl

theorem signAhead_append : signAhead (tokens ++ tail) = signAhead tokens := by
  cases tokens with
  | nil =>
    cases h with
    | finish => rfl
    | comma rest => rfl
    | close rest => rfl
    | bracket rest => rfl
  | cons t tokens => rfl

theorem signed_append :
    (signAhead (tokens ++ tail) = true ∧ digitAhead (tokens ++ tail).tail = true) ↔
      (signAhead tokens = true ∧ digitAhead tokens.tail = true) := by
  rw [h.signAhead_append]
  refine and_congr_right fun hsign => ?_
  cases tokens with
  | nil => contradiction
  | cons t tokens => rw [List.cons_append, List.tail_cons, List.tail_cons, h.digitAhead_append]

/-- The end and a delimiter end an expression. -/
theorem pass_eq {α : Type} (R : PolyRing α) (limits : Limits) (depth : Nat) (acc : Accumulator α) :
    pass R limits depth closer acc tail = .last (.ok (acc.total R, terminator) behind) := by
  cases h with
  | finish => rfl
  | comma rest => rfl
  | close rest => rfl
  | bracket rest => rfl

end Ends

/-! ### Exponents -/

section

variable {closer : Option Char} {tokens left left' tail behind : List Token} {terminator : Terminator}

theorem extends_exponentWord (hne : tokens ≠ []) (tail : List Token) :
    (exponentWord tokens).Extends tail (exponentWord (tokens ++ tail)) := by
  cases tokens with
  | nil => exact absurd rfl hne
  | cons t tokens =>
    cases t with
    | word w =>
      simp only [exponentWord, List.cons_append, List.headD_cons, List.tail_cons]
      split
      · exact ⟨_, _, rfl⟩
      · split
        · exact rfl
        · split
          · exact rfl
          · exact ⟨_, _, rfl⟩
    | quoted q => exact ⟨_, _, rfl⟩
    | op c => exact ⟨_, _, rfl⟩
    | eof => exact ⟨_, _, rfl⟩

theorem extends_exponentAfter (hends : Ends closer tail terminator behind) (after : List Token) :
    (exponentAfter tokens left after).Extends tail
      (exponentAfter (tokens ++ tail) left' (after ++ tail)) := by
  have hone : (Outcome.ok (1 : UInt64) tokens).Extends tail (.ok 1 (tokens ++ tail)) := rfl
  cases after with
  | nil =>
    have hend : exponentAfter (tokens ++ tail) left' tail = .ok 1 (tokens ++ tail) := by
      unfold exponentAfter
      obtain hahead | ⟨c, hahead, rfl | rfl | rfl⟩ := hends.cases_ahead <;> rw [hahead] <;> rfl
    rw [List.nil_append, hend]
    exact hone
  | cons t after =>
    have hahead : ahead (t :: after ++ tail) = ahead (t :: after) := rfl
    unfold exponentAfter
    rw [hahead]
    split
    · exact hone
    · split
      · exact extends_exponentWord (List.cons_ne_nil _ _) tail
      · split
        · exact ⟨_, _, rfl⟩
        · split
          · rw [List.cons_append, List.tail_cons, List.tail_cons, hends.digitAhead_append]
            split
            · exact ⟨_, _, rfl⟩
            · exact hone
          · split
            · exact ⟨_, _, rfl⟩
            · exact hone

theorem extends_exponent (hends : Ends closer tail terminator behind) (tokens : List Token) :
    (exponent tokens).Extends tail (exponent (tokens ++ tail)) := by
  have hone : (Outcome.ok (1 : UInt64) tokens).Extends tail (.ok 1 (tokens ++ tail)) := rfl
  cases tokens with
  | nil =>
    have hend : exponent tail = .ok 1 tail := by
      cases hends with
      | finish => rfl
      | comma rest => rfl
      | close rest => rfl
      | bracket rest => rfl
    rw [List.nil_append, hend]
    exact hone
  | cons t tokens =>
    have hcons : ∀ rest, exponent (t :: rest) = if t = .op '^' then exponentAfter (t :: rest) rest rest
        else if t = .op '*' ∧ ahead rest = some '*' then exponentAfter (t :: rest) rest rest.tail
        else .ok 1 (t :: rest) := fun _ => rfl
    rw [List.cons_append, hcons, hcons]
    by_cases hcaret : t = .op '^'
    · rw [if_pos hcaret, if_pos hcaret]
      exact extends_exponentAfter hends tokens
    rw [if_neg hcaret, if_neg hcaret]
    cases tokens with
    | nil =>
      have hahead : ahead tail ≠ some '*' := by
        obtain hahead | ⟨c, hahead, rfl | rfl | rfl⟩ := hends.cases_ahead <;> rw [hahead] <;> decide
      rw [if_neg (fun hstar => absurd hstar.2 (by decide)), if_neg fun hstar => hahead hstar.2]
      exact hone
    | cons u tokens =>
      have hahead : ahead (u :: tokens ++ tail) = ahead (u :: tokens) := rfl
      rw [hahead]
      by_cases hstar : t = .op '*' ∧ ahead (u :: tokens) = some '*'
      · rw [if_pos hstar, if_pos hstar]
        exact extends_exponentAfter hends tokens
      · rw [if_neg hstar, if_neg hstar]
        exact hone

/-- Tokens behind the end of others, in front of which the end of a word may be put back. -/
def Remains (tokens rest : List Token) : Prop :=
  ∃ after, after <:+ tokens ∧
    (rest = after ∨ ∃ v w, .word v ∈ tokens ∧ w <:+ v ∧ rest = .word w :: after)

/-- A word is read, and at most its end is put back. -/
theorem remains_exponentWord {k : UInt64} {rest : List Token} (h : exponentWord tokens = .ok k rest) :
    Remains tokens rest := by
  refine ⟨tokens.tail, List.tail_suffix tokens, ?_⟩
  unfold exponentWord at h
  split at h
  · rename_i v hhead
    dsimp only at h
    split at h
    · exact absurd h Outcome.error_ne_ok
    · split at h
      · exact .inl (Outcome.ok_inj h).2.symm
      · rename_i c w hrest
        split at h
        · cases tokens with
          | nil => contradiction
          | cons t tokens =>
            obtain rfl : t = .word v := hhead
            exact .inr ⟨v, c :: w, List.mem_cons_self, hrest ▸ List.dropWhile_suffix _,
              (Outcome.ok_inj h).2.symm⟩
        · exact absurd h Outcome.error_ne_ok
  · exact absurd h Outcome.error_ne_ok

/-- An exponent is a word behind a mark, or nothing is read. -/
theorem rest_exponentAfter {after : List Token} {k : UInt64} {rest : List Token}
    (h : exponentAfter tokens left after = .ok k rest) :
    rest = tokens ∨ exponentWord after = .ok k rest := by
  unfold exponentAfter at h
  split at h
  · exact .inl (Outcome.ok_inj h).2.symm
  · split at h
    · exact .inr h
    · split at h
      · exact absurd h Outcome.error_ne_ok
      · split at h
        · split at h
          · exact absurd h Outcome.error_ne_ok
          · exact .inl (Outcome.ok_inj h).2.symm
        · split at h
          · exact absurd h Outcome.error_ne_ok
          · exact .inl (Outcome.ok_inj h).2.symm

theorem Remains.of_suffix {after rest : List Token} (h : Remains after rest)
    (hafter : after <:+ tokens) : Remains tokens rest := by
  obtain ⟨own, hown, hrest⟩ := h
  refine ⟨own, hown.trans hafter, hrest.imp_right ?_⟩
  rintro ⟨v, w, hmem, hw⟩
  exact ⟨v, w, hafter.subset hmem, hw⟩

/-- What is left behind an exponent. -/
theorem remains_exponent {k : UInt64} {rest : List Token} (h : exponent tokens = .ok k rest) :
    Remains tokens rest := by
  have hword : ∀ {left after : List Token}, after <:+ tokens →
      exponentAfter tokens left after = .ok k rest → Remains tokens rest := by
    intro left after hafter hread
    rcases rest_exponentAfter hread with hrest | hread
    · exact ⟨tokens, List.suffix_rfl, .inl hrest⟩
    · exact (remains_exponentWord hread).of_suffix hafter
  unfold exponent at h
  split at h
  · exact hword (List.tail_suffix tokens) h
  · split at h
    · exact hword ((List.tail_suffix _).trans (List.tail_suffix tokens)) h
    · exact ⟨tokens, List.suffix_rfl, .inl (Outcome.ok_inj h).2.symm⟩

/-- An exponent keeps its value, and the tokens behind it are those of the source still. -/
theorem carried_exponent {plain : Bool} (hends : Ends closer tail terminator behind)
    (h : ∀ t ∈ tokens, t.Given plain closer) :
    (exponent tokens).Carried plain closer tail (exponent (tokens ++ tail)) := by
  intro k rest hread
  have hextends := extends_exponent hends tokens
  rw [hread] at hextends
  refine ⟨hextends, ?_⟩
  obtain ⟨after, hafter, rfl | ⟨v, w, hmem, hw, rfl⟩⟩ := remains_exponent hread
  · exact fun t ht => h t (hafter.subset ht)
  · have hflat : Text.Flat w := Text.Flat.of_subset (h _ hmem).2.1 fun _ hc => hw.subset hc
    exact List.forall_mem_cons.2 ⟨.word hflat, fun t ht => h t (hafter.subset ht)⟩

end

/-! ### Factors and passes -/

section

variable {plain : Bool} {closer closer' : Option Char} {tokens tail behind : List Token}
  {terminator : Terminator} {limits limits' : Limits} {depth depth' : Nat}

/-- The text of a literal in braces that was closed. -/
theorem carried_braces {b : Reader.Braces} (h : ∀ t ∈ tokens, t.Given plain closer)
    (hroom : limits.room depth ≤ limits'.room depth') :
    (braces limits depth b tokens).Carried plain closer tail
      (braces limits' depth' b (tokens ++ tail)) := by
  induction tokens generalizing b with
  | nil => exact Outcome.carried_error
  | cons t tokens ih =>
    have htokens := (List.forall_mem_cons.1 h).2
    have hstep : ∀ found, bracesStep limits depth b t = .ok found →
        bracesStep limits' depth' b t = .ok found := by
      intro found hfound
      cases t with
      | op c =>
        simp only [bracesStep] at hfound ⊢
        by_cases hclose : c = '\x7d'
        · simpa only [if_pos hclose] using hfound
        by_cases hopen : c = '\x7b'
        · simp only [if_neg hclose, if_pos hopen] at hfound ⊢
          split at hfound
          · contradiction
          · rename_i hdeep
            unfold Limits.room at hroom
            rw [if_neg (by omega)]
            exact hfound
        · simpa only [if_neg hclose, if_neg hopen] using hfound
      | word w => exact hfound
      | quoted q => exact hfound
      | eof => exact hfound
    rw [List.cons_append, braces, braces]
    cases hfound : bracesStep limits depth b t with
    | error e => exact Outcome.carried_error
    | ok found =>
      rw [hstep found hfound]
      cases found with
      | inl b' => exact ih htokens
      | inr text => exact Outcome.carried_ok htokens

variable {α : Type} {R : PolyRing α} (hR : R.coefficients.Portable)
include hR

theorem carried_literal {t : Text} (h : ∀ u ∈ tokens, u.Given plain closer)
    (hroom : limits.room depth ≤ limits'.room depth' ∨ Text.Flat t) :
    (literal R limits depth t tokens).Carried plain closer tail
      (literal R limits' depth' t (tokens ++ tail)) := by
  unfold literal
  cases hread : R.coefficients.readWithin limits depth t with
  | ok c =>
    rw [hR hroom hread]
    exact Outcome.carried_ok h
  | error fault => exact Outcome.carried_error

theorem carried_enclosed (h : ∀ t ∈ tokens, t.Given plain closer)
    (hroom : limits.room depth ≤ limits'.room depth') :
    (enclosed R limits depth tokens).Carried plain closer tail
      (enclosed R limits' depth' (tokens ++ tail)) := by
  have hdeeper : limits.room (depth + 1) ≤ limits'.room (depth' + 1) := by
    unfold Limits.room at *
    omega
  have htext : (nested limits depth tokens (braces limits (depth + 1) ⟨[], 0, false⟩ tokens)).Carried
      plain closer tail (nested limits' depth' (tokens ++ tail)
        (braces limits' (depth' + 1) ⟨[], 0, false⟩ (tokens ++ tail))) := by
    unfold nested
    split
    · exact Outcome.carried_error
    · rename_i hdeep
      rw [if_neg (by unfold Limits.room at hroom; omega)]
      exact carried_braces h hdeeper
  exact htext.bind fun t rest hrest => carried_literal hR hrest (.inl hdeeper)

omit hR in
/-- A numeral takes the same text from the tokens in front of an end. -/
theorem Ends.joinImaginary_append (hends : Ends closer tail terminator behind) (t : Text) :
    joinImaginary R t (tokens ++ tail) =
      ((joinImaginary R t tokens).1, (joinImaginary R t tokens).2 ++ tail) := by
  unfold joinImaginary
  simp only [hends.signed_append]
  split
  · rename_i hjoin
    obtain ⟨sign, u, rest, -, rfl, -⟩ := exists_of_signAhead hjoin.2.2.1 hjoin.2.2.2
    rfl
  · rfl

omit hR in
/-- What it takes keeps it flat. -/
theorem flat_joinImaginary {t : Text} (ht : Text.Flat t) (h : ∀ u ∈ tokens, u.Given plain closer) :
    Text.Flat (joinImaginary R t tokens).1 ∧
      ∀ u ∈ (joinImaginary R t tokens).2, u.Given plain closer := by
  unfold joinImaginary
  split
  · rename_i hjoin
    obtain ⟨sign, u, rest, hsign, rfl, hdigit⟩ := exists_of_signAhead hjoin.2.2.1 hjoin.2.2.2
    obtain ⟨-, hu, hrest⟩ : (Token.op sign).Given plain closer ∧ u.Given plain closer ∧
        ∀ v ∈ rest, v.Given plain closer := by
      simpa only [List.forall_mem_cons] using h
    have hlexeme : Text.Flat u.lexeme := by
      cases u with
      | word w => exact hu.2.1
      | quoted q => exact absurd hdigit (by simp [Token.lexeme])
      | op c =>
        have hword := isWordChar_of_isDigit (c := c) (by simpa [Token.lexeme] using hdigit)
        exact .cons (isFlatChar_of_isWordChar hword) fun _ hd => absurd hd List.not_mem_nil
      | eof => contradiction
    refine ⟨?_, hrest⟩
    change Text.Flat (t ++ [.op sign, u].flatMap Token.lexeme)
    rw [List.flatMap_cons, List.flatMap_singleton]
    refine ht.append (.cons ?_ hlexeme)
    rcases hsign with rfl | rfl
    · decide
    · decide
  · exact ⟨ht, h⟩

theorem carried_numeral (hends : Ends closer tail terminator behind) {w : Text} (hw : Text.Flat w)
    (h : ∀ t ∈ tokens, t.Given plain closer) :
    (numeral R limits depth w tokens).Carried plain closer tail
      (numeral R limits' depth' w (tokens ++ tail)) := by
  have hjoin : joinImaginary R (Reader.completeNumeral w) (tokens ++ tail) = _ :=
    hends.joinImaginary_append _
  obtain ⟨htext, hrest⟩ := flat_joinImaginary (R := R) (Reader.flat_completeNumeral hw) h
  unfold numeral
  split
  · exact Outcome.carried_error
  · rw [hjoin]
    dsimp only
    cases hread : R.coefficients.readWithin limits depth
        (joinImaginary R (Reader.completeNumeral w) tokens).1 with
    | ok c =>
      rw [hR (.inr htext) hread]
      exact Outcome.carried_ok hrest
    | error fault =>
      -- A flat text that is refused here is refused everywhere, so that it is cut again.
      cases hread' : R.coefficients.readWithin limits' depth'
          (joinImaginary R (Reader.completeNumeral w) tokens).1 with
      | ok c =>
        rw [hR (.inr htext) hread'] at hread
        contradiction
      | error fault' =>
        dsimp only
        split
        · exact Outcome.carried_error
        · rename_i number symbol hsplit
          obtain ⟨hnumber, hsymbol⟩ := flat_of_splitJuxtaposed? htext hsplit
          refine (carried_literal hR hrest (.inr hnumber)).bind fun c rest hrest => ?_
          exact Outcome.carried_ok (List.forall_mem_cons.2 ⟨.word hsymbol, hrest⟩)

theorem carried_symbol {w : Text} (hw : Text.Flat w) (h : ∀ t ∈ tokens, t.Given plain closer) :
    (symbol R limits depth w tokens).Carried plain closer tail
      (symbol R limits' depth' w (tokens ++ tail)) := by
  unfold symbol
  split
  · exact Outcome.carried_ok h
  · cases hread : R.coefficients.readWithin limits depth w with
    | ok c =>
      rw [hR (.inr hw) hread]
      exact Outcome.carried_ok h
    | error fault => exact Outcome.carried_error

omit hR in
theorem carried_multiplied (hends : Ends closer tail terminator behind) (acc : Accumulator α)
    (factor : Factor α) (h : ∀ t ∈ tokens, t.Given plain closer) :
    (multiplied R acc factor tokens).Carried plain closer tail
      (multiplied R acc factor (tokens ++ tail)) := by
  refine (carried_exponent hends h).bind fun k rest hrest => ?_
  simp only [Accumulator.settle, hends.signAhead_append]
  exact Outcome.carried_ok hrest

/-- How an expression with a result and tokens left behind it ends in front of further tokens. -/
def moved (tail : List Token) (terminator : Terminator) (behind : List Token)
    (result : Poly α × Terminator) (rest : List Token) : Outcome (Poly α × Terminator) :=
  if result.2 = .finish then .ok (result.1, terminator) behind else .ok result (rest ++ tail)

/-- What a pass with a value does in front of further tokens, where another closing character may be
asked for: an expression that ended with its tokens has to be one that these can end. -/
def Pass.Carried (plain : Bool) (closer closer' : Option Char) (tail : List Token)
    (terminator : Terminator) (behind : List Token) : Pass α → Pass α → Prop
  | .more acc rest, p => p = .more acc (rest ++ tail) ∧ ∀ t ∈ rest, t.Given plain closer
  | .opens rest, p => p = .opens (rest ++ tail) ∧ (∀ t ∈ rest, t.Given plain closer) ∧ plain = false
  | .last outcome, p => ∀ result rest, outcome = .ok result rest →
      (result.2 = .finish → closer' = closer) → p = .last (moved tail terminator behind result rest) ∧
        (result.2 ≠ .finish → ∀ t ∈ rest, t.Given plain closer)

omit hR in
theorem Pass.carried_behind {o o' : Outcome (Accumulator α)} (h : o.Carried plain closer tail o') :
    (Pass.behind o).Carried plain closer closer' tail terminator behind (.behind o') := by
  obtain ⟨result, rest⟩ := o
  cases result with
  | ok acc =>
    obtain ⟨rfl, hrest⟩ := h acc rest rfl
    exact ⟨rfl, hrest⟩
  | error e =>
    intro result rest' heq
    exact absurd heq Outcome.error_ne_ok

/-- A pass in front of further tokens, where there is as much room or where nothing is opened. -/
theorem carried_pass (hends : Ends closer tail terminator behind) (acc : Accumulator α)
    (h : ∀ t ∈ tokens, t.Given plain closer) (hcloser : closer' = none ∨ closer' = closer)
    (hroom : plain = false → limits.room depth ≤ limits'.room depth') :
    (pass R limits depth none acc tokens).Carried plain closer closer' tail terminator behind
      (pass R limits' depth' closer' acc (tokens ++ tail)) := by
  cases tokens with
  | nil =>
    intro result rest heq hsame
    obtain ⟨rfl, rfl⟩ := Outcome.ok_inj heq
    rw [moved, if_pos rfl, hsame rfl]
    exact ⟨hends.pass_eq R limits' depth' acc, fun hne => absurd rfl hne⟩
  | cons t tokens =>
    obtain ⟨ht, htokens⟩ := List.forall_mem_cons.1 h
    have hfactor : ∀ {o o' : Outcome (Factor α)}, o.Carried plain closer tail o' →
        (Pass.behind (o.bind (multiplied R acc))).Carried plain closer closer' tail terminator behind
          (.behind (o'.bind (multiplied R acc))) := fun ho =>
      Pass.carried_behind (ho.bind fun factor _ hrest => carried_multiplied hends acc factor hrest)
    have hcoefficient : ∀ {o o' : Outcome α}, o.Carried plain closer tail o' →
        (Pass.behind (o.bind fun c => multiplied R acc (.coefficient c))).Carried plain closer closer'
          tail terminator behind (.behind (o'.bind fun c => multiplied R acc (.coefficient c))) := fun ho =>
      Pass.carried_behind (ho.bind fun c _ hrest => carried_multiplied hends acc (.coefficient c) hrest)
    have hrole := Role.flat_ofToken none ht.2.1
    have hsame : Role.ofToken closer' t = Role.ofToken none t := by
      obtain rfl | rfl := hcloser
      · rfl
      · exact Role.ofToken_of_ne ht.2.2
    unfold pass
    simp only [List.cons_append, List.headD_cons, List.tail_cons, hsame]
    cases hcase : Role.ofToken none t with
    | negate => exact ⟨rfl, htokens⟩
    | skip => exact ⟨rfl, htokens⟩
    | stop terminator' =>
      intro result rest heq _
      obtain ⟨rfl, rfl⟩ := Outcome.ok_inj heq
      have hne : terminator' ≠ .finish := by
        rintro rfl
        exact (Role.ofToken_none_ne ht.1).2 hcase
      rw [moved, if_neg hne]
      exact ⟨rfl, fun _ => htokens⟩
    | leave => exact absurd hcase (Role.ofToken_none_ne ht.1).1
    | strayBrace =>
      intro result rest heq
      exact absurd heq Outcome.error_ne_ok
    | openBrace =>
      rw [hcase] at hrole
      exact hcoefficient (carried_enclosed hR htokens (hroom hrole))
    | openParen =>
      rw [hcase] at hrole
      have hroom := hroom hrole
      dsimp only
      split
      · intro result rest heq
        exact absurd heq Outcome.error_ne_ok
      · rename_i hdeep
        rw [if_neg (by unfold Limits.room at hroom; omega)]
        exact ⟨rfl, htokens, hrole⟩
    | quoted text =>
      rw [hcase] at hrole
      have hroom := hroom hrole
      refine hcoefficient (carried_literal hR htokens (.inl ?_))
      unfold Limits.room at *
      omega
    | numeral w =>
      rw [hcase] at hrole
      exact hfactor (carried_numeral hR hends hrole htokens)
    | symbol w =>
      rw [hcase] at hrole
      exact hfactor (carried_symbol hR hrole htokens)

omit hR in
/-- Behind an expression in parentheses the expression around it goes on only if they were closed. -/
theorem exists_of_behind_closed {inner : Outcome (Poly α × Terminator)} {acc acc' : Accumulator α}
    {rest : List Token} (h : .behind ((closed inner).bind (multiplied R acc)) = Pass.more acc' rest) :
    ∃ p middle, inner = .ok (p, .close) middle := by
  obtain ⟨result, middle⟩ := inner
  cases result with
  | error e => contradiction
  | ok result =>
    obtain ⟨p, terminator⟩ := result
    by_cases hclose : terminator = .close
    · exact ⟨p, middle, by rw [hclose]; rfl⟩
    · simp only [closed, Outcome.bind, ne_eq, hclose, not_false_eq_true, if_true] at h
      contradiction

/-- An expression with a value has it in front of a delimiter, where there is as much room or where
nothing is opened. One that ended with its tokens ends with the delimiter there. -/
theorem Reads.carried (hends : Ends closer tail terminator behind) {asked : Option Char}
    {acc : Accumulator α} {outcome : Outcome (Poly α × Terminator)}
    (h : Reads R limits depth asked acc tokens outcome) (hasked : asked = none)
    (htokens : ∀ t ∈ tokens, t.Given plain closer) (hcloser : closer' = none ∨ closer' = closer)
    (hroom : plain = false → limits.room depth ≤ limits'.room depth') {result : Poly α × Terminator}
    {rest : List Token} (houtcome : outcome = .ok result rest)
    (hsame : result.2 = .finish → closer' = closer) :
    Reads R limits' depth' closer' acc (tokens ++ tail) (moved tail terminator behind result rest) ∧
      (result.2 ≠ .finish → ∀ t ∈ rest, t.Given plain closer) := by
  induction h generalizing closer' depth' result rest with
  | @last depth asked acc tokens outcome h =>
    subst hasked
    have hpass := carried_pass hR hends acc htokens hcloser hroom
    rw [h] at hpass
    obtain ⟨hlast, hrest⟩ := hpass result rest houtcome hsame
    exact ⟨.last hlast, hrest⟩
  | @more depth asked acc tokens acc' more outcome h hrest ih =>
    subst hasked
    have hpass := carried_pass hR hends acc htokens hcloser hroom
    rw [h] at hpass
    obtain ⟨hmore, hgiven⟩ := hpass
    obtain ⟨hreads, hrest⟩ := ih rfl hgiven hcloser hroom houtcome hsame
    exact ⟨.more hmore hreads, hrest⟩
  | group h hinner hbehind ih =>
    -- Here the expression fails behind the parentheses.
    subst houtcome
    exact absurd hbehind Pass.behind_ne_last
  | @groupMore depth asked acc tokens opened inner acc' more outcome h hinner hbehind hrest ih ihrest =>
    subst hasked
    have hpass := carried_pass hR hends acc htokens hcloser hroom
    rw [h] at hpass
    obtain ⟨hopens, hgiven, hplain⟩ := hpass
    have hdeeper : plain = false → limits.room (depth + 1) ≤ limits'.room (depth' + 1) := by
      intro hplain
      have hroom := hroom hplain
      unfold Limits.room at *
      omega
    obtain ⟨p, middle, rfl⟩ := exists_of_behind_closed hbehind
    -- Between the parentheses no closing character is asked for, and the tail is not reached.
    obtain ⟨hreads, hmiddle⟩ := ih rfl hgiven (.inl rfl) hdeeper rfl (by simp)
    have hmiddle := hmiddle (by simp)
    have hbehind' : Pass.Carried plain closer closer' tail terminator behind
        (.behind (multiplied R acc (.polynomial p) middle))
        (.behind (multiplied R acc (.polynomial p) (middle ++ tail))) :=
      Pass.carried_behind (carried_multiplied hends acc (.polynomial p) hmiddle)
    have hmore : Pass.behind (multiplied R acc (.polynomial p) middle) = .more acc' more := hbehind
    rw [hmore] at hbehind'
    obtain ⟨hmore, hgiven'⟩ := hbehind'
    obtain ⟨hreads', hrest⟩ := ihrest rfl hgiven' hcloser hroom houtcome hsame
    exact ⟨.groupMore hopens hreads hmore hreads', hrest⟩

end

end Grammar

/-! ### Rings of coefficients -/

/-- Polynomials are portable literals, if their coefficients are. -/
theorem PolyRing.portable_arithmetic {α : Type} {R : PolyRing α} (hR : R.coefficients.Portable) :
    R.arithmetic.Portable := by
  intro limits limits' depth depth' t p hplace hread
  have hread : Reader.polynomialOf R limits depth t = .ok p := eq_ok_of_mapError hread
  obtain ⟨outcome, hreads⟩ := Grammar.exists_reads R limits depth none (.start R)
    (Token.solid_of_mem_ofText (t := t))
  have hrun := Reader.polynomialOf_of_reads hreads
  obtain ⟨result, rest⟩ := outcome
  cases result with
  | error e =>
    obtain ⟨e', he'⟩ := hrun
    rw [he'] at hread
    contradiction
  | ok result =>
    obtain rfl : result.1 = p := by
      rw [hread] at hrun
      exact (Except.ok.inj hrun).symm
    have hroom : decide (Text.Flat t) = false → limits.room depth ≤ limits'.room depth' := fun hflat =>
      hplace.resolve_right (of_decide_eq_false hflat)
    have hmoved := (hreads.carried hR .finish rfl (Token.given_of_mem_ofText of_decide_eq_true)
      (.inl rfl) hroom rfl fun _ => rfl).1
    rw [List.append_nil, Grammar.moved] at hmoved
    have hvalue : Reader.polynomialOf R limits' depth' t = .ok result.1 := by
      split at hmoved
      · exact Reader.polynomialOf_of_reads hmoved
      · exact Reader.polynomialOf_of_reads hmoved
    exact congrArg (Except.mapError LiteralFault.expression) hvalue

/-- So are residues of polynomials. -/
theorem Extension.portable_arithmetic {α : Type} {A : Arithmetic α} (hA : A.Portable)
    (E : Extension α) : (E.arithmetic A).Portable := by
  intro limits limits' depth depth' t p hplace hread
  change ((E.ring A).arithmetic.readWithin limits depth t).map (E.reduce A) = .ok p at hread
  change ((E.ring A).arithmetic.readWithin limits' depth' t).map (E.reduce A) = .ok p
  cases hq : (E.ring A).arithmetic.readWithin limits depth t with
  | ok q =>
    rw [PolyRing.portable_arithmetic (R := E.ring A) hA hplace hq, ← hq]
    exact hread
  | error fault =>
    rw [hq] at hread
    contradiction

theorem Arithmetic.Extendable.portable {α S : Type} [CommRing S] {A : Arithmetic α} {K : α → Prop}
    {f : α → S} {inverse : α → Except RingFault α} (h : A.Extendable K f inverse) : A.Portable := by
  cases h with
  | rational => exact fun _ hread => hread
  | word m => exact fun _ hread => hread
  | big m => exact fun _ hread => hread

/-- The literals of every ring of coefficients are portable. -/
theorem Arithmetic.Built.portable {α : Type} {A : Arithmetic α} {C : α → Prop}
    {same : α → α → Prop} (h : A.Built C same) : A.Portable := by
  induction h with
  | rational => exact fun _ hread => hread
  | integer => exact fun _ hread => hread
  | word m => exact fun _ hread => hread
  | big m => exact fun _ hread => hread
  | complex => exact fun _ hread => hread
  | quaternion => exact fun _ hread => hread
  | octonion => exact fun _ hread => hread
  | decimal => exact fun _ hread => hread
  | polynomials R _ ih => exact PolyRing.portable_arithmetic ih
  | extension base => exact Extension.portable_arithmetic base.portable _

end PolynomialText
