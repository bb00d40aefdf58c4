/-!
# Texts

Everything that is read or written is a list of characters. This module fixes the few
operations that readers share: cutting a text at a character, the value of a run of decimal
digits, and the decimal numeral of a number. `value_decimal` ties the last two together.
-/

namespace PolynomialText

/-- A text is the list of its characters. -/
abbrev Text := List Char

namespace Text

/-- The parts before and after the first occurrence of a character, if it occurs. -/
def splitOnce? (c : Char) : Text → Option (Text × Text)
  | [] => none
  | d :: rest =>
    if d = c then some ([], rest)
    else (splitOnce? c rest).map fun parts => (d :: parts.1, parts.2)

/-- A text without the given first character, if it starts with it. -/
def strip? (c : Char) : Text → Option Text
  | [] => none
  | d :: rest => if d = c then some rest else none

/-- A text with one leading occurrence of the character removed. -/
def dropOne (c : Char) (t : Text) : Text := (strip? c t).getD t

/-- The decimal numeral of a natural number. -/
def decimal (n : Nat) : Text := Nat.toDigits 10 n

/-- The decimal numeral of an integer, with a minus sign in front of a negative one. -/
def decimalInt : Int → Text
  | .ofNat n => decimal n
  | .negSucc n => '-' :: decimal (n + 1)

/-- Every character is an ASCII digit. -/
def allDigits (t : Text) : Bool := t.all Char.isDigit

/-- The number written by a run of decimal digits. -/
def value (t : Text) : Nat := Nat.ofDigitChars 10 t 0

/-- The texts written one after another with a separator between neighbours. -/
def join (separator : Text) (parts : List Text) : Text := separator.intercalate parts

/-- An unsigned 64-bit number: at least one digit, nothing but digits, and no overflow. -/
def word? (t : Text) : Option UInt64 :=
  if t ≠ [] ∧ t.allDigits ∧ t.value < UInt64.size then some (.ofNat t.value) else none

/-- ASCII letters in lower case, all other characters unchanged. -/
def toLower (t : Text) : Text := t.map Char.toLower

/-- ASCII letters in upper case, all other characters unchanged. -/
def toUpper (t : Text) : Text := t.map Char.toUpper

/-- A code point lies in one of the closed ranges. -/
def inRanges (ranges : List (Nat × Nat)) (c : Char) : Bool :=
  ranges.any fun range => range.1 ≤ c.toNat && c.toNat ≤ range.2

/-- A cut loses only the character it was made at. -/
theorem eq_of_splitOnce?_eq_some {c : Char} {t before after : Text}
    (h : splitOnce? c t = some (before, after)) : t = before ++ c :: after := by
  induction t generalizing before with
  | nil => simp [splitOnce?] at h
  | cons d rest ih =>
    rw [splitOnce?] at h
    split at h
    · simp_all
    · obtain ⟨parts, hparts, heq⟩ := Option.map_eq_some_iff.1 h
      obtain ⟨rfl, rfl⟩ := Prod.mk.inj heq
      rw [ih hparts, List.cons_append]

/-- The cut is made at the first occurrence. -/
theorem not_mem_of_splitOnce?_eq_some {c : Char} {t before after : Text}
    (h : splitOnce? c t = some (before, after)) : c ∉ before := by
  induction t generalizing before with
  | nil => simp [splitOnce?] at h
  | cons d rest ih =>
    rw [splitOnce?] at h
    split at h
    · simp_all
    · rename_i hne
      obtain ⟨parts, hparts, heq⟩ := Option.map_eq_some_iff.1 h
      obtain ⟨rfl, rfl⟩ := Prod.mk.inj heq
      exact List.not_mem_cons_of_ne_of_not_mem (Ne.symm hne) (ih hparts)

/-- There is no cut exactly when the character does not occur. -/
theorem splitOnce?_eq_none_iff {c : Char} {t : Text} : splitOnce? c t = none ↔ c ∉ t := by
  induction t with
  | nil => simp [splitOnce?]
  | cons d rest ih =>
    by_cases hdc : d = c
    · simp [splitOnce?, hdc]
    · simp [splitOnce?, hdc, ih, Ne.symm hdc]

/-- Reading the decimal numeral of a number gives the number. -/
@[simp]
theorem value_decimal (n : Nat) : value (decimal n) = n := Nat.ofDigitChars_ten_toDigits

/-- A decimal numeral has at least one digit. -/
theorem decimal_ne_nil (n : Nat) : decimal n ≠ [] := Nat.toDigits_ne_nil

/-- A decimal numeral holds digits only. -/
theorem allDigits_decimal (n : Nat) : allDigits (decimal n) = true :=
  List.all_eq_true.2 fun _ hc => Nat.isDigit_of_mem_toDigits (by decide) (by decide) hc

/-- Every 64-bit number is read back from its decimal numeral. -/
theorem word?_decimal (w : UInt64) : word? (decimal w.toNat) = some w := by
  have hlt : value (decimal w.toNat) < UInt64.size := by
    rw [value_decimal]
    exact w.toNat_lt
  rw [word?, if_pos ⟨decimal_ne_nil _, allDigits_decimal _, hlt⟩, value_decimal,
    UInt64.ofNat_toNat]

end Text

end PolynomialText
