import PolynomialText.Token

/-!
# The tokens of a text

`Token.ofText` cuts a whole text into tokens. The significant characters of the text are those of
its tokens, as far as none of them is quoted. A token that ends within its line does not depend on
the lines behind it.
-/

namespace PolynomialText

/-! ### Characters of words -/

/-- No character of a word is white space. -/
theorem isWhite_of_isWordChar {c : Char} (h : isWordChar c = true) : Text.isWhite c = false := by
  simp only [isWordChar, Bool.or_eq_true, Bool.and_eq_true, decide_eq_true_eq,
    Bool.not_eq_true'] at h
  rcases h with ((((halnum | rfl) | rfl) | rfl) | rfl) | ⟨_, hwhite⟩
  · unfold Char.isAlphanum Char.isAlpha Char.isUpper Char.isLower Char.isDigit at halnum
    simp only [Bool.or_eq_true, Bool.and_eq_true, decide_eq_true_eq, UInt32.le_iff_toNat_le,
      ge_iff_le] at halnum
    change ((65 ≤ c.toNat ∧ c.toNat ≤ 90) ∨ (97 ≤ c.toNat ∧ c.toNat ≤ 122)) ∨
      (48 ≤ c.toNat ∧ c.toNat ≤ 57) at halnum
    simp only [Text.isWhite, Text.inRanges, Text.whiteRanges, List.any_cons, List.any_nil,
      Bool.or_false, Bool.or_eq_false_iff, Bool.and_eq_false_iff, decide_eq_false_iff_not]
    omega
  · decide
  · decide
  · decide
  · decide
  · exact hwhite

/-- The code point of a character of a word is above that of the space. -/
theorem space_lt_of_isWordChar {c : Char} (h : isWordChar c = true) : 32 < c.toNat := by
  unfold isWordChar Char.isAlphanum Char.isAlpha Char.isUpper Char.isLower Char.isDigit at h
  simp only [Bool.or_eq_true, Bool.and_eq_true, decide_eq_true_eq, UInt32.le_iff_toNat_le, ge_iff_le,
    ← Char.toNat_inj] at h
  change (((((((65 ≤ c.toNat ∧ c.toNat ≤ 90) ∨ (97 ≤ c.toNat ∧ c.toNat ≤ 122)) ∨
    (48 ≤ c.toNat ∧ c.toNat ≤ 57)) ∨ c.toNat = 95) ∨ c.toNat = 47) ∨ c.toNat = 46) ∨
    c.toNat = 126) ∨ 160 ≤ c.toNat ∧ _ at h
  omega

/-- No character of a word separates tokens. -/
theorem isBlank_of_isWordChar {c : Char} (h : isWordChar c = true) : Text.isBlank c = false := by
  have hlt := space_lt_of_isWordChar h
  have hspace : ¬ c ≤ ' ' := by
    intro hle
    have : c.toNat ≤ 32 := UInt32.le_iff_toNat_le.1 hle
    omega
  simp [Text.isBlank, hspace, isWhite_of_isWordChar h]

/-- No character of a word starts a comment. -/
theorem ne_hash_of_isWordChar {c : Char} (h : isWordChar c = true) : c ≠ '#' := by
  rintro rfl
  exact absurd h (by decide)

/-- No character of a word ends a line. -/
theorem ne_newline_of_isWordChar {c : Char} (h : isWordChar c = true) : c ≠ '\n' := by
  rintro rfl
  exact absurd h (by decide)

/-! ### The tokens of a text -/

namespace Token

/-- What stands behind blanks and comments does not depend on the number of the line. -/
theorem skip_snd (comment : Bool) (line other : Nat) (t : Text) :
    (skip comment line t).2 = (skip comment other t).2 := by
  induction t generalizing comment line other with
  | nil => rfl
  | cons c rest ih =>
    simp only [skip]
    split
    · exact ih _ _ _
    · split
      · exact ih _ _ _
      · split
        · exact ih _ _ _
        · rfl

/-- The text from its first significant character on. -/
def start (t : Text) : Text := (skip false 0 t).2

/-- What a token leaves is shorter than the text it was read from. -/
theorem length_lex_start_lt {t : Text} {c : Char} {rest : Text} (h : start t = c :: rest) :
    (lex c rest).2.length < t.length := by
  have hskip : (start t).length ≤ t.length := length_skip_le false 0 t
  have hlex := length_lex_le c rest
  rw [h, List.length_cons] at hskip
  omega

/-- The tokens of a text. -/
def ofText (t : Text) : List Token :=
  match _h : start t with
  | [] => []
  | c :: rest => (lex c rest).1 :: ofText (lex c rest).2
termination_by t.length
decreasing_by exact length_lex_start_lt _h

/-- A text of blanks and comments has no tokens. -/
theorem ofText_of_start_nil {t : Text} (h : start t = []) : ofText t = [] := by
  rw [ofText]
  split
  · rfl
  · rename_i hcons
    rw [h] at hcons
    contradiction

/-- The first token of a text, and the tokens of the rest. -/
theorem ofText_of_start_cons {t : Text} {c : Char} {rest : Text} (h : start t = c :: rest) :
    ofText t = (lex c rest).1 :: ofText (lex c rest).2 := by
  rw [ofText]
  split
  · rename_i hnil
    rw [h] at hnil
    contradiction
  · rename_i hcons
    rw [h] at hcons
    obtain ⟨rfl, rfl⟩ := List.cons.inj hcons
    rfl

/-- Induction over the tokens of a text. -/
theorem ofText_induction {motive : Text → Prop} (nil : ∀ t, start t = [] → motive t)
    (cons : ∀ t c rest, start t = c :: rest → motive (lex c rest).2 → motive t) (t : Text) :
    motive t :=
  match h : start t with
  | [] => nil t h
  | c :: rest => cons t c rest h (ofText_induction nil cons (lex c rest).2)
termination_by t.length
decreasing_by exact length_lex_start_lt h

/-- A token that stands for something: it is not the end of the source, and a word has a
character. -/
def Solid (t : Token) : Prop := 0 < t.weight

instance : DecidablePred Solid := fun t => inferInstanceAs (Decidable (0 < t.weight))

/-- The end of the source is no solid token. -/
theorem Solid.ne_eof {t : Token} (h : t.Solid) : t ≠ .eof := by
  rintro rfl
  exact absurd h (by decide)

/-- A token that is read from a character is solid. -/
theorem solid_lex (c : Char) (rest : Text) : (lex c rest).1.Solid := by
  unfold lex
  split
  · exact Nat.succ_pos _
  · split
    · exact Nat.succ_pos _
    · exact Nat.one_pos

/-- The tokens of a text are solid. -/
theorem solid_of_mem_ofText {t : Text} : ∀ token ∈ ofText t, token.Solid := by
  induction t using ofText_induction with
  | nil t h =>
    rw [ofText_of_start_nil h]
    exact fun _ hmem => absurd hmem List.not_mem_nil
  | cons t c rest h ih =>
    rw [ofText_of_start_cons h]
    intro token hmem
    rcases List.mem_cons.1 hmem with rfl | hrest
    · exact solid_lex c rest
    · exact ih token hrest

/-- A text has no more tokens than characters. -/
theorem length_ofText_le (t : Text) : (ofText t).length ≤ t.length := by
  induction t using ofText_induction with
  | nil t h => simp [ofText_of_start_nil h]
  | cons t c rest h ih =>
    have hlt := length_lex_start_lt h
    rw [ofText_of_start_cons h, List.length_cons]
    omega

/-- A run of characters with a property ends in front of a character without it. -/
theorem span_run {p : Char → Bool} {w rest : Text} (hw : ∀ c ∈ w, p c = true)
    (hrest : ∀ c ∈ rest.head?, p c = false) :
    (w ++ rest).takeWhile p = w ∧ (w ++ rest).dropWhile p = rest := by
  rw [List.takeWhile_append_of_pos hw, List.dropWhile_append_of_pos hw]
  cases rest with
  | nil => simp
  | cons c rest =>
    have hc : p c = false := hrest c rfl
    simp [hc]

/-- Significant characters are counted through a word. -/
theorem significant?_word_append {w : Text} (hw : ∀ c ∈ w, isWordChar c = true) (n : Nat) (t : Text) :
    significant? false n (w ++ t) =
      if h : n < w.length then some w[n] else significant? false (n - w.length) t := by
  induction w generalizing n with
  | nil => simp
  | cons c w ih =>
    have hc := hw c List.mem_cons_self
    have hstep : significant? false n (c :: w ++ t) =
        if n = 0 then some c else significant? false (n - 1) (w ++ t) := by
      simp [significant?, ne_newline_of_isWordChar hc, ne_hash_of_isWordChar hc,
        isBlank_of_isWordChar hc]
    rw [hstep]
    cases n with
    | zero => simp
    | succ n =>
      rw [if_neg (Nat.succ_ne_zero n), Nat.add_sub_cancel,
        ih (fun d hd => hw d (List.mem_cons_of_mem _ hd))]
      simp [Nat.add_sub_add_right]

/-- What stands behind blanks and comments starts with a significant character. -/
theorem skip_cons_spec {comment : Bool} {line : Nat} {t : Text} {c : Char} {rest : Text}
    (h : (skip comment line t).2 = c :: rest) : c ≠ '\n' ∧ c ≠ '#' ∧ Text.isBlank c = false := by
  induction t generalizing comment line with
  | nil => simp [skip] at h
  | cons d t ih =>
    rw [skip] at h
    split at h
    · exact ih h
    · rename_i hnewline
      split at h
      · exact ih h
      · rename_i hcomment
        split at h
        · exact ih h
        · rename_i hblank
          obtain ⟨rfl, rfl⟩ := List.cons.inj h
          simp only [Bool.or_eq_true, decide_eq_true_eq, not_or] at hcomment
          exact ⟨hnewline, hcomment.2, Bool.not_eq_true _ ▸ hblank⟩

/-- A token between quotes. -/
def IsQuoted : Token → Prop
  | quoted _ => True
  | _ => False

/-- Significant characters are counted through a token that is not quoted. -/
theorem significant?_lex {c : Char} {rest : Text}
    (hc : c ≠ '\n' ∧ c ≠ '#' ∧ Text.isBlank c = false) (hquoted : ¬ (lex c rest).1.IsQuoted)
    (n : Nat) :
    significant? false n (c :: rest) =
      if h : n < (lex c rest).1.lexeme.length then some (lex c rest).1.lexeme[n]
      else significant? false (n - (lex c rest).1.lexeme.length) (lex c rest).2 := by
  by_cases hquote : c = '"' ∨ c = '\x27'
  · exact absurd (by rw [lex, if_pos hquote]; exact trivial) hquoted
  · by_cases hword : isWordChar c = true
    · have hlex : lex c rest =
          (word (c :: rest.takeWhile isWordChar), rest.dropWhile isWordChar) := by
        rw [lex, if_neg hquote, if_pos hword]
      have hall : ∀ d ∈ c :: rest.takeWhile isWordChar, isWordChar d = true := by
        intro d hd
        rcases List.mem_cons.1 hd with rfl | htake
        · exact hword
        · exact List.all_eq_true.1 List.all_takeWhile d htake
      have hsplit : c :: rest =
          (c :: rest.takeWhile isWordChar) ++ rest.dropWhile isWordChar := by
        rw [List.cons_append, List.takeWhile_append_dropWhile]
      rw [hsplit, significant?_word_append hall]
      simp only [hlex, lexeme]
    · have hlex : lex c rest = (op c, rest) := by
        rw [lex, if_neg hquote, if_neg hword]
      have hstep : significant? false n (c :: rest) =
          if n = 0 then some c else significant? false (n - 1) rest := by
        simp [significant?, hc]
      rw [hstep]
      simp only [hlex, lexeme]
      cases n with
      | zero => simp
      | succ n => simp

/-- The significant characters of a text are those of its tokens, up to the first quoted one. -/
theorem significant?_of_ofText {t : Text} {ahead behind : List Token}
    (hsplit : ofText t = ahead ++ behind) (hquoted : ∀ token ∈ ahead, ¬ token.IsQuoted) {n : Nat}
    (hn : n < (ahead.flatMap lexeme).length) :
    significant? false n t = some (ahead.flatMap lexeme)[n] := by
  induction ahead generalizing t n with
  | nil => exact absurd hn (Nat.not_lt_zero n)
  | cons token ahead ih =>
    cases hstart : start t with
    | nil =>
      rw [ofText_of_start_nil hstart] at hsplit
      exact absurd hsplit (List.cons_ne_nil _ _).symm
    | cons c rest =>
      rw [ofText_of_start_cons hstart, List.cons_append] at hsplit
      obtain ⟨rfl, hrest⟩ := List.cons.inj hsplit
      have hfirst := significant?_lex (skip_cons_spec hstart) (hquoted _ List.mem_cons_self) n
      rw [← hstart, start, significant?_skip] at hfirst
      rw [hfirst]
      simp only [List.flatMap_cons, List.length_append] at hn ⊢
      split
      · rename_i hlt
        rw [List.getElem_append_left hlt]
      · rename_i hge
        rw [ih hrest (fun u hu => hquoted u (List.mem_cons_of_mem _ hu)) (by omega),
          List.getElem_append_right (Nat.le_of_not_lt hge)]

end Token

/-! ### Tokens of a longer text -/

/-- A text that ends with its line, or is empty. -/
def Text.EndsLine (t : Text) : Prop := t = [] ∨ t.getLast? = some '\n'

namespace Token

/-- Blanks and comments are dropped from a longer text in the same way. -/
theorem skip_append_of_cons {comment : Bool} {line : Nat} {t : Text} {c : Char} {rest : Text}
    (h : (skip comment line t).2 = c :: rest) (tail : Text) :
    skip comment line (t ++ tail) = ((skip comment line t).1, c :: rest ++ tail) := by
  induction t generalizing comment line with
  | nil => simp [skip] at h
  | cons d t ih =>
    simp only [List.cons_append, skip] at h ⊢
    split
    · rename_i hnewline
      rw [if_pos hnewline] at h
      exact ih h
    · rename_i hnewline
      rw [if_neg hnewline] at h
      split
      · rename_i hcomment
        rw [if_pos hcomment] at h
        exact ih h
      · rename_i hcomment
        rw [if_neg hcomment] at h
        split
        · rename_i hblank
          rw [if_pos hblank] at h
          exact ih h
        · rename_i hblank
          rw [if_neg hblank] at h
          obtain ⟨rfl, rfl⟩ := List.cons.inj h
          rfl

/-- A line of blanks and comments ends every comment. -/
theorem skip_append_of_nil {line : Nat} {t : Text} (h : (skip false line t).2 = [])
    (ht : t.EndsLine) (tail : Text) :
    skip false line (t ++ tail) = skip false (skip false line t).1 tail := by
  have key : ∀ (t : Text) (comment : Bool) (line : Nat), (skip comment line t).2 = [] →
      t.getLast? = some '\n' →
      skip comment line (t ++ tail) = skip false (skip comment line t).1 tail := by
    intro t
    induction t with
    | nil =>
      intro comment line _ hlast
      simp at hlast
    | cons d t ih =>
      intro comment line hnil hlast
      simp only [List.cons_append, skip] at hnil ⊢
      by_cases hend : t = []
      · subst hend
        have hd : d = '\n' := by simpa using hlast
        simp [hd, skip]
      · have hlast' : t.getLast? = some '\n' := by
          rwa [List.getLast?_cons_of_ne_nil hend] at hlast
        split
        · rename_i hnewline
          rw [if_pos hnewline] at hnil
          exact ih _ _ hnil hlast'
        · rename_i hnewline
          rw [if_neg hnewline] at hnil
          split
          · rename_i hcomment
            rw [if_pos hcomment] at hnil
            exact ih _ _ hnil hlast'
          · rename_i hcomment
            rw [if_neg hcomment] at hnil
            split
            · rename_i hblank
              rw [if_pos hblank] at hnil
              exact ih _ _ hnil hlast'
            · rename_i hblank
              rw [if_neg hblank] at hnil
              exact absurd hnil (List.cons_ne_nil _ _)
  rcases ht with rfl | hlast
  · rfl
  · exact key t false line h hlast

/-- A run of characters that ends within a text is the same in a longer text. -/
theorem span_append {p : Char → Bool} {t : Text} (h : ∃ c ∈ t, p c = false) (tail : Text) :
    (t ++ tail).takeWhile p = t.takeWhile p ∧
      (t ++ tail).dropWhile p = t.dropWhile p ++ tail ∧ t.dropWhile p ≠ [] := by
  induction t with
  | nil => simp at h
  | cons d t ih =>
    by_cases hd : p d = true
    · have hrest : ∃ c ∈ t, p c = false := by
        obtain ⟨c, hmem, hc⟩ := h
        rcases List.mem_cons.1 hmem with rfl | hmem
        · rw [hd] at hc
          contradiction
        · exact ⟨c, hmem, hc⟩
      simpa [hd] using ih hrest
    · simp [hd]

/-- A token that ends in front of the end of its line is the same in a longer text. -/
theorem lex_append {c : Char} {rest : Text} (h : '\n' ∈ rest) (tail : Text) :
    lex c (rest ++ tail) = ((lex c rest).1, (lex c rest).2 ++ tail) := by
  have hone : ∀ t : Text, t ≠ [] → Text.dropOne c (t ++ tail) = Text.dropOne c t ++ tail := by
    intro t hne
    cases t with
    | nil => exact absurd rfl hne
    | cons d t =>
      by_cases hd : d = c <;> simp [Text.dropOne, Text.strip?, hd]
  unfold lex
  split
  · obtain ⟨htake, hdrop, hne⟩ :=
      span_append (p := isQuotedChar c) ⟨'\n', h, by simp [isQuotedChar]⟩ tail
    rw [htake, hdrop, hone _ hne]
  · split
    · obtain ⟨htake, hdrop, _⟩ := span_append (p := isWordChar) ⟨'\n', h, by decide⟩ tail
      rw [htake, hdrop]
    · rfl

end Token

end PolynomialText
