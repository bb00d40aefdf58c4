import PolynomialText.Proofs.SetText

/-!
# Names in written headers

A list of variables takes words and the contents of quoted literals as names, and a header is written
with its names as they are. A name that is a word is read back as itself. Any other name was quoted,
and without its quotes it is no token of its own.

That such a name never comes back follows from the number of quotes. A quoted token stands for the
quotes in its content and for the one that opens it, so that the tokens of a text stand for no more
quotes than there are in it. The quotes of a written list of variables are those of its names, and none
is left to open one of them.
-/

namespace PolynomialText

/-! ### The quotes of a text -/

/-- The number of quotes in a text. -/
def Text.quotes (t : Text) : Nat := t.countP fun c => c = '"' ∨ c = '\x27'

namespace Text

theorem quotes_append (t u : Text) : quotes (t ++ u) = t.quotes + u.quotes := List.countP_append

theorem quotes_cons (c : Char) (t : Text) : quotes (c :: t) = quotes [c] + t.quotes :=
  quotes_append [c] t

theorem quotes_le_of_sublist {t u : Text} (h : t.Sublist u) : t.quotes ≤ u.quotes := h.countP_le

/-- Between quotes there are the quotes of the parts. -/
theorem quotes_join {separator : Text} (h : separator.quotes = 0) (items : List Text) :
    (join separator items).quotes = (items.map quotes).sum := by
  induction items with
  | nil => rfl
  | cons item items ih =>
    cases items with
    | nil => simp [join_singleton]
    | cons next items =>
      rw [join_cons_cons, quotes_append, quotes_append, h, ih]
      simp

theorem quotes_decimal (n : Nat) : (decimal n).quotes = 0 := by
  refine List.countP_eq_zero.2 fun c hc hquote => ?_
  have hdigit := isDigit_of_mem_decimal hc
  rcases of_decide_eq_true hquote with rfl | rfl
  · contradiction
  · contradiction

end Text

/-- A term order is written without quotes. -/
theorem TermOrder.quotes_text (order : TermOrder) : order.text.quotes = 0 := by
  have hrow : ∀ row : List UInt64, (rowText row).quotes = 0 := by
    intro row
    have hweights : ((row.map fun w => Text.decimal w.toNat).map Text.quotes).sum = 0 :=
      List.sum_eq_zero (by simp [Text.quotes_decimal])
    rw [rowText, Text.quotes_append, Text.quotes_cons, Text.quotes_join (by decide), hweights]
    rfl
  unfold text
  rw [Text.quotes_append]
  refine Nat.add_eq_zero_iff.2 ⟨?_, ?_⟩
  · split
    · rename_i rows _
      have hrows : ((rows.map rowText).map Text.quotes).sum = 0 := List.sum_eq_zero (by simp [hrow])
      rw [Text.quotes_append, Text.quotes_append, Text.quotes_join (by decide), hrows]
      rfl
    · cases order.kind <;> rfl
  · split
    · rfl
    · rw [Text.quotes_append, Text.quotes_append, Text.quotes_decimal]
      rfl
    · simp only [Text.quotes_append, Text.quotes_decimal]
      rfl

namespace Token

/-- The number of quotes that a token stands for, without the one that closes it. -/
def quotes : Token → Nat
  | word w => w.quotes
  | quoted t => t.quotes + 1
  | op _ => 0
  | eof => 0

/-- A token stands for quotes that were in front of the rest. -/
theorem quotes_lex_le (c : Char) (rest : Text) :
    (lex c rest).1.quotes + (lex c rest).2.quotes ≤ Text.quotes (c :: rest) := by
  have hsplit : ∀ p : Char → Bool,
      Text.quotes (rest.takeWhile p) + Text.quotes (rest.dropWhile p) = rest.quotes := by
    intro p
    rw [← Text.quotes_append, List.takeWhile_append_dropWhile]
  unfold lex
  split
  · rename_i hc
    have hopen : Text.quotes [c] = 1 := by rcases hc with rfl | rfl <;> rfl
    have hclose := Text.quotes_le_of_sublist
      (dropOne_suffix c (rest.dropWhile (isQuotedChar c))).sublist
    have hrest := hsplit (isQuotedChar c)
    rw [Text.quotes_cons, hopen]
    simp only [quotes]
    omega
  · split
    · rw [Text.quotes_cons]
      simp only [quotes]
      rw [Text.quotes_cons, Nat.add_assoc, hsplit]
    · simp only [quotes, Nat.zero_add]
      exact Text.quotes_le_of_sublist (List.sublist_cons_self c rest)

/-- The tokens of a text stand for no more quotes than there are. -/
theorem sum_quotes_ofText_le (t : Text) : ((ofText t).map quotes).sum ≤ t.quotes := by
  induction t using ofText_induction with
  | nil t hstart =>
    rw [ofText_of_start_nil hstart]
    exact Nat.zero_le _
  | cons t c rest hstart ih =>
    have hsuffix : (c :: rest) <:+ t := hstart ▸ skip_suffix false 0 t
    have hle := Text.quotes_le_of_sublist hsuffix.sublist
    have hlex := quotes_lex_le c rest
    rw [ofText_of_start_cons hstart, List.map_cons, List.sum_cons]
    omega

/-- The names in a list of variables, from behind the parenthesis that opens it on. -/
def names : List Token → List Text
  | [] => []
  | word w :: rest => w :: names rest
  | quoted t :: rest => t :: names rest
  | op c :: rest => if c = ')' then [] else names rest
  | eof :: _ => []

/-- The names have no more quotes than the tokens stand for, and if they have all of them, no name was
quoted. -/
theorem quotes_names (tokens : List Token) :
    ((names tokens).map Text.quotes).sum ≤ (tokens.map quotes).sum ∧
      ((tokens.map quotes).sum ≤ ((names tokens).map Text.quotes).sum →
        ∀ v ∈ names tokens, word v ∈ tokens) := by
  induction tokens with
  | nil => exact ⟨Nat.le_refl _, fun _ _ hv => absurd hv List.not_mem_nil⟩
  | cons t tokens ih =>
    obtain ⟨hle, hwords⟩ := ih
    cases t with
    | word w =>
      simp only [names, quotes, List.map_cons, List.sum_cons]
      refine ⟨by omega, fun hall v hv => ?_⟩
      rcases List.mem_cons.1 hv with rfl | hrest
      · exact List.mem_cons_self
      · exact List.mem_cons_of_mem _ (hwords (by omega) v hrest)
    | quoted q =>
      simp only [names, quotes, List.map_cons, List.sum_cons]
      exact ⟨by omega, fun hall => absurd hall (by omega)⟩
    | op c =>
      simp only [names, quotes, List.map_cons, List.sum_cons]
      split
      · exact ⟨Nat.zero_le _, fun _ _ hv => absurd hv List.not_mem_nil⟩
      · exact ⟨by omega, fun hall v hv => List.mem_cons_of_mem _ (hwords (by omega) v hv)⟩
    | eof => exact ⟨Nat.zero_le _, fun _ _ hv => absurd hv List.not_mem_nil⟩

end Token

/-! ### Lists of variables -/

namespace Reader

variable {limits : Limits} {depth : Nat} {tokens : List Token}

theorem takes_iterate_variableStep (done : List Text) {fuel : Nat} (hfuel : tokens.length < fuel) :
    Takes (iterate (variableStep ')') fuel done) (Session.At limits depth tokens)
      (done ++ Token.names tokens) fun _ => True := by
  induction tokens generalizing done fuel with
  | nil =>
    obtain ⟨spare, rfl⟩ := Nat.exists_eq_add_of_lt hfuel
    rw [Token.names, List.append_nil]
    exact takes_iterate_inr (takes_advance_eof.bind fun s _ => ⟨s, rfl, trivial⟩)
  | cons t tokens ih =>
    obtain ⟨spare, rfl⟩ : ∃ spare, fuel = spare + 1 := ⟨fuel - 1, by omega⟩
    have hspare : tokens.length < spare := Nat.lt_of_succ_lt_succ hfuel
    cases t with
    | word w =>
      have hrest := ih (done ++ [w]) hspare
      rw [List.append_assoc] at hrest
      exact takes_iterate_inl (takes_next.bind (.pure _ _)) hrest
    | quoted q =>
      have hrest := ih (done ++ [q]) hspare
      rw [List.append_assoc] at hrest
      exact takes_iterate_inl (takes_next.bind (.pure _ _)) hrest
    | op c =>
      by_cases hclose : c = ')'
      · rw [Token.names, if_pos hclose, List.append_nil]
        refine takes_iterate_inr (takes_next.bind ?_)
        simp only [if_pos hclose]
        exact fun s _ => ⟨s, rfl, trivial⟩
      · rw [Token.names, if_neg hclose]
        refine takes_iterate_inl (takes_next.bind ?_) (ih done hspare)
        simp only [if_neg hclose]
        exact .pure _ _
    | eof =>
      rw [Token.names, List.append_nil]
      exact takes_iterate_inr (takes_next.bind fun s _ => ⟨s, rfl, trivial⟩)

/-- Every list of variables in parentheses is read as the names in it. -/
theorem takes_variableList_names : Takes variableList (Session.At limits depth (.op '(' :: tokens))
    (Token.names tokens) fun _ => True :=
  takes_next.bind (takes_passes fun _ hfuel => takes_iterate_variableStep [] hfuel)

/-- A set that is read starts with a header. -/
theorem exists_ringHeader_of_polynomialSet {set : PolynomialSet} {s s' : Session}
    (h : polynomialSet s = .ok set s') : ∃ middle, ringHeader s = .ok set.header middle := by
  obtain ⟨header, middle, hheader, hlist⟩ := exists_of_bind_eq_ok h
  obtain ⟨list, behind, -, hset⟩ := exists_of_bind_eq_ok hlist
  obtain ⟨rfl, -⟩ := EStateM.Result.ok.inj hset
  exact ⟨middle, hheader⟩

end Reader

/-! ### Headers -/

namespace RingHeader

variable {limits : Limits} {h : RingHeader}

/-- Behind the coefficients of a header stands the list of its names as they are. -/
theorem ofText_text_append (hh : h.Declared limits) (hnames : ∀ v ∈ h.coefficients.names, v.IsWord)
    (t : Text) : Token.ofText (h.text ++ t) = h.coefficients.tokens ++ .op '(' ::
      Token.ofText (Text.join ", ".toList h.vars ++ (") ".toList ++ (h.order.text ++ t))) := by
  have htext : h.text ++ t = h.coefficients.display ++
      '(' :: (Text.join ", ".toList h.vars ++ (") ".toList ++ (h.order.text ++ t))) := by
    simp [text, ring, PolyRing.header, CoefficientRing.display]
  rw [htext, CoefficientRing.spells_display hh.selected hnames _ Text.apart_cons,
    Token.ofText_op_cons (by decide)]

/-- If a header is read back with its names, each of them is a word. -/
theorem isWord_of_read_back (hh : h.Declared limits) (hnames : ∀ v ∈ h.coefficients.names, v.IsWord)
    (hroom : 1 ≤ limits.maxDepth.toNat) {again : RingHeader} {s : Session}
    (hread : Reader.ringHeader (.ofText (h.text ++ "()".toList) limits) = .ok again s)
    (hsame : again.vars = h.vars) : ∀ v ∈ h.vars, v.IsWord := by
  let written : Text := Text.join ", ".toList h.vars ++ (") ".toList ++ (h.order.text ++ "()".toList))
  have hstart : (Session.ofText (h.text ++ "()".toList) limits).At limits 0
      (h.coefficients.tokens ++ .op '(' :: Token.ofText written) :=
    ofText_text_append hh hnames _ ▸ Session.at_ofText _ limits 0
  -- The names that are read are those in the list.
  obtain ⟨s₁, hcoefficients, hs₁⟩ := Reader.takes_coefficientRing hh.selected hnames hroom _ hstart
  obtain ⟨s₂, hvars, -⟩ := Reader.takes_variableList_names _ hs₁
  have hlisted : Token.names (Token.ofText written) = h.vars := by
    obtain ⟨_, _, hfirst, hread⟩ := Reader.exists_of_bind_eq_ok hread
    obtain ⟨rfl, rfl⟩ := EStateM.Result.ok.inj (hcoefficients.symm.trans hfirst)
    obtain ⟨_, _, hsecond, hread⟩ := Reader.exists_of_bind_eq_ok hread
    obtain ⟨rfl, rfl⟩ := EStateM.Result.ok.inj (hvars.symm.trans hsecond)
    obtain ⟨order, s₃, -, hread⟩ := Reader.exists_of_bind_eq_ok hread
    obtain ⟨ring, s₄, hring, hread⟩ := Reader.exists_of_bind_eq_ok hread
    obtain ⟨rfl, -⟩ := EStateM.Result.ok.inj hread
    obtain ⟨rfl, -⟩ := PolyRing.of_make_eq_ok (Reader.gives_orInvalidRing _ s₃ ring s₄ rfl hring).2
    exact hsame
  -- All the quotes of the list are those of the names.
  have hquotes : written.quotes = (h.vars.map Text.quotes).sum := by
    simp only [written, Text.quotes_append, Text.quotes_join (by decide : Text.quotes ", ".toList = 0),
      TermOrder.quotes_text]
    rfl
  have hwords := (Token.quotes_names (Token.ofText written)).2
    (hlisted ▸ hquotes ▸ Token.sum_quotes_ofText_le written)
  exact fun v hv => Token.isWord_of_mem_ofText (hwords v (hlisted ▸ hv))

/-- With words as names a header is read back in front of an empty list. -/
theorem read_back (hh : h.Declared limits) (hnames : ∀ v ∈ h.names, v.IsWord)
    (hroom : 1 ≤ limits.maxDepth.toNat) :
    ∃ s, Reader.polynomialSet (.ofText (h.text ++ "()".toList) limits) = .ok ⟨h, []⟩ s := by
  have htokens : Token.ofText (h.text ++ "()".toList) = h.tokens ++ [.op '(', .op ')'] := by
    have hlist : Token.Spells "()".toList [.op '(', .op ')'] :=
      (Token.spells_nil.op_cons ')').op_cons '('
    exact ((spells_text hh hnames).append hlist Text.apart_cons).ofText_eq
  have htakes : Reader.Takes Reader.polynomialSet
      (Session.At limits 0 (h.tokens ++ [.op '(', .op ')'])) ⟨h, []⟩ (Session.At limits 0 []) :=
    (takes_ringHeader hh hnames hroom _).bind (Reader.takes_polynomialList_nil.bind (.pure _ _))
  obtain ⟨s, hread, -⟩ := htakes _ (htokens ▸ Session.at_ofText _ limits 0)
  exact ⟨s, hread⟩

end RingHeader

/-- The header of a set that was read, with words as names of its coefficients, is read back in front
of an empty list if and only if the names of its variables are words. -/
theorem headers_read_back_iff_words {limits : Limits} (hroom : 1 ≤ limits.maxDepth.toNat) {t : Text}
    {s : PolynomialSet} {u : Session}
    (hread : Reader.polynomialSet (.ofText t limits) = .ok s u)
    (hnames : ∀ v ∈ s.header.coefficients.names, v.IsWord) :
    ((∃ again u', Reader.polynomialSet (.ofText (s.header.text ++ "()".toList) limits) = .ok again u' ∧
      again.header.vars = s.header.vars) ↔ ∀ v ∈ s.header.vars, v.IsWord) ∧
    ((∀ v ∈ s.header.vars, v.IsWord) → ∃ u',
      Reader.polynomialSet (.ofText (s.header.text ++ "()".toList) limits) = .ok ⟨s.header, []⟩ u') := by
  have hdeclared : s.header.Declared limits := by
    obtain ⟨middle, hheader⟩ := Reader.exists_ringHeader_of_polynomialSet hread
    exact (Reader.gives_ringHeader _ s.header middle rfl hheader).2
  have hback : (∀ v ∈ s.header.vars, v.IsWord) → ∃ u',
      Reader.polynomialSet (.ofText (s.header.text ++ "()".toList) limits) =
        .ok ⟨s.header, []⟩ u' := fun hvars =>
    RingHeader.read_back hdeclared (List.forall_mem_append.2 ⟨hnames, hvars⟩) hroom
  refine ⟨⟨?_, fun hvars => ?_⟩, hback⟩
  · rintro ⟨again, u', hagain, hsame⟩
    obtain ⟨middle, hheader⟩ := Reader.exists_ringHeader_of_polynomialSet hagain
    exact RingHeader.isWord_of_read_back hdeclared hnames hroom hheader hsame
  · obtain ⟨u', hagain⟩ := hback hvars
    exact ⟨⟨s.header, []⟩, u', hagain, rfl⟩

/-- Names that are words, one of which was quoted. -/
theorem header_of_words_read_back :
    let t : Text := "IntFunc(a) ('x', y_1) W(2,1) ()".toList
    let h : RingHeader := ⟨.function [['a']], [['x'], "y_1".toList], .ofWeights [[2, 1]]⟩
    (∃ u, Reader.polynomialSet (.ofText t) = .ok ⟨h, []⟩ u) ∧
      ∃ u, Reader.polynomialSet (.ofText (h.text ++ "()".toList)) = .ok ⟨h, []⟩ u := by
  intro t h
  have hread : ∃ u, Reader.polynomialSet (.ofText t) = .ok ⟨h, []⟩ u :=
    Reader.exists_eq_ok (by decide +kernel)
  refine ⟨hread, ?_⟩
  obtain ⟨u, hread⟩ := hread
  exact (headers_read_back_iff_words (by decide) hread (by decide)).2 (by decide)

/-- A quoted name with a blank in it is read back as two names. -/
theorem header_of_quoted_name_read_back :
    let h : RingHeader := ⟨.rational, ["x y".toList], {}⟩
    let again : RingHeader := ⟨.rational, [['x'], ['y']], {}⟩
    (∃ u, Reader.polynomialSet (.ofText "Q(\"x y\") ()".toList) = .ok ⟨h, []⟩ u) ∧
      ∃ u, Reader.polynomialSet (.ofText (h.text ++ "()".toList)) = .ok ⟨again, []⟩ u :=
  ⟨Reader.exists_eq_ok (by decide +kernel), Reader.exists_eq_ok (by decide +kernel)⟩

end PolynomialText
