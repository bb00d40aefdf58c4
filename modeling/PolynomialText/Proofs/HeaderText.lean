import PolynomialText.Proofs.ReadHeaders

/-!
# Headers are read back

The text of a ring header is cut into its descriptor, its variables and its term order. Each part
stands for its tokens, and the reader of the part takes exactly these tokens and gives the part.
Names have to be words, because a name between quotes is written without them.
-/

namespace PolynomialText

/-! ### Lists with commas -/

namespace Token

/-- Groups of tokens with a comma between each two of them. -/
def separated : List (List Token) → List Token
  | [] => []
  | [tokens] => tokens
  | tokens :: next :: rest => tokens ++ .op ',' :: separated (next :: rest)

/-- Blanks in front of a text do not count. -/
theorem Spells.blanks_append {gap t : Text} {ts : List Token} (hgap : ∀ c ∈ gap, Text.isBlank c = true)
    (h : Spells t ts) : Spells (gap ++ t) ts := by
  induction gap with
  | nil => exact h
  | cons c gap ih =>
    exact (ih fun d hd => hgap d (List.mem_cons_of_mem _ hd)).blank_cons c
      (hgap c List.mem_cons_self)

/-- A number and an operator in front of a text. -/
theorem Spells.number_op {t : Text} {ts : List Token} (h : Spells t ts) (n : Nat) (c : Char)
    (hc : IsOperator c := by decide) :
    Spells (Text.decimal n ++ c :: t) (word (Text.decimal n) :: op c :: ts) :=
  (spells_word (Text.isWord_decimal n)).append (h.op_cons c hc) (Text.apart_cons hc.2.2.2.2)

/-- Texts joined by commas stand for the separated tokens. -/
theorem spells_join {β : Type} (gap : Text) (hgap : ∀ c ∈ gap, Text.isBlank c = true)
    {text : β → Text} {tokens : β → List Token} (items : List β)
    (h : ∀ b ∈ items, Spells (text b) (tokens b)) :
    Spells (Text.join (',' :: gap) (items.map text)) (separated (items.map tokens)) := by
  induction items with
  | nil => exact spells_nil
  | cons b items ih =>
    have hfirst := h b List.mem_cons_self
    have hrest := ih fun a ha => h a (List.mem_cons_of_mem _ ha)
    cases items with
    | nil =>
      rw [List.map_singleton, Text.join_singleton]
      exact hfirst
    | cons a items =>
      rw [List.map_cons, List.map_cons, Text.join_cons_cons]
      have hcomma := (hrest.blanks_append hgap).op_cons ','
      exact hfirst.append hcomma Text.apart_cons

end Token

namespace Reader

variable {limits : Limits} {depth : Nat} {rest : List Token}

/-- A token is read that is not put back. -/
theorem takes_next {t : Token} : Takes advance (Session.At limits depth (t :: rest)) t
    (Session.At limits depth rest) := by
  intro s hs
  obtain ⟨s', hok, hs'⟩ := takes_advance s hs
  exact ⟨s', hok, hs'.tail⟩

/-- A token that belongs to something else is looked at. -/
theorem takes_unread {α : Type} {t : Token} {a : α} :
    Takes (pushBack t >>= fun _ => pure a) (Session.Past limits depth (t :: rest)) a
      (Session.At limits depth (t :: rest)) :=
  takes_pushBack.bind (.pure _ _)

section

variable {β γ : Type} {step : List β → Reader (List β ⊕ List β)} {g : γ → List Token} {v : γ → β}
  {items : List γ}
  (hitem : ∀ b ∈ items, ∀ done rest, Takes (step done) (Session.At limits depth (g b ++ rest))
    (.inl (done ++ [v b])) (Session.At limits depth rest))
  (hne : ∀ b ∈ items, g b ≠ [])
  (hcomma : ∀ done rest, Takes (step done) (Session.At limits depth (.op ',' :: rest)) (.inl done)
    (Session.At limits depth rest))
  (hclose : ∀ done rest, Takes (step done) (Session.At limits depth (.op ')' :: rest)) (.inr done)
    (Session.At limits depth rest))
include hitem hne hcomma hclose

/-- A loop that reads items, commas and a closing parenthesis collects the values of the items. -/
theorem takes_iterate_separated (done : List β) {fuel : Nat}
    (hfuel : (Token.separated (items.map g) ++ .op ')' :: rest).length < fuel) :
    Takes (iterate step fuel done)
      (Session.At limits depth (Token.separated (items.map g) ++ .op ')' :: rest))
      (done ++ items.map v) (Session.At limits depth rest) := by
  induction items generalizing done fuel with
  | nil =>
    obtain ⟨spare, rfl⟩ := Nat.exists_eq_add_of_lt hfuel
    rw [List.map_nil, List.map_nil, List.append_nil]
    exact takes_iterate_inr (hclose done rest)
  | cons b items ih =>
    have hb := hitem b List.mem_cons_self
    have hlength := List.length_pos_iff.2 (hne b List.mem_cons_self)
    have htail := fun fuel => @ih (fun a ha => hitem a (List.mem_cons_of_mem _ ha))
      (fun a ha => hne a (List.mem_cons_of_mem _ ha)) (done ++ [v b]) fuel
    cases items with
    | nil =>
      obtain ⟨spare, rfl⟩ : ∃ spare, fuel = spare + 2 := by
        simp only [List.map_singleton, Token.separated, List.length_append, List.length_cons] at hfuel
        exact ⟨fuel - 2, by omega⟩
      exact takes_iterate_inl (hb done _) (takes_iterate_inr (hclose _ rest))
    | cons a items =>
      simp only [List.map_cons, Token.separated, List.length_append, List.length_cons,
        List.append_assoc, List.cons_append, List.nil_append] at hfuel htail ⊢
      obtain ⟨spare, rfl⟩ : ∃ spare, fuel = spare + 2 := ⟨fuel - 2, by omega⟩
      exact takes_iterate_inl (hb done _) (takes_iterate_inl (hcomma _ _) (htail spare (by omega)))

/-- A loop that reads items, commas and a closing parenthesis gives the values of the items. -/
theorem takes_loop_separated_map : Takes (loop step [])
    (Session.At limits depth (Token.separated (items.map g) ++ .op ')' :: rest)) (items.map v)
    (Session.At limits depth rest) :=
  takes_passes fun _ hfuel => takes_iterate_separated hitem hne hcomma hclose [] hfuel

end

/-- A loop that reads items, commas and a closing parenthesis gives the items. -/
theorem takes_loop_separated {β : Type} {step : List β → Reader (List β ⊕ List β)} {g : β → List Token}
    {items : List β}
    (hitem : ∀ b ∈ items, ∀ done rest, Takes (step done) (Session.At limits depth (g b ++ rest))
      (.inl (done ++ [b])) (Session.At limits depth rest))
    (hne : ∀ b ∈ items, g b ≠ [])
    (hcomma : ∀ done rest, Takes (step done) (Session.At limits depth (.op ',' :: rest)) (.inl done)
      (Session.At limits depth rest))
    (hclose : ∀ done rest, Takes (step done) (Session.At limits depth (.op ')' :: rest)) (.inr done)
      (Session.At limits depth rest)) :
    Takes (loop step []) (Session.At limits depth (Token.separated (items.map g) ++ .op ')' :: rest))
      items (Session.At limits depth rest) := by
  have hloop : Takes (loop step [])
      (Session.At limits depth (Token.separated (items.map g) ++ .op ')' :: rest)) (items.map id)
      (Session.At limits depth rest) := takes_loop_separated_map hitem hne hcomma hclose
  rwa [List.map_id] at hloop

/-- A list of variables is read back. -/
theorem takes_variableList {names : List Text} :
    Takes variableList (Session.At limits depth (.op '(' ::
      (Token.separated (names.map fun v => [.word v]) ++ .op ')' :: rest))) names
      (Session.At limits depth rest) := by
  apply takes_next.bind
  refine takes_loop_separated (g := fun v => [.word v]) ?_ (by simp) ?_ ?_
  · exact fun v _ done rest => takes_next.bind (.pure _ _)
  · exact fun done rest => takes_next.bind (.pure _ _)
  · exact fun done rest => takes_next.bind (.pure _ _)

end Reader

/-! ### Term orders -/

namespace TermOrder

/-- The tokens of a row of weights. -/
def rowTokens (row : List UInt64) : List Token :=
  .op '(' :: (Token.separated (row.map fun w => [.word (Text.decimal w.toNat)]) ++ [.op ')'])

/-- The tokens of a split. -/
def splitTokens : SplitIndex → List Token
  | .unspecified => []
  | .single i => [.op '|', .word (Text.decimal i), .op '|']
  | .pair i j => [.op '[', .word (Text.decimal i), .op ',', .word (Text.decimal j), .op ']']

/-- The tokens of an order. -/
def tokens (order : TermOrder) : List Token :=
  (match order.weights with
    | some rows => .word ['W'] :: .op '(' :: (Token.separated (rows.map rowTokens) ++ [.op ')'])
    | none => [.word order.kind.keyword]) ++ splitTokens order.split

/-- A row of weights stands for its tokens. -/
theorem spells_rowText (row : List UInt64) : Token.Spells (rowText row) (rowTokens row) := by
  have hweights := Token.spells_join [] (List.forall_mem_nil _) row fun w _ =>
    Token.spells_word (Text.isWord_decimal w.toNat)
  exact hweights.enclosed '(' ')'

/-- An order stands for its tokens. -/
theorem spells_text (order : TermOrder) : Token.Spells order.text order.tokens := by
  have hkeyword : ∀ kind : OrderKind, (OrderKind.keyword kind).IsWord := by
    intro kind
    cases kind <;> decide
  have hmain : Token.Spells (match order.weights with
      | some rows => "W(".toList ++ Text.join [','] (rows.map rowText) ++ [')']
      | none => order.kind.keyword) (match order.weights with
      | some rows => .word ['W'] :: .op '(' :: (Token.separated (rows.map rowTokens) ++ [.op ')'])
      | none => [.word order.kind.keyword]) := by
    split
    · rename_i rows _
      have hrows := Token.spells_join [] (List.forall_mem_nil _) rows fun row _ => spells_rowText row
      have hword : Text.IsWord ['W'] := by decide
      exact (Token.spells_word hword).append (hrows.enclosed '(' ')') Text.apart_cons
    · exact Token.spells_word (hkeyword _)
  unfold text tokens
  cases order.split with
  | unspecified => exact hmain.append Token.spells_nil (Text.apart_nil_right _)
  | single i =>
    have hnumber := Token.spells_nil.number_op i '|'
    have hsplit := (hnumber.op_cons '|').blank_cons ' '
    exact hmain.append hsplit Text.apart_cons
  | pair i j =>
    have hnumbers := (Token.spells_nil.number_op j ']').number_op i ','
    have hsplit := (hnumbers.op_cons '[').blank_cons ' '
    have htext : " [".toList ++ Text.decimal i ++ [','] ++ Text.decimal j ++ [']'] =
        ' ' :: '[' :: (Text.decimal i ++ ',' :: (Text.decimal j ++ [']'])) := by simp
    dsimp only
    rw [htext]
    exact hmain.append hsplit Text.apart_cons

end TermOrder

namespace Reader

variable {limits : Limits} {depth : Nat} {rest : List Token}

/-- A row of weights is read back. -/
theorem takes_weightRow {row : List UInt64} :
    Takes weightRow (Session.At limits depth (Token.separated
      (row.map fun w => [.word (Text.decimal w.toNat)]) ++ .op ')' :: rest)) row
      (Session.At limits depth rest) := by
  refine takes_loop_separated (g := fun w : UInt64 => [.word (Text.decimal w.toNat)]) ?_
    (by simp) ?_ ?_
  · intro w _ done rest
    apply takes_next.bind
    simp only [Text.word?_decimal]
    exact .pure _ _
  · exact fun done rest => takes_next.bind (.pure _ _)
  · exact fun done rest => takes_next.bind (.pure _ _)

/-- Rows of weights are read back. -/
theorem takes_weightArray {rows : List (List UInt64)} (hne : rows ≠ []) :
    Takes weightArray (Session.At limits depth
      (.op '(' :: (Token.separated (rows.map TermOrder.rowTokens) ++ .op ')' :: rest))) rows
      (Session.At limits depth rest) := by
  have hloop : Takes (loop weightArrayStep []) (Session.At limits depth
      (Token.separated (rows.map TermOrder.rowTokens) ++ .op ')' :: rest)) rows
      (Session.At limits depth rest) := by
    refine takes_loop_separated (g := TermOrder.rowTokens) ?_ (fun row _ => List.cons_ne_nil _ _) ?_ ?_
    · intro row _ done rest
      rw [TermOrder.rowTokens, List.cons_append, List.append_assoc]
      exact takes_next.bind (takes_weightRow.bind (.pure _ _))
    · exact fun done rest => takes_next.bind (.pure _ _)
    · exact fun done rest => takes_next.bind (.pure _ _)
  obtain ⟨tail, htail⟩ : ∃ tail, Token.separated (rows.map TermOrder.rowTokens) ++ .op ')' :: rest =
      .op '(' :: tail := by
    obtain ⟨row, others, rfl⟩ := List.exists_cons_of_ne_nil hne
    cases others with
    | nil => exact ⟨_, rfl⟩
    | cons next others => exact ⟨_, rfl⟩
  rw [htail] at hloop ⊢
  apply takes_advance.bind
  apply (takes_peek_zero rfl id).bind
  exact hloop.of_imp fun s hs => hs.tail

/-- A number of a split is read back. -/
theorem takes_splitPoint {i : Nat} (hi : i < UInt64.size) :
    Takes splitPoint (Session.At limits depth (.word (Text.decimal i) :: rest)) i
      (Session.At limits depth rest) := by
  have hvalue : (UInt64.ofNat i).toNat = i := UInt64.toNat_ofNat_of_lt' hi
  have hword : Text.word? (Text.decimal i) = some (UInt64.ofNat i) := by
    have hdecimal := Text.word?_decimal (UInt64.ofNat i)
    rwa [hvalue] at hdecimal
  apply takes_next.bind
  simp only [hword, hvalue]
  exact .pure _ _

/-- A split is read back in front of a parenthesis. -/
theorem takes_splitIndex {split : SplitIndex} (hsplit : ∀ n ∈ split.entries, n < UInt64.size) :
    Takes splitIndex (Session.At limits depth (TermOrder.splitTokens split ++ .op '(' :: rest)) split
      (Session.At limits depth (.op '(' :: rest)) := by
  cases split with
  | unspecified => exact takes_advance.bind takes_unread
  | single i =>
    have hi := hsplit i List.mem_cons_self
    exact takes_next.bind ((takes_splitPoint hi).bind (takes_skipOp.bind (.pure _ _)))
  | pair i j =>
    have hi := hsplit i List.mem_cons_self
    have hj := hsplit j (List.mem_cons_of_mem _ List.mem_cons_self)
    refine takes_next.bind ((takes_splitPoint hi).bind (takes_next.bind ?_))
    exact (takes_splitPoint hj).bind (takes_skipOp.bind (.pure _ _))

/-- An order that fits the variables is read back in front of a parenthesis. -/
theorem takes_termOrder {order : TermOrder} {nvars : Nat} (horder : order.Declared)
    (hfits : order.fault? nvars = none) :
    Takes (termOrder nvars) (Session.At limits depth (order.tokens ++ .op '(' :: rest)) order
      (Session.At limits depth (.op '(' :: rest)) := by
  have hfitting : ∀ P, Takes (fitting nvars order) P order P := by
    intro P
    unfold fitting
    simp only [hfits]
    exact .pure _ _
  rcases horder with ⟨rows, rfl⟩ | ⟨kind, split, hkind, hsplit, rfl⟩
  · have hne : rows ≠ [] := by
      rintro rfl
      contradiction
    have htokens : (TermOrder.ofWeights rows).tokens ++ .op '(' :: rest = .word ['W'] :: .op '(' ::
        (Token.separated (rows.map TermOrder.rowTokens) ++ .op ')' :: .op '(' :: rest) := by
      simp [TermOrder.tokens, TermOrder.ofWeights, TermOrder.splitTokens]
    rw [htokens]
    exact takes_next.bind ((takes_weightArray hne).bind (hfitting _))
  · generalize hblock : TermOrder.block kind split = order at hfitting hfits ⊢
    have hweights : order.weights = none := hblock ▸ rfl
    have hkind' : order.kind = kind := hblock ▸ rfl
    have hentries : ∀ n ∈ order.split.entries, n < UInt64.size := by
      rw [← hblock, TermOrder.block]
      dsimp only
      split
      · exact fun n hn => absurd hn List.not_mem_nil
      · exact hsplit
    -- A split without positive points was dropped before, and is not written.
    have hagain : TermOrder.block kind order.split = order := by
      rw [← hblock, TermOrder.block, TermOrder.block]
      dsimp only
      split
      · rfl
      · rfl
    have hkeyword : ¬ (kind.keyword).toUpper = ['W'] := by
      cases kind with
      | weighted => exact absurd rfl hkind
      | _ => decide
    have htokens : order.tokens = .word kind.keyword :: TermOrder.splitTokens order.split := by
      simp [TermOrder.tokens, hweights, hkind']
    rw [htokens, List.cons_append]
    apply takes_next.bind
    simp only [if_neg hkeyword, OrderKind.ofKeyword?_keyword hkind]
    apply (takes_splitIndex hentries).bind
    rw [hagain]
    exact hfitting _

end Reader

/-! ### Descriptors -/

/-- The tokens of the names that a ring declares. -/
def nameTokens (names : List Text) : List Token :=
  .op '(' :: (Token.separated (names.map fun v => [.word v]) ++ [.op ')'])

/-- The tokens of an extension. -/
def Extension.tokens {α : Type} (A : Arithmetic α) (E : Extension α) : List Token :=
  .word "AN".toList :: .op '[' ::
    ((if A.characteristic = 0 then [] else [.word (Text.decimal A.characteristic)]) ++
      nameTokens [E.generator] ++
      .op '(' :: ((E.ring A).formatTokens E.modulus ++ [.op ')', .op ']']))

/-- The tokens of a descriptor. -/
def CoefficientRing.tokens : CoefficientRing → List Token
  | word m => [.word "Mod".toList, .word (Text.decimal m.value.toNat)]
  | big m => [.word "Mod".toList, .word (Text.decimal m.value)]
  | function vars => .word "IntFunc".toList :: nameTokens vars
  | algebraicRational E => E.tokens Rational.arithmetic
  | algebraicModular m E => E.tokens m.arithmetic
  | r => [.word r.display]

/-- A list of names stands for its tokens. -/
theorem spells_names (names : List Text) (hnames : ∀ v ∈ names, v.IsWord) :
    Token.Spells ('(' :: (Text.join ", ".toList names ++ [')'])) (nameTokens names) := by
  have hjoin := Token.spells_join [' '] Text.forall_mem_of_all names fun v hv =>
    Token.spells_word (hnames v hv)
  simp only [List.map_id_fun', id_eq] at hjoin
  exact hjoin.enclosed '(' ')'

/-- An extension stands for its tokens. -/
theorem Extension.spells_display {α : Type} {A : Arithmetic α} {C : α → Prop} {E : Extension α}
    (hA : A.Legible C) (hgenerator : E.generator.IsWord)
    (hmodulus : Poly.Regular A (E.ring A).Supports C E.modulus) :
    Token.Spells (E.display A) (E.tokens A) := by
  have hbracket : Token.Spells " ) ]".toList [.op ')', .op ']'] :=
    (((Token.spells_nil.op_cons ']').blank_cons ' ').op_cons ')').blank_cons ' '
  have hmodulus : Token.Spells ('(' :: ' ' :: ((E.ring A).format E.modulus ++ " ) ]".toList))
      (.op '(' :: ((E.ring A).formatTokens E.modulus ++ [.op ')', .op ']'])) := by
    have hformat := PolyRing.spells_format (R := E.ring A) hA
      (fun v hv => List.mem_singleton.1 hv ▸ hgenerator) hmodulus.coefficients
    have hbehind := hformat.append hbracket Text.apart_cons
    exact (hbehind.blank_cons ' ').op_cons '('
  have hnames := (spells_names [E.generator] fun v hv => List.mem_singleton.1 hv ▸ hgenerator).append
    (hmodulus.blank_cons ' ') Text.apart_cons
  have hcharacteristic : Token.Spells
      (if A.characteristic = 0 then [] else Text.decimal A.characteristic ++ [' '])
      (if A.characteristic = 0 then [] else [.word (Text.decimal A.characteristic)]) := by
    split
    · exact Token.spells_nil
    · exact (Token.spells_word (Text.isWord_decimal _)).append (Token.spells_nil.blank_cons ' ')
        Text.apart_cons
  have hrest := hcharacteristic.append hnames Text.apart_cons
  have hword : Text.IsWord "AN".toList := by decide
  have hwhole := (Token.spells_word hword).append ((hrest.blank_cons ' ').op_cons '[') Text.apart_cons
  rw [Text.join_singleton] at hwhole
  change Token.Spells ("AN[ ".toList ++ _ ++ '(' :: E.generator ++ ") ( ".toList ++ _ ++ _) _
  simp only [tokens, List.append_assoc, List.cons_append]
  simp only [List.append_assoc, List.cons_append, List.nil_append] at hwhole
  exact hwhole

namespace CoefficientRing

variable {limits : Limits} {r : CoefficientRing}

/-- A descriptor stands for its tokens. -/
theorem spells_display (hr : r.Selected limits) (hnames : ∀ v ∈ r.names, v.IsWord) :
    Token.Spells r.display r.tokens := by
  have hmodulus : ∀ n : Nat, Token.Spells (Residue.display n)
      [.word "Mod".toList, .word (Text.decimal n)] := fun n =>
    (Token.spells_word (by decide : Text.IsWord "Mod".toList)).append
      ((Token.spells_word (Text.isWord_decimal n)).blank_cons ' ') Text.apart_cons
  cases r with
  | rational => exact Token.spells_word
  | integer => exact Token.spells_word
  | word m => exact hmodulus m.value.toNat
  | big m => exact hmodulus m.value
  | complex => exact Token.spells_word
  | quaternion => exact Token.spells_word
  | octonion => exact Token.spells_word
  | decimal => exact Token.spells_word
  | function vars =>
    have hkeyword : Text.IsWord "IntFunc".toList := by decide
    have hwhole := (Token.spells_word hkeyword).append (spells_names vars hnames) Text.apart_cons
    change Token.Spells ("IntFunc(".toList ++ Text.join ", ".toList vars ++ [')']) _
    rw [List.append_assoc]
    exact hwhole
  | algebraicRational E =>
    exact Extension.spells_display Rational.legible (hnames _ List.mem_cons_self) hr.regular
  | algebraicModular m E =>
    exact Extension.spells_display m.legible (hnames _ List.mem_cons_self) hr.regular

end CoefficientRing

/-- A modulus is made from its value. -/
theorem BigModulus.ofInt_value (m : BigModulus) : ofInt m.value = .ok m := by
  rw [ofInt, dif_pos (by simpa using m.two_le)]
  rfl

/-- How the base of an extension is announced, with the ring that the extension is then: nothing
announces the rational numbers, and a numeral the residues modulo it. -/
inductive Extension.Base : {α : Type} → List Token → Arithmetic α → (α → Except RingFault α) →
    (Extension α → CoefficientRing) → Prop
  | rational : Base [] Rational.arithmetic Rational.inverse .algebraicRational
  | modular {w : Text} {n : Int} {m : BigModulus} (digit : (Token.word w).isDigitWord = true)
    (read : Integer.readInteger w = .ok n) (make : BigModulus.ofInt n = .ok m) :
    Base [.word w] m.arithmetic m.inverse (.algebraicModular m)

namespace Reader

variable {limits : Limits} {depth : Nat} {rest : List Token}

/-- The limits are looked at. -/
theorem takes_get {α : Type} {f : Session → Reader α} {a : α} {tokens : List Token}
    {Q : Session → Prop}
    (hf : ∀ s, s.limits = limits → Takes (f s) (Session.At limits depth tokens) a Q) :
    Takes (get >>= f) (Session.At limits depth tokens) a Q :=
  fun s hs => hf s hs.limits_eq s hs

/-- The numeral of a number starts with a digit. -/
theorem isDigitWord_decimal (n : Nat) : (Token.word (Text.decimal n)).isDigitWord = true := by
  obtain ⟨c, t, hcons, hc⟩ := Text.exists_decimal_eq_cons n
  rw [hcons]
  exact hc

/-- The numeral of a number is an integer literal. -/
theorem readInteger_decimal (n : Nat) : Integer.readInteger (Text.decimal n) = .ok (n : Int) := by
  rw [Integer.readInteger_digits (Text.decimal_ne_nil n) fun d hd => Text.isDigit_of_mem_decimal hd,
    Text.value_decimal]

/-- A literal that starts with a digit is a modulus. -/
theorem takes_modulus {w : Text} {m : Int} (hdigit : (Token.word w).isDigitWord = true)
    (hread : Integer.readInteger w = .ok m) {P : Session → Prop} : Takes (modulus (.word w)) P m P := by
  simp only [modulus, hdigit, if_true, hread]
  exact .pure _ _

/-- A modulus without brackets selects residues. -/
theorem takes_modular {n : Nat} {r : CoefficientRing}
    (hr : residues limits.wordModulusLimit n = .ok r) :
    Takes modular (Session.At limits depth (.word (Text.decimal n) :: rest)) r
      (Session.At limits depth rest) := by
  apply takes_next.bind
  apply (takes_modulus (isDigitWord_decimal n) (readInteger_decimal n)).bind
  apply takes_get
  intro s hs
  rw [hs, hr]
  exact .pure _ _

/-- Residues of a selected modulus are selected again. -/
theorem residues_word {m : WordModulus} (hm : m.value < limits.wordModulusLimit) :
    residues limits.wordModulusLimit m.value.toNat = .ok (.word m) := by
  have hlt : ((m.value.toNat : Nat) : Int) < limits.wordModulusLimit.toNat :=
    Int.ofNat_lt.2 (UInt64.lt_iff_toNat_lt.1 hm)
  have hvalue : UInt64.ofNat ((m.value.toNat : Int).toNat) = m.value := by simp
  rw [residues, if_pos hlt, hvalue, WordModulus.ofWord, dif_pos m.two_le]
  rfl

/-- Residues of a selected modulus are selected again. -/
theorem residues_big {m : BigModulus} (hm : limits.wordModulusLimit.toNat ≤ m.value) :
    residues limits.wordModulusLimit m.value = .ok (.big m) := by
  have hge : ¬ (m.value : Int) < limits.wordModulusLimit.toNat := by omega
  rw [residues, if_neg hge, m.ofInt_value]
  rfl

/-- The names of function coefficients are read back. -/
theorem takes_functionVariables {vars : List Text} (hne : vars ≠ []) (hnodup : vars.Nodup) :
    Takes functionVariables (Session.At limits depth (nameTokens vars ++ rest)) (.function vars)
      (Session.At limits depth rest) := by
  rw [nameTokens, List.cons_append, List.append_assoc]
  apply takes_variableList.bind
  rw [if_neg hne, PolyRing.make_eq_ok _ rfl hnodup]
  exact (Takes.pure _ _).bind (.pure _ _)

/-- A defining polynomial that is read makes an extension. -/
theorem takes_extensionOver_of_make {α : Type} {A : Arithmetic α} {inverse : α → Except RingFault α}
    {v : Text} {p : Poly α} {E : Extension α} {P Q : Session → Prop}
    (hp : Takes (definingPolynomial ⟨A, [v], {}⟩) P p Q)
    (hmake : Extension.make ⟨A, [v], {}⟩ inverse p = .ok E) :
    Takes (extensionOver A inverse [v]) P E Q := by
  rw [extensionOver, PolyRing.make_eq_ok A rfl (List.nodup_singleton v)]
  refine (Takes.pure _ _).bind (hp.bind ?_)
  rw [hmake]
  exact .pure _ _

/-- An extension is read back, from its defining polynomial on. -/
theorem takes_extensionOver {α : Type} {A : Arithmetic α} {C : α → Prop} {E : Extension α}
    {inverse : α → Except RingFault α} (hA : A.Legible C) (hplain : A.PlainlyWritten C)
    (hE : E.Made A C inverse) (hgenerator : E.generator.IsWord)
    (hdepth : depth + 1 ≤ limits.maxDepth.toNat) (rest : List Token) :
    Takes (extensionOver A inverse [E.generator]) (Session.At limits depth
      (.op '(' :: ((E.ring A).formatTokens E.modulus ++ .op ')' :: rest))) E
      (Session.At limits depth rest) := by
  have hring : E.ring A = ⟨A, [E.generator], {}⟩ := by rw [Extension.ring, hE.order_eq]
  have hmodulus : Takes (definingPolynomial (E.ring A)) (Session.At limits depth
      (.op '(' :: ((E.ring A).formatTokens E.modulus ++ .op ')' :: rest))) E.modulus
      (Session.At limits depth rest) := by
    have hcompletes : Completes (E.ring A) limits (depth + 1) (.start (E.ring A))
        ((E.ring A).formatTokens E.modulus ++ .op ')' :: rest) (E.modulus, .close)
        (Session.At limits (depth + 1) rest) := by
      refine PolyRing.completes_format (R := E.ring A) hA (List.nodup_singleton _)
        (fun v hv => List.mem_singleton.1 hv ▸ hgenerator) hE.regular (.inr hplain)
        (unraised_of_headD_ne (by simp) (by simp)) fun acc hacc => ?_
      rw [← hacc]
      exact completes_close
    refine takes_next.bind ((takes_nested hdepth hcompletes.takes_expression).bind ?_)
    exact .pure _ _
  exact takes_extensionOver_of_make (hring ▸ hmodulus) (hring ▸ hE.make_eq)

/-- Behind the keyword of an extension stand its base, its generator and its defining polynomial. -/
theorem takes_algebraic {α : Type} {A : Arithmetic α} {inverse : α → Except RingFault α}
    {ring : Extension α → CoefficientRing} {base tokens : List Token} {v : Text} {E : Extension α}
    (hbase : Extension.Base base A inverse ring)
    (hE : Takes (extensionOver A inverse [v]) (Session.At limits depth tokens) E
      (Session.At limits depth (.op ']' :: rest))) :
    Takes algebraic (Session.At limits depth (.op '[' :: (base ++ (nameTokens [v] ++ tokens)))) (ring E)
      (Session.At limits depth rest) := by
  have hnames : nameTokens [v] ++ tokens =
      .op '(' :: (Token.separated ([v].map fun v => [.word v]) ++ .op ')' :: tokens) := by
    simp [nameTokens]
  rw [hnames]
  cases hbase with
  | rational =>
    refine takes_next.bind (takes_advance.bind ?_)
    refine takes_pushBack.bind ((Takes.pure _ _).bind (takes_variableList.bind ?_))
    exact hE.bind ((Takes.pure _ _).bind (takes_skipOp.bind (.pure _ _)))
  | @modular w n m hdigit hread hmake =>
    refine takes_next.bind (takes_next.bind ?_)
    simp only [hdigit, if_true]
    refine (takes_modulus hdigit hread).bind ((Takes.pure _ _).bind (takes_variableList.bind ?_))
    simp only [hmake]
    exact (Takes.pure _ _).bind (hE.bind ((Takes.pure _ _).bind (takes_skipOp.bind (.pure _ _))))

/-- A coefficient ring is read back from its descriptor. -/
theorem takes_coefficientRing {r : CoefficientRing} (hr : r.Selected limits)
    (hnames : ∀ v ∈ r.names, v.IsWord) (hdepth : depth + 1 ≤ limits.maxDepth.toNat) :
    Takes coefficientRing (Session.At limits depth (r.tokens ++ rest)) r
      (Session.At limits depth rest) := by
  cases r with
  | rational => exact takes_next.bind (.pure _ _)
  | integer => exact takes_next.bind (.pure _ _)
  | word m => exact takes_next.bind (takes_modular (residues_word hr))
  | big m => exact takes_next.bind (takes_modular (residues_big hr))
  | complex => exact takes_next.bind (.pure _ _)
  | quaternion => exact takes_next.bind (takes_advise.bind (.pure _ _))
  | octonion => exact takes_next.bind (takes_advise.bind (.pure _ _))
  | decimal => exact takes_next.bind (.pure _ _)
  | function vars => exact takes_next.bind (takes_functionVariables hr.1 hr.2)
  | algebraicRational E =>
    have hE := takes_extensionOver Rational.legible Rational.plainlyWritten hr
      (hnames _ List.mem_cons_self) hdepth (.op ']' :: rest)
    have htokens : (CoefficientRing.algebraicRational E).tokens ++ rest =
        .word "AN".toList :: .op '[' :: ([] ++ (nameTokens [E.generator] ++ .op '(' ::
          ((E.ring Rational.arithmetic).formatTokens E.modulus ++ .op ')' :: .op ']' :: rest))) := by
      simp [CoefficientRing.tokens, Extension.tokens, Rational.arithmetic]
    rw [htokens]
    exact takes_next.bind (takes_algebraic .rational hE)
  | algebraicModular m E =>
    have hE := takes_extensionOver m.legible m.plainlyWritten hr
      (hnames _ List.mem_cons_self) hdepth (.op ']' :: rest)
    have hpos : m.arithmetic.characteristic ≠ 0 := by
      have := m.two_le
      exact (by omega : m.value ≠ 0)
    have htokens : (CoefficientRing.algebraicModular m E).tokens ++ rest =
        .word "AN".toList :: .op '[' :: ([.word (Text.decimal m.value)] ++ (nameTokens [E.generator] ++
          .op '(' :: ((E.ring m.arithmetic).formatTokens E.modulus ++ .op ')' :: .op ']' :: rest))) := by
      simp [CoefficientRing.tokens, Extension.tokens, hpos]
      rfl
    rw [htokens]
    exact takes_next.bind (takes_algebraic
      (.modular (isDigitWord_decimal m.value) (readInteger_decimal m.value) m.ofInt_value) hE)

end Reader

/-! ### Headers -/

namespace RingHeader

/-- The names that a header declares, those of its coefficients first. -/
def names (h : RingHeader) : List Text := h.coefficients.names ++ h.vars

/-- The tokens of a header. -/
def tokens (h : RingHeader) : List Token :=
  h.coefficients.tokens ++ (nameTokens h.vars ++ h.order.tokens)

variable {limits : Limits} {h : RingHeader}

/-- A header stands for its tokens. -/
theorem spells_text (hh : h.Declared limits) (hnames : ∀ v ∈ h.names, v.IsWord) :
    Token.Spells h.text h.tokens := by
  have hdescriptor := CoefficientRing.spells_display hh.selected fun v hv =>
    hnames v (List.mem_append_left _ hv)
  have hvars := spells_names h.vars fun v hv => hnames v (List.mem_append_right _ hv)
  have horder := (h.order.spells_text).blank_cons ' '
  have hwhole := hdescriptor.append (hvars.append horder Text.apart_cons) Text.apart_cons
  have htext : h.text = h.coefficients.display ++
      ('(' :: (Text.join ", ".toList h.vars ++ [')']) ++ ' ' :: h.order.text) := by
    simp [text, ring, PolyRing.header, CoefficientRing.display]
  rw [htext]
  exact hwhole

/-- A header is read back in front of a parenthesis. -/
theorem takes_ringHeader (hh : h.Declared limits) (hnames : ∀ v ∈ h.names, v.IsWord) {depth : Nat}
    (hdepth : depth + 1 ≤ limits.maxDepth.toNat) (rest : List Token) :
    Reader.Takes Reader.ringHeader (Session.At limits depth (h.tokens ++ .op '(' :: rest)) h
      (Session.At limits depth (.op '(' :: rest)) := by
  have htokens : h.tokens ++ .op '(' :: rest = h.coefficients.tokens ++ .op '(' ::
      (Token.separated (h.vars.map fun v => [.word v]) ++ .op ')' ::
        (h.order.tokens ++ .op '(' :: rest)) := by
    simp [tokens, nameTokens]
  rw [htokens]
  refine (Reader.takes_coefficientRing hh.selected
    (fun v hv => hnames v (List.mem_append_left _ hv)) hdepth).bind ?_
  refine Reader.takes_variableList.bind ((Reader.takes_termOrder hh.order hh.fits).bind ?_)
  rw [PolyRing.make_eq_ok _ hh.fits hh.nodup]
  exact (Reader.Takes.pure _ _).bind (.pure _ _)

end RingHeader

end PolynomialText
