import PolynomialText.Proofs.HeaderText

/-!
# Sets are read back

A set that was read is written as text and read again: the header first, then the polynomials or
rows up to the closing parenthesis, and nothing behind it. Sets that are written one below the other
are therefore read one after the other. That the polynomials can be read back follows from what is
known of every polynomial that was read.
-/

namespace PolynomialText

/-! ### Lists of polynomials -/

namespace PolyRing

variable {α : Type} {R : PolyRing α} {C : α → Prop}

/-- The tokens of a row of polynomials. -/
def rowTokens (R : PolyRing α) (row : List (Poly α)) : List Token :=
  .op '(' :: (Token.separated (row.map R.formatTokens) ++ [.op ')'])

/-- A written polynomial starts with a token that closes nothing. -/
theorem exists_formatTokens_eq (hA : R.coefficients.Legible C) (hnames : ∀ v ∈ R.vars, v.IsWord)
    {p : Poly α} (hp : ∀ t ∈ p.terms, C t.2) :
    ∃ t c w tail, R.formatTokens p = t :: tail ∧ t.lexeme = c :: w ∧ ¬ t.IsQuoted ∧ c ≠ ')' := by
  have hword : ∀ {v : Text}, v.IsWord → ∀ tail : List Token,
      ∃ t c w rest, Token.word v :: tail = t :: rest ∧ t.lexeme = c :: w ∧ ¬ t.IsQuoted ∧ c ≠ ')' := by
    intro v hv tail
    obtain ⟨c, w, hcons⟩ := List.exists_cons_of_ne_nil hv.1
    refine ⟨_, c, w, _, rfl, hcons, id, ?_⟩
    rintro rfl
    exact absurd (hv.2 ')' (hcons ▸ List.mem_cons_self)) (by decide)
  unfold formatTokens
  split
  · exact hword (by decide) []
  · rename_i first rest heq
    have hc : C first.2 := hp first ((R.descending_perm p).subset (heq ▸ List.mem_cons_self))
    have hwrites := writesCoefficient hA hc (R.monomialText first.1).isEmpty
    unfold termTokens
    generalize R.coefficientText first.2 (R.monomialText first.1).isEmpty = written at hwrites ⊢
    obtain ⟨negative, text⟩ := written
    cases negative with
    | true => exact ⟨_, '-', [], _, rfl, rfl, id, by decide⟩
    | false =>
      cases hwrites with
      | unit hbare =>
        have hfactors : R.factors first.1 ≠ [] := by
          intro hnil
          rw [(monomialText_eq_nil_iff hnames _).2 hnil] at hbare
          contradiction
        obtain ⟨f, others, hcons⟩ := List.exists_cons_of_ne_nil hfactors
        obtain ⟨tail, htail⟩ := exists_monomialTokens_eq f others
        have hmem : f ∈ R.factors first.1 := hcons ▸ List.mem_cons_self
        rw [Token.spells_nil.ofText_eq, hcons, htail]
        exact hword (hnames f.1 (mem_vars_of_mem_factors hmem)) _
      | numeral hplain =>
        have hsize := Text.isWord_of_isPlainNumeral hplain
        rw [(Token.spells_word hsize).ofText_eq]
        exact hword hsize _
      | braces =>
        rw [ofText_braced (hA.spells hc)]
        exact ⟨_, '\x7b', [], _, rfl, rfl, id, by decide⟩

end PolyRing

namespace Reader

variable {limits : Limits} {depth : Nat} {rest : List Token} {α : Type} {R : PolyRing α}

/-- A list without polynomials is read over every ring. -/
theorem takes_polynomialList_nil : Takes (polynomialList R)
    (Session.At limits depth (.op '(' :: .op ')' :: rest)) [] (Session.At limits depth rest) := by
  apply takes_advance.bind
  apply (takes_peek_zero rfl id).bind
  exact (takes_next.of_imp fun s hs => hs.tail).bind (.pure _ _)

variable {C : α → Prop} (hA : R.coefficients.Legible C) (hnodup : R.vars.Nodup)
  (hnames : ∀ v ∈ R.vars, v.IsWord) (hdepth : depth + 1 ≤ limits.maxDepth.toNat)
include hA hnodup hnames hdepth

/-- A polynomial of a list is read back with the operator that ends it. -/
theorem takes_expression_format {p : Poly α} (hp : Poly.Regular R.coefficients R.Supports C p)
    {c : Char} (hc : c ≠ '^' ∧ c ≠ '*') {terminator : Terminator}
    (hends : ∀ acc : Accumulator α, Completes R limits depth (acc.settle R (.op c :: rest))
      (.op c :: rest) (acc.total R, terminator) (Session.At limits depth rest)) :
    Takes (expression R none) (Session.At limits depth (R.formatTokens p ++ .op c :: rest))
      (p, terminator) (Session.At limits depth rest) := by
  have hcompletes : Completes R limits depth (.start R) (R.formatTokens p ++ .op c :: rest)
      (p, terminator) (Session.At limits depth rest) := by
    refine PolyRing.completes_format hA hnodup hnames hp (.inl hdepth)
      (unraised_of_headD_ne (by simpa using hc.1) (by simpa using hc.2)) fun acc hacc => ?_
    rw [← hacc]
    exact hends acc
  exact hcompletes.takes_expression

/-- Polynomials with commas between them are read back, up to the closing parenthesis. -/
theorem takes_iterate_listStep {ps : List (Poly α)} {p : Poly α}
    (hps : ∀ q ∈ p :: ps, Poly.Regular R.coefficients R.Supports C q) (done : List (Poly α))
    {fuel : Nat}
    (hfuel : (Token.separated ((p :: ps).map R.formatTokens) ++ .op ')' :: rest).length < fuel) :
    Takes (iterate (listStep R) fuel done) (Session.At limits depth
      (Token.separated ((p :: ps).map R.formatTokens) ++ .op ')' :: rest)) (done ++ p :: ps)
      (Session.At limits depth rest) := by
  have hp := hps p List.mem_cons_self
  induction ps generalizing p done fuel with
  | nil =>
    obtain ⟨spare, rfl⟩ := Nat.exists_eq_add_of_lt hfuel
    apply takes_iterate_inr
    exact (takes_expression_format hA hnodup hnames hdepth hp (by decide)
      fun acc => completes_close).bind (.pure _ _)
  | cons q ps ih =>
    have hq := hps q (List.mem_cons_of_mem _ List.mem_cons_self)
    simp only [List.map_cons, Token.separated, List.append_assoc, List.cons_append,
      List.length_append, List.length_cons] at hfuel ih ⊢
    obtain ⟨spare, rfl⟩ : ∃ spare, fuel = spare + 1 := ⟨fuel - 1, by omega⟩
    have hrest := ih (fun r hr => hps r (List.mem_cons_of_mem _ hr)) (done ++ [p])
      (by omega : _ < spare) hq
    rw [List.append_assoc, List.singleton_append] at hrest
    refine takes_iterate_inl ?_ hrest
    exact (takes_expression_format hA hnodup hnames hdepth hp (by decide)
      fun acc => completes_comma).bind (.pure _ _)

/-- A list of polynomials is read back. -/
theorem takes_polynomialList {ps : List (Poly α)}
    (hps : ∀ p ∈ ps, Poly.Regular R.coefficients R.Supports C p) :
    Takes (polynomialList R) (Session.At limits depth (.op '(' ::
      (Token.separated (ps.map R.formatTokens) ++ .op ')' :: rest))) ps
      (Session.At limits depth rest) := by
  cases ps with
  | nil => exact takes_polynomialList_nil
  | cons p ps =>
    apply takes_advance.bind
    have hloop : Takes (loop (listStep R) []) (Session.At limits depth
        (Token.separated ((p :: ps).map R.formatTokens) ++ .op ')' :: rest)) (p :: ps)
        (Session.At limits depth rest) :=
      takes_passes fun _ hfuel => takes_iterate_listStep hA hnodup hnames hdepth hps [] hfuel
    obtain ⟨t, c, w, tail, hformat, hlexeme, hquoted, hc⟩ :=
      PolyRing.exists_formatTokens_eq hA hnames (hps p List.mem_cons_self).coefficients
    obtain ⟨others, hothers⟩ : ∃ others, Token.separated ((p :: ps).map R.formatTokens) ++
        .op ')' :: rest = t :: others := by
      cases ps with
      | nil => exact ⟨_, congrArg (· ++ .op ')' :: rest) hformat⟩
      | cons q ps =>
        rw [List.map_cons, List.map_cons, Token.separated, hformat]
        exact ⟨_, rfl⟩
    rw [hothers] at hloop ⊢
    apply (takes_peek_zero hlexeme hquoted).bind
    have hne : ¬ some c = some ')' := fun h => hc (Option.some.inj h)
    simp only [if_neg hne]
    exact hloop.of_imp fun s hs => hs.tail

/-- Rows of polynomials are read back. -/
theorem takes_moduleList {rows : List (List (Poly α))}
    (hrows : ∀ row ∈ rows, ∀ p ∈ row, Poly.Regular R.coefficients R.Supports C p) :
    Takes (moduleList R) (Session.At limits depth (.op '(' ::
      (Token.separated (rows.map R.rowTokens) ++ .op ')' :: rest))) rows
      (Session.At limits depth rest) := by
  apply takes_next.bind
  refine takes_loop_separated (g := R.rowTokens) ?_ (fun row _ => List.cons_ne_nil _ _) ?_ ?_
  · intro row hrow done rest
    rw [PolyRing.rowTokens, List.cons_append, List.append_assoc]
    refine takes_advance.bind (takes_pushBack.bind ?_)
    exact (takes_polynomialList hA hnodup hnames hdepth (hrows row hrow)).bind (.pure _ _)
  · exact fun done rest => takes_next.bind (.pure _ _)
  · exact fun done rest => takes_next.bind (.pure _ _)

end Reader

/-! ### Rows of one length -/

/-- Rows of one length need no padding. -/
theorem padRows_eq_self {α : Type} {rows : List (List (Poly α))} {n : Nat}
    (h : ∀ row ∈ rows, row.length = n) : padRows rows = rows := by
  have hlongest : ∀ row ∈ rows, longestRow rows = row.length := by
    intro row hrow
    have hle := length_le_longestRow hrow
    have hbound : ∀ {rows : List (List (Poly α))}, (∀ row ∈ rows, row.length = n) →
        longestRow rows ≤ n := by
      intro rows hrows
      induction rows with
      | nil => exact Nat.zero_le n
      | cons first rest ih =>
        have hmax : longestRow (first :: rest) = max first.length (longestRow rest) := rfl
        have hfirst := hrows first List.mem_cons_self
        have hrest := ih fun row hrow => hrows row (List.mem_cons_of_mem _ hrow)
        omega
    have := hbound h
    have := h row hrow
    omega
  have hrow : ∀ row ∈ rows, row.rightpad (longestRow rows) Poly.zero = row := by
    intro row hrow
    simp [List.rightpad, hlongest row hrow]
  exact (List.map_congr_left hrow).trans (List.map_id' rows)

/-! ### Texts of sets -/

/-- Lines in parentheses stand for separated tokens and a closing parenthesis. -/
theorem spells_linesText {β : Type} {text : β → Text} {tokens : β → List Token} (items : List β)
    (h : ∀ b ∈ items, Token.Spells (text b) (tokens b)) :
    Token.Spells (linesText (items.map text)) (Token.separated (items.map tokens) ++ [.op ')']) := by
  have hblanks : ∀ c ∈ "  ".toList, Text.isBlank c = true := Text.forall_mem_of_all
  have hclose : Token.Spells [')'] [.op ')'] := Token.spells_nil.op_cons ')'
  induction items with
  | nil => exact hclose
  | cons b items ih =>
    have hfirst := h b List.mem_cons_self
    have hrest := ih fun a ha => h a (List.mem_cons_of_mem _ ha)
    cases items with
    | nil =>
      have hline := (hfirst.append (hclose.blank_cons '\n') Text.apart_cons).blanks_append hblanks
      rw [← List.append_assoc] at hline
      exact hline
    | cons a items =>
      have hcomma := (hrest.blank_cons '\n').op_cons ','
      have hline := (hfirst.append hcomma Text.apart_cons).blanks_append hblanks
      simpa [linesText, Token.separated] using hline

/-- A header that can be read back: it was read, its coefficients are exact, and its names are
words. -/
structure RingHeader.Writable (limits : Limits) (h : RingHeader) : Prop where
  declared : h.Declared limits
  exact : h.coefficients ≠ .decimal
  names : ∀ v ∈ h.names, v.IsWord

namespace RingHeader

variable {limits : Limits} {h : RingHeader} {depth : Nat}

/-- A polynomial over a header that can be read back. -/
def Readable (h : RingHeader) (p : h.Polynomial) : Prop :=
  Poly.Regular h.ring.coefficients h.ring.Supports h.coefficients.Readable p

/-- The coefficients over the header are read back. -/
theorem Writable.legible (hh : h.Writable limits) :
    h.ring.coefficients.Legible h.coefficients.Readable := by
  have hnames := hh.declared.selected.wellFormed fun v hv => hh.names v (List.mem_append_left _ hv)
  exact CoefficientRing.legible hh.exact hnames

/-- The names of the variables are words. -/
theorem Writable.vars (hh : h.Writable limits) : ∀ v ∈ h.ring.vars, v.IsWord :=
  fun v hv => hh.names v (List.mem_append_right _ hv)

/-- A polynomial over the header stands for its tokens. -/
theorem Writable.spells_format (hh : h.Writable limits) {p : h.Polynomial} (hp : h.Readable p) :
    Token.Spells (h.ring.format p) (h.ring.formatTokens p) :=
  PolyRing.spells_format hh.legible hh.vars hp.coefficients

/-- A row over the header stands for its tokens. -/
theorem Writable.spells_rowText (hh : h.Writable limits) {row : List h.Polynomial}
    (hrow : ∀ p ∈ row, h.Readable p) : Token.Spells (h.rowText row) (h.ring.rowTokens row) := by
  have hclose : Token.Spells " )".toList [.op ')'] := (Token.spells_nil.op_cons ')').blank_cons ' '
  have hcells := Token.spells_join [' '] Text.forall_mem_of_all row fun p hp =>
    hh.spells_format (hrow p hp)
  exact ((hcells.append hclose Text.apart_cons).blank_cons ' ').op_cons '('

/-- A header with lines below it stands for the tokens of both. -/
theorem Writable.spells_lines (hh : h.Writable limits) {lines : Text} {tokens : List Token}
    (hlines : Token.Spells lines tokens) :
    Token.Spells (h.text ++ "\n(\n".toList ++ lines) (h.tokens ++ .op '(' :: tokens) := by
  have hopen := ((hlines.blank_cons '\n').op_cons '(').blank_cons '\n'
  rw [List.append_assoc]
  exact (RingHeader.spells_text hh.declared hh.names).append hopen Text.apart_cons

end RingHeader

namespace PolynomialSet

variable {limits : Limits} {s : PolynomialSet}

/-- The tokens of a set. -/
def tokens (s : PolynomialSet) : List Token :=
  s.header.tokens ++
    .op '(' :: (Token.separated (s.polynomials.map s.header.ring.formatTokens) ++ [.op ')'])

/-- A set that can be read back. -/
structure Writable (limits : Limits) (s : PolynomialSet) : Prop where
  header : s.header.Writable limits
  polynomials : ∀ p ∈ s.polynomials, s.header.Readable p

/-- A set stands for its tokens. -/
theorem Writable.spells_text (hs : s.Writable limits) : Token.Spells s.text s.tokens :=
  hs.header.spells_lines (spells_linesText _ fun p hp => hs.header.spells_format (hs.polynomials p hp))

/-- A set is read back, and what stands behind it is left. -/
theorem Writable.takes_polynomialSet (hs : s.Writable limits) {depth : Nat}
    (hdepth : depth + 1 ≤ limits.maxDepth.toNat) (rest : List Token) :
    Reader.Takes Reader.polynomialSet (Session.At limits depth (s.tokens ++ rest)) s
      (Session.At limits depth rest) := by
  have htokens : s.tokens ++ rest = s.header.tokens ++ .op '(' ::
      (Token.separated (s.polynomials.map s.header.ring.formatTokens) ++ .op ')' :: rest) := by
    simp [tokens]
  rw [htokens]
  apply (RingHeader.takes_ringHeader hs.header.declared hs.header.names hdepth _).bind
  exact (Reader.takes_polynomialList hs.header.legible hs.header.declared.nodup hs.header.vars hdepth
    hs.polynomials).bind (.pure _ _)

end PolynomialSet

namespace ModuleSet

variable {limits : Limits} {s : ModuleSet}

/-- The tokens of a set of rows. -/
def tokens (s : ModuleSet) : List Token :=
  s.header.tokens ++ .op '(' :: (Token.separated (s.rows.map s.header.ring.rowTokens) ++ [.op ')'])

/-- A set of rows that can be read back. -/
structure Writable (limits : Limits) (s : ModuleSet) : Prop where
  header : s.header.Writable limits
  rows : ∀ row ∈ s.rows, ∀ p ∈ row, s.header.Readable p
  length : ∃ n, ∀ row ∈ s.rows, row.length = n

/-- A set of rows stands for its tokens. -/
theorem Writable.spells_text (hs : s.Writable limits) : Token.Spells s.text s.tokens :=
  hs.header.spells_lines (spells_linesText _ fun row hrow =>
    hs.header.spells_rowText (hs.rows row hrow))

/-- A set of rows is read back, and its rows are not padded again. -/
theorem Writable.takes_moduleSet (hs : s.Writable limits) {depth : Nat}
    (hdepth : depth + 1 ≤ limits.maxDepth.toNat) (rest : List Token) :
    Reader.Takes Reader.moduleSet (Session.At limits depth (s.tokens ++ rest)) s
      (Session.At limits depth rest) := by
  have htokens : s.tokens ++ rest = s.header.tokens ++ .op '(' ::
      (Token.separated (s.rows.map s.header.ring.rowTokens) ++ .op ')' :: rest) := by
    simp [tokens]
  obtain ⟨n, hn⟩ := hs.length
  have hpadded : ofRows s.header s.rows = s := by
    rw [ofRows, padRows_eq_self hn]
  rw [htokens]
  apply (RingHeader.takes_ringHeader hs.header.declared hs.header.names hdepth _).bind
  refine (Reader.takes_moduleList hs.header.legible hs.header.declared.nodup hs.header.vars hdepth
    hs.rows).bind ?_
  rw [hpadded]
  exact .pure _ _

end ModuleSet

/-! ### Sets that were read -/

/-- The words among the tokens of a text are words. -/
theorem Token.isWord_of_mem_ofText {t w : Text} (h : .word w ∈ ofText t) : w.IsWord := by
  induction t using ofText_induction with
  | nil t hstart =>
    rw [ofText_of_start_nil hstart] at h
    exact absurd h List.not_mem_nil
  | cons t c rest hstart ih =>
    rw [ofText_of_start_cons hstart] at h
    rcases List.mem_cons.1 h with hlex | hrest
    · unfold lex at hlex
      split at hlex
      · contradiction
      · split at hlex
        · rename_i hc
          obtain rfl : w = c :: rest.takeWhile isWordChar := Token.word.inj hlex
          refine ⟨List.cons_ne_nil _ _, fun d hd => ?_⟩
          rcases List.mem_cons.1 hd with rfl | hmem
          · exact hc
          · exact List.all_eq_true.1 List.all_takeWhile d hmem
        · contradiction
    · exact ih hrest

/-- A header that was read, with exact coefficients and words as names, can be read back. -/
theorem RingHeader.writable_of_read {limits : Limits} {h : RingHeader} {t : Text}
    (hh : h.Declared limits) (hexact : h.coefficients.kind ≠ .decimal)
    (hnames : ∀ v ∈ h.names, .word v ∈ Token.ofText t) : h.Writable limits := by
  refine ⟨hh, ?_, fun v hv => Token.isWord_of_mem_ofText (hnames v hv)⟩
  intro hdecimal
  rw [hdecimal] at hexact
  exact hexact rfl

/-- The set was read from the text, its coefficients are exact, and the names that it declares stand
in the text as words. -/
structure PolynomialSet.ReadFrom (t : Text) (s : PolynomialSet) : Prop where
  read : ∃ session, Reader.polynomialSet (.ofText t) = .ok s session
  exact : s.header.coefficients.kind ≠ .decimal
  names : ∀ v ∈ s.header.names, .word v ∈ Token.ofText t

/-- The set of rows was read from the text, its coefficients are exact, and the names that it
declares stand in the text as words. -/
structure ModuleSet.ReadFrom (t : Text) (s : ModuleSet) : Prop where
  read : ∃ session, Reader.moduleSet (.ofText t) = .ok s session
  exact : s.header.coefficients.kind ≠ .decimal
  names : ∀ v ∈ s.header.names, .word v ∈ Token.ofText t

/-- A set that was read can be read back. -/
theorem PolynomialSet.ReadFrom.writable {t : Text} {s : PolynomialSet} (h : s.ReadFrom t) :
    s.Writable {} := by
  obtain ⟨session, hread⟩ := h.read
  obtain ⟨header, middle, hheader, hlist⟩ := Reader.exists_of_bind_eq_ok hread
  obtain ⟨list, behind, hlist', hset⟩ := Reader.exists_of_bind_eq_ok hlist
  obtain ⟨rfl, -⟩ := EStateM.Result.ok.inj hset
  obtain ⟨hmiddle, hdeclared⟩ := Reader.gives_ringHeader _ header middle rfl hheader
  have hwritable := RingHeader.writable_of_read hdeclared h.exact h.names
  have hA := hdeclared.selected.readsInto hwritable.exact
  exact ⟨hwritable, (Reader.gives_polynomialList hA middle list behind hmiddle hlist').2⟩

/-- A set of rows that was read can be read back. -/
theorem ModuleSet.ReadFrom.writable {t : Text} {s : ModuleSet} (h : s.ReadFrom t) :
    s.Writable {} := by
  obtain ⟨session, hread⟩ := h.read
  obtain ⟨header, middle, hheader, hlist⟩ := Reader.exists_of_bind_eq_ok hread
  obtain ⟨rows, behind, hrows, hset⟩ := Reader.exists_of_bind_eq_ok hlist
  obtain ⟨rfl, -⟩ := EStateM.Result.ok.inj hset
  obtain ⟨hmiddle, hdeclared⟩ := Reader.gives_ringHeader _ header middle rfl hheader
  have hwritable := RingHeader.writable_of_read hdeclared h.exact h.names
  have hA := hdeclared.selected.readsInto hwritable.exact
  have hregular := (Reader.gives_moduleList hA middle rows behind hmiddle hrows).2
  refine ⟨hwritable, fun row hrow p hp => ?_, _, fun row hrow => length_of_mem_rows hrow⟩
  obtain ⟨shorter, hmem, rfl⟩ := List.mem_map.1 hrow
  rcases List.mem_append.1 hp with hold | hzero
  · exact hregular shorter hmem p hold
  · rw [List.eq_of_mem_replicate hzero]
    exact Poly.regular_zero

/-- The same reader a number of times, one after the other. -/
def Reader.successive {α : Type} (reader : Reader α) : Nat → Reader (List α)
  | 0 => return []
  | n + 1 => do
    let first ← reader
    return first :: (← successive reader n)

/-- Things that are read back one by one are read back one after the other. -/
theorem Reader.takes_successive {α : Type} {reader : Reader α} {limits : Limits} {depth : Nat}
    {tokens : α → List Token} {items : List α}
    (h : ∀ a ∈ items, ∀ rest, Takes reader (Session.At limits depth (tokens a ++ rest)) a
      (Session.At limits depth rest)) (rest : List Token) :
    Takes (successive reader items.length) (Session.At limits depth (items.flatMap tokens ++ rest))
      items (Session.At limits depth rest) := by
  induction items with
  | nil => exact .pure _ _
  | cons a items ih =>
    have hrest := ih fun b hb => h b (List.mem_cons_of_mem _ hb)
    rw [List.flatMap_cons, List.append_assoc]
    exact (h a List.mem_cons_self _).bind (hrest.bind (.pure _ _))

/-- Texts one below the other stand for the tokens of all. -/
theorem Token.spells_join_newline {β : Type} {text : β → Text} {tokens : β → List Token}
    {items : List β} (h : ∀ b ∈ items, Spells (text b) (tokens b)) :
    Spells (Text.join ['\n'] (items.map text)) (items.flatMap tokens) := by
  induction items with
  | nil => exact spells_nil
  | cons b items ih =>
    have hfirst := h b List.mem_cons_self
    have hrest := ih fun a ha => h a (List.mem_cons_of_mem _ ha)
    cases items with
    | nil => simpa [Text.join_singleton] using hfirst
    | cons a items =>
      have hbelow := hrest.blank_cons '\n'
      rw [List.map_cons, List.map_cons, Text.join_cons_cons, List.flatMap_cons]
      exact hfirst.append hbelow Text.apart_cons

end PolynomialText
