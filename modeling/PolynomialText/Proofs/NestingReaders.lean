import PolynomialText.Declaration
import PolynomialText.Expression
import PolynomialText.Proofs.ScannerView

/-!
# Readers under a higher limit on nesting

A reader is run twice on one session, the second time under a higher limit on nesting.
`Reader.Endures` says that the second run gives what the first one gave, unless the first one failed
because it passed its limit.

That failure could be hidden: a word that is no variable is read as a literal, and the reason why the
literal is refused becomes part of another failure. But a word is a flat text, of word characters and
signs. It opens nothing, so that no limit is passed inside it. Readers are therefore compared in two
ways: on any session, and on sessions that see nothing but flat text, where the two runs never
differ. In both cases a word that is held is flat.
-/

namespace PolynomialText

/-! ### Flat text -/

/-- A character of a word, or a sign. -/
def isFlatChar (c : Char) : Bool := isWordChar c || c = '+' || c = '-'

/-- A text of words and signs. -/
def Text.Flat (t : Text) : Prop := ∀ c ∈ t, isFlatChar c = true

instance : DecidablePred Text.Flat := fun t => inferInstanceAs (Decidable (∀ c ∈ t, _))

theorem isFlatChar_of_isWordChar {c : Char} (h : isWordChar c = true) : isFlatChar c = true := by
  simp [isFlatChar, h]

namespace Text.Flat

variable {t u : Text}

theorem append (ht : Flat t) (hu : Flat u) : Flat (t ++ u) := fun c hc =>
  (List.mem_append.1 hc).elim (ht c) (hu c)

theorem cons {c : Char} (hc : isFlatChar c = true) (ht : Flat t) : Flat (c :: t) := fun d hd =>
  (List.mem_cons.1 hd).elim (fun h => h ▸ hc) (ht d)

theorem of_subset (ht : Flat t) (h : ∀ c ∈ u, c ∈ t) : Flat u := fun c hc => ht c (h c hc)

theorem dropWhile (ht : Flat t) (p : Char → Bool) : Flat (t.dropWhile p) :=
  ht.of_subset fun _ hc => (List.dropWhile_sublist p).mem hc

theorem takeWhile (ht : Flat t) (p : Char → Bool) : Flat (t.takeWhile p) :=
  ht.of_subset fun _ hc => (List.takeWhile_sublist p).mem hc

theorem head {c : Char} (h : Flat (c :: t)) : isFlatChar c = true := h c List.mem_cons_self

theorem tail {c : Char} (h : Flat (c :: t)) : Flat t :=
  h.of_subset fun _ hd => List.mem_cons_of_mem _ hd

end Text.Flat

/-- A token that may be seen: every word is flat, and in flat text there are only words and signs. -/
def Token.Flat (plain : Bool) : Token → Prop
  | word w => Text.Flat w
  | quoted _ => plain = false
  | op c => plain = true → c = '+' ∨ c = '-'
  | eof => True

/-- What a scanner sees: a word that is held is flat, and in flat text so is everything else. -/
structure Scanner.Flat (plain : Bool) (s : Scanner) : Prop where
  held : ∀ t, s.held = some t → t.Flat plain
  buffer : plain = true → Text.Flat s.buffer
  pending : plain = true → ∀ t, .line t ∈ s.pending → Text.Flat t

/-- A step of a scanner leaves what may be seen, and its results have a property. -/
def Scanner.Leaves {α : Type} (plain : Bool) (Q : α → Prop) :
    EStateM.Result ParseError Scanner α → Prop
  | .ok a s => s.Flat plain ∧ Q a
  | .error _ s => s.Flat plain

section

variable {plain : Bool}

/-- The tokens of flat text are words and signs, and everywhere the words are flat. -/
theorem Token.flat_lex {c : Char} {rest : Text} (h : plain = true → Text.Flat (c :: rest)) :
    (lex c rest).1.Flat plain ∧ (plain = true → Text.Flat (lex c rest).2) := by
  unfold lex
  split
  · -- A quote is no character of flat text.
    rename_i hquote
    have hopen : isFlatChar c = false := by
      rcases hquote with rfl | rfl
      · decide
      · decide
    have hplain : plain = false := by
      rw [Bool.eq_false_iff]
      intro htrue
      rw [(h htrue).head] at hopen
      contradiction
    exact ⟨hplain, fun htrue => absurd (hplain.symm.trans htrue) (by decide)⟩
  · split
    · rename_i hword
      refine ⟨.cons (isFlatChar_of_isWordChar hword) fun d hd => ?_, fun htrue => ?_⟩
      · exact isFlatChar_of_isWordChar (List.all_eq_true.1 List.all_takeWhile d hd)
      · exact (h htrue).tail.dropWhile _
    · rename_i hword
      refine ⟨fun htrue => ?_, fun htrue => (h htrue).tail⟩
      simpa [isFlatChar, hword] using (h htrue).head

/-- The same behind blanks and comments. -/
theorem Token.flat_lex_of_skip {line line' : Nat} {buffer : Text} {c : Char} {rest : Text}
    (h : plain = true → Text.Flat buffer) (hskip : skip false line buffer = (line', c :: rest)) :
    (lex c rest).1.Flat plain ∧ (plain = true → Text.Flat (lex c rest).2) := by
  apply flat_lex
  intro htrue
  have hsuffix := skip_suffix false line buffer
  rw [hskip] at hsuffix
  exact (h htrue).of_subset fun _ hd => hsuffix.subset hd

namespace Scanner

/-- A scan gives a token that may be seen. -/
theorem flat_scan {line : Nat} {buffer : Text} {pending : List Read}
    (hbuffer : plain = true → Text.Flat buffer)
    (hpending : plain = true → ∀ t, .line t ∈ pending → Text.Flat t) :
    Leaves plain (Token.Flat plain) (scan line buffer pending) := by
  have hfree : ∀ (t : Token), (none : Option Token) = some t → t.Flat plain := fun _ h => nomatch h
  have hempty : plain = true → Text.Flat [] := fun _ c hc => absurd hc List.not_mem_nil
  induction pending generalizing line buffer with
  | nil =>
    rw [scan]
    cases hskip : Token.skip false line buffer with
    | mk line' found =>
      cases found with
      | nil => exact ⟨⟨hfree, hempty, hpending⟩, trivial⟩
      | cons c rest =>
        have hlex := Token.flat_lex_of_skip hbuffer hskip
        exact ⟨⟨hfree, hlex.2, hpending⟩, hlex.1⟩
  | cons read others ih =>
    have hothers : plain = true → ∀ t, .line t ∈ others → Text.Flat t := fun htrue t ht =>
      hpending htrue t (List.mem_cons_of_mem _ ht)
    rw [scan]
    cases hskip : Token.skip false line buffer with
    | mk line' found =>
      cases found with
      | nil =>
        cases read with
        | failure message => exact ⟨hfree, hempty, hothers⟩
        | line t => exact ih (fun htrue => hpending htrue t List.mem_cons_self) hothers
      | cons c rest =>
        have hlex := Token.flat_lex_of_skip hbuffer hskip
        exact ⟨⟨hfree, hlex.2, hpending⟩, hlex.1⟩

theorem flat_next {s : Scanner} (h : s.Flat plain) : Leaves plain (Token.Flat plain) (next s) := by
  cases hheld : s.held with
  | some t =>
    rw [next_of_held hheld]
    refine ⟨⟨fun u hu => ?_, h.buffer, h.pending⟩, h.held t hheld⟩
    contradiction
  | none =>
    have hnext : next s = scan s.line s.buffer s.pending := by simp [next, hheld]
    rw [hnext]
    exact flat_scan h.buffer h.pending

theorem flat_pushBack {s : Scanner} {t : Token} (ht : t.Flat plain) (h : s.Flat plain) :
    Leaves plain (fun _ => True) (pushBack t s) := by
  unfold pushBack
  cases s.held with
  | some held => exact h
  | none => exact ⟨⟨fun u hu => Option.some.inj hu ▸ ht, h.buffer, h.pending⟩, trivial⟩

theorem flat_lookAhead {s : Scanner} (hs : s.Flat plain) {n : Nat} {buffer : Text}
    {pending : List Read} (hbuffer : plain = true → Text.Flat buffer)
    (hpending : plain = true → ∀ t, .line t ∈ pending → Text.Flat t) :
    Leaves plain (fun _ => True) (lookAhead s n buffer pending) := by
  induction pending generalizing buffer with
  | nil =>
    unfold lookAhead
    cases Token.significant? false n buffer with
    | some c => exact ⟨⟨hs.held, hbuffer, hpending⟩, trivial⟩
    | none => exact ⟨⟨hs.held, hbuffer, hpending⟩, trivial⟩
  | cons read others ih =>
    have hothers : plain = true → ∀ t, .line t ∈ others → Text.Flat t := fun htrue t ht =>
      hpending htrue t (List.mem_cons_of_mem _ ht)
    unfold lookAhead
    cases Token.significant? false n buffer with
    | some c => exact ⟨⟨hs.held, hbuffer, hpending⟩, trivial⟩
    | none =>
      cases read with
      | failure message => exact ⟨hs.held, hbuffer, hothers⟩
      | line t =>
        apply ih _ hothers
        intro htrue
        exact (hbuffer htrue).append (hpending htrue t List.mem_cons_self)

theorem flat_peek {s : Scanner} (h : s.Flat plain) (n : Nat) :
    Leaves plain (fun _ => True) (peek n s) := by
  unfold peek
  dsimp only
  cases ((s.held.map Token.lexeme).getD [])[n]? with
  | some c => exact ⟨h, trivial⟩
  | none => exact flat_lookAhead h h.buffer h.pending

end Scanner

/-- The characters of the lines are those of the text. -/
theorem Text.mem_of_mem_linesFrom {unfinished t line : Text} {c : Char}
    (hline : line ∈ linesFrom unfinished t) (hc : c ∈ line) : c ∈ unfinished ++ t := by
  induction t generalizing unfinished with
  | nil =>
    rw [linesFrom] at hline
    split at hline
    · exact absurd hline List.not_mem_nil
    · rw [List.mem_singleton.1 hline] at hc
      exact List.mem_append_left _ hc
  | cons d rest ih =>
    rw [linesFrom] at hline
    split at hline
    · rcases List.mem_cons.1 hline with rfl | hrest
      · rw [List.append_cons]
        exact List.mem_append_left _ hc
      · exact List.mem_append_right _ (List.mem_cons_of_mem d (ih hrest))
    · rw [List.append_cons]
      exact ih hline

/-- At the start of a flat text flat text is seen. -/
theorem Scanner.flat_ofText {t : Text} (h : plain = true → Text.Flat t) :
    (ofText t).Flat plain := by
  refine ⟨fun _ hheld => (nomatch hheld), fun _ _ hc => absurd hc List.not_mem_nil, ?_⟩
  intro htrue line hline
  change Read.line line ∈ Read.ofText t at hline
  rw [Read.ofText_eq_lines] at hline
  obtain ⟨_, hmem, heq⟩ := List.mem_map.1 hline
  obtain rfl := Read.line.inj heq
  exact (h htrue).of_subset fun c hc => Text.mem_of_mem_linesFrom hmem hc

/-- At the start of a source no word is held. -/
theorem Scanner.flat_ofReads (reads : List Read) : (ofReads reads).Flat false :=
  ⟨fun _ h => (nomatch h), fun h => (nomatch h), fun h => (nomatch h)⟩

end

/-! ### Two limits -/

/-- The limits with another limit on nesting. -/
def Limits.raise (limits : Limits) (d : UInt64) : Limits := { limits with maxDepth := d }

/-- The session under another limit on nesting. -/
def Session.raise (s : Session) (d : UInt64) : Session := { s with limits := s.limits.raise d }

/-- A failure because the limit on nesting was passed. -/
def ParseError.TooDeep (limit : UInt64) (e : ParseError) : Prop :=
  ∃ line, e = .malformed line (.tooDeep limit.toNat)

namespace Reader

variable {plain : Bool} {α β : Type}

/-- Under a higher limit on nesting the reader gives the same, unless it fails because it passes the
limit; in flat text it never does. The limits stay as they are, and results have the property. -/
def Endures (plain : Bool) (r : Reader α) (Q : α → Prop) : Prop :=
  ∀ (s : Session) (d : UInt64), s.scanner.Flat plain → s.limits.maxDepth ≤ d →
    match r s with
    | .ok a t =>
      r (s.raise d) = .ok a (t.raise d) ∧ t.limits = s.limits ∧ t.scanner.Flat plain ∧ Q a
    | .error e t =>
      (r (s.raise d) = .error e (t.raise d) ∨ plain = false ∧ e.TooDeep s.limits.maxDepth) ∧
        t.limits = s.limits ∧ t.scanner.Flat plain

section

variable {r : Reader α} {f : α → Reader β} {Q Q' : α → Prop} {S : β → Prop}

theorem Endures.pure {a : α} (h : Q a) : Endures plain (pure a) Q :=
  fun _ _ hs _ => ⟨rfl, rfl, hs, h⟩

theorem endures_throw (e : ParseError) : Endures plain (throw e) Q :=
  fun _ _ hs _ => ⟨.inl rfl, rfl, hs⟩

/-- The property of the results may be weakened. -/
theorem Endures.imp (hr : Endures plain r Q) (h : ∀ a, Q a → Q' a) : Endures plain r Q' := by
  intro s d hs hd
  have hrun := hr s d hs hd
  split at hrun
  · exact ⟨hrun.1, hrun.2.1, hrun.2.2.1, h _ hrun.2.2.2⟩
  · exact hrun

/-- Two readers one after the other. -/
theorem Endures.bind (hr : Endures plain r Q) (hf : ∀ a, Q a → Endures plain (f a) S) :
    Endures plain (r >>= f) S := by
  intro s d hs hd
  have hfirst := hr s d hs hd
  have hbind : ∀ u, (r >>= f) u = EStateM.bind r f u := fun _ => rfl
  rw [hbind, hbind]
  unfold EStateM.bind
  cases hrun : r s with
  | error e t =>
    rw [hrun] at hfirst
    refine ⟨hfirst.1.imp_left fun h => ?_, hfirst.2⟩
    rw [h]
  | ok a t =>
    rw [hrun] at hfirst
    obtain ⟨hraise, hlimits, ht, hQ⟩ := hfirst
    have hsecond := hf a hQ t d ht (hlimits ▸ hd)
    rw [hraise]
    dsimp only
    rw [hlimits] at hsecond
    exact hsecond

theorem endures_scanning {step : EStateM ParseError Scanner α}
    (h : ∀ s : Scanner, s.Flat plain → Scanner.Leaves plain Q (step s)) :
    Endures plain (scanning step) Q := by
  intro s d hs _
  have hstep := h s.scanner hs
  have hraise : (s.raise d).scanner = s.scanner := rfl
  unfold scanning
  rw [hraise]
  cases hrun : step s.scanner with
  | ok a scanner =>
    rw [hrun] at hstep
    exact ⟨rfl, rfl, hstep⟩
  | error e scanner =>
    rw [hrun] at hstep
    exact ⟨.inl rfl, rfl, hstep⟩

end

theorem endures_advance : Endures plain advance (Token.Flat plain) :=
  endures_scanning fun _ => Scanner.flat_next

theorem endures_pushBack {t : Token} (ht : t.Flat plain) :
    Endures plain (pushBack t) fun _ => True :=
  endures_scanning fun _ => Scanner.flat_pushBack ht

theorem endures_peek (n : Nat) : Endures plain (peek n) fun _ => True :=
  endures_scanning fun _ hs => Scanner.flat_peek hs n

theorem endures_digitAhead (n : Nat) : Endures plain (digitAhead n) fun _ => True :=
  (endures_peek n).bind fun _ _ => .pure trivial

theorem endures_line : Endures plain line fun _ => True := fun _ _ hs _ => ⟨rfl, rfl, hs, trivial⟩

theorem endures_passes : Endures plain passes fun _ => True :=
  fun _ _ hs _ => ⟨rfl, rfl, hs, trivial⟩

theorem endures_advise (note : String) : Endures plain (advise note) fun _ => True :=
  fun _ _ hs _ => ⟨rfl, rfl, hs, trivial⟩

section

variable {Q : α → Prop}

theorem endures_malformed (cause : Malformation) : Endures plain (malformed cause) Q :=
  endures_line.bind fun _ _ => endures_throw _

theorem endures_invalidRing (cause : DescriptorFault) : Endures plain (invalidRing cause) Q :=
  endures_line.bind fun _ _ => endures_throw _

theorem endures_exhausted : Endures plain exhausted Q :=
  endures_line.bind fun _ _ => endures_throw _

theorem endures_literalFailure (literal : Text) (fault : LiteralFault) :
    Endures plain (literalFailure literal fault) Q := by
  unfold literalFailure
  split
  · exact endures_malformed _
  · exact endures_line.bind fun _ _ => endures_throw _

theorem endures_orInvalidRing (result : Except RingFault α) :
    Endures plain (orInvalidRing result) fun a => result = .ok a := by
  cases result with
  | ok a => exact .pure rfl
  | error fault => exact endures_invalidRing _

/-- The size of machine words may be looked at. -/
theorem endures_wordModulusLimit {f : UInt64 → Reader α} (hf : ∀ k, Endures plain (f k) Q) :
    Endures plain (do f (← get).limits.wordModulusLimit) Q :=
  fun s d hs hd => hf s.limits.wordModulusLimit s d hs hd

/-- Where a level can be opened, the check of the limit may fail. -/
theorem endures_checkDepth (extra : Nat) : Endures false (checkDepth extra) fun _ => True := by
  intro s d hs hd
  have hrun : ∀ u : Session, checkDepth extra u = (if u.limits.maxDepth.toNat < u.depth + extra then
    malformed (.tooDeep u.limits.maxDepth.toNat) else pure () : Reader Unit) u := fun _ => rfl
  have hle : s.limits.maxDepth.toNat ≤ d.toNat := UInt64.le_iff_toNat_le.1 hd
  rw [hrun, hrun]
  by_cases hdeep : s.limits.maxDepth.toNat < s.depth + extra
  · rw [if_pos hdeep]
    exact ⟨.inr ⟨rfl, s.scanner.line, rfl⟩, rfl, hs⟩
  · have hraised : ¬ (s.raise d).limits.maxDepth.toNat < (s.raise d).depth + extra := by
      change ¬ d.toNat < s.depth + extra
      omega
    rw [if_neg hdeep, if_neg hraised]
    exact ⟨rfl, rfl, hs, trivial⟩

theorem Endures.deeper {r : Reader α} (hr : Endures plain r Q) : Endures plain (deeper r) Q := by
  intro s d hs hd
  have hrun := hr { s with depth := s.depth + 1 } d hs hd
  have hraise : Session.raise { s with depth := s.depth + 1 } d =
      { s.raise d with depth := (s.raise d).depth + 1 } := rfl
  rw [hraise] at hrun
  unfold Reader.deeper
  cases hresult : r { s with depth := s.depth + 1 } with
  | ok a t =>
    rw [hresult] at hrun
    refine ⟨?_, hrun.2⟩
    rw [hrun.1]
    rfl
  | error e t =>
    rw [hresult] at hrun
    refine ⟨hrun.1.imp_left fun h => ?_, hrun.2⟩
    rw [h]
    rfl

theorem Endures.nested {r : Reader α} (hr : Endures false r Q) : Endures false (nested r) Q :=
  (endures_checkDepth 1).bind fun _ _ => hr.deeper

end

theorem endures_skipOp (c : Char) : Endures plain (skipOp c) fun _ => True := by
  apply endures_advance.bind
  intro t ht
  split
  · exact endures_pushBack ht
  · exact .pure trivial

/-- A loop whose passes endure a higher limit endures it. -/
theorem endures_loop {σ : Type} {step : σ → Reader (σ ⊕ β)}
    (hstep : ∀ state, Endures plain (step state) fun _ => True) (state : σ) :
    Endures plain (loop step state) fun _ => True := by
  apply endures_passes.bind
  intro fuel _
  induction fuel generalizing state with
  | zero => exact endures_exhausted
  | succ fuel ih =>
    apply (hstep state).bind
    intro next _
    cases next with
    | inl state' => exact ih state'
    | inr result => exact .pure trivial

/-! ### Exponents and braces -/

theorem endures_noExponent {t : Token} (ht : t.Flat plain) :
    Endures plain (noExponent t) fun _ => True :=
  (endures_pushBack ht).bind fun _ _ => .pure trivial

theorem endures_exponentWord : Endures plain exponentWord fun _ => True := by
  apply endures_advance.bind
  intro t ht
  cases t with
  | word w =>
    dsimp only
    split
    · exact endures_malformed _
    · split
      · exact .pure trivial
      · rename_i c rest hdrop
        have hrest : Text.Flat (c :: rest) := hdrop ▸ Text.Flat.dropWhile ht Char.isDigit
        split
        · exact (endures_pushBack (t := .word (c :: rest)) hrest).bind fun _ _ => .pure trivial
        · exact endures_malformed _
  | quoted t => exact endures_malformed _
  | op c => exact endures_malformed _
  | eof => exact endures_malformed _

theorem endures_exponentAfter {mark : Token} (hmark : mark.Flat plain) (ahead : Nat) :
    Endures plain (exponentAfter mark ahead) fun _ => True := by
  apply (endures_peek ahead).bind
  intro found _
  cases found with
  | none => exact endures_noExponent hmark
  | some c =>
    dsimp only
    split
    · split
      · exact endures_advance.bind fun _ _ => endures_exponentWord
      · exact endures_exponentWord
    · split
      · exact endures_malformed _
      · split
        · apply (endures_digitAhead (ahead + 1)).bind
          intro digit _
          cases digit with
          | true => exact endures_malformed _
          | false => exact endures_noExponent hmark
        · split
          · exact endures_malformed _
          · exact endures_noExponent hmark

theorem endures_exponent : Endures plain exponent fun _ => True := by
  apply endures_advance.bind
  intro t ht
  split
  · exact endures_exponentAfter ht 0
  · split
    · apply (endures_peek 0).bind
      intro found _
      split
      · exact endures_exponentAfter ht 1
      · exact endures_noExponent ht
    · exact endures_noExponent ht

theorem endures_bracesStep (b : Braces) : Endures false (bracesStep b) fun _ => True := by
  apply endures_advance.bind
  intro t _
  cases t with
  | eof => exact endures_malformed _
  | word w => exact .pure trivial
  | quoted t => exact .pure trivial
  | op c =>
    dsimp only
    split
    · split
      · exact .pure trivial
      · exact .pure trivial
    · split
      · exact (endures_checkDepth _).bind fun _ _ => .pure trivial
      · exact .pure trivial

theorem endures_bracesText : Endures false bracesText fun _ => True :=
  endures_loop endures_bracesStep _

/-! ### Variables and term orders -/

theorem endures_variableStep (closer : Char) (names : List Text) :
    Endures plain (variableStep closer names) fun _ => True := by
  apply endures_advance.bind
  intro t _
  cases t with
  | eof => exact .pure trivial
  | word w => exact .pure trivial
  | quoted t => exact .pure trivial
  | op c => exact .pure trivial

theorem endures_variableList : Endures plain variableList fun _ => True := by
  apply endures_advance.bind
  intro t ht
  split
  · exact endures_loop (endures_variableStep _) _
  · split
    · exact endures_loop (endures_variableStep _) _
    · exact (endures_pushBack ht).bind fun _ _ => .pure trivial

theorem endures_weightStep (row : List UInt64) : Endures plain (weightStep row) fun _ => True := by
  apply endures_advance.bind
  intro t _
  cases t with
  | eof => exact .pure trivial
  | word w =>
    dsimp only
    split
    · exact .pure trivial
    · exact endures_invalidRing _
  | quoted t => exact endures_invalidRing _
  | op c =>
    dsimp only
    split
    · exact .pure trivial
    · split
      · exact .pure trivial
      · exact endures_invalidRing _

theorem endures_weightRow : Endures plain weightRow fun _ => True :=
  endures_loop endures_weightStep _

theorem endures_weightList : Endures plain weightList fun _ => True := by
  apply endures_advance.bind
  intro t ht
  split
  · exact endures_weightRow
  · exact (endures_pushBack ht).bind fun _ _ => .pure trivial

theorem endures_weightArrayStep (rows : List (List UInt64)) :
    Endures plain (weightArrayStep rows) fun _ => True := by
  apply endures_advance.bind
  intro t _
  split
  · exact endures_weightRow.bind fun _ _ => .pure trivial
  · split
    · exact .pure trivial
    · split
      · exact .pure trivial
      · exact endures_invalidRing _

theorem endures_weightArray : Endures plain weightArray fun _ => True := by
  apply endures_advance.bind
  intro t ht
  split
  · apply (endures_peek 0).bind
    intro found _
    split
    · exact endures_loop endures_weightArrayStep _
    · exact endures_weightRow.bind fun _ _ => .pure trivial
  · exact (endures_pushBack ht).bind fun _ _ => .pure trivial

theorem endures_splitPoint : Endures plain splitPoint fun _ => True := by
  apply endures_advance.bind
  intro t _
  cases t with
  | word w =>
    dsimp only
    split
    · exact .pure trivial
    · exact endures_invalidRing _
  | quoted t => exact endures_invalidRing _
  | op c => exact endures_invalidRing _
  | eof => exact endures_invalidRing _

theorem endures_splitIndex : Endures plain splitIndex fun _ => True := by
  apply endures_advance.bind
  intro t ht
  split
  · apply endures_splitPoint.bind
    intro i _
    exact (endures_skipOp '|').bind fun _ _ => .pure trivial
  · split
    · apply endures_splitPoint.bind
      intro i _
      apply endures_advance.bind
      intro next hnext
      split
      · apply endures_splitPoint.bind
        intro j _
        exact (endures_skipOp ']').bind fun _ _ => .pure trivial
      · apply (endures_pushBack hnext).bind
        intro _ _
        exact (endures_skipOp ']').bind fun _ _ => .pure trivial
    · exact (endures_pushBack ht).bind fun _ _ => .pure trivial

theorem endures_fitting (nvars : Nat) (order : TermOrder) :
    Endures plain (fitting nvars order) fun _ => True := by
  unfold fitting
  split
  · exact endures_invalidRing _
  · exact .pure trivial

theorem endures_termOrder (nvars : Nat) : Endures plain (termOrder nvars) fun _ => True := by
  apply endures_advance.bind
  intro t ht
  have hnone : Endures plain (do pushBack t; return ({} : TermOrder)) fun _ => True :=
    (endures_pushBack ht).bind fun _ _ => .pure trivial
  cases t with
  | word w =>
    dsimp only
    split
    · exact endures_weightArray.bind fun _ _ => endures_fitting nvars _
    · split
      · exact endures_splitIndex.bind fun _ _ => endures_fitting nvars _
      · exact hnone
  | quoted u => exact hnone
  | op c => exact hnone
  | eof => exact hnone

end Reader

end PolynomialText
