import PolynomialText.Proofs.ScannerView

/-!
# Readers without defects

Two defects could stop a reader: a token is put back while another one is held, or a loop passes its
bound. `Reader.Keeps` says that neither happens, and that the depth of nesting after a run is the
depth before it, whether the run succeeds or fails. Its conditions speak about the scanner: whether a
token is held, and how much is left to be read. Every pass of a loop has to leave less than it found,
so that a bound from the start of the loop is never passed.

Literals are read by readers of their own, whose failures become reasons of a refused literal. A
defect counts wherever it is found, also inside such a reason.
-/

namespace PolynomialText

/-! ### Defects -/

mutual

/-- A defect is among the reasons of a refused literal. -/
def LiteralFault.Defective : LiteralFault → Prop
  | .expression error => error.Defective true
  | _ => False

/-- A failure is a defect, or, if its reasons count as well, one of them is. -/
def ParseError.Defective (deep : Bool) : ParseError → Prop
  | .defect _ _ => True
  | .unknownLiteral _ _ reason => deep = true ∧ reason.Defective
  | .literal _ _ reason => deep = true ∧ reason.Defective
  | _ => False

end

/-! ### What a scanner has left -/

/-- A token that a scanner can hold: the end of the source, or one that stands for something. -/
def Token.Proper (t : Token) : Prop := t = .eof ∨ t.Solid

/-- A token and what is left behind it are no more than the text. -/
theorem Token.weight_lex_le (c : Char) (rest : Text) :
    (lex c rest).1.weight + (lex c rest).2.length ≤ rest.length + 1 := by
  have hrun : ∀ p : Char → Bool,
      (rest.takeWhile p).length + (rest.dropWhile p).length = rest.length := by
    intro p
    rw [← List.length_append, List.takeWhile_append_dropWhile]
  have hone : ∀ t : Text, (Text.dropOne c t).length ≤ t.length := by
    intro t
    cases t with
    | nil => simp [Text.dropOne, Text.strip?]
    | cons d t => by_cases hd : d = c <;> simp [Text.dropOne, Text.strip?, hd]
  unfold lex
  split
  · have hle := hone (rest.dropWhile (isQuotedChar c))
    have hsum := hrun (isQuotedChar c)
    simp only [weight]
    omega
  · split
    · have hsum := hrun isWordChar
      simp only [weight, List.length_cons]
      omega
    · simp only [weight]
      omega

namespace Scanner

/-- A token that is held is proper. -/
def Proper (s : Scanner) : Prop := ∀ t, s.held = some t → t.Proper

/-- Without a held token a scanner is proper. -/
theorem proper_of_free {s : Scanner} (h : s.held = none) : s.Proper := by
  intro t ht
  rw [h] at ht
  contradiction

/-- Less than an amount is left to be read. -/
def Below (k : Nat) (s : Scanner) : Prop := s.remaining < k

/-- A token was read and can be put back: with it, less than an amount is left. -/
structure Behind (k : Nat) (t : Token) (s : Scanner) : Prop where
  free : s.held = none
  proper : t.Proper
  below : s.remaining + t.weight < k

/-- Without the token less is left. -/
theorem Behind.toBelow {k : Nat} {t : Token} {s : Scanner} (h : s.Behind k t) : s.Below k :=
  Nat.lt_of_le_of_lt (Nat.le_add_right _ _) h.below

/-- Behind a solid token less is left than before. -/
theorem Behind.below_pred {k : Nat} {t : Token} {s : Scanner} (h : s.Behind k t) (ht : t ≠ .eof) :
    s.Below (k - 1) := by
  have hpos : 0 < t.weight := h.proper.resolve_left ht
  have hbelow := h.below
  unfold Below
  omega

/-- Another token that is no longer can be put back as well. -/
theorem Behind.replace {k : Nat} {t u : Token} {s : Scanner} (h : s.Behind k t) (hu : u.Solid)
    (hle : u.weight ≤ t.weight) : s.Behind k u :=
  ⟨h.free, .inr hu, Nat.lt_of_le_of_lt (Nat.add_le_add_left hle _) h.below⟩

/-- A token and what is left behind blanks and comments are no more than the buffer. -/
theorem weight_lex_of_skip {line line' : Nat} {buffer : Text} {c : Char} {rest : Text}
    (h : Token.skip false line buffer = (line', c :: rest)) :
    (Token.lex c rest).2.length + (Token.lex c rest).1.weight ≤ buffer.length := by
  have hskip := Token.length_skip_le false line buffer
  have hlex := Token.weight_lex_le c rest
  rw [h, List.length_cons] at hskip
  omega

/-- What a scan gives: a proper token, with less left behind it, or a failure of the source. -/
theorem scan_spec (deep : Bool) (line : Nat) (buffer : Text) (pending : List Read) :
    match scan line buffer pending with
    | .ok t s => s.held = none ∧ t.Proper ∧
        s.remaining + t.weight ≤ buffer.length + Read.totalSize pending
    | .error e s => ¬ e.Defective deep ∧ s.held = none := by
  induction pending generalizing line buffer with
  | nil =>
    rw [scan]
    cases hskip : Token.skip false line buffer with
    | mk line' found =>
      cases found with
      | nil => exact ⟨rfl, .inl rfl, Nat.zero_le _⟩
      | cons c rest =>
        have hlex := weight_lex_of_skip hskip
        refine ⟨rfl, .inr (Token.solid_lex c rest), ?_⟩
        simpa [remaining, Read.totalSize] using hlex
  | cons read others ih =>
    rw [scan]
    cases hskip : Token.skip false line buffer with
    | mk line' found =>
      cases found with
      | nil =>
        cases read with
        | failure message => exact ⟨id, rfl⟩
        | line t =>
          have hrest := ih line' t
          dsimp only
          split at hrest
          · obtain ⟨hfree, hproper, hle⟩ := hrest
            refine ⟨hfree, hproper, ?_⟩
            simp only [Read.totalSize, Read.size]
            omega
          · exact hrest
      | cons c rest =>
        have hlex := weight_lex_of_skip hskip
        refine ⟨rfl, .inr (Token.solid_lex c rest), ?_⟩
        simp only [remaining, Option.map_none, Option.getD_none]
        omega

/-- What the next token is: a proper one, with less left behind it, or a failure of the source. -/
theorem next_spec (deep : Bool) {s : Scanner} (h : s.Proper) :
    match next s with
    | .ok t s' => s'.held = none ∧ t.Proper ∧ s'.remaining + t.weight ≤ s.remaining
    | .error e s' => ¬ e.Defective deep ∧ s'.held = none := by
  cases hheld : s.held with
  | some t =>
    rw [next_of_held hheld]
    refine ⟨rfl, h t hheld, ?_⟩
    simp [remaining, hheld]
  | none =>
    have hscan := scan_spec deep s.line s.buffer s.pending
    have hnext : next s = scan s.line s.buffer s.pending := by simp [next, hheld]
    rw [hnext]
    split at hscan
    · simpa [remaining, hheld] using hscan
    · exact hscan

/-- The same scanner with more characters in its buffer and no more left to be read. -/
structure Extends (s s' : Scanner) : Prop where
  held_eq : s'.held = s.held
  remaining_le : s'.remaining ≤ s.remaining
  buffer_prefix : s.buffer <+: s'.buffer

/-- What looking ahead gives: a significant character of the longer buffer, if there is one, or a
failure of the source. -/
theorem lookAhead_spec (deep : Bool) (s : Scanner) (n : Nat) (buffer : Text) (pending : List Read) :
    match lookAhead s n buffer pending with
    | .ok found s' => found = Token.significant? false n s'.buffer ∧
        Extends { s with buffer := buffer, pending := pending } s'
    | .error e s' =>
      ¬ e.Defective deep ∧ Extends { s with buffer := buffer, pending := pending } s' := by
  induction pending generalizing buffer with
  | nil =>
    unfold lookAhead
    cases hfound : Token.significant? false n buffer with
    | some c => exact ⟨hfound.symm, rfl, Nat.le_refl _, List.prefix_rfl⟩
    | none => exact ⟨hfound.symm, rfl, Nat.le_refl _, List.prefix_rfl⟩
  | cons read others ih =>
    unfold lookAhead
    cases hfound : Token.significant? false n buffer with
    | some c => exact ⟨hfound.symm, rfl, Nat.le_refl _, List.prefix_rfl⟩
    | none =>
      cases read with
      | failure message =>
        refine ⟨id, rfl, ?_, List.prefix_rfl⟩
        simp [remaining, Read.totalSize, Read.size]
      | line t =>
        -- A line moves from what is pending into the buffer.
        have hmove : ∀ s', Extends { s with buffer := buffer ++ t, pending := others } s' →
            Extends { s with buffer := buffer, pending := .line t :: others } s' := by
          intro s' hs'
          refine ⟨hs'.held_eq, ?_, (List.prefix_append buffer t).trans hs'.buffer_prefix⟩
          have hle := hs'.remaining_le
          simp only [remaining, Read.totalSize, Read.size, List.length_append] at hle ⊢
          omega
        have hrest := ih (buffer ++ t)
        dsimp only
        split at hrest
        · exact ⟨hrest.1, hmove _ hrest.2⟩
        · exact ⟨hrest.1, hmove _ hrest.2⟩

/-- What looking ahead gives, also past a held token. -/
theorem peek_spec (deep : Bool) (s : Scanner) (n : Nat) :
    match peek n s with
    | .ok found s' => (s.held = none → found = Token.significant? false n s'.buffer) ∧ s.Extends s'
    | .error e s' => ¬ e.Defective deep ∧ s.Extends s' := by
  unfold peek
  dsimp only
  cases hfound : ((s.held.map Token.lexeme).getD [])[n]? with
  | some c =>
    refine ⟨fun hheld => ?_, rfl, Nat.le_refl _, List.prefix_rfl⟩
    simp [hheld] at hfound
  | none =>
    have hlook := lookAhead_spec deep s (n - ((s.held.map Token.lexeme).getD []).length) s.buffer
      s.pending
    dsimp only
    generalize lookAhead s (n - ((s.held.map Token.lexeme).getD []).length) s.buffer s.pending =
      result at hlook ⊢
    cases result with
    | ok found s' =>
      refine ⟨fun hheld => ?_, hlook.2⟩
      simpa [hheld] using hlook.1
    | error e s' => exact hlook

end Scanner

/-! ### Readers -/

namespace Reader

/-- From every session that meets the first condition, the reader succeeds with the second one, or
fails without a defect. In both cases it leaves the depth as it was. -/
def Keeps {α : Type} (deep : Bool) (P : Scanner → Prop) (r : Reader α)
    (Q : α → Scanner → Prop) : Prop :=
  ∀ s : Session, s.scanner.Proper → P s.scanner →
    match r s with
    | .ok a s' => s'.depth = s.depth ∧ s'.scanner.Proper ∧ Q a s'.scanner
    | .error e s' => ¬ e.Defective deep ∧ s'.depth = s.depth ∧ s'.scanner.Proper

section

variable {deep : Bool} {α β : Type} {r : Reader α} {f : α → Reader β} {P P' : Scanner → Prop}
  {Q Q' : α → Scanner → Prop} {S : β → Scanner → Prop}

/-- A result that is given without reading. -/
theorem Keeps.pure {a : α} (h : ∀ s, P s → Q a s) : Keeps deep P (pure a) Q :=
  fun s hproper hP => ⟨rfl, hproper, h s.scanner hP⟩

/-- Two readers one after the other. -/
theorem Keeps.bind (hr : Keeps deep P r Q) (hf : ∀ a, Keeps deep (Q a) (f a) S) :
    Keeps deep P (r >>= f) S := by
  intro s hproper hP
  have hfirst := hr s hproper hP
  change match EStateM.bind r f s with | .ok _ _ => _ | .error _ _ => _
  unfold EStateM.bind
  cases hrun : r s with
  | error e s' =>
    rw [hrun] at hfirst
    exact hfirst
  | ok a s' =>
    rw [hrun] at hfirst
    obtain ⟨hdepth, hproper', hQ⟩ := hfirst
    have hsecond := hf a s' hproper' hQ
    dsimp only
    split at hsecond
    · exact ⟨hsecond.1.trans hdepth, hsecond.2⟩
    · exact ⟨hsecond.1, hsecond.2.1.trans hdepth, hsecond.2.2⟩

/-- The first condition may be strengthened and the second one weakened. -/
theorem Keeps.imp (hr : Keeps deep P r Q) (hP : ∀ s, P' s → P s) (hQ : ∀ a s, Q a s → Q' a s) :
    Keeps deep P' r Q' := by
  intro s hproper hs
  have hrun := hr s hproper (hP _ hs)
  split at hrun
  · exact ⟨hrun.1, hrun.2.1, hQ _ _ hrun.2.2⟩
  · exact hrun

/-- The first condition may be strengthened. -/
theorem Keeps.of_imp (hr : Keeps deep P r Q) (hP : ∀ s, P' s → P s) : Keeps deep P' r Q :=
  hr.imp hP fun _ _ h => h

/-- The second condition may be weakened. -/
theorem Keeps.weaken (hr : Keeps deep P r Q) (hQ : ∀ a s, Q a s → Q' a s) : Keeps deep P r Q' :=
  hr.imp (fun _ h => h) hQ

/-- A part of the first condition that does not speak about the scanner may be assumed. -/
theorem Keeps.of_fact {p : Prop} (hr : p → Keeps deep P r Q) : Keeps deep (fun s => p ∧ P s) r Q :=
  fun s hproper hs => hr hs.1 s hproper hs.2

/-- A failure without a defect. -/
theorem keeps_throw {e : ParseError} (he : ¬ e.Defective deep) : Keeps deep P (throw e) Q :=
  fun _ hproper _ => ⟨he, rfl, hproper⟩

theorem keeps_line : Keeps deep P line fun _ => P := fun _ hproper hP => ⟨rfl, hproper, hP⟩

theorem keeps_get : Keeps deep P get fun _ => P := fun _ hproper hP => ⟨rfl, hproper, hP⟩

theorem keeps_advise (note : String) : Keeps deep P (advise note) fun _ => P :=
  fun _ hproper hP => ⟨rfl, hproper, hP⟩

theorem keeps_malformed (cause : Malformation) : Keeps deep P (malformed cause) Q :=
  keeps_line.bind fun _ => keeps_throw id

theorem keeps_invalidRing (cause : DescriptorFault) : Keeps deep P (invalidRing cause) Q :=
  keeps_line.bind fun _ => keeps_throw id

/-- A literal that is refused without a defect. -/
theorem keeps_literalFailure (literal : Text) {fault : LiteralFault}
    (h : deep = true → ¬ fault.Defective) :
    Keeps deep P (literalFailure literal fault) Q := by
  unfold literalFailure
  split
  · exact keeps_malformed _
  · exact keeps_line.bind fun _ => keeps_throw fun hfault => h hfault.1 hfault.2

theorem keeps_orInvalidRing (result : Except RingFault α) :
    Keeps deep P (orInvalidRing result) fun a s => result = .ok a ∧ P s := by
  cases result with
  | ok a => exact .pure fun _ h => ⟨rfl, h⟩
  | error fault => exact keeps_invalidRing _

theorem keeps_checkDepth (extra : Nat) : Keeps deep P (checkDepth extra) fun _ => P := by
  apply keeps_get.bind
  intro s
  split
  · exact keeps_malformed _
  · exact .pure fun _ h => h

/-- The level that is opened is closed again, also by a failure. -/
theorem keeps_deeper (hr : Keeps deep P r Q) : Keeps deep P (deeper r) Q := by
  intro s hproper hP
  have hrun := hr { s with depth := s.depth + 1 } hproper hP
  unfold deeper
  generalize r { s with depth := s.depth + 1 } = result at hrun ⊢
  cases result with
  | ok a s' => exact ⟨by simp [hrun.1], hrun.2⟩
  | error e s' => exact ⟨hrun.1, by simp [hrun.2.1], hrun.2.2⟩

theorem keeps_nested (hr : Keeps deep P r Q) : Keeps deep P (nested r) Q :=
  (keeps_checkDepth 1).bind fun _ => keeps_deeper hr

end

/-! ### Tokens -/

section

variable {deep : Bool} {k : Nat}

/-- A token is read, which can be put back. -/
theorem keeps_advance : Keeps deep (Scanner.Below k) advance (Scanner.Behind k) := by
  intro s hproper hbelow
  have hnext := Scanner.next_spec deep hproper
  simp only [advance, scanning]
  generalize Scanner.next s.scanner = result at hnext ⊢
  cases result with
  | ok t scanner =>
    obtain ⟨hfree, ht, hle⟩ := hnext
    exact ⟨rfl, Scanner.proper_of_free hfree, hfree, ht, Nat.lt_of_le_of_lt hle hbelow⟩
  | error e scanner => exact ⟨hnext.1, rfl, Scanner.proper_of_free hnext.2⟩

/-- A held token is read. -/
theorem keeps_advance_held (t : Token) :
    Keeps deep (fun s => s.held = some t ∧ s.Below k) advance fun u s => u = t ∧ s.Behind k t := by
  intro s hproper hs
  have hnext := Scanner.next_spec deep hproper
  simp only [advance, scanning]
  rw [Scanner.next_of_held hs.1] at hnext ⊢
  obtain ⟨hfree, ht, hle⟩ := hnext
  exact ⟨rfl, Scanner.proper_of_free hfree, rfl, hfree, ht, Nat.lt_of_le_of_lt hle hs.2⟩

/-- A token that was read is put back and then held. -/
theorem keeps_pushBack (t : Token) :
    Keeps deep (Scanner.Behind k t) (pushBack t) fun _ s => s.held = some t ∧ s.Below k := by
  intro s hproper hbehind
  have hput : Scanner.pushBack t s.scanner = .ok () { s.scanner with held := some t } := by
    simp [Scanner.pushBack, hbehind.free]
  simp only [pushBack, scanning, hput]
  refine ⟨trivial, ?_, trivial, ?_⟩
  · intro u hu
    rw [← Option.some.inj hu]
    exact hbehind.proper
  · have hbelow := hbehind.below
    simpa [Scanner.Below, Scanner.remaining, hbehind.free] using hbelow

/-- A token that was read is put back. -/
theorem keeps_unread (t : Token) :
    Keeps deep (Scanner.Behind k t) (pushBack t) fun _ => Scanner.Below k :=
  (keeps_pushBack t).weaken fun _ _ h => h.2

/-- A character ahead is looked at, which keeps every condition that more text in the buffer does not
break. -/
theorem keeps_peek {P : Scanner → Prop} (hP : ∀ s s', s.Extends s' → P s → P s') (n : Nat) :
    Keeps deep P (peek n) fun found s =>
      P s ∧ (s.held = none → found = Token.significant? false n s.buffer) := by
  intro s hproper hs
  have hpeek := Scanner.peek_spec deep s.scanner n
  have hkeep : ∀ s', s.scanner.Extends s' → s'.Proper := by
    intro s' hs' t ht
    exact hproper t (hs'.held_eq ▸ ht)
  simp only [peek, scanning]
  generalize Scanner.peek n s.scanner = result at hpeek ⊢
  cases result with
  | ok found scanner =>
    obtain ⟨hfound, hextends⟩ := hpeek
    exact ⟨rfl, hkeep _ hextends, hP _ _ hextends hs, fun hheld =>
      hfound (hextends.held_eq ▸ hheld)⟩
  | error e scanner => exact ⟨hpeek.1, rfl, hkeep _ hpeek.2⟩

/-- More text in the buffer leaves no more to be read. -/
theorem below_of_extends (s s' : Scanner) (h : s.Extends s') (hs : s.Below k) : s'.Below k :=
  Nat.lt_of_le_of_lt h.remaining_le hs

/-- More text in the buffer leaves a token that was read as it is. -/
theorem behind_of_extends {t : Token} (s s' : Scanner) (h : s.Extends s') (hs : s.Behind k t) :
    s'.Behind k t :=
  ⟨h.held_eq.trans hs.free, hs.proper,
    Nat.lt_of_le_of_lt (Nat.add_le_add_right h.remaining_le _) hs.below⟩

theorem keeps_skipOp (c : Char) :
    Keeps deep (Scanner.Below k) (skipOp c) fun _ => Scanner.Below k := by
  apply keeps_advance.bind
  intro t
  split
  · exact keeps_unread t
  · exact .pure fun _ h => h.toBelow

end

/-! ### Loops -/

section

variable {deep : Bool} {k : Nat} {σ β : Type} {step : σ → Reader (σ ⊕ β)}

/-- After a pass of a loop less is left if the loop goes on, and no more if it ends. -/
def AfterPass (k : Nat) (next : σ ⊕ β) (s : Scanner) : Prop :=
  next.elim (fun _ => s.Below (k - 1)) fun _ => s.Below k

/-- A pass that has read a token may go on. -/
theorem keeps_inl {t : Token} (ht : t ≠ .eof) (state : σ) :
    Keeps deep (Scanner.Behind k t) (pure (.inl state : σ ⊕ β)) (AfterPass k) :=
  .pure fun _ h => h.below_pred ht

/-- A pass may always end the loop. -/
theorem keeps_inr (result : β) (t : Token) :
    Keeps deep (Scanner.Behind k t) (pure (.inr result : σ ⊕ β)) (AfterPass k) :=
  .pure fun _ h => h.toBelow

/-- The passes of a loop never pass a bound on what is left to be read, if each pass that goes on
leaves less than it found. The condition on the result may speak about what was left before. -/
theorem keeps_iterate {Q : Nat → β → Scanner → Prop}
    (hQ : ∀ k k' b s, k ≤ k' → Q k b s → Q k' b s)
    (hstep : ∀ state k, Keeps deep (Scanner.Below k) (step state)
      fun next s => next.elim (fun _ => s.Below (k - 1)) fun b => Q k b s)
    {fuel k : Nat} (hfuel : k ≤ fuel) (state : σ) :
    Keeps deep (Scanner.Below k) (iterate step fuel state) (Q k) := by
  induction fuel generalizing k state with
  | zero =>
    intro s _ hbelow
    exact absurd hbelow (by unfold Scanner.Below; omega)
  | succ fuel ih =>
    apply (hstep state k).bind
    intro next
    cases next with
    | inl state' =>
      exact (ih (k := k - 1) (by omega) state').weaken fun b s => hQ _ _ b s (Nat.sub_le k 1)
    | inr result => exact .pure fun _ h => h

/-- A loop ends, if each pass that goes on leaves less than it found. -/
theorem keeps_loop_result {Q : Nat → β → Scanner → Prop}
    (hQ : ∀ k k' b s, k ≤ k' → Q k b s → Q k' b s)
    (hstep : ∀ state k, Keeps deep (Scanner.Below k) (step state)
      fun next s => next.elim (fun _ => s.Below (k - 1)) fun b => Q k b s)
    (k : Nat) (state : σ) : Keeps deep (Scanner.Below k) (loop step state) (Q k) := by
  intro s hproper hbelow
  have hrun := keeps_iterate hQ hstep (Nat.le_refl (s.scanner.remaining + 1)) state s hproper
    (Nat.lt_succ_self _)
  have hloop : loop step state s = iterate step (s.scanner.remaining + 1) state s := rfl
  rw [hloop]
  split at hrun
  · exact ⟨hrun.1, hrun.2.1, hQ _ _ _ _ hbelow hrun.2.2⟩
  · exact hrun

/-- A loop leaves no more than it found, if that holds of the passes that end it. -/
theorem keeps_loop
    (hstep : ∀ state k, Keeps deep (Scanner.Below k) (step state) (AfterPass k))
    (k : Nat) (state : σ) :
    Keeps deep (Scanner.Below k) (loop step state) fun _ => Scanner.Below k :=
  keeps_loop_result (Q := fun k _ s => s.Below k)
    (fun _ _ _ _ hle hlt => Nat.lt_of_lt_of_le hlt hle) hstep k state

end

end Reader

end PolynomialText
