import PolynomialText.Proofs.TokenGrammar

/-!
# Readers follow the tokens

A reader of expressions gives what the tokens ahead of it determine, whatever blanks, comments, line
breaks and quotes they are written with. `Reader.Settles` says that a reader gives one result from
every session of one description: a failure on whatever line it is found, no new notes, and one
description of the session left behind. Defects are put aside; other modules show that there are
none.

Characters are looked at only behind operators, so that each of them is the first one of a token.
Which quote that character is, no reader asks.
-/

namespace PolynomialText

/-! ### Looking at tokens -/

/-- A character that was looked at is the first one of the tokens, where one quote may stand for the
other. -/
def Grammar.Sighted (tokens : List Token) (c : Option Char) : Prop :=
  c = Grammar.ahead tokens ∨ Grammar.ahead tokens = some '"' ∧ c = some '\x27'

/-- A character that is no quote is looked at exactly where it is ahead. -/
theorem Grammar.Sighted.eq_some_iff {tokens : List Token} {found : Option Char}
    (h : Grammar.Sighted tokens found) {c : Char} (hc : c ≠ '"' ∧ c ≠ '\x27') :
    found = some c ↔ Grammar.ahead tokens = some c := by
  rcases h with rfl | ⟨hahead, rfl⟩
  · exact Iff.rfl
  · rw [hahead]
    simp [hc.1.symm, hc.2.symm]

namespace Token

open Grammar (Sighted ahead)

/-- A token is known by its first character: a quote, a character of a word, or an operator. -/
theorem lex_cases (c : Char) (rest : Text) :
    ((c = '"' ∨ c = '\x27') ∧ ∃ t, (lex c rest).1 = .quoted t) ∨
      (isWordChar c = true ∧ ∃ w, (lex c rest).1 = .word (c :: w)) ∨
      isWordChar c = false ∧ c ≠ '"' ∧ c ≠ '\x27' ∧ lex c rest = (.op c, rest) := by
  by_cases hquote : c = '"' ∨ c = '\x27'
  · exact .inl ⟨hquote, _, by rw [lex, if_pos hquote]⟩
  · by_cases hword : isWordChar c = true
    · exact .inr (.inl ⟨hword, _, by rw [lex, if_neg hquote, if_pos hword]⟩)
    · have hop : lex c rest = (.op c, rest) := by rw [lex, if_neg hquote, if_neg hword]
      exact .inr (.inr ⟨Bool.eq_false_iff.2 hword, (not_or.1 hquote).1, (not_or.1 hquote).2, hop⟩)

/-- The operators of a text are characters of it that no word has. -/
theorem of_op_mem_ofText {t : Text} {c : Char} (h : op c ∈ ofText t) :
    c ∈ t ∧ isWordChar c = false := by
  induction t using ofText_induction with
  | nil t hstart =>
    rw [ofText_of_start_nil hstart] at h
    exact absurd h List.not_mem_nil
  | cons t d rest hstart ih =>
    have hsuffix : d :: rest <:+ t := hstart ▸ skip_suffix false 0 t
    rw [ofText_of_start_cons hstart] at h
    rcases List.mem_cons.1 h with hfirst | hlater
    · rcases lex_cases d rest with ⟨-, q, hlex⟩ | ⟨-, w, hlex⟩ | ⟨hd, -, -, hlex⟩
      · rw [hlex] at hfirst
        contradiction
      · rw [hlex] at hfirst
        contradiction
      · rw [hlex] at hfirst
        rw [Token.op.inj hfirst]
        exact ⟨hsuffix.subset List.mem_cons_self, hd⟩
    · obtain ⟨hmem, hc⟩ := ih hlater
      exact ⟨hsuffix.subset (List.mem_cons_of_mem _ ((lex_suffix d rest).subset hmem)), hc⟩

/-- Behind operators the next significant character is the first one of a token. -/
theorem sighted_significant? {t : Text} {ops : List Char} {tokens : List Token}
    (h : ofText t = ops.map .op ++ tokens) : Sighted tokens (significant? false ops.length t) := by
  induction ops generalizing t with
  | nil =>
    cases hstart : start t with
    | nil =>
      rw [ofText_of_start_nil hstart] at h
      have hnone : significant? false 0 t = none := by
        rw [← significant?_skip false 0 0 t]
        change significant? false 0 (start t) = none
        rw [hstart]
        rfl
      refine .inl ?_
      rw [List.length_nil, hnone, (List.append_eq_nil_iff.1 h.symm).2]
      rfl
    | cons c rest =>
      obtain ⟨hnl, hhash, hblank⟩ := skip_cons_spec hstart
      have hsome : significant? false 0 t = some c := by
        rw [← significant?_skip false 0 0 t]
        change significant? false 0 (start t) = some c
        simp [hstart, significant?, hnl, hhash, hblank]
      rw [ofText_of_start_cons hstart, List.map_nil, List.nil_append] at h
      rw [List.length_nil, hsome, ← h]
      rcases lex_cases c rest with ⟨hquote, q, hlex⟩ | ⟨-, w, hlex⟩ | ⟨-, -, -, hlex⟩
      · rcases hquote with rfl | rfl
        · exact .inl (by simp [ahead, hlex, lexeme])
        · exact .inr ⟨by simp [ahead, hlex, lexeme], rfl⟩
      · exact .inl (by simp [ahead, hlex, lexeme])
      · exact .inl (by simp [ahead, hlex, lexeme])
  | cons op ops ih =>
    cases hstart : start t with
    | nil =>
      rw [ofText_of_start_nil hstart] at h
      exact absurd h.symm (List.cons_ne_nil _ _)
    | cons c rest =>
      rw [ofText_of_start_cons hstart, List.map_cons, List.cons_append] at h
      obtain ⟨hop, hrest⟩ := List.cons.inj h
      have hlex := significant?_lex (skip_cons_spec hstart) (by rw [hop]; exact id)
        (ops.length + 1)
      rw [← hstart, start, significant?_skip] at hlex
      have hnext : significant? false (op :: ops).length t =
          significant? false ops.length (lex c rest).2 := by
        rw [List.length_cons, hlex, hop]
        simp [lexeme]
      rw [hnext]
      exact ih hrest

/-- Behind the first token of a text stand the tokens of another one. -/
theorem exists_ofText_of_cons {t : Text} {token : Token} {tokens : List Token}
    (h : ofText t = token :: tokens) : ∃ u, ofText u = tokens := by
  cases hstart : start t with
  | nil =>
    rw [ofText_of_start_nil hstart] at h
    contradiction
  | cons c rest =>
    rw [ofText_of_start_cons hstart] at h
    exact ⟨_, (List.cons.inj h).2⟩

/-- An operator ahead in a text is its first token. -/
theorem exists_op_of_ahead {t : Text} {tokens : List Token} (ht : ofText t = tokens) {c : Char}
    (h : ahead tokens = some c) (hword : isWordChar c = false) (hquote : c ≠ '"') :
    ∃ rest, tokens = .op c :: rest := by
  subst ht
  cases hstart : start t with
  | nil =>
    rw [ofText_of_start_nil hstart] at h
    contradiction
  | cons d rest =>
    rw [ofText_of_start_cons hstart] at h ⊢
    rcases lex_cases d rest with ⟨-, q, hlex⟩ | ⟨hd, w, hlex⟩ | ⟨-, -, -, hlex⟩
    · simp only [ahead, hlex, List.headD_cons, lexeme, List.cons_append, List.head?_cons] at h
      exact absurd (Option.some.inj h).symm hquote
    · simp only [ahead, hlex, List.headD_cons, lexeme, List.head?_cons] at h
      rw [Option.some.inj h, hword] at hd
      contradiction
    · simp only [ahead, hlex, List.headD_cons, lexeme, List.head?_cons] at h
      rw [hlex, Option.some.inj h]
      exact ⟨_, rfl⟩

/-- In a text a sign is ahead exactly where its character is. -/
theorem signAhead_iff_of_ofText {t : Text} {tokens : List Token} (ht : ofText t = tokens) :
    signAhead tokens = true ↔ ahead tokens = some '-' ∨ ahead tokens = some '+' := by
  constructor
  · intro h
    rcases Bool.or_eq_true _ _ ▸ h with hminus | hplus
    · exact .inl (by rw [ahead, of_decide_eq_true hminus]; rfl)
    · exact .inr (by rw [ahead, of_decide_eq_true hplus]; rfl)
  · rintro (hminus | hplus)
    · obtain ⟨rest, rfl⟩ := exists_op_of_ahead ht hminus (by decide) (by decide)
      rfl
    · obtain ⟨rest, rfl⟩ := exists_op_of_ahead ht hplus (by decide) (by decide)
      rfl

/-- A digit ahead in a text starts a word. -/
theorem exists_word_of_digitAhead {t : Text} {tokens : List Token} (ht : ofText t = tokens)
    (h : Grammar.digitAhead tokens = true) :
    ∃ w rest, tokens = .word w :: rest ∧ w.head?.any Char.isDigit = true := by
  subst ht
  cases hstart : start t with
  | nil =>
    rw [ofText_of_start_nil hstart] at h
    contradiction
  | cons c rest =>
    rw [ofText_of_start_cons hstart] at h ⊢
    rcases lex_cases c rest with ⟨-, q, hlex⟩ | ⟨-, w, hlex⟩ | ⟨hword, -, -, hlex⟩
    · simp [Grammar.digitAhead, ahead, hlex, lexeme] at h
    · simp only [Grammar.digitAhead, ahead, hlex, List.headD_cons, lexeme] at h
      rw [hlex]
      exact ⟨c :: w, _, rfl, h⟩
    · simp only [Grammar.digitAhead, ahead, hlex, List.headD_cons, lexeme, List.head?_cons,
        Option.any_some] at h
      rw [isWordChar_of_isDigit h] at hword
      contradiction

end Token

/-- A scanner that holds nothing sees the tokens of a text. -/
theorem Scanner.Sees.exists_ofText {s : Scanner} {tokens : List Token} (h : s.Sees tokens)
    (hfree : s.held = none) : ∃ t, Token.ofText t = tokens := by
  have htokens := h.tokens_eq
  rw [hfree] at htokens
  exact ⟨_, htokens⟩

/-- A token that is held is among those that are seen. -/
theorem Scanner.Sees.proper {s : Scanner} {tokens : List Token} (h : s.Sees tokens) : s.Proper := by
  intro t ht
  by_cases heof : t = .eof
  · exact .inl heof
  · refine .inr (h.solid t ?_)
    rw [← h.tokens_eq, ht, heldTokens, if_neg heof]
    exact List.mem_cons_self

/-- Looking ahead behind operators finds the first character of a token. -/
theorem Scanner.Sees.sighted {s : Scanner} (ops : List Char) {tokens : List Token}
    (h : s.Sees (ops.map .op ++ tokens)) (hfree : s.held = none) :
    ∃ c s', Scanner.peek ops.length s = .ok c s' ∧ Grammar.Sighted tokens c ∧ s'.held = none ∧
      s'.Sees (ops.map .op ++ tokens) := by
  obtain ⟨buffer, pending, hlook, hflows, hunread⟩ := lookAhead_view s ops.length h.flows
  have htokens := h.tokens_eq
  rw [hfree] at htokens
  refine ⟨_, { s with buffer, pending }, ?_, Token.sighted_significant? htokens, hfree, hflows, ?_,
    h.eof, h.solid⟩
  · simpa [Scanner.peek, hfree] using hlook
  · rw [hunread]
    exact h.tokens_eq

/-- A session that sees the tokens and holds none of them. -/
structure Session.Free (limits : Limits) (depth : Nat) (tokens : List Token) (s : Session) : Prop
    extends s.At limits depth tokens where
  free : s.scanner.held = none

section

variable {limits : Limits} {depth : Nat} {t : Token} {tokens : List Token} {s : Session}

/-- Behind a token that was read nothing is held. -/
theorem Session.Past.toFree (h : s.Past limits depth tokens) : s.Free limits depth tokens.tail :=
  ⟨h.tail, h.free⟩

/-- Where nothing is held, a solid token can be put back. -/
theorem Session.Free.past (h : s.Free limits depth tokens) (ht : t.Solid) :
    s.Past limits depth (t :: tokens) where
  limits_eq := h.limits_eq
  depth_eq := h.depth_eq
  sees := h.sees
  free := h.free
  solid := List.forall_mem_cons.2 ⟨ht, h.sees.solid⟩

end

namespace Reader

/-- From every session with the first property the reader gives the result, with a failure on
whatever line, adds no note, and leaves a session with the second property. -/
def Settles {α : Type} (r : Reader α) (P : Session → Prop) (result : Except ParseError α)
    (Q : Session → Prop) : Prop :=
  ∀ s, P s → match r s with
    | .ok a s' => result = .ok a ∧ s'.advisories = s.advisories ∧ Q s'
    | .error e s' => e.Defective false ∨
        result = .error e.unlined ∧ s'.advisories = s.advisories ∧ Q s'

/-- The reader settles to an outcome of tokens. -/
abbrev Yields {α : Type} (r : Reader α) (P : Session → Prop) (limits : Limits) (depth : Nat)
    (outcome : Outcome α) : Prop :=
  Settles r P outcome.result (Session.At limits depth outcome.rest)

section

variable {α β : Type} {r : Reader α} {f : α → Reader β} {a : α} {result : Except ParseError α}
  {result' : Except ParseError β} {P P' Q Q' S : Session → Prop} {limits : Limits} {depth : Nat}

namespace Settles

/-- A result that is given without reading. -/
theorem pure (a : α) : Settles (pure a) P (.ok a) P := fun _ hs => ⟨rfl, rfl, hs⟩

/-- The properties may be strengthened and weakened. -/
theorem imp (hr : Settles r P result Q) (hP : ∀ s, P' s → P s) (hQ : ∀ s, Q s → Q' s) :
    Settles r P' result Q' := by
  intro s hs
  have hrun := hr s (hP s hs)
  split at hrun
  · exact ⟨hrun.1, hrun.2.1, hQ _ hrun.2.2⟩
  · exact hrun.imp id fun h => ⟨h.1, h.2.1, hQ _ h.2.2⟩

/-- The first property may be strengthened. -/
theorem of_imp (hr : Settles r P result Q) (hP : ∀ s, P' s → P s) : Settles r P' result Q :=
  hr.imp hP fun _ h => h

/-- Two readers one after the other. -/
theorem bind (hr : Settles r P (.ok a) Q) (hf : Settles (f a) Q result' S) :
    Settles (r >>= f) P result' S := by
  intro s hs
  have hrun := hr s hs
  change match EStateM.bind r f s with | .ok _ _ => _ | .error _ _ => _
  unfold EStateM.bind
  cases hcase : r s with
  | ok b s' =>
    rw [hcase] at hrun
    obtain ⟨hb, hnotes, hs'⟩ := hrun
    obtain rfl := Except.ok.inj hb
    have hrest := hf s' hs'
    dsimp only
    split at hrest
    · exact ⟨hrest.1, hrest.2.1.trans hnotes, hrest.2.2⟩
    · exact hrest.imp id fun h => ⟨h.1, h.2.1.trans hnotes, h.2.2⟩
  | error e s' =>
    rw [hcase] at hrun
    exact .inl (hrun.resolve_right fun h => nomatch h.1)

/-- Behind a failure nothing is read. -/
theorem bind_error {e : ParseError} (hr : Settles r P (.error e) Q) :
    Settles (r >>= f) P (.error e) Q := by
  intro s hs
  have hrun := hr s hs
  change match EStateM.bind r f s with | .ok _ _ => _ | .error _ _ => _
  unfold EStateM.bind
  cases hcase : r s with
  | ok b s' =>
    rw [hcase] at hrun
    exact nomatch hrun.1
  | error e' s' =>
    rw [hcase] at hrun
    refine hrun.imp id fun h => ⟨?_, h.2⟩
    rw [Except.error.inj h.1]

end Settles

/-- Outcomes one after the other. -/
theorem yields_bind {o : Outcome α} {g : α → List Token → Outcome β}
    (hr : Yields r P limits depth o)
    (hf : ∀ a rest, Yields (f a) (Session.At limits depth rest) limits depth (g a rest)) :
    Yields (r >>= f) P limits depth (o.bind g) := by
  unfold Outcome.bind
  cases hresult : o.result with
  | ok a =>
    unfold Yields at hr
    rw [hresult] at hr
    exact hr.bind (hf a o.rest)
  | error e =>
    unfold Yields at hr
    rw [hresult] at hr
    exact hr.bind_error

/-- Passing the bound on the number of steps is a defect. -/
theorem settles_exhausted : Settles exhausted P result Q := fun _ _ => .inl trivial

theorem settles_malformed {cause : Malformation} :
    Settles (malformed cause : Reader α) P (.error (.malformed 0 cause)) P :=
  fun _ hs => .inr ⟨rfl, rfl, hs⟩

theorem settles_literalFailure {t : Text} {fault : LiteralFault} :
    Settles (literalFailure t fault : Reader α) P (.error (Grammar.literalError t fault)) P := by
  unfold literalFailure
  split
  · exact settles_malformed
  · rename_i hfault
    have herror : Grammar.literalError t fault = .literal 0 t fault := by
      unfold Grammar.literalError
      split
      · exact absurd rfl (hfault _ _)
      · rfl
    rw [herror]
    exact fun s hs => .inr ⟨rfl, rfl, hs⟩

end

section

variable {limits : Limits} {depth : Nat} {tokens : List Token}

/-- The first token is read, or the end of the source. -/
theorem settles_advance : Settles advance (Session.At limits depth tokens)
    (.ok (tokens.headD .eof)) (Session.Past limits depth tokens) := by
  intro s hs
  obtain ⟨scanner, hnext, hheld, hsees⟩ := hs.sees.next
  have hrun : advance s = .ok (tokens.headD .eof) { s with scanner } := by
    simp only [advance, scanning, hnext]
  rw [hrun]
  exact ⟨rfl, rfl, hs.limits_eq, hs.depth_eq, hsees, hheld, hs.sees.solid⟩

/-- The token that was read is put back. -/
theorem settles_pushBack : Settles (pushBack (tokens.headD .eof)) (Session.Past limits depth tokens)
    (.ok ()) (Session.At limits depth tokens) := by
  intro s hs
  obtain ⟨s', hrun, hs'⟩ := takes_pushBack_headD s hs
  rw [hrun]
  refine ⟨rfl, ?_, hs'⟩
  simp only [pushBack, scanning, Scanner.pushBack, hs.free] at hrun
  rw [← (EStateM.Result.ok.inj hrun).2]

/-- A token is looked at: it is read and put back. -/
theorem settles_look {β : Type} {f : Token → Reader β} {result : Except ParseError β}
    {Q : Session → Prop}
    (hf : Settles (f (tokens.headD .eof)) (Session.At limits depth tokens) result Q) :
    Settles (advance >>= fun t => pushBack t >>= fun _ => f t) (Session.At limits depth tokens)
      result Q :=
  settles_advance.bind (settles_pushBack.bind hf)

/-- A character is looked at behind operators. -/
theorem settles_peek {β : Type} (ops : List Char) {f : Option Char → Reader β}
    {result : Except ParseError β} {Q : Session → Prop}
    (hf : ∀ c, Grammar.Sighted tokens c →
      Settles (f c) (Session.Free limits depth (ops.map .op ++ tokens)) result Q) :
    Settles (peek ops.length >>= f) (Session.Free limits depth (ops.map .op ++ tokens)) result Q := by
  intro s hs
  obtain ⟨c, scanner, hpeek, hsighted, hfree, hsees⟩ := hs.sees.sighted ops hs.free
  have hrun : (peek ops.length >>= f) s = f c { s with scanner } := by
    change EStateM.bind _ f s = _
    simp only [EStateM.bind, peek, scanning, hpeek]
  rw [hrun]
  exact hf c hsighted { s with scanner } ⟨⟨hs.limits_eq, hs.depth_eq, hsees⟩, hfree⟩

/-- A digit is looked for behind operators. -/
theorem settles_digitAhead {β : Type} (ops : List Char) {f : Bool → Reader β}
    {result : Except ParseError β} {Q : Session → Prop}
    (hf : Settles (f (Grammar.digitAhead tokens))
      (Session.Free limits depth (ops.map .op ++ tokens)) result Q) :
    Settles (digitAhead ops.length >>= f) (Session.Free limits depth (ops.map .op ++ tokens))
      result Q := by
  have hassoc : digitAhead ops.length >>= f =
      peek ops.length >>= fun c => f (c.any Char.isDigit) := by
    simp only [digitAhead, bind_assoc, pure_bind]
  rw [hassoc]
  apply settles_peek ops
  intro c hsighted
  have hdigit : c.any Char.isDigit = Grammar.digitAhead tokens := by
    unfold Grammar.digitAhead
    rcases hsighted with rfl | ⟨hahead, rfl⟩
    · rfl
    · rw [hahead]
      rfl
  rw [hdigit]
  exact hf

/-- A digit is looked for behind operators and one more. -/
theorem settles_digitAhead_op {β : Type} (ops : List Char) (op : Char) {f : Bool → Reader β}
    {result : Except ParseError β} {Q : Session → Prop}
    (hf : Settles (f (Grammar.digitAhead tokens))
      (Session.Free limits depth (ops.map .op ++ .op op :: tokens)) result Q) :
    Settles (digitAhead (ops.length + 1) >>= f)
      (Session.Free limits depth (ops.map .op ++ .op op :: tokens)) result Q := by
  have hsplit : ops.map .op ++ .op op :: tokens = (ops ++ [op]).map .op ++ tokens := by simp
  rw [hsplit] at hf ⊢
  simpa using settles_digitAhead (ops ++ [op]) hf

/-- Further levels are checked against the limit. -/
theorem yields_checkDepth {β : Type} {extra : Nat} {r : Reader β} {o : Outcome β}
    (hr : depth + extra ≤ limits.maxDepth.toNat →
      Yields r (Session.At limits depth tokens) limits depth o) :
    Yields (checkDepth extra >>= fun _ => r) (Session.At limits depth tokens) limits depth
      (if limits.maxDepth.toNat < depth + extra then
        .malformed (.tooDeep limits.maxDepth.toNat) tokens else o) := by
  split
  · rename_i hlt
    refine Settles.bind_error ?_
    intro s hs
    have hfails : limits.maxDepth.toNat < s.depth + extra := by rwa [hs.depth_eq]
    have hrun : checkDepth extra s = malformed (.tooDeep limits.maxDepth.toNat) s := by
      change (if s.limits.maxDepth.toNat < s.depth + extra then
        malformed (.tooDeep s.limits.maxDepth.toNat) else Pure.pure () : Reader Unit) s = _
      rw [hs.limits_eq, if_pos hfails]
    rw [hrun]
    exact settles_malformed s hs
  · rename_i hge
    have hle := Nat.le_of_not_lt hge
    refine Settles.bind (a := ()) ?_ (hr hle)
    intro s hs
    obtain ⟨s', hrun, hs'⟩ := takes_checkDepth hle s hs
    have hpasses : checkDepth extra s = .ok () s := by
      change (if s.limits.maxDepth.toNat < s.depth + extra then
        malformed (.tooDeep s.limits.maxDepth.toNat) else Pure.pure () : Reader Unit) s = _
      rw [hs.limits_eq, hs.depth_eq, if_neg hge]
      rfl
    rw [hpasses]
    exact ⟨rfl, rfl, hs⟩

/-- A level that is opened is closed again. -/
theorem yields_deeper {β : Type} {r : Reader β} {o : Outcome β}
    (hr : Yields r (Session.At limits (depth + 1) tokens) limits (depth + 1) o) :
    Yields (deeper r) (Session.At limits depth tokens) limits depth o := by
  intro s hs
  have hrun := hr { s with depth := s.depth + 1 }
    ⟨hs.limits_eq, congrArg (· + 1) hs.depth_eq, hs.sees⟩
  cases hcase : r { s with depth := s.depth + 1 } with
  | ok a s' =>
    simp only [deeper, hcase] at hrun ⊢
    obtain ⟨hresult, hnotes, hs'⟩ := hrun
    exact ⟨hresult, hnotes, hs'.limits_eq, by simp [hs'.depth_eq], hs'.sees⟩
  | error e s' =>
    simp only [deeper, hcase] at hrun ⊢
    rcases hrun with hdefect | ⟨hresult, hnotes, hs'⟩
    · exact .inl hdefect
    · exact .inr ⟨hresult, hnotes, hs'.limits_eq, by simp [hs'.depth_eq], hs'.sees⟩

/-- A reader runs one level deeper, if the limit allows it. -/
theorem yields_nested {β : Type} {r : Reader β} {o : Outcome β}
    (hr : Yields r (Session.At limits (depth + 1) tokens) limits (depth + 1) o) :
    Yields (nested r) (Session.At limits depth tokens) limits depth
      (Grammar.nested limits depth tokens o) :=
  yields_checkDepth fun _ => yields_deeper hr

/-- The limit is checked before anything is read. -/
theorem yields_nested_of_lt {β : Type} {r : Reader β} (hlt : limits.maxDepth.toNat < depth + 1) :
    Yields (nested r) (Session.At limits depth tokens) limits depth
      (.malformed (.tooDeep limits.maxDepth.toNat) tokens : Outcome β) := by
  have hcheck : Yields (nested r) (Session.At limits depth tokens) limits depth
      (if limits.maxDepth.toNat < depth + 1 then
        .malformed (.tooDeep limits.maxDepth.toNat) tokens
      else .malformed (.tooDeep limits.maxDepth.toNat) tokens) :=
    yields_checkDepth fun hle => absurd hlt (Nat.not_lt.2 hle)
  rwa [ite_self] at hcheck

/-! ### Exponents -/

theorem yields_noExponent : Yields (noExponent (tokens.headD .eof))
    (Session.Past limits depth tokens) limits depth (.ok 1 tokens) :=
  settles_pushBack.bind (Settles.pure 1)

theorem yields_exponentWord : Yields exponentWord (Session.At limits depth tokens) limits depth
    (Grammar.exponentWord tokens) := by
  apply settles_advance.bind
  unfold Grammar.exponentWord
  cases hhead : tokens.headD .eof with
  | word w =>
    dsimp only
    cases hword : Text.word? (w.takeWhile Char.isDigit) with
    | none => exact settles_malformed.of_imp fun s hs => hs.tail
    | some k =>
      dsimp only
      cases hdrop : w.dropWhile Char.isDigit with
      | nil => exact (Settles.pure k).of_imp fun s hs => hs.tail
      | cons c rest =>
        dsimp only
        split
        · have hput : Settles (pushBack (.word (c :: rest))) (Session.Past limits depth tokens)
              (.ok ()) (Session.At limits depth (.word (c :: rest) :: tokens.tail)) :=
            fun s hs => @settles_pushBack _ _ (.word (c :: rest) :: tokens.tail) s
              (hs.toFree.past (Nat.succ_pos _))
          exact hput.bind (Settles.pure k)
        · exact settles_malformed.of_imp fun s hs => hs.tail
  | quoted t => exact settles_malformed.of_imp fun s hs => hs.tail
  | op c => exact settles_malformed.of_imp fun s hs => hs.tail
  | eof => exact settles_malformed.of_imp fun s hs => hs.tail

/-- The exponent behind a mark: a caret, or a star with another one ahead. -/
theorem yields_exponentAfter {mark : Token} (ops : List Char) {behind : List Token}
    (hops : ops = [] ∨ ops = ['*']) :
    Yields (exponentAfter mark ops.length) (Session.Past limits depth (mark :: (ops.map .op ++ behind)))
      limits depth (Grammar.exponentAfter (mark :: (ops.map .op ++ behind)) (ops.map .op ++ behind)
        behind) := by
  -- Behind the mark nothing is held, and the mark can still be put back.
  intro s hs
  have hmark : mark.Solid := hs.solid mark List.mem_cons_self
  have hbehind : ∃ u, Token.ofText u = behind := by
    obtain ⟨u, hu⟩ := hs.sees.exists_ofText hs.free
    rcases hops with rfl | rfl
    · exact ⟨u, hu⟩
    · exact Token.exists_ofText_of_cons hu
  have hnone : ∀ {result}, result = Outcome.ok 1 (mark :: (ops.map .op ++ behind)) →
      Yields (noExponent mark) (Session.Free limits depth (ops.map .op ++ behind)) limits depth
        result := by
    rintro _ rfl
    intro s hs
    exact @yields_noExponent _ _ (mark :: (ops.map .op ++ behind)) s (hs.past hmark)
  have hfault : ∀ {cause : Malformation}, Yields (malformed cause : Reader UInt64)
      (Session.Free limits depth (ops.map .op ++ behind)) limits depth
      (.malformed cause (ops.map .op ++ behind)) :=
    settles_malformed.imp (fun _ h => h) fun s hs => hs.toAt
  refine settles_peek ops (f := _) ?_ s hs.toFree
  intro c hsighted
  unfold Grammar.exponentAfter
  rcases hsighted with rfl | ⟨hahead, rfl⟩
  · cases hahead : Grammar.ahead behind with
    | none => exact hnone rfl
    | some c =>
      dsimp only
      split
      · rcases hops with rfl | rfl
        · exact yields_exponentWord.of_imp fun s hs => hs.toAt
        · apply (settles_advance.of_imp fun s hs => hs.toAt).bind
          exact yields_exponentWord.of_imp fun s hs => hs.tail
      · split
        · exact hfault
        · split
          · rename_i hminus
            subst hminus
            -- The minus sign is a token of its own, so that the next look is behind it.
            obtain ⟨u, hu⟩ := hbehind
            obtain ⟨rest, rfl⟩ := Token.exists_op_of_ahead hu hahead (by decide) (by decide)
            apply settles_digitAhead_op ops '-'
            rw [List.tail_cons]
            cases Grammar.digitAhead rest with
            | true => exact hfault
            | false => exact hnone rfl
          · split
            · exact hfault
            · exact hnone rfl
  · rw [hahead]
    exact hnone rfl

/-- An exponent after a caret or two stars, or else one. -/
theorem yields_exponent : Yields exponent (Session.At limits depth tokens) limits depth
    (Grammar.exponent tokens) := by
  apply settles_advance.bind
  unfold Grammar.exponent
  split
  · rename_i hcaret
    rw [hcaret]
    cases tokens with
    | nil => contradiction
    | cons mark tokens =>
      obtain rfl : mark = .op '^' := hcaret
      exact yields_exponentAfter [] (.inl rfl)
  · by_cases hstar : tokens.headD .eof = .op '*'
    · rw [if_pos hstar, hstar]
      cases tokens with
      | nil => contradiction
      | cons mark tokens =>
        obtain rfl : mark = .op '*' := hstar
        -- The next character is looked at with the star still to be put back.
        intro s hs
        obtain ⟨u, hu⟩ := hs.sees.exists_ofText hs.free
        refine settles_peek [] (f := _) ?_ s hs.toFree
        intro c hsighted
        have hstars : c = some '*' ↔ Grammar.ahead tokens = some '*' :=
          hsighted.eq_some_iff (by decide)
        by_cases hc : c = some '*'
        · have hahead := hstars.1 hc
          rw [if_pos hc, if_pos ⟨rfl, hahead⟩]
          obtain ⟨rest, rfl⟩ := Token.exists_op_of_ahead hu hahead (by decide) (by decide)
          intro s hs
          exact yields_exponentAfter ['*'] (.inr rfl) s (hs.past Nat.one_pos)
        · rw [if_neg hc, if_neg fun h => hc (hstars.2 h.2)]
          intro s hs
          exact @yields_noExponent _ _ (.op '*' :: tokens) s (hs.past Nat.one_pos)
    · rw [if_neg hstar, if_neg fun h => hstar h.1]
      exact yields_noExponent

/-! ### Literals -/

theorem yields_bracesStep {b : Braces} :
    Yields (bracesStep b) (Session.At limits depth tokens) limits depth
      ⟨Grammar.bracesStep limits depth b (tokens.headD .eof), tokens.tail⟩ := by
  apply settles_advance.bind
  refine Settles.of_imp (P := Session.At limits depth tokens.tail) ?_ fun s hs => hs.tail
  cases tokens.headD .eof with
  | eof => exact settles_malformed
  | word w => exact Settles.pure _
  | quoted t => exact Settles.pure _
  | op c =>
    unfold Grammar.bracesStep
    dsimp only
    split
    · split
      · exact Settles.pure _
      · exact Settles.pure _
    · split
      · have hcheck : Yields (checkDepth (b.level + 1) >>= fun _ =>
              Pure.pure (.inl ⟨b.text ++ [c], b.level + 1, false⟩ : Braces ⊕ Text))
            (Session.At limits depth tokens.tail) limits depth
            (if limits.maxDepth.toNat < depth + (b.level + 1) then
              .malformed (.tooDeep limits.maxDepth.toNat) tokens.tail
            else .ok (.inl ⟨b.text ++ [c], b.level + 1, false⟩) tokens.tail) :=
          yields_checkDepth fun _ => Settles.pure _
        split at hcheck
        · rename_i hlt
          rw [if_pos hlt]
          exact hcheck
        · rename_i hge
          rw [if_neg hge]
          exact hcheck
      · exact Settles.pure _

/-- The tokens of a literal in braces are put together one after the other. -/
theorem yields_iterate_bracesStep (fuel : Nat) (b : Braces) :
    Yields (iterate bracesStep fuel b) (Session.At limits depth tokens) limits depth
      (Grammar.braces limits depth b tokens) := by
  induction fuel generalizing b tokens with
  | zero => exact settles_exhausted
  | succ fuel ih =>
    have hstep : Yields (bracesStep b) (Session.At limits depth tokens) limits depth
        ⟨Grammar.bracesStep limits depth b (tokens.headD .eof), tokens.tail⟩ := yields_bracesStep
    cases tokens with
    | nil => exact hstep.bind_error
    | cons t tokens =>
      rw [List.headD_cons, List.tail_cons] at hstep
      unfold Grammar.braces
      cases hcase : Grammar.bracesStep limits depth b t with
      | ok next =>
        rw [hcase] at hstep
        cases next with
        | inl b' => exact hstep.bind (ih b')
        | inr text => exact hstep.bind (Settles.pure text)
      | error e =>
        rw [hcase] at hstep
        exact hstep.bind_error

theorem yields_bracesText : Yields bracesText (Session.At limits depth tokens) limits depth
    (Grammar.braces limits depth ⟨[], 0, false⟩ tokens) :=
  fun s hs => yields_iterate_bracesStep (s.scanner.remaining + 1) _ s hs

section

variable {α : Type} {R : PolyRing α}

/-- A literal is read within the limits and at the depth of the session. -/
theorem settles_literal? {t : Text} {extra : Nat} {P : Session → Prop}
    (hP : ∀ s, P s → s.limits = limits ∧ s.depth = depth) :
    Settles (literal? R t extra) P (.ok (R.coefficients.readWithin limits (depth + extra) t)) P := by
  intro s hs
  obtain ⟨hlimits, hdepth⟩ := hP s hs
  refine ⟨?_, rfl, hs⟩
  rw [hlimits, hdepth]

theorem settles_literal {t : Text} {extra : Nat} {P : Session → Prop}
    (hP : ∀ s, P s → s.limits = limits ∧ s.depth = depth) :
    Settles (literal R t extra) P (Grammar.literal R limits (depth + extra) t tokens).result P := by
  apply (settles_literal? hP).bind
  unfold Grammar.literal
  cases R.coefficients.readWithin limits (depth + extra) t with
  | ok c => exact Settles.pure c
  | error fault => exact settles_literalFailure

/-- A literal leaves the tokens as they are. -/
theorem yields_literal {t : Text} {extra : Nat} :
    Yields (literal R t extra) (Session.At limits depth tokens) limits depth
      (Grammar.literal R limits (depth + extra) t tokens) := by
  have hrest : (Grammar.literal R limits (depth + extra) t tokens).rest = tokens := by
    unfold Grammar.literal
    split
    · rfl
    · rfl
  unfold Yields
  rw [hrest]
  exact settles_literal fun s hs => ⟨hs.limits_eq, hs.depth_eq⟩

theorem yields_enclosed : Yields (nested bracesText >>= fun t => literal R t 1)
    (Session.At limits depth tokens) limits depth (Grammar.enclosed R limits depth tokens) :=
  yields_bind (yields_nested yields_bracesText) fun _ _ => yields_literal

/-! ### Factors -/

/-- A numeral that ends in the imaginary unit takes the signed number behind it. -/
theorem settles_joinImaginary {t : Text} :
    Settles (joinImaginary R t) (Session.Free limits depth tokens)
      (.ok (Grammar.joinImaginary R t tokens).1)
      (Session.Free limits depth (Grammar.joinImaginary R t tokens).2) := by
  have hsame : ¬ (t.getLast? = some 'i' ∧ R.coefficients.kind.isHypercomplex ∧ signAhead tokens ∧
      Grammar.digitAhead tokens.tail) → Settles (pure t) (Session.Free limits depth tokens)
        (.ok (Grammar.joinImaginary R t tokens).1)
        (Session.Free limits depth (Grammar.joinImaginary R t tokens).2) := by
    intro h
    rw [Grammar.joinImaginary, if_neg h]
    exact Settles.pure t
  unfold joinImaginary
  by_cases himaginary : t.getLast? = some 'i' ∧ R.coefficients.kind.isHypercomplex
  · rw [if_pos himaginary]
    -- What is ahead is the first character of a token, so that a sign ahead is an operator.
    intro s hs
    obtain ⟨u, hu⟩ := hs.sees.exists_ofText hs.free
    refine settles_peek [] (f := _) ?_ s hs
    intro c hsighted
    have hsign : signAhead tokens = true ↔ c = some '-' ∨ c = some '+' := by
      rw [hsighted.eq_some_iff (by decide), hsighted.eq_some_iff (by decide)]
      exact Token.signAhead_iff_of_ofText hu
    cases c with
    | none => exact hsame fun h => by simpa using hsign.1 h.2.2.1
    | some sign =>
      dsimp only
      split
      · rename_i hcase
        have hahead : signAhead tokens = true := hsign.2 (by simpa using hcase)
        have hop : isWordChar sign = false ∧ sign ≠ '"' ∧ sign ≠ '\x27' := by
          rcases hcase with rfl | rfl
          · decide
          · decide
        obtain ⟨rest, rfl⟩ := Token.exists_op_of_ahead hu ((hsighted.eq_some_iff hop.2).1 rfl)
          hop.1 hop.2.1
        refine settles_digitAhead [sign] ?_
        cases hdigit : Grammar.digitAhead rest with
        | true =>
          obtain ⟨v, hv⟩ := Token.exists_ofText_of_cons hu
          obtain ⟨w, rest, rfl, -⟩ := Token.exists_word_of_digitAhead hv hdigit
          have hjoined : Grammar.joinImaginary R t (.op sign :: .word w :: rest) =
              (t ++ sign :: w, rest) := by
            rw [Grammar.joinImaginary, if_pos ⟨himaginary.1, himaginary.2, hahead, hdigit⟩]
            simp [Token.lexeme]
          rw [hjoined]
          apply (settles_advance.of_imp fun s hs => hs.toAt).bind
          apply (settles_advance.of_imp fun s hs => hs.tail).bind
          exact (Settles.pure (t ++ sign :: w)).of_imp fun s (hs : s.Past _ _ _) => hs.toFree
        | false => exact hsame fun h => by simp [hdigit] at h
      · rename_i hcase
        exact hsame fun h => hcase (by simpa using hsign.1 h.2.2.1)
  · rw [if_neg himaginary]
    exact hsame fun h => himaginary ⟨h.1, h.2.1⟩

theorem yields_numeral {w : Text} :
    Yields (numeral R w) (Session.Free limits depth tokens) limits depth
      (Grammar.numeral R limits depth w tokens) := by
  unfold numeral Grammar.numeral
  split
  · exact fun s hs => .inr ⟨rfl, rfl, hs.toAt⟩
  · refine settles_joinImaginary.bind ?_
    generalize Grammar.joinImaginary R (completeNumeral w) tokens = joined
    obtain ⟨t, rest⟩ := joined
    have hplace : ∀ s, Session.Free limits depth rest s → s.limits = limits ∧ s.depth = depth :=
      fun s hs => ⟨hs.limits_eq, hs.depth_eq⟩
    refine (settles_literal? hplace).bind ?_
    rw [Nat.add_zero]
    dsimp only
    cases R.coefficients.readWithin limits depth t with
    | ok c => exact (Settles.pure _).imp (fun _ h => h) fun s hs => hs.toAt
    | error fault =>
      dsimp only
      cases hsplit : splitJuxtaposed? t with
      | none => exact settles_literalFailure.imp (fun _ h => h) fun s hs => hs.toAt
      | some parts =>
        obtain ⟨number, symbol⟩ := parts
        obtain ⟨-, -, hsymbol⟩ := splitJuxtaposed?_eq_some hsplit
        have hliteral : Settles (literal R number 0) (Session.Free limits depth rest)
            (Grammar.literal R limits depth number rest).result (Session.Free limits depth rest) :=
          settles_literal hplace
        rw [Grammar.literal] at hliteral
        dsimp only
        unfold Grammar.literal
        cases hnumber : R.coefficients.readWithin limits depth number with
        | ok c =>
          rw [hnumber] at hliteral
          have hput : Settles (pushBack (.word symbol)) (Session.Free limits depth rest) (.ok ())
              (Session.At limits depth (.word symbol :: rest)) := fun s hs =>
            @settles_pushBack _ _ (.word symbol :: rest) s
              (hs.past (List.length_pos_iff.2 hsymbol))
          exact hliteral.bind (hput.bind (Settles.pure _))
        | error fault =>
          rw [hnumber] at hliteral
          exact hliteral.bind_error.imp (fun _ h => h) fun s hs => hs.toAt

theorem yields_symbol {w : Text} :
    Yields (symbol R w) (Session.At limits depth tokens) limits depth
      (Grammar.symbol R limits depth w tokens) := by
  unfold symbol Grammar.symbol
  cases R.varIndex? w with
  | some index => exact Settles.pure _
  | none =>
    apply (settles_literal? fun s hs => ⟨hs.limits_eq, hs.depth_eq⟩).bind
    rw [Nat.add_zero]
    cases R.coefficients.readWithin limits depth w with
    | ok c => exact Settles.pure _
    | error fault => exact fun s hs => .inr ⟨rfl, rfl, hs⟩

/-- A factor with its exponent multiplies the term, which a sign behind it finishes. -/
theorem yields_multiplied {acc : Accumulator α} {factor : Factor α} :
    Yields (multiplied R acc factor) (Session.At limits depth tokens) limits depth
      (Grammar.multiplied R acc factor tokens) := by
  refine yields_bind yields_exponent fun k rest => settles_look ?_
  have hsettle : (if rest.headD .eof = .op '-' ∨ rest.headD .eof = .op '+'
      then (acc.multiply R factor k).flush R else acc.multiply R factor k) =
      (acc.multiply R factor k).settle R rest := by
    simp only [Accumulator.settle, signAhead, Bool.or_eq_true, decide_eq_true_eq]
  rw [hsettle]
  exact Settles.pure _

/-! ### Passes -/

/-- Behind a pass the expression gives the outcome. -/
def Leads (R : PolyRing α) (limits : Limits) (depth fuel : Nat) (closer : Option Char)
    (outcome : Outcome (Poly α × Terminator)) : Grammar.Pass α → Prop
  | .more acc rest =>
    Yields (expressionFrom R fuel closer acc) (Session.At limits depth rest) limits depth outcome
  | .opens _ => False
  | .last o => o = outcome

variable {fuel : Nat} {closer : Option Char} {acc : Accumulator α}
  {outcome : Outcome (Poly α × Terminator)}

/-- An expression goes on behind an accumulator, and fails with it. -/
theorem yields_behind {r : Reader (Accumulator α)} {P : Session → Prop} {o : Outcome (Accumulator α)}
    (hr : Yields r P limits depth o)
    (h : Leads R limits depth fuel closer outcome (.behind o)) :
    Yields (r >>= expressionFrom R fuel closer) P limits depth outcome := by
  unfold Grammar.Pass.behind at h
  unfold Yields at hr
  cases hresult : o.result with
  | ok acc =>
    rw [hresult] at hr h
    exact hr.bind h
  | error e =>
    rw [hresult] at hr h
    obtain rfl := h
    exact hr.bind_error

/-- A pass that opens no parenthesis. -/
theorem yields_succ (h : Leads R limits depth fuel closer outcome
      (Grammar.pass R limits depth closer acc tokens)) :
    Yields (expressionFrom R (fuel + 1) closer acc) (Session.At limits depth tokens) limits depth
      outcome := by
  apply settles_advance.bind
  unfold Grammar.pass at h
  cases hrole : Role.ofToken closer (tokens.headD .eof) with
  | negate =>
    rw [hrole] at h
    exact Settles.of_imp h fun s hs => hs.tail
  | skip =>
    rw [hrole] at h
    exact Settles.of_imp h fun s hs => hs.tail
  | stop terminator =>
    rw [hrole] at h
    obtain rfl := h
    exact (Settles.pure _).of_imp fun s hs => hs.tail
  | leave =>
    rw [hrole] at h
    obtain rfl := h
    exact settles_pushBack.bind (Settles.pure _)
  | strayBrace =>
    rw [hrole] at h
    obtain rfl := h
    exact settles_malformed.of_imp fun s hs => hs.tail
  | openBrace =>
    rw [hrole] at h
    have hfactor := yields_behind
      (yields_bind yields_enclosed fun _ _ => yields_multiplied) h
    simp only [bind_assoc] at hfactor
    exact Settles.of_imp hfactor fun s hs => hs.tail
  | openParen =>
    rw [hrole] at h
    dsimp only at h
    split at h
    · rename_i hlt
      obtain rfl := h
      exact (yields_nested_of_lt hlt).bind_error.of_imp fun s hs => hs.tail
    · exact h.elim
  | quoted text =>
    rw [hrole] at h
    have hfactor := yields_behind
      (yields_bind yields_literal fun _ _ => yields_multiplied) h
    simp only [bind_assoc] at hfactor
    exact Settles.of_imp hfactor fun s hs => hs.tail
  | numeral w =>
    rw [hrole] at h
    have hfactor := yields_behind
      (yields_bind yields_numeral fun _ _ => yields_multiplied) h
    simp only [bind_assoc] at hfactor
    exact Settles.of_imp hfactor fun s hs => hs.toFree
  | symbol w =>
    rw [hrole] at h
    have hfactor := yields_behind
      (yields_bind yields_symbol fun _ _ => yields_multiplied) h
    simp only [bind_assoc] at hfactor
    exact Settles.of_imp hfactor fun s hs => hs.tail

/-- A pass that opens a parenthesis. -/
theorem yields_group {rest : List Token} {inner : Outcome (Poly α × Terminator)}
    (hpass : Grammar.pass R limits depth closer acc tokens = .opens rest)
    (hinner : Yields (expressionFrom R fuel none (.start R)) (Session.At limits (depth + 1) rest)
      limits (depth + 1) inner)
    (h : Leads R limits depth fuel closer outcome
      (.behind ((Grammar.closed inner).bind (Grammar.multiplied R acc)))) :
    Yields (expressionFrom R (fuel + 1) closer acc) (Session.At limits depth tokens) limits depth
      outcome := by
  obtain ⟨hrole, hdepth, rfl⟩ := Grammar.of_pass_eq_opens hpass
  have hnested := yields_nested hinner
  rw [Grammar.nested, if_neg (Nat.not_lt.2 hdepth)] at hnested
  apply settles_advance.bind
  rw [hrole]
  refine Settles.of_imp (P := Session.At limits depth tokens.tail) ?_ fun s hs => hs.tail
  dsimp only
  unfold Grammar.closed Outcome.bind at h
  unfold Yields at hnested
  cases hresult : inner.result with
  | error e =>
    rw [hresult] at hnested h
    obtain rfl : _ = outcome := h
    exact hnested.bind_error
  | ok result =>
    rw [hresult] at hnested h
    refine hnested.bind ?_
    dsimp only at h ⊢
    split
    · rename_i hclose
      rw [if_pos hclose] at h
      obtain rfl : _ = outcome := h
      exact settles_malformed
    · rename_i hclose
      rw [if_neg hclose] at h
      exact yields_behind yields_multiplied h

/-- An expression gives the outcome that its tokens derive, within any bound on the passes that is
not passed. -/
theorem yields_expressionFrom (h : Grammar.Reads R limits depth closer acc tokens outcome)
    (fuel : Nat) :
    Yields (expressionFrom R fuel closer acc) (Session.At limits depth tokens) limits depth
      outcome := by
  induction h generalizing fuel with
  | last hpass =>
    cases fuel with
    | zero => exact settles_exhausted
    | succ fuel =>
      apply yields_succ
      rw [hpass]
      rfl
  | more hpass _ ih =>
    cases fuel with
    | zero => exact settles_exhausted
    | succ fuel =>
      apply yields_succ
      rw [hpass]
      exact ih fuel
  | group hpass _ hbehind ih =>
    cases fuel with
    | zero => exact settles_exhausted
    | succ fuel =>
      apply yields_group hpass (ih fuel)
      rw [hbehind]
      rfl
  | groupMore hpass _ hbehind _ ihinner ih =>
    cases fuel with
    | zero => exact settles_exhausted
    | succ fuel =>
      apply yields_group hpass (ihinner fuel)
      rw [hbehind]
      exact ih fuel

/-- An expression gives the outcome that its tokens derive. -/
theorem yields_expression (h : Grammar.Reads R limits depth closer (.start R) tokens outcome) :
    Yields (expression R closer) (Session.At limits depth tokens) limits depth outcome :=
  fun s hs => yields_expressionFrom h (s.scanner.remaining + 1) s hs

/-! ### Runs without defects -/

/-- The run of an expression gives what its tokens derive. -/
theorem expression_of_reads {s : Session}
    (h : Grammar.Reads R limits depth closer (.start R) tokens outcome)
    (hs : s.At limits depth tokens) :
    match expression R closer s with
    | .ok result s' => outcome.result = .ok result ∧ s'.At limits depth outcome.rest
    | .error e s' => outcome.result = .error e.unlined ∧ s'.At limits depth outcome.rest := by
  have hrun := yields_expression h s hs
  have hsafe := @keeps_expression false _ R (fun h => nomatch h) (s.scanner.remaining + 1) closer s
    hs.sees.proper (Nat.lt_succ_self _)
  cases hcase : expression R closer s with
  | ok result s' =>
    rw [hcase] at hrun
    exact ⟨hrun.1, hrun.2.2⟩
  | error e s' =>
    rw [hcase] at hrun hsafe
    obtain ⟨hresult, -, hs'⟩ := hrun.resolve_left hsafe.1
    exact ⟨hresult, hs'⟩

/-- Tokens that derive a result are read as it. -/
theorem takes_expression_of_reads {result : Poly α × Terminator} {rest : List Token}
    (h : Grammar.Reads R limits depth closer (.start R) tokens (.ok result rest)) :
    Takes (expression R closer) (Session.At limits depth tokens) result
      (Session.At limits depth rest) := by
  intro s hs
  have hrun := expression_of_reads h hs
  cases hcase : expression R closer s with
  | ok found s' =>
    rw [hcase] at hrun
    obtain rfl := Except.ok.inj hrun.1
    exact ⟨s', rfl, hrun.2⟩
  | error e s' =>
    rw [hcase] at hrun
    exact nomatch hrun.1

/-- A result that is read is derived from the tokens. -/
theorem reads_of_expression {s s' : Session} {result : Poly α × Terminator}
    (hs : s.At limits depth tokens) (hrun : expression R closer s = .ok result s') :
    ∃ rest, Grammar.Reads R limits depth closer (.start R) tokens (.ok result rest) ∧
      s'.At limits depth rest := by
  obtain ⟨⟨found, rest⟩, hreads⟩ :=
    Grammar.exists_reads R limits depth closer (.start R) hs.sees.solid
  have hmatch := expression_of_reads hreads hs
  rw [hrun] at hmatch
  obtain ⟨rfl, hs'⟩ := hmatch
  exact ⟨rest, hreads, hs'⟩

/-- A polynomial that is read is derived from the tokens. -/
theorem reads_of_polynomial {s s' : Session} {p : Poly α} (hs : s.At limits depth tokens)
    (hrun : polynomial R s = .ok p s') :
    ∃ terminator rest, Grammar.Reads R limits depth none (.start R) tokens (.ok (p, terminator) rest) ∧
      s'.At limits depth rest := by
  cases hexpression : expression R none s with
  | ok result s'' =>
    simp only [polynomial, Bind.bind, EStateM.bind, hexpression] at hrun
    obtain ⟨rfl, rfl⟩ := EStateM.Result.ok.inj hrun
    obtain ⟨rest, hreads, hs'⟩ := reads_of_expression hs hexpression
    exact ⟨result.2, rest, hreads, hs'⟩
  | error e s'' =>
    simp only [polynomial, Bind.bind, EStateM.bind, hexpression] at hrun
    contradiction

/-- A text is read as its tokens derive: as the polynomial, or not at all. -/
theorem polynomialOf_of_reads {t : Text}
    (h : Grammar.Reads R limits depth none (.start R) (Token.ofText t) outcome) :
    match outcome.result with
    | .ok result => polynomialOf R limits depth t = .ok result.1
    | .error _ => ∃ e, polynomialOf R limits depth t = .error e := by
  have hrun := expression_of_reads h (Session.at_ofText t limits depth)
  cases hcase : expression R none (.ofText t limits depth) with
  | ok result s' =>
    rw [hcase] at hrun
    rw [hrun.1]
    simp only [polynomialOf, polynomial, Bind.bind, EStateM.bind, hcase]
    rfl
  | error e s' =>
    rw [hcase] at hrun
    rw [hrun.1]
    simp only [polynomialOf, polynomial, Bind.bind, EStateM.bind, hcase]
    exact ⟨e, rfl⟩

end

end

end Reader

end PolynomialText
