import PolynomialText.Proofs.TokenwiseReading

/-!
# The text of a literal in braces

A literal in braces is put together from its tokens: blanks, comments and quotes are lost and made
anew, and words are set apart by a blank unless the first one ends in a point. The literal is then
read as a text of its own. `Reader.Advances` lists the tokens that were read, over any source, and
`Token.Balanced` says which of them make a literal. Every pass keeps that the text spells the tokens
so far, so that the ring of the literal sees the tokens that were written.
-/

namespace PolynomialText

namespace Token

/-! ### Tokens of a source -/

/-- A token as it is scanned: a word, a text within a line, an operator, or the end of a source. -/
def Scanned : Token → Prop
  | word w => w.IsWord
  | quoted t => '\n' ∉ t
  | op c => IsOperator c
  | eof => True

/-- A token that starts with a significant character is scanned. -/
theorem scanned_lex {c : Char} (hc : c ≠ '\n' ∧ c ≠ '#' ∧ Text.isBlank c = false) (rest : Text) :
    (lex c rest).1.Scanned := by
  unfold lex
  split
  · intro hmem
    have hrun := List.all_eq_true.1 List.all_takeWhile _ hmem
    simp [isQuotedChar] at hrun
  · rename_i hquote
    split
    · rename_i hword
      exact ⟨List.cons_ne_nil _ _,
        List.forall_mem_cons.2 ⟨hword, List.all_eq_true.1 List.all_takeWhile⟩⟩
    · rename_i hword
      exact ⟨hc.2.2, hc.2.1, (not_or.1 hquote).1, (not_or.1 hquote).2, Bool.eq_false_iff.2 hword⟩

/-- A quoted text without double quotes stands for itself between double quotes. -/
theorem spells_quoted {q : Text} (hline : '\n' ∉ q) (hquote : '"' ∉ q) :
    Spells ('"' :: q ++ ['"']) [quoted q] := by
  intro tail _
  have hq : ∀ d ∈ q, isQuotedChar '"' d = true := by
    intro d hd
    have hne : d ≠ '"' := fun h => hquote (h ▸ hd)
    have hne' : d ≠ '\n' := fun h => hline (h ▸ hd)
    simp [isQuotedChar, hne, hne']
  have hread := ofText_quoted (.inl rfl) hq tail
  simpa using hread

/-! ### Braces -/

/-- The number of open braces behind a token. -/
def levelBehind (level : Nat) (t : Token) : Nat :=
  if t = .op '\x7b' then level + 1 else if t = .op '\x7d' then level - 1 else level

/-- The token may stand in a literal where a number of inner braces is open: the source does not
end, and no brace is closed that was not opened or opened beyond the levels that are left. -/
structure Allowed (room level : Nat) (t : Token) : Prop where
  ne_eof : t ≠ .eof
  opened : t = .op '\x7d' → level ≠ 0
  room : t = .op '\x7b' → level + 1 ≤ room

@[simp] theorem allowed_word (room level : Nat) (w : Text) : (word w).Allowed room level :=
  ⟨nofun, nofun, nofun⟩

@[simp] theorem allowed_quoted (room level : Nat) (q : Text) : (quoted q).Allowed room level :=
  ⟨nofun, nofun, nofun⟩

@[simp] theorem not_allowed_eof (room level : Nat) : ¬ eof.Allowed room level :=
  fun h => h.ne_eof rfl

@[simp] theorem allowed_op {room level : Nat} {c : Char} : (op c).Allowed room level ↔
    (c = '\x7d' → level ≠ 0) ∧ (c = '\x7b' → level + 1 ≤ room) := by
  refine ⟨fun h => ⟨fun hc => h.opened (hc ▸ rfl), fun hc => h.room (hc ▸ rfl)⟩, fun h => ?_⟩
  exact ⟨nofun, fun hc => h.1 (op.inj hc), fun hc => h.2 (op.inj hc)⟩

/-- The tokens close the braces that are open and those that they open, within the levels left. -/
def Balanced (room : Nat) : Nat → List Token → Prop
  | level, [] => level = 0
  | level, t :: rest => t.Allowed room level ∧ Balanced room (levelBehind level t) rest

/-- The end of the source is no token of a literal. -/
theorem Balanced.ne_eof {room level : Nat} {tokens : List Token} (h : Balanced room level tokens) :
    ∀ t ∈ tokens, t ≠ .eof := by
  induction tokens generalizing level with
  | nil => exact fun _ hmem => absurd hmem List.not_mem_nil
  | cons t rest ih => exact List.forall_mem_cons.2 ⟨h.1.ne_eof, ih h.2⟩

/-- The second token may stand behind the first in a literal: it is no word behind a word that ends
in a point. -/
def MayFollow : Token → Token → Prop
  | word w, word _ => w.getLast? ≠ some '.'
  | _, _ => True

instance : DecidableRel MayFollow
  | word w, word _ => inferInstanceAs (Decidable (w.getLast? ≠ some '.'))
  | word _, op _ | word _, quoted _ | word _, eof => isTrue trivial
  | op _, _ | quoted _, _ | eof, _ => isTrue trivial

/-- Nothing keeps the tokens of a literal from being told apart: no word that ends in a point stands
in front of a word, and no quoted text has a double quote. -/
structure Separable (tokens : List Token) : Prop where
  follow : tokens.IsChain MayFollow
  quotes : ∀ q, quoted q ∈ tokens → '"' ∉ q

/-- The first of separable tokens are separable. -/
theorem Separable.of_append {tokens more : List Token} (h : Separable (tokens ++ more)) :
    Separable tokens :=
  ⟨h.follow.left_of_append, fun q hq => h.quotes q (List.mem_append_left _ hq)⟩

end Token

namespace Scanner

/-- What is scanned is a token of the source, and nothing is held behind it. -/
theorem scanned_of_scan {line : Nat} {buffer : Text} {pending : List Read} {t : Token} {s : Scanner}
    (h : scan line buffer pending = .ok t s) : t.Scanned ∧ s.held = none := by
  induction pending generalizing line buffer with
  | nil =>
    rw [scan] at h
    cases hskip : Token.skip false line buffer with
    | mk line' found =>
      rw [hskip] at h
      cases found with
      | nil =>
        obtain ⟨rfl, rfl⟩ := EStateM.Result.ok.inj h
        exact ⟨trivial, rfl⟩
      | cons c rest =>
        obtain ⟨rfl, rfl⟩ := EStateM.Result.ok.inj h
        exact ⟨Token.scanned_lex (Token.skip_cons_spec (congrArg Prod.snd hskip)) rest, rfl⟩
  | cons read others ih =>
    rw [scan] at h
    cases hskip : Token.skip false line buffer with
    | mk line' found =>
      rw [hskip] at h
      cases found with
      | nil =>
        cases read with
        | line t => exact ih h
        | failure message => contradiction
      | cons c rest =>
        obtain ⟨rfl, rfl⟩ := EStateM.Result.ok.inj h
        exact ⟨Token.scanned_lex (Token.skip_cons_spec (congrArg Prod.snd hskip)) rest, rfl⟩

end Scanner

namespace Reader

/-! ### Tokens that are read one after the other -/

/-- Tokens are read one after the other, from one session to another. -/
inductive Advances : Session → List Token → Session → Prop
  | nil {s : Session} : Advances s [] s
  | cons {s s' s'' : Session} {t : Token} {tokens : List Token} (h : advance s = .ok t s')
    (hrest : Advances s' tokens s'') : Advances s (t :: tokens) s''

section

variable {s s' : Session} {t : Token} {tokens : List Token}

/-- Reading a token changes the scanner only. -/
theorem session_of_advance (h : advance s = .ok t s') :
    s'.limits = s.limits ∧ s'.depth = s.depth ∧ Scanner.next s.scanner = .ok t s'.scanner := by
  unfold advance scanning at h
  split at h
  · rename_i hnext
    obtain ⟨rfl, rfl⟩ := EStateM.Result.ok.inj h
    exact ⟨rfl, rfl, hnext⟩
  · contradiction

/-- Where nothing is held, a token of the source is read. -/
theorem scanned_of_advance (h : advance s = .ok t s') (hfree : s.scanner.held = none) :
    t.Scanned ∧ s'.scanner.held = none := by
  obtain ⟨-, -, hnext⟩ := session_of_advance h
  unfold Scanner.next at hnext
  rw [hfree] at hnext
  exact Scanner.scanned_of_scan hnext

/-- Where nothing is held, tokens of the source are read. -/
theorem Advances.scanned (h : Advances s tokens s') (hfree : s.scanner.held = none) :
    ∀ t ∈ tokens, t.Scanned := by
  induction h with
  | nil => exact fun _ hmem => absurd hmem List.not_mem_nil
  | cons hread _ ih =>
    obtain ⟨ht, hfree'⟩ := scanned_of_advance hread hfree
    exact List.forall_mem_cons.2 ⟨ht, ih hfree'⟩

/-- Every token in front of the end takes at least a character. -/
theorem Advances.length_le_remaining (h : Advances s tokens s') (hfree : s.scanner.held = none)
    (heof : ∀ t ∈ tokens, t ≠ .eof) : tokens.length ≤ s.scanner.remaining := by
  induction h with
  | nil => exact Nat.zero_le _
  | cons hread _ ih =>
    have hspec := Scanner.next_spec false (Scanner.proper_of_free hfree)
    rw [(session_of_advance hread).2.2] at hspec
    obtain ⟨hfree', hproper, hle⟩ := hspec
    have hrest := ih hfree' fun u hu => heof u (List.mem_cons_of_mem _ hu)
    have hpos : 0 < Token.weight _ := hproper.resolve_left (heof _ List.mem_cons_self)
    rw [List.length_cons]
    omega

/-- The tokens that are seen are read one after the other. -/
theorem exists_advances {limits : Limits} {depth : Nat} {rest : List Token}
    (h : s.At limits depth (tokens ++ rest)) :
    ∃ s', Advances s tokens s' ∧ s'.At limits depth rest := by
  induction tokens generalizing s with
  | nil => exact ⟨s, .nil, h⟩
  | cons t tokens ih =>
    obtain ⟨s₁, hread, hs₁⟩ := takes_advance s h
    obtain ⟨s', hrest, hs'⟩ := ih hs₁.tail
    exact ⟨s', .cons hread hrest, hs'⟩

end

/-! ### The passes over a literal -/

/-- What a token adds to a literal. -/
def Braces.add (b : Braces) (t : Token) : Braces :=
  match t with
  | .op c => ⟨b.text ++ [c], t.levelBehind b.level, false⟩
  | .word w =>
    ⟨b.text ++ (if b.afterWord ∧ b.text.getLast? ≠ some '.' then [' '] else []) ++ w, b.level, true⟩
  | .quoted q => ⟨b.text ++ '"' :: q ++ ['"'], b.level, false⟩
  | .eof => b

/-- The level behind a token that is added. -/
theorem Braces.level_add (b : Braces) (t : Token) : (b.add t).level = t.levelBehind b.level := by
  cases t <;> rfl

/-- The levels that are left for the inner braces of a literal. -/
def room (s : Session) : Nat := s.limits.maxDepth.toNat - s.depth

/-- Further levels are opened exactly where they are left. -/
theorem checkDepth_succ (extra : Nat) (s : Session) :
    checkDepth (extra + 1) s =
      if extra + 1 ≤ room s then .ok () s
      else .error (.malformed s.scanner.line (.tooDeep s.limits.maxDepth.toNat)) s := by
  have hroom : s.limits.maxDepth.toNat < s.depth + (extra + 1) ↔ ¬ extra + 1 ≤ room s := by
    unfold room
    omega
  change (if s.limits.maxDepth.toNat < s.depth + (extra + 1) then
    malformed (.tooDeep s.limits.maxDepth.toNat) else pure () : Reader Unit) s = _
  by_cases h : extra + 1 ≤ room s
  · rw [if_neg (hroom.not.2 (not_not.2 h)), if_pos h]
    rfl
  · rw [if_pos (hroom.2 h), if_neg h]
    rfl

section

variable {b : Braces} {s s' : Session} {t : Token}

/-- A pass reads a token and goes on with it. -/
theorem bracesStep_eq (h : advance s = .ok t s') : bracesStep b s =
    (match t with
      | .eof => malformed .openBrace
      | .op c =>
        if c = '\x7d' then pure (if b.level = 0 then .inr b.text else .inl (b.add t))
        else if c = '\x7b' then do checkDepth (b.level + 1); return .inl (b.add t)
        else pure (.inl (b.add t))
      | _ => pure (.inl (b.add t)) : Reader (Braces ⊕ Text)) s' := by
  simp only [bracesStep, bind, EStateM.bind, h]
  cases t with
  | op c =>
    by_cases hclose : c = '\x7d'
    · by_cases hlevel : b.level = 0
      · simp [hclose, hlevel]
      · simp [hclose, hlevel, Braces.add, Token.levelBehind]
    · by_cases hopen : c = '\x7b'
      · simp [hopen, Braces.add, Token.levelBehind]
      · simp [hclose, hopen, Braces.add, Token.levelBehind]
  | word w => rfl
  | quoted q => rfl
  | eof => rfl

/-- A pass that succeeds has read a token, which was added because it is allowed, or is the brace
that ends the literal. -/
theorem bracesStep_of_advance (h : advance s = .ok t s') {next : Braces ⊕ Text} {s'' : Session} :
    bracesStep b s = .ok next s'' ↔ s' = s'' ∧
      (t.Allowed (room s') b.level ∧ .inl (b.add t) = next ∨
        t = .op '\x7d' ∧ b.level = 0 ∧ .inr b.text = next) := by
  have hpure (next' : Braces ⊕ Text) : (pure next' : Reader _) s' = .ok next s'' ↔
      s' = s'' ∧ next' = next := by
    change EStateM.Result.ok next' s' = _ ↔ _
    rw [EStateM.Result.ok.injEq, and_comm]
  rw [bracesStep_eq h]
  cases t with
  | eof =>
    have hfail : (malformed .openBrace : Reader (Braces ⊕ Text)) s' ≠ .ok next s'' := nofun
    simp [hfail]
  | word w => simp [hpure]
  | quoted q => simp [hpure]
  | op c =>
    by_cases hclose : c = '\x7d'
    · by_cases hlevel : b.level = 0 <;> simp [hpure, hclose, hlevel]
    · by_cases hopen : c = '\x7b'
      · have hcheck := checkDepth_succ b.level s'
        by_cases hleft : b.level + 1 ≤ room s'
        · rw [if_pos hleft] at hcheck
          simpa [hopen, hleft, bind, EStateM.bind, hcheck] using hpure (.inl (b.add (.op '\x7b')))
        · rw [if_neg hleft] at hcheck
          simp [hopen, hleft, bind, EStateM.bind, hcheck]
      · simp [hpure, hclose, hopen]

/-- A token is read with the same number of levels left. -/
theorem room_of_advance (h : advance s = .ok t s') : room s' = room s := by
  obtain ⟨hlimits, hdepth, -⟩ := session_of_advance h
  rw [room, room, hlimits, hdepth]

/-- The passes end with the tokens that close the braces which are open, and the closing brace
behind them. -/
theorem iterate_bracesStep {fuel : Nat} {text : Text} {s' : Session} :
    iterate bracesStep fuel b s = .ok text s' ↔
      ∃ tokens, tokens.length < fuel ∧ Advances s (tokens ++ [.op '\x7d']) s' ∧
        Token.Balanced (room s) b.level tokens ∧ (tokens.foldl Braces.add b).text = text := by
  induction fuel generalizing b s with
  | zero =>
    have hfail : (exhausted : Reader Text) s ≠ .ok text s' := nofun
    simp [iterate, hfail]
  | succ fuel ih =>
    constructor
    · intro h
      obtain ⟨next, s₁, hstep, hrest⟩ := exists_of_bind_eq_ok h
      obtain ⟨t, s₂, hread, -⟩ := exists_of_bind_eq_ok hstep
      obtain ⟨rfl, ⟨hallowed, rfl⟩ | ⟨rfl, hlevel, rfl⟩⟩ := (bracesStep_of_advance hread).1 hstep
      · obtain ⟨tokens, hlength, hadvances, hbalanced, htext⟩ := ih.1 hrest
        rw [room_of_advance hread] at hallowed hbalanced
        rw [Braces.level_add] at hbalanced
        exact ⟨t :: tokens, Nat.succ_lt_succ hlength, .cons hread hadvances, ⟨hallowed, hbalanced⟩,
          htext⟩
      · obtain ⟨rfl, rfl⟩ := EStateM.Result.ok.inj hrest
        exact ⟨[], Nat.succ_pos _, .cons hread .nil, hlevel, rfl⟩
    · rintro ⟨tokens, hlength, hadvances, hbalanced, htext⟩
      cases tokens with
      | nil =>
        obtain _ | ⟨hread, hnil⟩ := hadvances
        cases hnil
        have hstep := (bracesStep_of_advance hread).2 ⟨rfl, .inr ⟨rfl, hbalanced, rfl⟩⟩
        simp [iterate, bind, EStateM.bind, hstep, ← htext]
        rfl
      | cons t tokens =>
        obtain _ | ⟨hread, hadvances⟩ := hadvances
        obtain ⟨hallowed, hbalanced⟩ := hbalanced
        rw [← room_of_advance hread] at hallowed hbalanced
        rw [← Braces.level_add] at hbalanced
        have hstep := (bracesStep_of_advance hread).2 ⟨rfl, .inl ⟨hallowed, rfl⟩⟩
        have hrest := ih.2 ⟨tokens, Nat.lt_of_succ_lt_succ hlength, hadvances, hbalanced, htext⟩
        simp [iterate, bind, EStateM.bind, hstep, hrest]

/-- A literal is put together from the tokens up to the brace that closes it. -/
theorem bracesText_eq_ok_iff (hfree : s.scanner.held = none) {text : Text} :
    bracesText s = .ok text s' ↔
      ∃ tokens, Advances s (tokens ++ [.op '\x7d']) s' ∧ Token.Balanced (room s) 0 tokens ∧
        (tokens.foldl Braces.add ⟨[], 0, false⟩).text = text := by
  change iterate bracesStep (s.scanner.remaining + 1) ⟨[], 0, false⟩ s = _ ↔ _
  rw [iterate_bracesStep]
  refine exists_congr fun tokens => and_iff_right_of_imp fun h => ?_
  have hlength := h.1.length_le_remaining hfree <| List.forall_mem_append.2
    ⟨h.2.1.ne_eof, List.forall_mem_singleton.2 nofun⟩
  rw [List.length_append] at hlength
  exact Nat.lt_succ_of_le (Nat.le_of_add_right_le hlength)

end

/-! ### The text of a literal -/

/-- What the passes keep: the text spells the tokens that were read, and where the last one is no
word, no word runs on from the text. -/
structure Braces.Shows (b : Braces) (tokens : List Token) : Prop where
  spells : Token.Spells b.text tokens
  word : b.afterWord = true →
    ∃ before w, tokens = before ++ [.word w] ∧ b.text.getLast? = w.getLast?
  free : b.afterWord = false → ∀ c ∈ b.text.getLast?, isWordChar c = false

/-- A token that is added is spelled behind the others. -/
theorem Braces.Shows.add {b : Braces} {tokens : List Token} {t : Token} (h : b.Shows tokens)
    (ht : t.Scanned) (hne : t ≠ .eof) (hseparable : Token.Separable (tokens ++ [t])) :
    (b.add t).Shows (tokens ++ [t]) := by
  cases t with
  | eof => exact absurd rfl hne
  | op c =>
    have hop : Token.Spells [c] [.op c] := Token.spells_nil.op_cons c ht
    refine ⟨h.spells.append hop (Text.apart_cons ht.2.2.2.2), nofun, fun _ => ?_⟩
    simpa [Braces.add] using ht.2.2.2.2
  | quoted q =>
    have hword : isWordChar '"' = false := by decide
    have hquote := hseparable.quotes q (List.mem_append_right _ List.mem_cons_self)
    have hquoted := Token.spells_quoted ht hquote
    refine ⟨?_, nofun, fun _ => ?_⟩
    · simpa [Braces.add] using h.spells.append hquoted Text.apart_cons
    · have hlast : (b.add (.quoted q)).text.getLast? = some '"' := List.getLast?_concat
      simp [hlast, hword]
  | word w =>
    have hw : Token.Spells w [.word w] := Token.spells_word ht
    refine ⟨?_, fun _ => ⟨tokens, w, rfl, ?_⟩, nofun⟩
    · cases hafter : b.afterWord with
      | false =>
        have hspells := h.spells.append hw (Text.apart_of_getLast? (h.free hafter))
        simpa [Braces.add, hafter] using hspells
      | true =>
        -- The word in front does not end in a point, so that a blank sets the two apart.
        obtain ⟨before, v, rfl, hlast⟩ := h.word hafter
        have hpoint : b.text.getLast? ≠ some '.' := by
          rw [hlast]
          have hfollow := (List.isChain_append.1 hseparable.follow).2.2
          exact hfollow (.word v) (by simp) (.word w) (by simp)
        have hspells := h.spells.append (hw.blank_cons ' ') Text.apart_cons
        simpa [Braces.add, hafter, hpoint] using hspells
    · exact List.getLast?_append_of_ne_nil _ ht.1

/-- The text of a literal spells its tokens. -/
theorem shows_foldl_add {tokens : List Token} (hscanned : ∀ t ∈ tokens, t.Scanned)
    (hne : ∀ t ∈ tokens, t ≠ .eof) (hseparable : Token.Separable tokens) :
    (tokens.foldl Braces.add ⟨[], 0, false⟩).Shows tokens := by
  induction tokens using List.reverseRecOn with
  | nil => exact ⟨Token.spells_nil, nofun, fun _ => nofun⟩
  | append_singleton tokens t ih =>
    rw [List.forall_mem_append, List.forall_mem_singleton] at hscanned hne
    rw [List.foldl_append]
    exact (ih hscanned.1 hne.1 hseparable.of_append).add hscanned.2 hne.2 hseparable

end Reader

/-- The scanner reads these tokens and then the end of the source. -/
def Scanner.Answers (s : Scanner) (tokens : List Token) : Prop :=
  ∀ n, (answer next n s).1 = .ok (tokens.getD n .eof)

/-- A literal in braces is faithful to its tokens. If up to a closing brace the source has
tokens in which all inner braces are balanced, within the levels that are left, a text is put
together from them. Unless a word follows a word that ends in a point, or a quoted text has a double
quote, reading that text gives the tokens again and nothing behind them. Every text that is put
together comes from such tokens. -/
theorem brace_texts_are_faithful (s : Session) (hfree : s.scanner.held = none) :
    (∀ tokens s', Reader.Advances s (tokens ++ [.op '\x7d']) s' →
      Token.Balanced (Reader.room s) 0 tokens → ∃ text, Reader.bracesText s = .ok text s' ∧
        (Token.Separable tokens → (Scanner.ofText text).Answers tokens)) ∧
    ∀ text s', Reader.bracesText s = .ok text s' →
      ∃ tokens, Reader.Advances s (tokens ++ [.op '\x7d']) s' ∧
        Token.Balanced (Reader.room s) 0 tokens ∧
        (Token.Separable tokens → (Scanner.ofText text).Answers tokens) := by
  have hanswers {tokens : List Token} {s' : Session}
      (hadvances : Reader.Advances s (tokens ++ [.op '\x7d']) s')
      (hbalanced : Token.Balanced (Reader.room s) 0 tokens) (hseparable : Token.Separable tokens) :
      (Scanner.ofText (tokens.foldl Reader.Braces.add ⟨[], 0, false⟩).text).Answers tokens := by
    have hscanned : ∀ t ∈ tokens, t.Scanned :=
      fun t ht => hadvances.scanned hfree t (List.mem_append_left _ ht)
    have hshows := Reader.shows_foldl_add hscanned hbalanced.ne_eof hseparable
    have hsees := Scanner.sees_ofText (tokens.foldl Reader.Braces.add ⟨[], 0, false⟩).text
    rw [hshows.spells.ofText_eq] at hsees
    exact hsees.answer_eq
  constructor
  · intro tokens s' hadvances hbalanced
    exact ⟨_, (Reader.bracesText_eq_ok_iff hfree).2 ⟨tokens, hadvances, hbalanced, rfl⟩,
      hanswers hadvances hbalanced⟩
  · intro text s' h
    obtain ⟨tokens, hadvances, hbalanced, rfl⟩ := (Reader.bracesText_eq_ok_iff hfree).1 h
    exact ⟨tokens, hadvances, hbalanced, hanswers hadvances hbalanced⟩

/-- Inner braces, a word that ends in a point in front of quotes, and words on two lines. -/
theorem brace_text_of_nested_literal :
    let s := Session.ofText "2.+\x7bx y\x7d w.'a b'#\x7d\n z 3\x7d t".toList
    let tokens : List Token := [.word "2.".toList, .op '+', .op '\x7b', .word "x".toList,
      .word "y".toList, .op '\x7d', .word "w.".toList, .quoted "a b".toList, .word "z".toList,
      .word "3".toList]
    let text := "2.+\x7bx y\x7dw.\"a b\"z 3".toList
    s.scanner.held = none ∧ ∃ s', Reader.Advances s (tokens ++ [.op '\x7d']) s' ∧
      Token.Balanced (Reader.room s) 0 tokens ∧ Token.Separable tokens ∧
      Reader.bracesText s = .ok text s' ∧ (Scanner.ofText text).Answers tokens := by
  intro s tokens text
  have htokens : Token.ofText "2.+\x7bx y\x7d w.'a b'#\x7d\n z 3\x7d t".toList =
      tokens ++ [.op '\x7d'] ++ [.word "t".toList] := by decide +kernel
  have hbalanced : Token.Balanced (Reader.room s) 0 tokens := by
    have hroom : Reader.room s = 256 := rfl
    simp [hroom, tokens, Token.Balanced, Token.levelBehind]
  have hseparable : Token.Separable tokens := ⟨by decide, by simp [tokens]⟩
  have hat : s.At {} 0 (tokens ++ [.op '\x7d'] ++ [.word "t".toList]) :=
    htokens ▸ Session.at_ofText _ _ _
  obtain ⟨s', hadvances, -⟩ := Reader.exists_advances hat
  obtain ⟨text', htext, hanswers⟩ :=
    (brace_texts_are_faithful s rfl).1 tokens s' hadvances hbalanced
  obtain ⟨u, hrun⟩ : ∃ u, Reader.bracesText s = .ok text u :=
    Reader.exists_eq_ok (by decide +kernel)
  obtain ⟨rfl, rfl⟩ := EStateM.Result.ok.inj (htext.symm.trans hrun)
  exact ⟨rfl, s', hadvances, hbalanced, hseparable, htext, hanswers hseparable⟩

end PolynomialText
