import PolynomialText.Session
import PolynomialText.Proofs.Lines
import PolynomialText.Proofs.TokenStream

/-!
# A scanner as a stream of tokens

A scanner that reads a text line by line returns the tokens of the whole text, because no token
crosses the end of a line. `Scanner.Sees` says which tokens a scanner will still return, counting
one that was put back. Reading, putting back and looking ahead are then operations on a list of
tokens, and the buffer and the pending lines are not mentioned again.
-/

namespace PolynomialText

namespace Scanner

/-- No failure is ahead, and every text but the last ends with its line. -/
def Flows (buffer : Text) : List Read → Prop
  | [] => True
  | .line t :: others => buffer.EndsLine ∧ Flows t others
  | .failure _ :: _ => False

/-- All characters that are not yet used. -/
def unread (buffer : Text) : List Read → Text
  | [] => buffer
  | .line t :: others => buffer ++ unread t others
  | .failure _ :: others => buffer ++ unread [] others

/-- The lines of a text flow, and together they are the text. -/
theorem flows_linesFrom (buffer unfinished t : Text) (hbuffer : buffer.EndsLine) :
    Flows buffer ((Text.linesFrom unfinished t).map .line) ∧
      unread buffer ((Text.linesFrom unfinished t).map .line) = buffer ++ unfinished ++ t := by
  induction t generalizing buffer unfinished with
  | nil =>
    rw [Text.linesFrom]
    split
    · rename_i hnil
      simp [hnil, Flows, unread]
    · simp [Flows, unread, hbuffer]
  | cons c rest ih =>
    rw [Text.linesFrom]
    split
    · rename_i hc
      have hline : Text.EndsLine (unfinished ++ [c]) := .inr (by simp [hc])
      obtain ⟨hflows, hunread⟩ := ih (unfinished ++ [c]) [] hline
      refine ⟨⟨hbuffer, hflows⟩, ?_⟩
      rw [List.map_cons, unread, hunread]
      simp
    · obtain ⟨hflows, hunread⟩ := ih buffer (unfinished ++ [c]) hbuffer
      exact ⟨hflows, by rw [hunread]; simp⟩

/-- The size of what is pending counts the characters that are not yet used. -/
theorem length_unread (buffer : Text) (pending : List Read) :
    (unread buffer pending).length = buffer.length + Read.totalSize pending := by
  induction pending generalizing buffer with
  | nil => simp [unread, Read.totalSize]
  | cons read others ih =>
    cases read with
    | line t => simp [unread, Read.totalSize, Read.size, ih]
    | failure message => simp [unread, Read.totalSize, Read.size, ih]

/-- What is left of a text that ends with its line ends with it too. -/
theorem endsLine_of_suffix {t suffix : Text} (ht : t.EndsLine) (hsuffix : suffix <:+ t) :
    suffix.EndsLine := by
  obtain ⟨initial, rfl⟩ := hsuffix
  by_cases hnil : suffix = []
  · exact .inl hnil
  · right
    rcases ht with hempty | hlast
    · exact absurd (List.append_eq_nil_iff.1 hempty).2 hnil
    · rwa [List.getLast?_append, Option.or_of_isSome (by simp [hnil])] at hlast

end Scanner

namespace Token

/-- Dropping blanks and comments leaves the end of a text. -/
theorem skip_suffix (comment : Bool) (line : Nat) (t : Text) : (skip comment line t).2 <:+ t := by
  induction t generalizing comment line with
  | nil => exact List.suffix_refl _
  | cons c rest ih =>
    have hrest : ∀ b l, (skip b l rest).2 <:+ c :: rest := fun b l =>
      (ih b l).trans (List.suffix_cons c rest)
    rw [skip]
    split
    · exact hrest _ _
    · split
      · exact hrest _ _
      · split
        · exact hrest _ _
        · exact List.suffix_refl _

theorem dropOne_suffix (c : Char) (t : Text) : Text.dropOne c t <:+ t := by
  cases t with
  | nil => exact List.suffix_refl _
  | cons d t =>
    by_cases hd : d = c
    · simp [Text.dropOne, Text.strip?, hd]
    · simp [Text.dropOne, Text.strip?, hd]

/-- Reading a token leaves the end of a text. -/
theorem lex_suffix (c : Char) (rest : Text) : (lex c rest).2 <:+ rest := by
  unfold lex
  split
  · exact (dropOne_suffix c _).trans (List.dropWhile_suffix _)
  · split
    · exact List.dropWhile_suffix _
    · exact List.suffix_refl _

end Token

namespace Scanner

/-- The tokens of a text depend on the part behind blanks and comments only. -/
theorem ofText_congr_start {t u : Text} (h : Token.start t = Token.start u) :
    Token.ofText t = Token.ofText u := by
  cases hu : Token.start u with
  | nil => rw [Token.ofText_of_start_nil (h.trans hu), Token.ofText_of_start_nil hu]
  | cons c rest => rw [Token.ofText_of_start_cons (h.trans hu), Token.ofText_of_start_cons hu]

/-- A line that ends behind a significant character ends behind it with a newline. -/
theorem newline_mem_of_skip {line : Nat} {buffer : Text} (hbuffer : buffer.EndsLine) {c : Char}
    {rest : Text} (hskip : (Token.skip false line buffer).2 = c :: rest) : '\n' ∈ rest := by
  have hends : Text.EndsLine (c :: rest) :=
    endsLine_of_suffix hbuffer (hskip ▸ Token.skip_suffix false line buffer)
  rcases hends with hnil | hlast
  · exact absurd hnil (List.cons_ne_nil _ _)
  · rcases List.mem_cons.1 (List.mem_of_getLast? hlast) with hc | hmem
    · exact absurd hc.symm (Token.skip_cons_spec hskip).1
    · exact hmem

/-- Scanning line by line skips blanks and comments as in the whole text, and returns the token behind
them. -/
theorem scan_unread (line : Nat) {buffer : Text} {pending : List Read}
    (hflows : Flows buffer pending) :
    ∃ s,
      (match Token.skip false line (unread buffer pending) with
      | (line', []) =>
        scan line buffer pending = .ok .eof s ∧ unread s.buffer s.pending = [] ∧ s.line = line'
      | (line', c :: rest) =>
        scan line buffer pending = .ok (Token.lex c rest).1 s ∧
          unread s.buffer s.pending = (Token.lex c rest).2 ∧ s.line = line') ∧
      s.held = none ∧ Flows s.buffer s.pending := by
  induction pending generalizing line buffer with
  | nil =>
    rw [unread, scan]
    cases hskip : Token.skip false line buffer with
    | mk line' found =>
      cases found with
      | nil => exact ⟨_, ⟨rfl, rfl, rfl⟩, rfl, trivial⟩
      | cons c rest => exact ⟨_, ⟨rfl, rfl, rfl⟩, rfl, trivial⟩
  | cons read others ih =>
    cases read with
    | failure message => exact absurd hflows (by simp [Flows])
    | line t =>
      obtain ⟨hbuffer, hothers⟩ := hflows
      rw [unread, scan]
      cases hskip : Token.skip false line buffer with
      | mk line' found =>
        have hfound : (Token.skip false line buffer).2 = found := by rw [hskip]
        cases found with
        | nil =>
          -- The buffer holds blanks and comments only, and the next line is scanned behind it.
          rw [Token.skip_append_of_nil hfound hbuffer, hskip]
          exact ih line' hothers
        | cons c rest =>
          have hrest : '\n' ∈ rest := newline_mem_of_skip hbuffer hfound
          have hends : Text.EndsLine (Token.lex c rest).2 :=
            endsLine_of_suffix hbuffer ((Token.lex_suffix c rest).trans
              ((List.suffix_cons c rest).trans (hfound ▸ Token.skip_suffix false line buffer)))
          rw [Token.skip_append_of_cons hfound, hskip]
          dsimp only [List.cons_append]
          rw [Token.lex_append hrest]
          exact ⟨_, ⟨rfl, rfl, rfl⟩, rfl, hends, hothers⟩

/-- Scanning line by line returns the first token of the whole text and leaves the others. -/
theorem scan_view (line : Nat) {buffer : Text} {pending : List Read} (hflows : Flows buffer pending) :
    ∃ s, scan line buffer pending =
        .ok ((Token.ofText (unread buffer pending)).headD .eof) s ∧ s.held = none ∧
      Flows s.buffer s.pending ∧
      Token.ofText (unread s.buffer s.pending) = (Token.ofText (unread buffer pending)).tail := by
  obtain ⟨s, hscan, hfree, hflows'⟩ := scan_unread line hflows
  cases hskip : Token.skip false line (unread buffer pending) with
  | mk line' found =>
    have hstart : Token.start (unread buffer pending) = found := by
      rw [Token.start, Token.skip_snd false 0 line, hskip]
    rw [hskip] at hscan
    cases found with
    | nil =>
      obtain ⟨hscan, hunread, -⟩ := hscan
      rw [Token.ofText_of_start_nil hstart]
      exact ⟨s, hscan, hfree, hflows', by rw [hunread]; exact Token.ofText_of_start_nil rfl⟩
    | cons c rest =>
      obtain ⟨hscan, hunread, -⟩ := hscan
      rw [Token.ofText_of_start_cons hstart]
      exact ⟨s, hscan, hfree, hflows', by rw [hunread]; rfl⟩

/-- A significant character of a text is one of a longer text. -/
theorem significant?_append {comment : Bool} {n : Nat} {t : Text} {c : Char}
    (h : Token.significant? comment n t = some c) (tail : Text) :
    Token.significant? comment n (t ++ tail) = some c := by
  induction t generalizing comment n with
  | nil => simp [Token.significant?] at h
  | cons d t ih =>
    simp only [List.cons_append, Token.significant?] at h ⊢
    split
    · rename_i hnewline
      rw [if_pos hnewline] at h
      exact ih h
    · rename_i hnewline
      rw [if_neg hnewline] at h
      split
      · rename_i hcomment
        rw [if_pos hcomment] at h
        exact ih h
      · rename_i hcomment
        rw [if_neg hcomment] at h
        split
        · rename_i hblank
          rw [if_pos hblank] at h
          exact ih h
        · rename_i hblank
          rw [if_neg hblank] at h
          split
          · rename_i hzero
            rwa [if_pos hzero] at h
          · rename_i hzero
            rw [if_neg hzero] at h
            exact ih h

/-- A line that is taken into the buffer leaves the rest flowing. -/
theorem Flows.append {buffer t : Text} {others : List Read} (hbuffer : buffer.EndsLine)
    (h : Flows t others) : Flows (buffer ++ t) others := by
  cases others with
  | nil => trivial
  | cons read others =>
    cases read with
    | failure message => exact h
    | line u =>
      refine ⟨?_, h.2⟩
      rcases h.1 with rfl | hlast
      · rwa [List.append_nil]
      · exact .inr (by simp [List.getLast?_append, hlast])

/-- Taking a line into the buffer uses nothing. -/
theorem unread_append (buffer t : Text) (others : List Read) :
    unread (buffer ++ t) others = buffer ++ unread t others := by
  cases others with
  | nil => rfl
  | cons read others => cases read <;> simp [unread]

/-- Looking ahead finds the significant characters of the whole text and uses nothing. -/
theorem lookAhead_view (s : Scanner) (n : Nat) {buffer : Text} {pending : List Read}
    (hflows : Flows buffer pending) :
    ∃ buffer' pending', lookAhead s n buffer pending =
        .ok (Token.significant? false n (unread buffer pending))
          { s with buffer := buffer', pending := pending' } ∧
      Flows buffer' pending' ∧ unread buffer' pending' = unread buffer pending := by
  induction pending generalizing buffer with
  | nil =>
    rw [lookAhead]
    cases hfound : Token.significant? false n buffer with
    | some c => exact ⟨buffer, [], by simp [unread, hfound], hflows, rfl⟩
    | none => exact ⟨buffer, [], by simp [unread, hfound], hflows, rfl⟩
  | cons read others ih =>
    cases read with
    | failure message => exact absurd hflows (by simp [Flows])
    | line t =>
      rw [lookAhead]
      cases hfound : Token.significant? false n buffer with
      | some c =>
        refine ⟨buffer, .line t :: others, ?_, hflows, rfl⟩
        rw [unread, significant?_append hfound]
      | none =>
        obtain ⟨buffer', pending', hlook, hflows', hunread⟩ := ih (hflows.2.append hflows.1)
        rw [unread_append] at hlook hunread
        exact ⟨buffer', pending', hlook, hflows', hunread⟩

/-- The tokens that a held token stands for; the end of the source stands for none. -/
def heldTokens : Option Token → List Token
  | none => []
  | some t => if t = .eof then [] else [t]

/-- A scanner without failures ahead, and the tokens that it will still return. -/
structure Sees (s : Scanner) (tokens : List Token) : Prop where
  flows : Flows s.buffer s.pending
  tokens_eq : heldTokens s.held ++ Token.ofText (unread s.buffer s.pending) = tokens
  eof : s.held = some .eof → tokens = []
  solid : ∀ t ∈ tokens, t.Solid

/-- A scanner at the start of a text sees the tokens of the text. -/
theorem sees_ofText (t : Text) : (Scanner.ofText t).Sees (Token.ofText t) := by
  have hlines := flows_linesFrom [] [] t (.inl rfl)
  have hpending : (Scanner.ofText t).pending = (Text.linesFrom [] t).map .line :=
    Read.ofText_eq_lines t
  refine ⟨?_, ?_, ?_, Token.solid_of_mem_ofText⟩
  · rw [hpending]
    exact hlines.1
  · rw [hpending]
    exact congrArg Token.ofText hlines.2
  · exact fun h => absurd h (by simp [Scanner.ofText, Scanner.ofReads])

namespace Sees

variable {s : Scanner} {tokens : List Token} (h : s.Sees tokens)
include h

/-- The next token is the first one that is seen, or the end of the source. -/
theorem next : ∃ s', Scanner.next s = .ok (tokens.headD .eof) s' ∧ s'.held = none ∧
    s'.Sees tokens.tail := by
  have hsolid : ∀ t ∈ tokens.tail, t.Solid := fun t ht => h.solid t (List.mem_of_mem_tail ht)
  cases hheld : s.held with
  | some t =>
    refine ⟨{ s with held := none }, ?_, rfl, h.flows, ?_, fun heof => absurd heof (by simp), hsolid⟩
    · rw [next_of_held hheld]
      by_cases ht : t = .eof
      · rw [h.eof (hheld.trans (congrArg some ht)), ht]
        rfl
      · have htokens := h.tokens_eq
        rw [hheld, heldTokens, if_neg ht] at htokens
        rw [← htokens]
        rfl
    · have htokens := h.tokens_eq
      by_cases ht : t = .eof
      · have hnil := h.eof (hheld.trans (congrArg some ht))
        rw [hheld, heldTokens, if_pos ht, hnil] at htokens
        rw [hnil]
        exact htokens
      · rw [hheld, heldTokens, if_neg ht] at htokens
        rw [← htokens]
        rfl
  | none =>
    have htokens : Token.ofText (unread s.buffer s.pending) = tokens := by
      have heq := h.tokens_eq
      rwa [hheld] at heq
    obtain ⟨s', hscan, hnone, hflows, hrest⟩ := scan_view s.line h.flows
    rw [htokens] at hscan hrest
    refine ⟨s', ?_, hnone, hflows, ?_, fun heof => absurd heof (by simp [hnone]), hsolid⟩
    · simp [Scanner.next, hheld, hscan]
    · rw [hnone]
      exact hrest

/-- A solid token can be put back when none is held, and is then seen first. -/
theorem pushBack {t : Token} (ht : t.Solid) (hheld : s.held = none) :
    ∃ s', Scanner.pushBack t s = .ok () s' ∧ s'.Sees (t :: tokens) := by
  refine ⟨{ s with held := some t }, by simp [Scanner.pushBack, hheld], h.flows, ?_, ?_, ?_⟩
  · have heq := h.tokens_eq
    rw [hheld] at heq
    rw [heldTokens, if_neg ht.ne_eof, ← heq]
    rfl
  · exact fun heof => absurd (Option.some.inj heof) ht.ne_eof
  · intro u hu
    rcases List.mem_cons.1 hu with rfl | hmem
    · exact ht
    · exact h.solid u hmem

/-- The end of the source can be put back when it was read. -/
theorem pushBack_eof (hnil : tokens = []) (hheld : s.held = none) :
    ∃ s', Scanner.pushBack .eof s = .ok () s' ∧ s'.Sees tokens := by
  subst hnil
  refine ⟨{ s with held := some .eof }, by simp [Scanner.pushBack, hheld], h.flows, ?_,
    fun _ => rfl, h.solid⟩
  have heq := h.tokens_eq
  rw [hheld] at heq
  exact heq

/-- The amount still to be read is at least the number of tokens. -/
theorem length_le_remaining : tokens.length ≤ s.remaining := by
  have hlength := Token.length_ofText_le (unread s.buffer s.pending)
  rw [length_unread] at hlength
  rw [← h.tokens_eq, List.length_append, Scanner.remaining]
  cases hheld : s.held with
  | none => simpa [heldTokens] using hlength
  | some t =>
    by_cases ht : t = .eof
    · simp only [heldTokens, if_pos ht, Option.map_some, Option.getD_some, List.length_nil]
      omega
    · have hmem : t ∈ tokens := by
        rw [← h.tokens_eq, hheld, heldTokens, if_neg ht]
        exact List.mem_cons_self
      have hweight : 0 < t.weight := h.solid t hmem
      simp only [heldTokens, if_neg ht, Option.map_some, Option.getD_some, List.length_singleton]
      omega

/-- Looking ahead finds the characters of the tokens that are seen, up to the first quoted one. -/
theorem peek {ahead behind : List Token} (hsplit : tokens = ahead ++ behind)
    (hquoted : ∀ t ∈ ahead, ¬ t.IsQuoted) {n : Nat} (hn : n < (ahead.flatMap Token.lexeme).length) :
    ∃ s', Scanner.peek n s = .ok (some (ahead.flatMap Token.lexeme)[n]) s' ∧ s'.held = s.held ∧
      s'.Sees tokens := by
  have hlook : ∀ m, ∃ buffer' pending', lookAhead s m s.buffer s.pending =
      .ok (Token.significant? false m (unread s.buffer s.pending))
        { s with buffer := buffer', pending := pending' } ∧
      Sees { s with buffer := buffer', pending := pending' } tokens := by
    intro m
    obtain ⟨buffer', pending', hview, hflows, hunread⟩ := lookAhead_view s m h.flows
    refine ⟨buffer', pending', hview, hflows, ?_, h.eof, h.solid⟩
    rw [hunread]
    exact h.tokens_eq
  have htokens := h.tokens_eq
  cases hheld : s.held with
  | none =>
    obtain ⟨buffer', pending', hview, hsees⟩ := hlook n
    rw [hheld, heldTokens, List.nil_append, hsplit] at htokens
    refine ⟨{ s with buffer := buffer', pending := pending' }, ?_, hheld, hsees⟩
    rw [Token.significant?_of_ofText htokens hquoted hn] at hview
    simpa [Scanner.peek, hheld] using hview
  | some t =>
    by_cases heof : t = .eof
    · have hnil := h.eof (hheld.trans (congrArg some heof))
      rw [hsplit] at hnil
      rw [(List.append_eq_nil_iff.1 hnil).1] at hn
      exact absurd hn (Nat.not_lt_zero n)
    · rw [hheld, heldTokens, if_neg heof, hsplit] at htokens
      cases ahead with
      | nil => exact absurd hn (Nat.not_lt_zero n)
      | cons first ahead =>
        obtain ⟨rfl, hrest⟩ := List.cons.inj htokens
        simp only [List.flatMap_cons, List.length_append] at hn ⊢
        by_cases hlt : n < t.lexeme.length
        · refine ⟨s, ?_, hheld, h⟩
          simp [Scanner.peek, hheld, hlt, List.getElem_append_left hlt]
        · have hge : t.lexeme.length ≤ n := Nat.le_of_not_lt hlt
          obtain ⟨buffer', pending', hview, hsees⟩ := hlook (n - t.lexeme.length)
          rw [Token.significant?_of_ofText hrest
            (fun u hu => hquoted u (List.mem_cons_of_mem _ hu)) (by omega)] at hview
          refine ⟨{ s with buffer := buffer', pending := pending' }, ?_, hheld, hsees⟩
          rw [List.getElem_append_right hge]
          simpa [Scanner.peek, hheld, hlt] using hview

end Sees

end Scanner

end PolynomialText
