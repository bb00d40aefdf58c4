import PolynomialText.Proofs.SourceLines

/-!
# Scanning is lexing line by line

A scanner is asked for tokens again and again, also behind failures. What it answers is fixed by
the reads of its source: the tokens of each line lexed on its own, one failure for each failing
read, and the end of the source for ever after. Each answer comes with the number of its line.

The same answers come from a scanner that looks at one character after another and takes a read
whenever its buffer is empty, also inside a token. `Scanner.scanFrom` is that scanner. It never
takes a read inside a token, because a buffer that runs empty has ended with a newline, or nothing
follows.
-/

namespace PolynomialText

/-! ### Newlines -/

namespace Token

/-- What is dropped in front of a token counts with its newlines. -/
theorem skip_spec (comment : Bool) (line : Nat) (t : Text) :
    ∃ dropped, t = dropped ++ (skip comment line t).2 ∧
      (skip comment line t).1 = line + dropped.count '\n' := by
  induction t generalizing comment line with
  | nil => exact ⟨[], rfl, rfl⟩
  | cons c rest ih =>
    have hdrop : ∀ b l, c ≠ '\n' → ∃ dropped, c :: rest = dropped ++ (skip b l rest).2 ∧
        (skip b l rest).1 = l + dropped.count '\n' := by
      intro b l hc
      obtain ⟨dropped, hrest, hline⟩ := ih b l
      refine ⟨c :: dropped, congrArg (c :: ·) hrest, ?_⟩
      rw [hline, List.count_cons_of_ne hc]
    rw [skip]
    split
    · rename_i hc
      obtain ⟨dropped, hrest, hline⟩ := ih false (line + 1)
      refine ⟨c :: dropped, congrArg (c :: ·) hrest, ?_⟩
      rw [hline, hc, List.count_cons_self]
      omega
    · rename_i hc
      split
      · exact hdrop true line hc
      · split
        · exact hdrop false line hc
        · exact ⟨[], rfl, rfl⟩

/-- No token holds a newline. -/
theorem count_newline_lex (c : Char) (rest : Text) :
    (lex c rest).2.count '\n' = rest.count '\n' := by
  have hrun : ∀ p : Char → Bool, p '\n' = false →
      (rest.dropWhile p).count '\n' = rest.count '\n' := by
    intro p hp
    have hnone : (rest.takeWhile p).count '\n' = 0 := by
      rw [List.count_eq_zero]
      intro hmem
      rw [List.all_eq_true.1 List.all_takeWhile _ hmem] at hp
      contradiction
    have hsplit := congrArg (List.count '\n') (List.takeWhile_append_dropWhile (p := p) (l := rest))
    rw [List.count_append, hnone] at hsplit
    omega
  unfold lex
  split
  · rename_i hquote
    have hne : c ≠ '\n' := by
      rintro rfl
      exact absurd hquote (by decide)
    have hone : ∀ t : Text, (Text.dropOne c t).count '\n' = t.count '\n' := by
      intro t
      cases t with
      | nil => rfl
      | cons d t => by_cases hd : d = c <;> simp [Text.dropOne, Text.strip?, hd, hne]
    rw [hone, hrun _ (by simp [isQuotedChar])]
  · split
    · exact hrun _ (by decide)
    · rfl

end Token

namespace Text.SingleLine

/-- The end of a single line is a single line. -/
theorem suffix {t u : Text} (ht : t.SingleLine) (hu : u <:+ t) : u.SingleLine := by
  obtain ⟨initial, rfl⟩ := hu
  intro before after heq
  apply ht (initial ++ before) after
  rw [heq, List.append_assoc]

/-- The tokens of a single line stand in front of its newline. -/
theorem skip_cons {t : Text} (ht : t.SingleLine) {line line' : Nat} {c : Char} {rest : Text}
    (h : Token.skip false line t = (line', c :: rest)) :
    line' = line ∧ rest.count '\n' = t.count '\n' := by
  obtain ⟨dropped, hsplit, hline⟩ := Token.skip_spec false line t
  have hc : c ≠ '\n' := (Token.skip_cons_spec (congrArg Prod.snd h)).1
  rw [h] at hsplit hline
  have hnone : dropped.count '\n' = 0 := by
    rw [List.count_eq_zero]
    intro hmem
    obtain ⟨before, after, rfl⟩ := List.append_of_mem hmem
    have hend := ht before (after ++ c :: rest) (by simpa using hsplit)
    simp at hend
  constructor
  · simpa [hnone] using hline
  · rw [hsplit, List.count_append, hnone, List.count_cons_of_ne hc, Nat.zero_add]

end Text.SingleLine

/-! ### The answers of a scanner -/

namespace Scanner

/-- A token or a failure, and the line that the scanner is on after it. -/
abbrev Answer : Type := Except ParseError Token × Nat

/-- The answer of a call, without the rest of the state. -/
def answerOf : EStateM.Result ParseError Scanner Token → Answer
  | .ok t s => (.ok t, s.line)
  | .error e s => (.error e, s.line)

/-- The scanner after a call, whether or not it failed. -/
def stateOf : EStateM.Result ParseError Scanner Token → Scanner
  | .ok _ s => s
  | .error _ s => s

/-- The answer to a call for a token after a number of other calls. -/
def answer (next : EStateM ParseError Scanner Token) : Nat → Scanner → Answer
  | 0, s => answerOf (next s)
  | n + 1, s => answer next n (stateOf (next s))

end Scanner

/-- The number of newlines in the lines that are read. -/
def Read.newlines : List Read → Nat
  | [] => 0
  | .line t :: rest => t.count '\n' + Read.newlines rest
  | .failure _ :: rest => Read.newlines rest

/-- The answers that reads call for, from a line on: the tokens of each line by itself, and each
failure once. -/
def Read.answers (line : Nat) : List Read → List Scanner.Answer
  | [] => []
  | .line t :: rest =>
    (Token.ofText t).map (fun token => (.ok token, line)) ++
      Read.answers (line + t.count '\n') rest
  | .failure message :: rest => (.error (.stream line message), line) :: Read.answers line rest

/-- An empty line calls for nothing. -/
theorem Read.answers_empty_line (line : Nat) (rest : List Read) :
    Read.answers line (.line [] :: rest) = Read.answers line rest := by
  have hnil : Token.ofText [] = [] := Token.ofText_of_start_nil rfl
  simp [Read.answers, hnil]

/-- No answer is on a later line than the newlines account for. -/
theorem Read.line_le_of_mem_answers {line : Nat} {reads : List Read} {a : Scanner.Answer}
    (ha : a ∈ Read.answers line reads) : a.2 ≤ line + Read.newlines reads := by
  induction reads generalizing line with
  | nil => exact absurd ha List.not_mem_nil
  | cons read rest ih =>
    cases read with
    | line t =>
      rw [Read.newlines]
      rcases List.mem_append.1 ha with htoken | hrest
      · obtain ⟨token, -, rfl⟩ := List.mem_map.1 htoken
        exact Nat.le_add_right _ _
      · have := ih hrest
        omega
    | failure message =>
      rcases List.mem_cons.1 ha with rfl | hrest
      · exact Nat.le_add_right _ _
      · exact ih hrest

namespace Scanner

/-- The answers that a scanner still owes before the end of its source, and the line of the end. -/
structure Owes (s : Scanner) (answers : List Answer) (last : Nat) : Prop where
  free : s.held = none
  singleLine : s.buffer.SingleLine
  lined : Read.Lined s.pending
  answers_eq : Read.answers s.line (.line s.buffer :: s.pending) = answers
  last_eq : s.line + Read.newlines (.line s.buffer :: s.pending) = last

/-- A scanner at the start of a source owes the answers of all its reads. -/
theorem owes_ofReads {reads : List Read} (h : Read.Lined reads) :
    (ofReads reads).Owes (Read.answers 1 reads) (1 + Read.newlines reads) := by
  refine ⟨rfl, ?_, h, ?_, ?_⟩
  · exact Text.singleLine_of_newline_not_mem List.not_mem_nil
  · exact Read.answers_empty_line 1 reads
  · simp [ofReads, Read.newlines]

/-- A token in the buffer is the first answer that is owed. -/
theorem Owes.scan_token {buffer : Text} {pending : List Read} {line : Nat} {answers : List Answer}
    {last : Nat} (h : Owes ⟨buffer, pending, line, none⟩ answers last) {line' : Nat} {c : Char}
    {rest : Text} (hskip : Token.skip false line buffer = (line', c :: rest)) :
    answers.head? = some (.ok (Token.lex c rest).1, line') ∧
      Owes ⟨(Token.lex c rest).2, pending, line', none⟩ answers.tail last := by
  obtain ⟨-, hbuffer, hlined, rfl, rfl⟩ := h
  obtain ⟨rfl, hcount⟩ := hbuffer.skip_cons hskip
  have hstart : Token.start buffer = c :: rest := by
    rw [Token.start, Token.skip_snd false 0 line', hskip]
  have hfound : c :: rest <:+ buffer := by
    have hsuffix := Token.skip_suffix false line' buffer
    rwa [hskip] at hsuffix
  have hsuffix : (Token.lex c rest).2 <:+ buffer :=
    (Token.lex_suffix c rest).trans ((List.suffix_cons c rest).trans hfound)
  have hleft : (Token.lex c rest).2.count '\n' = buffer.count '\n' := by
    rw [Token.count_newline_lex, hcount]
  simp only [Read.answers, Token.ofText_of_start_cons hstart, List.map_cons, List.cons_append,
    List.head?_cons, List.tail_cons]
  refine ⟨trivial, rfl, hbuffer.suffix hsuffix, hlined, ?_, ?_⟩
  · simp only [Read.answers, hleft]
  · simp only [Read.newlines, hleft]

/-- A buffer of blanks and comments owes nothing but its newlines. -/
theorem Owes.drop_buffer {buffer : Text} {pending : List Read} {line : Nat} {answers : List Answer}
    {last : Nat} (h : Owes ⟨buffer, pending, line, none⟩ answers last) {line' : Nat}
    (hskip : Token.skip false line buffer = (line', [])) :
    Owes ⟨[], pending, line', none⟩ answers last := by
  obtain ⟨-, hbuffer, hlined, rfl, rfl⟩ := h
  obtain ⟨dropped, hsplit, hline⟩ := Token.skip_spec false line buffer
  rw [hskip, List.append_nil] at hsplit
  rw [hskip, ← hsplit] at hline
  have hline' : line' = line + buffer.count '\n' := hline
  have hstart : Token.start buffer = [] := by
    rw [Token.start, Token.skip_snd false 0 line, hskip]
  refine ⟨rfl, Text.singleLine_of_newline_not_mem List.not_mem_nil, hlined, ?_, ?_⟩
  · rw [Read.answers_empty_line, Read.answers, Token.ofText_of_start_nil hstart, hline']
    rfl
  · simp only [Read.newlines, List.count_nil, hline']
    omega

/-- Scanning a buffer and what is pending behind it gives the first answer that is owed. -/
theorem Owes.scan {buffer : Text} {pending : List Read} {line : Nat} {answers : List Answer}
    {last : Nat} (h : Owes ⟨buffer, pending, line, none⟩ answers last) :
    answerOf (Scanner.scan line buffer pending) = answers.headD (.ok .eof, last) ∧
      (stateOf (Scanner.scan line buffer pending)).Owes answers.tail last := by
  induction pending generalizing buffer line with
  | nil =>
    rw [Scanner.scan]
    cases hskip : Token.skip false line buffer with
    | mk line' found =>
      cases found with
      | cons c rest =>
        obtain ⟨hhead, howes⟩ := h.scan_token hskip
        exact ⟨by simp [List.headD_eq_head?_getD, hhead, answerOf], howes⟩
      | nil =>
        have howes := h.drop_buffer hskip
        obtain rfl : [] = answers := (Read.answers_empty_line line' []).symm.trans howes.answers_eq
        exact ⟨congrArg (Prod.mk _) howes.last_eq, howes⟩
  | cons read others ih =>
    rw [Scanner.scan]
    cases hskip : Token.skip false line buffer with
    | mk line' found =>
      cases found with
      | cons c rest =>
        obtain ⟨hhead, howes⟩ := h.scan_token hskip
        exact ⟨by simp [List.headD_eq_head?_getD, hhead, answerOf], howes⟩
      | nil =>
        obtain ⟨-, hempty, hlined, hanswers, hlast⟩ := h.drop_buffer hskip
        have hreads := (Read.answers_empty_line line' (read :: others)).symm.trans hanswers
        cases read with
        | line t => exact ih ⟨rfl, hlined.1, hlined.2.2, hreads, by simpa [Read.newlines] using hlast⟩
        | failure message =>
          subst hreads
          refine ⟨rfl, rfl, hempty, hlined, Read.answers_empty_line line' others, ?_⟩
          simpa [stateOf, Read.newlines] using hlast

/-- A call for a token gives the first answer that is owed and leaves the others. -/
theorem Owes.next {s : Scanner} {answers : List Answer} {last : Nat} (h : s.Owes answers last) :
    answerOf (Scanner.next s) = answers.headD (.ok .eof, last) ∧
      (stateOf (Scanner.next s)).Owes answers.tail last := by
  obtain ⟨buffer, pending, line, held⟩ := s
  obtain rfl : held = none := h.free
  exact h.scan

/-- One call after the other gives the answers that are owed, and then the end of the source. -/
theorem Owes.answer_eq {s : Scanner} {answers : List Answer} {last : Nat} (h : s.Owes answers last)
    (n : Nat) : answer Scanner.next n s = answers.getD n (.ok .eof, last) := by
  induction n generalizing s answers with
  | zero =>
    rw [answer, h.next.1]
    cases answers <;> rfl
  | succ n ih =>
    rw [answer, ih h.next.2]
    cases answers <;> rfl

end Scanner

/-! ### Character by character -/

namespace Scanner

/-- Where a scanner stands that looks at one character after the other. -/
inductive Mode where
  /-- In front of a token. -/
  | between
  | comment
  /-- Behind a quote and some text. -/
  | quoted (quote : Char) (text : Text)
  /-- Behind the first characters of a word. -/
  | word (text : Text)

/-- The token that the end of the source finishes. -/
def Mode.finish : Mode → Token
  | .between => .eof
  | .comment => .eof
  | .quoted _ text => .quoted text
  | .word text => .word text

/-- Scan a token one character after the other. A read is taken whenever the buffer is empty, in
every mode, and a failure ends the call wherever it stands. -/
def scanFrom (mode : Mode) (line : Nat) : Text → List Read →
    EStateM.Result ParseError Scanner Token
  | [], [] => .ok mode.finish ⟨[], [], line, none⟩
  | [], .failure message :: others => .error (.stream line message) ⟨[], others, line, none⟩
  | [], .line t :: others => scanFrom mode line t others
  | c :: rest, pending =>
    match mode with
    | .between =>
      if c = '\n' then scanFrom .between (line + 1) rest pending
      else if Text.isBlank c then scanFrom .between line rest pending
      else if c = '#' then scanFrom .comment line rest pending
      else if c = '"' ∨ c = '\x27' then scanFrom (.quoted c []) line rest pending
      else if isWordChar c then scanFrom (.word [c]) line rest pending
      else .ok (.op c) ⟨rest, pending, line, none⟩
    | .comment =>
      if c = '\n' then scanFrom .between (line + 1) rest pending
      else scanFrom .comment line rest pending
    | .quoted quote text =>
      if c = '\n' then .ok (.quoted text) ⟨c :: rest, pending, line, none⟩
      else if c = quote then .ok (.quoted text) ⟨rest, pending, line, none⟩
      else scanFrom (.quoted quote (text ++ [c])) line rest pending
    | .word text =>
      if isWordChar c then scanFrom (.word (text ++ [c])) line rest pending
      else .ok (.word text) ⟨c :: rest, pending, line, none⟩
termination_by buffer pending => (pending.length, buffer.length)

/-- The next token, scanned character by character. -/
def nextByCharacter : EStateM ParseError Scanner Token := fun s =>
  match s.held with
  | some t => .ok t { s with held := none }
  | none => scanFrom .between s.line s.buffer s.pending

/-- Every text in front of another read ends with its line. -/
def Whole (buffer : Text) : List Read → Prop
  | [] => True
  | .line t :: others => buffer.EndsLine ∧ Whole t others
  | .failure _ :: others => buffer.EndsLine ∧ Whole [] others

/-- Lined reads are whole behind a text that ends with its line. -/
theorem whole_of_lined {buffer : Text} {reads : List Read} (hbuffer : reads = [] ∨ buffer.EndsLine)
    (h : Read.Lined reads) : Whole buffer reads := by
  induction reads generalizing buffer with
  | nil => trivial
  | cons read rest ih =>
    have hends : buffer.EndsLine := hbuffer.resolve_left (List.cons_ne_nil _ _)
    cases read with
    | line t => exact ⟨hends, ih h.2.1 h.2.2⟩
    | failure message => exact ⟨hends, ih (.inr (.inl rfl)) h⟩

/-- What is left of a buffer is whole too. -/
theorem Whole.suffix {buffer rest : Text} {pending : List Read} (h : Whole buffer pending)
    (hrest : rest <:+ buffer) : Whole rest pending := by
  cases pending with
  | nil => trivial
  | cons read others =>
    cases read with
    | line t => exact ⟨endsLine_of_suffix h.1 hrest, h.2⟩
    | failure message => exact ⟨endsLine_of_suffix h.1 hrest, h.2⟩

/-- A word that ends in the buffer, or with the source, takes no read. -/
theorem scanFrom_word {buffer : Text} {pending : List Read} (h : pending = [] ∨ '\n' ∈ buffer)
    (text : Text) (line : Nat) :
    scanFrom (.word text) line buffer pending =
      .ok (.word (text ++ buffer.takeWhile isWordChar))
        ⟨buffer.dropWhile isWordChar, pending, line, none⟩ := by
  induction buffer generalizing text with
  | nil =>
    obtain rfl : pending = [] := h.resolve_right List.not_mem_nil
    simp [scanFrom, Mode.finish]
  | cons c rest ih =>
    rw [scanFrom]
    by_cases hc : isWordChar c = true
    · have hrest : pending = [] ∨ '\n' ∈ rest := by
        refine h.imp_right fun hmem => ?_
        rcases List.mem_cons.1 hmem with heq | hrest
        · exact absurd heq.symm (ne_newline_of_isWordChar hc)
        · exact hrest
      simp [hc, ih hrest]
    · simp [hc]

/-- A quoted text that ends in the buffer, or with the source, takes no read. -/
theorem scanFrom_quoted {buffer : Text} {pending : List Read} (h : pending = [] ∨ '\n' ∈ buffer)
    {quote : Char} (hquote : quote ≠ '\n') (text : Text) (line : Nat) :
    scanFrom (.quoted quote text) line buffer pending =
      .ok (.quoted (text ++ buffer.takeWhile (Token.isQuotedChar quote)))
        ⟨Text.dropOne quote (buffer.dropWhile (Token.isQuotedChar quote)), pending, line, none⟩ := by
  induction buffer generalizing text with
  | nil =>
    obtain rfl : pending = [] := h.resolve_right List.not_mem_nil
    simp [scanFrom, Mode.finish, Text.dropOne, Text.strip?]
  | cons c rest ih =>
    rw [scanFrom]
    by_cases hnewline : c = '\n'
    · simp [hnewline, Token.isQuotedChar, Text.dropOne, Text.strip?, hquote.symm]
    · by_cases hc : c = quote
      · have hend : Token.isQuotedChar quote c = false := by simp [Token.isQuotedChar, hc]
        simp [hc ▸ hend, hc, hquote, Text.dropOne, Text.strip?]
      · have hgo : Token.isQuotedChar quote c = true := by simp [Token.isQuotedChar, hc, hnewline]
        have hrest : pending = [] ∨ '\n' ∈ rest :=
          h.imp_right fun hmem => (List.mem_cons.1 hmem).resolve_left (Ne.symm hnewline)
        simp [hnewline, hc, hgo, ih hrest]

/-- Behind blanks and comments, the character that follows them starts the token. -/
theorem scanFrom_lex {c : Char} {rest : Text} {pending : List Read}
    (hc : c ≠ '\n' ∧ c ≠ '#' ∧ Text.isBlank c = false) (h : pending = [] ∨ '\n' ∈ rest) (line : Nat) :
    scanFrom .between line (c :: rest) pending =
      .ok (Token.lex c rest).1 ⟨(Token.lex c rest).2, pending, line, none⟩ := by
  rw [scanFrom, Token.lex]
  by_cases hquote : c = '"' ∨ c = '\x27'
  · simp [hc, hquote, scanFrom_quoted h hc.1]
  · by_cases hword : isWordChar c = true
    · simp [hc, hquote, hword, scanFrom_word h]
    · simp [hc, hquote, hword]

/-- Blanks and comments are passed character by character, and a comment ends with its line. -/
theorem scanFrom_skip (comment : Bool) (line : Nat) (buffer : Text) (pending : List Read)
    (h : pending = [] ∨ buffer.getLast? = some '\n' ∨ buffer = [] ∧ comment = false) :
    scanFrom (bif comment then .comment else .between) line buffer pending =
      scanFrom .between (Token.skip comment line buffer).1 (Token.skip comment line buffer).2
        pending := by
  induction buffer generalizing comment line with
  | nil =>
    rcases h with rfl | hlast | ⟨-, rfl⟩
    · cases comment <;> simp [Token.skip, scanFrom, Mode.finish]
    · simp at hlast
    · rfl
  | cons c rest ih =>
    -- A newline at the end of the buffer is still ahead behind any other character.
    have hahead : pending = [] ∨ c = '\n' ∧ rest = [] ∨ rest.getLast? = some '\n' := by
      refine h.imp_right fun hends => ?_
      have hlast := hends.resolve_right fun hnil => List.cons_ne_nil _ _ hnil.1
      by_cases hnil : rest = []
      · exact .inl ⟨by simpa [hnil] using hlast, hnil⟩
      · exact .inr (by rwa [List.getLast?_cons_of_ne_nil hnil] at hlast)
    by_cases hnewline : c = '\n'
    · have hrest := ih false (line + 1)
        (hahead.imp_right fun hends => hends.symm.imp_right fun hnil => ⟨hnil.2, rfl⟩)
      rw [Token.skip, if_pos hnewline, ← hrest]
      cases comment <;> simp [scanFrom, hnewline]
    · have hgo : ∀ b, pending = [] ∨ rest.getLast? = some '\n' ∨ rest = [] ∧ b = false := fun b =>
        hahead.imp_right fun hends => .inl (hends.resolve_left fun hnil => hnewline hnil.1)
      cases comment with
      | true =>
        have hrest := ih true line (hgo true)
        simpa [Token.skip, scanFrom, hnewline] using hrest
      | false =>
        by_cases hhash : c = '#'
        · have hrest := ih true line (hgo true)
          have hblank : Text.isBlank '#' = false := by decide
          simpa [Token.skip, scanFrom, hhash, hblank] using hrest
        · by_cases hblank : Text.isBlank c = true
          · have hrest := ih false line (hgo false)
            simpa [Token.skip, scanFrom, hnewline, hhash, hblank] using hrest
          · simp [Token.skip, hnewline, hhash, hblank]

/-- A token that starts in the buffer is scanned character by character to its end in the buffer. -/
theorem scanFrom_token {buffer : Text} {pending : List Read} (h : pending = [] ∨ buffer.EndsLine)
    {line line' : Nat} {c : Char} {rest : Text}
    (hskip : Token.skip false line buffer = (line', c :: rest)) :
    scanFrom .between line' (c :: rest) pending =
      .ok (Token.lex c rest).1 ⟨(Token.lex c rest).2, pending, line', none⟩ := by
  have hfound : (Token.skip false line buffer).2 = c :: rest := congrArg Prod.snd hskip
  exact scanFrom_lex (Token.skip_cons_spec hfound)
    (h.imp_right fun hends => newline_mem_of_skip hends hfound) line'

/-- Scanning character by character and scanning line by line are the same. -/
theorem scanFrom_between {buffer : Text} {pending : List Read} (h : Whole buffer pending)
    (line : Nat) : scanFrom .between line buffer pending = scan line buffer pending := by
  induction pending generalizing buffer line with
  | nil =>
    have hpass := scanFrom_skip false line buffer [] (.inl rfl)
    rw [cond_false] at hpass
    rw [hpass, scan]
    cases hskip : Token.skip false line buffer with
    | mk line' found =>
      cases found with
      | cons c rest => exact scanFrom_token (.inl rfl) hskip
      | nil => rw [scanFrom, Mode.finish]
  | cons read others ih =>
    have hends : buffer.EndsLine := by cases read <;> exact h.1
    have hpass := scanFrom_skip false line buffer (read :: others)
      (.inr (hends.symm.imp_right fun hnil => ⟨hnil, rfl⟩))
    rw [cond_false] at hpass
    rw [hpass, scan]
    cases hskip : Token.skip false line buffer with
    | mk line' found =>
      cases found with
      | cons c rest => exact scanFrom_token (.inr hends) hskip
      | nil =>
        cases read with
        | line t =>
          rw [scanFrom]
          exact ih h.2 line'
        | failure message => rw [scanFrom]

/-- What a scan leaves is whole. -/
theorem whole_scan {buffer : Text} {pending : List Read} (h : Whole buffer pending) (line : Nat) :
    (stateOf (scan line buffer pending)).held = none ∧
      Whole (stateOf (scan line buffer pending)).buffer
        (stateOf (scan line buffer pending)).pending := by
  have htoken : ∀ {buffer : Text} {pending : List Read} {line line' : Nat} {c : Char} {rest : Text},
      Whole buffer pending → Token.skip false line buffer = (line', c :: rest) →
      Whole (Token.lex c rest).2 pending := by
    intro buffer pending line line' c rest h hskip
    have hsuffix := Token.skip_suffix false line buffer
    rw [hskip] at hsuffix
    exact h.suffix ((Token.lex_suffix c rest).trans ((List.suffix_cons c rest).trans hsuffix))
  induction pending generalizing buffer line with
  | nil =>
    rw [scan]
    cases hskip : Token.skip false line buffer with
    | mk line' found => cases found <;> exact ⟨rfl, trivial⟩
  | cons read others ih =>
    rw [scan]
    cases hskip : Token.skip false line buffer with
    | mk line' found =>
      cases found with
      | cons c rest => exact ⟨rfl, htoken h hskip⟩
      | nil =>
        cases read with
        | line t => exact ih h.2 line'
        | failure message => exact ⟨rfl, h.2⟩

/-- A scanner that works character by character answers as one that works line by line. -/
theorem answer_nextByCharacter {s : Scanner} (hheld : s.held = none) (h : Whole s.buffer s.pending)
    (n : Nat) : answer nextByCharacter n s = answer next n s := by
  have hnext : ∀ {s : Scanner}, s.held = none → Whole s.buffer s.pending →
      nextByCharacter s = scan s.line s.buffer s.pending ∧ next s = scan s.line s.buffer s.pending := by
    intro s hheld h
    simp [nextByCharacter, next, hheld, scanFrom_between h]
  induction n generalizing s with
  | zero =>
    obtain ⟨hslow, hfast⟩ := hnext hheld h
    rw [answer, answer, hslow, hfast]
  | succ n ih =>
    obtain ⟨hslow, hfast⟩ := hnext hheld h
    obtain ⟨hfree, hwhole⟩ := whole_scan h s.line
    rw [answer, answer, hslow, hfast]
    exact ih hfree hwhole

end Scanner

/-- A scanner over any source answers calls for tokens, one after the other, with the tokens of each
line lexed on its own, with one failure for each failing read, and with the end of the source ever
after, each on the line that the newlines in front of it give. The reads are those of reading line
after line. It makes no difference whether the scanner works line by line or character by character,
nor how the bytes of the source are cut into chunks, and no line number exceeds the newlines. -/
theorem answers_are_lines_lexed (chunks : List Chunk) :
    let reads := Read.ofChunks chunks
    let expected (n : Nat) : Scanner.Answer :=
      (Read.answers 1 reads).getD n (.ok .eof, 1 + Read.newlines reads)
    (∀ n, Scanner.answer Scanner.next n (.ofReads reads) = expected n) ∧
      (∀ n, Scanner.answer Scanner.nextByCharacter n (.ofReads reads) = expected n) ∧
      (reads = match Chunk.readLine .empty chunks with
        | none => []
        | some (read, behind) => read :: Read.ofChunks behind) ∧
      (∀ others : List Chunk, others.flatMap Chunk.events = chunks.flatMap Chunk.events →
        ∀ n, Scanner.answer Scanner.next n (.ofReads (Read.ofChunks others)) = expected n) ∧
      ∀ n, (expected n).2 ≤ 1 + Read.newlines reads := by
  intro reads expected
  have hlined : Read.Lined reads := Read.lined_ofChunks chunks
  have hanswer : ∀ n, Scanner.answer Scanner.next n (.ofReads reads) = expected n :=
    fun n => (Scanner.owes_ofReads hlined).answer_eq n
  refine ⟨hanswer, fun n => ?_, Read.ofChunks_eq_readLine chunks, fun others hevents n => ?_,
    fun n => ?_⟩
  · have hwhole : Scanner.Whole (Scanner.ofReads reads).buffer (Scanner.ofReads reads).pending :=
      Scanner.whole_of_lined (.inr (.inl rfl)) hlined
    rw [Scanner.answer_nextByCharacter rfl hwhole]
    exact hanswer n
  · rw [Read.ofChunks_congr hevents]
    exact hanswer n
  · have hget : expected n = (Read.answers 1 reads)[n]?.getD (.ok .eof, 1 + Read.newlines reads) :=
      List.getD_eq_getElem?_getD
    rw [hget]
    cases hfound : (Read.answers 1 reads)[n]? with
    | none => exact Nat.le_refl _
    | some a => exact Read.line_le_of_mem_answers (List.mem_of_getElem? hfound)

/-- The two bytes of a character in two chunks, with an interrupt and an empty chunk between them,
and a failure inside a line. -/
theorem answers_of_broken_source :
    let chunks : List Chunk := [.bytes [120, 195], .interrupt, .bytes [], .bytes [169, 10],
      .text ['y'], .failure "gone", .text ['z']]
    let others : List Chunk := [.text ['x', 'é', '\n'], .bytes [121], .failure "gone", .bytes [122]]
    others.flatMap Chunk.events = chunks.flatMap Chunk.events ∧
      Read.ofChunks chunks = [.line ['x', 'é', '\n'], .failure "gone", .line ['z']] ∧
      (List.range 4).map (fun n => Scanner.answer Scanner.next n (.ofReads (Read.ofChunks others))) =
        [(.ok (.word ['x', 'é']), 1), (.error (.stream 2 "gone"), 2), (.ok (.word ['z']), 2),
          (.ok .eof, 2)] := by
  intro chunks others
  have hevents : others.flatMap Chunk.events = chunks.flatMap Chunk.events := by rfl
  have hreads : Read.ofChunks chunks = [.line ['x', 'é', '\n'], .failure "gone", .line ['z']] := by
    decide +kernel
  have hfirst : Token.ofText ['x', 'é', '\n'] = [.word ['x', 'é']] := by decide +kernel
  have hlast : Token.ofText ['z'] = [.word ['z']] := by decide +kernel
  have hexpected : Read.answers 1 [.line ['x', 'é', '\n'], .failure "gone", .line ['z']] =
      [(.ok (.word ['x', 'é']), 1), (.error (.stream 2 "gone"), 2), (.ok (.word ['z']), 2)] := by
    simp [Read.answers, hfirst, hlast]
  have hall := (answers_are_lines_lexed chunks).2.2.2.1 others hevents
  rw [hreads, hexpected] at hall
  refine ⟨hevents, hreads, ?_⟩
  simp [List.range, List.range.loop, hall, Read.newlines]

end PolynomialText
