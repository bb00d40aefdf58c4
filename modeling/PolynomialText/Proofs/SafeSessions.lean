import Mathlib.Data.Nat.PSub
import PolynomialText.Proofs.SafeDeclarations

/-!
# Sessions without defects

Calls may be made on a session one after the other, whether they succeed or fail. No call puts a token
back while another one is held, no loop passes its bound, and between calls no level of nesting is
open. The counts inside the readers are exact: looking ahead never counts below zero, and the level
of braces follows the braces that are read.
-/

namespace PolynomialText

/-! ### Counts that stay above zero -/

/-- The search for a significant character, given up if the count would go below zero. -/
def Token.checkedSignificant? : Bool → Nat → Text → Option (Option Char)
  | _, _, [] => some none
  | comment, n, c :: rest =>
    if c = '\n' then checkedSignificant? false n rest
    else if comment || c = '#' then checkedSignificant? true n rest
    else if Text.isBlank c then checkedSignificant? false n rest
    else if n = 0 then some (some c)
    else (n.psub 1).bind fun m => checkedSignificant? false m rest

/-- The search is never given up. -/
theorem Token.checkedSignificant?_eq (comment : Bool) (n : Nat) (t : Text) :
    checkedSignificant? comment n t = some (significant? comment n t) := by
  fun_induction significant? comment n t with
  | case1 => rfl
  | case2 comment n rest ih => rw [checkedSignificant?, if_pos rfl, ih]
  | case3 comment n c rest hnl hcomment ih =>
    rw [checkedSignificant?, if_neg hnl, if_pos hcomment, ih]
  | case4 comment n c rest hnl hcomment hblank ih =>
    rw [checkedSignificant?, if_neg hnl, if_neg hcomment, if_pos hblank, ih]
  | case5 comment c rest hnl hcomment hblank =>
    rw [checkedSignificant?, if_neg hnl, if_neg hcomment, if_neg hblank, if_pos rfl]
  | case6 comment n c rest hnl hcomment hblank hn ih =>
    rw [checkedSignificant?, if_neg hnl, if_neg hcomment, if_neg hblank, if_neg hn,
      Nat.psub_eq_sub (Nat.one_le_iff_ne_zero.2 hn), Option.bind_some, ih]

namespace Scanner

/-- Looking for a significant character, given up if the count would go below zero. -/
def checkedLookAhead (s : Scanner) (n : Nat) (buffer : Text) (pending : List Read) :
    Option (EStateM.Result ParseError Scanner (Option Char)) :=
  (Token.checkedSignificant? false n buffer).bind fun
    | some c => some (.ok (some c) { s with buffer := buffer, pending := pending })
    | none =>
      match pending with
      | [] => some (.ok none { s with buffer := buffer, pending := [] })
      | .failure message :: others =>
        some (.error (.stream s.line message) { s with buffer := buffer, pending := others })
      | .line t :: others => checkedLookAhead s n (buffer ++ t) others

/-- Looking ahead, given up if the count would go below zero. -/
def checkedPeek (n : Nat) (s : Scanner) :
    Option (EStateM.Result ParseError Scanner (Option Char)) :=
  let lexeme := (s.held.map Token.lexeme).getD []
  match lexeme[n]? with
  | some c => some (.ok (some c) s)
  | none => (n.psub lexeme.length).bind fun m => checkedLookAhead s m s.buffer s.pending

theorem checkedLookAhead_eq (s : Scanner) (n : Nat) (buffer : Text) (pending : List Read) :
    checkedLookAhead s n buffer pending = some (lookAhead s n buffer pending) := by
  induction pending generalizing buffer with
  | nil =>
    unfold checkedLookAhead lookAhead
    rw [Token.checkedSignificant?_eq]
    cases Token.significant? false n buffer <;> rfl
  | cons read others ih =>
    unfold checkedLookAhead lookAhead
    rw [Token.checkedSignificant?_eq]
    cases Token.significant? false n buffer with
    | some c => rfl
    | none =>
      cases read with
      | failure message => rfl
      | line t => exact ih (buffer ++ t)

/-- Looking ahead is never given up: a held token is passed only if it is no longer than the count. -/
theorem checkedPeek_eq (n : Nat) (s : Scanner) : checkedPeek n s = some (peek n s) := by
  unfold checkedPeek peek
  dsimp only
  cases hfound : ((s.held.map Token.lexeme).getD [])[n]? with
  | some c => rfl
  | none =>
    have hle := List.getElem?_eq_none_iff.1 hfound
    rw [Nat.psub_eq_sub hle]
    exact checkedLookAhead_eq s _ _ _

end Scanner

/-- What a token does to the number of open braces. -/
def Token.braceStep (t : Token) : Int :=
  if t = .op '\x7b' then 1 else if t = .op '\x7d' then -1 else 0

/-- The level of braces after a pass is the one that the token leaves. -/
def Reader.Braces.Follows (b : Braces) (t : Token) : Braces ⊕ Text → Prop
  | .inl after => (after.level : Int) = b.level + t.braceStep
  | .inr _ => True

/-- Each pass over a literal in braces changes the level by what its token does, also where a brace
is closed. -/
theorem Reader.level_of_bracesStep {b b' : Reader.Braces} {s s' : Session}
    (h : Reader.bracesStep b s = .ok (.inl b') s') :
    ∃ t s'', Reader.advance s = .ok t s'' ∧ (b'.level : Int) = b.level + t.braceStep := by
  obtain ⟨t, s'', hadvance, hrest⟩ := Reader.exists_of_bind_eq_ok h
  refine ⟨t, s'', hadvance, ?_⟩
  suffices hgives : Reader.Gives s''.limits _ (b.Follows t) from (hgives s'' _ s' rfl hrest).2
  cases t with
  | eof => exact Reader.gives_malformed _
  | word w => exact .pure (by simp [Reader.Braces.Follows, Token.braceStep])
  | quoted u => exact .pure (by simp [Reader.Braces.Follows, Token.braceStep])
  | op c =>
    dsimp only
    split
    · rename_i hclose
      split
      · exact .pure trivial
      · rename_i hopen
        refine .pure ?_
        have hpos : 1 ≤ b.level := Nat.one_le_iff_ne_zero.2 hopen
        simp [Reader.Braces.Follows, Token.braceStep, hclose, Nat.cast_sub hpos, sub_eq_add_neg]
    · rename_i hclose
      split
      · rename_i hopen
        apply (Reader.gives_checkDepth _).bind
        intro _ _
        exact .pure (by simp [Reader.Braces.Follows, Token.braceStep, hopen])
      · rename_i hopen
        exact .pure (by simp [Reader.Braces.Follows, Token.braceStep, hclose, hopen])

/-! ### Calls -/

/-- A reader that can be run on a session. -/
inductive Call : Type 1 where
  | exponent
  | variableList
  | weightList
  | weightArray
  | splitIndex
  | termOrder (nvars : Nat)
  | coefficientRing
  | polynomial {α : Type} (R : PolyRing α)
  | polynomialList {α : Type} (R : PolyRing α)
  | moduleList {α : Type} (R : PolyRing α)
  | polynomialSet
  | moduleSet

namespace Call

/-- What a call gives. -/
def Answer : Call → Type
  | exponent => UInt64
  | variableList => List Text
  | weightList => List UInt64
  | weightArray => List (List UInt64)
  | splitIndex => SplitIndex
  | termOrder _ => TermOrder
  | coefficientRing => CoefficientRing
  | @polynomial α _ => Poly α
  | @polynomialList α _ => List (Poly α)
  | @moduleList α _ => List (List (Poly α))
  | polynomialSet => PolynomialSet
  | moduleSet => ModuleSet

/-- The reader of a call. -/
def reader : (call : Call) → Reader call.Answer
  | exponent => Reader.exponent
  | variableList => Reader.variableList
  | weightList => Reader.weightList
  | weightArray => Reader.weightArray
  | splitIndex => Reader.splitIndex
  | termOrder nvars => Reader.termOrder nvars
  | coefficientRing => Reader.coefficientRing
  | polynomial R => Reader.polynomial R
  | polynomialList R => Reader.polynomialList R
  | moduleList R => Reader.moduleList R
  | polynomialSet => Reader.polynomialSet
  | moduleSet => Reader.moduleSet

/-- The ring of a call, if it is given from outside, refuses literals without a defect. -/
def Reliable : Call → Prop
  | polynomial R | polynomialList R | moduleList R => R.coefficients.Reliable
  | _ => True

/-- No call runs into a defect. -/
theorem keeps_reader {deep : Bool} (call : Call) (h : deep = true → call.Reliable) (k : Nat) :
    Reader.Keeps deep (Scanner.Below k) call.reader fun _ => Scanner.Below k := by
  cases call with
  | exponent => exact Reader.keeps_exponent
  | variableList => exact Reader.keeps_variableList k
  | weightList => exact Reader.keeps_weightList k
  | weightArray => exact Reader.keeps_weightArray k
  | splitIndex => exact Reader.keeps_splitIndex k
  | termOrder nvars => exact Reader.keeps_termOrder nvars k
  | coefficientRing => exact Reader.keeps_coefficientRing k
  | polynomial R => exact Reader.keeps_polynomial h k
  | polynomialList R => exact Reader.keeps_polynomialList h k
  | moduleList R => exact Reader.keeps_moduleList h k
  | polynomialSet => exact Reader.keeps_polynomialSet k
  | moduleSet => exact Reader.keeps_moduleSet k

/-- A failure of a call is no defect. -/
theorem not_defective {deep : Bool} (call : Call) (h : deep = true → call.Reliable) {s s' : Session}
    {e : ParseError} (hs : s.scanner.Proper) (herror : call.reader s = .error e s') :
    ¬ e.Defective deep := by
  have hrun := call.keeps_reader h (s.scanner.remaining + 1) s hs (Nat.lt_succ_self _)
  rw [herror] at hrun
  exact hrun.1

end Call

namespace Session

/-- The session after a call, whether it succeeded or failed. -/
def afterCall (s : Session) (call : Call) : Session :=
  match call.reader s with
  | .ok _ s' => s'
  | .error _ s' => s'

/-- The session after calls, each made on what the one before has left. -/
def afterCalls (s : Session) (calls : List Call) : Session := calls.foldl afterCall s

/-- Between calls no level is open, and a token that is held is one that was read. -/
structure Ready (s : Session) : Prop where
  depth_eq : s.depth = 0
  proper : s.scanner.Proper

theorem ready_ofReads (reads : List Read) (limits : Limits) : (ofReads reads limits).Ready :=
  ⟨rfl, Scanner.proper_of_free rfl⟩

/-- A call on a session that is ready leaves one that is ready, and fails without a defect. -/
theorem Ready.call {s : Session} (hs : s.Ready) (deep : Bool) (call : Call)
    (hcall : deep = true → call.Reliable) :
    (s.afterCall call).Ready ∧ ∀ e s', call.reader s = .error e s' → ¬ e.Defective deep := by
  refine ⟨?_, fun e s' => call.not_defective hcall hs.proper⟩
  have hrun := call.keeps_reader hcall (s.scanner.remaining + 1) s hs.proper (Nat.lt_succ_self _)
  unfold afterCall
  cases hresult : call.reader s with
  | ok a s' =>
    rw [hresult] at hrun
    exact ⟨hrun.1.trans hs.depth_eq, hrun.2.1⟩
  | error e s' =>
    rw [hresult] at hrun
    exact ⟨hrun.2.1.trans hs.depth_eq, hrun.2.2⟩

/-- Calls keep a session ready. -/
theorem Ready.calls {s : Session} (hs : s.Ready) (calls : List Call) : (s.afterCalls calls).Ready := by
  induction calls generalizing s with
  | nil => exact hs
  | cons call rest ih => exact ih (hs.call false call fun h => nomatch h).1

end Session

/-- Over any source and within any limits, calls may be made one after the other, also behind
failures. After them no level is open. No further call puts a token back while another one is held
or passes the bound of a loop, and if literals of its ring are refused without such a defect, none
is among the reasons of a failure either; all rings that descriptors select, polynomials and
residues of polynomials are of that kind. Looking ahead never counts below zero, and the level of
braces follows the braces that are read. -/
theorem calls_never_put_back_twice (chunks : List Chunk) (limits : Limits) (calls : List Call)
    (call : Call) :
    let s := (Session.ofReads (Read.ofChunks chunks) limits).afterCalls calls
    (s.depth = 0 ∧ (s.afterCall call).depth = 0) ∧
      (∀ e s', call.reader s = .error e s' → ∀ line cause, e ≠ .defect line cause) ∧
      (call.Reliable → ∀ e s', call.reader s = .error e s' → ¬ e.Defective true) ∧
      ((∀ r : CoefficientRing, r.arithmetic.Reliable) ∧
        (∀ {α : Type} (R : PolyRing α), R.coefficients.Reliable → R.arithmetic.Reliable) ∧
        ∀ {α : Type} (A : Arithmetic α) (E : Extension α), A.Reliable →
          (E.arithmetic A).Reliable) ∧
      (∀ n scanner, Scanner.checkedPeek n scanner = some (Scanner.peek n scanner)) ∧
      ∀ b b' s s', Reader.bracesStep b s = .ok (.inl b') s' →
        ∃ t s'', Reader.advance s = .ok t s'' ∧ (b'.level : Int) = b.level + t.braceStep := by
  intro s
  have hready : s.Ready := (Session.ready_ofReads _ limits).calls calls
  refine ⟨⟨hready.depth_eq, ?_⟩, ?_, ?_, ?_, Scanner.checkedPeek_eq, ?_⟩
  · exact (hready.call false call fun h => nomatch h).1.depth_eq
  · rintro e s' h line cause rfl
    exact (hready.call false call fun h => nomatch h).2 _ s' h trivial
  · intro hcall
    exact (hready.call true call fun _ => hcall).2
  · exact ⟨CoefficientRing.reliable, fun R => PolyRing.reliable, fun A E hA => E.reliable hA⟩
  · intro b b' s s'
    exact Reader.level_of_bracesStep

/-- A source that fails while a sign behind an imaginary unit is looked at, and a call behind the
failure, which reads the sign and the number of the next line. -/
theorem call_behind_failed_look_ahead :
    let R : PolyRing Gaussian := ⟨Gaussian.arithmetic, [['x'], ['y']], {}⟩
    let chunks : List Chunk := [.text "2i -\n3x^".toList, .failure "gone", .text "4 y".toList]
    let start := Session.ofReads (Read.ofChunks chunks)
    let s := start.afterCalls [.polynomial R]
    (∃ s', (Call.polynomial R).reader start = .error (.stream 1 "gone") s') ∧
      s.scanner = ⟨" -\n".toList, [.line "4 y".toList], 1, none⟩ ∧
      (Call.polynomial R).Reliable ∧ s.depth = 0 ∧
      ∀ e s', (Call.polynomial R).reader s = .error e s' → ¬ e.Defective true := by
  intro R chunks start s
  have hall := calls_never_put_back_twice chunks {} [.polynomial R] (.polynomial R)
  have hfirst : (Call.polynomial R).reader start = .error (.stream 1 "gone")
      ⟨⟨" -\n".toList, [.line "4 y".toList], 1, none⟩, {}, 0, []⟩ :=
    Reader.eq_error_of_match (by decide +kernel)
  have hs : s = ⟨⟨" -\n".toList, [.line "4 y".toList], 1, none⟩, {}, 0, []⟩ := by
    have hafter : s = start.afterCall (.polynomial R) := rfl
    rw [hafter, Session.afterCall, hfirst]
  have hreliable : (Call.polynomial R).Reliable := Gaussian.reliable
  exact ⟨⟨_, hfirst⟩, by rw [hs], hreliable, hall.1.1, hall.2.2.1 hreliable⟩

end PolynomialText
