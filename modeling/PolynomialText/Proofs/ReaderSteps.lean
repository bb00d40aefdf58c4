import PolynomialText.Session
import PolynomialText.Proofs.ScannerView

/-!
# Readers that succeed

A session without failures ahead is described by its limits, its depth and the tokens that it will
still return. `Reader.Takes` says that a reader succeeds from every session of one description,
which result it gives, and how the session after it is described. The rules below follow the way
in which readers are put together; the line number and the notes play no part in them.
-/

namespace PolynomialText

/-- The session keeps to the limits, stands at the depth and sees the tokens. -/
structure Session.At (limits : Limits) (depth : Nat) (tokens : List Token) (s : Session) : Prop where
  limits_eq : s.limits = limits
  depth_eq : s.depth = depth
  sees : s.scanner.Sees tokens

/-- The session has just read the first of the tokens and can put it back. -/
structure Session.Past (limits : Limits) (depth : Nat) (tokens : List Token) (s : Session) :
    Prop where
  limits_eq : s.limits = limits
  depth_eq : s.depth = depth
  sees : s.scanner.Sees tokens.tail
  free : s.scanner.held = none
  solid : ∀ t ∈ tokens, t.Solid

/-- The start of a text is described by the tokens of the text. -/
theorem Session.at_ofText (t : Text) (limits : Limits) (depth : Nat) :
    (Session.ofText t limits depth).At limits depth (Token.ofText t) :=
  ⟨rfl, rfl, Scanner.sees_ofText t⟩

/-- Behind a token that was read the other tokens are seen. -/
theorem Session.Past.tail {limits : Limits} {depth : Nat} {tokens : List Token} {s : Session}
    (h : s.Past limits depth tokens) : s.At limits depth tokens.tail :=
  ⟨h.limits_eq, h.depth_eq, h.sees⟩

namespace Reader

/-- From every session with the first property the reader gives the result and leaves a session
with the second property. -/
def Takes {α : Type} (r : Reader α) (P : Session → Prop) (a : α) (Q : Session → Prop) : Prop :=
  ∀ s, P s → ∃ s', r s = .ok a s' ∧ Q s'

namespace Takes

variable {α β : Type} {r : Reader α} {f : α → Reader β} {a : α} {b : β} {P P' Q Q' S : Session → Prop}

/-- A result that is given without reading. -/
theorem pure (a : α) (P : Session → Prop) : Takes (pure a) P a P := fun s hs => ⟨s, rfl, hs⟩

/-- Two readers one after the other. -/
theorem bind (hr : Takes r P a Q) (hf : Takes (f a) Q b S) : Takes (r >>= f) P b S := by
  intro s hs
  obtain ⟨s', hr', hs'⟩ := hr s hs
  obtain ⟨s'', hf', hs''⟩ := hf s' hs'
  refine ⟨s'', ?_, hs''⟩
  change EStateM.bind r f s = _
  simp only [EStateM.bind, hr', hf']

/-- The first property may be strengthened. -/
theorem of_imp (hr : Takes r P a Q) (h : ∀ s, P' s → P s) : Takes r P' a Q :=
  fun s hs => hr s (h s hs)

end Takes

section

variable {limits : Limits} {depth : Nat} {tokens : List Token}

/-- The first token is read, or the end of the source. -/
theorem takes_advance_headD : Takes advance (Session.At limits depth tokens) (tokens.headD .eof)
    (Session.Past limits depth tokens) := by
  intro s hs
  obtain ⟨scanner, hnext, hheld, hsees⟩ := hs.sees.next
  refine ⟨{ s with scanner }, ?_, hs.limits_eq, hs.depth_eq, hsees, hheld, hs.sees.solid⟩
  simp [advance, scanning, hnext]

/-- The first token is read. -/
theorem takes_advance {t : Token} : Takes advance (Session.At limits depth (t :: tokens)) t
    (Session.Past limits depth (t :: tokens)) :=
  takes_advance_headD

/-- At the end of the source its end is read. -/
theorem takes_advance_eof : Takes advance (Session.At limits depth []) .eof
    (Session.Past limits depth []) :=
  takes_advance_headD

/-- The token that was read is put back. -/
theorem takes_pushBack_headD : Takes (pushBack (tokens.headD .eof))
    (Session.Past limits depth tokens) () (Session.At limits depth tokens) := by
  intro s hs
  have hput : ∃ scanner, Scanner.pushBack (tokens.headD .eof) s.scanner = .ok () scanner ∧
      scanner.Sees tokens := by
    cases tokens with
    | nil => exact hs.sees.pushBack_eof rfl hs.free
    | cons t rest => exact hs.sees.pushBack (hs.solid t List.mem_cons_self) hs.free
  obtain ⟨scanner, hok, hsees⟩ := hput
  refine ⟨{ s with scanner }, ?_, hs.limits_eq, hs.depth_eq, hsees⟩
  simp only [pushBack, scanning, hok]

/-- The token that was read is put back. -/
theorem takes_pushBack {t : Token} : Takes (pushBack t)
    (Session.Past limits depth (t :: tokens)) () (Session.At limits depth (t :: tokens)) :=
  takes_pushBack_headD

/-- A token is looked at: it is read and put back. -/
theorem takes_look {α : Type} {f : Token → Reader α} {a : α} {Q : Session → Prop}
    (hf : Takes (f (tokens.headD .eof)) (Session.At limits depth tokens) a Q) :
    Takes (advance >>= fun t => pushBack t >>= fun _ => f t) (Session.At limits depth tokens) a Q :=
  takes_advance_headD.bind (takes_pushBack_headD.bind hf)

/-- A character is looked at behind a token that was read. -/
theorem takes_peek {t : Token} {ahead behind : List Token} (hquoted : ∀ u ∈ ahead, ¬ u.IsQuoted)
    {n : Nat} (hn : n < (ahead.flatMap Token.lexeme).length) :
    Takes (peek n) (Session.Past limits depth (t :: (ahead ++ behind)))
      (some (ahead.flatMap Token.lexeme)[n])
      (Session.Past limits depth (t :: (ahead ++ behind))) := by
  intro s hs
  obtain ⟨scanner, hpeek, hheld, hsees⟩ := hs.sees.peek rfl hquoted hn
  refine ⟨{ s with scanner }, ?_, hs.limits_eq, hs.depth_eq, hsees, hheld.trans hs.free, hs.solid⟩
  simp [peek, scanning, hpeek]

/-- The next character is looked at: the first one of the next token. -/
theorem takes_peek_zero {t u : Token} {c : Char} {rest : Text} (hu : u.lexeme = c :: rest)
    (hquoted : ¬ u.IsQuoted) :
    Takes (peek 0) (Session.Past limits depth (t :: u :: tokens)) (some c)
      (Session.Past limits depth (t :: u :: tokens)) := by
  intro s hs
  have hn : 0 < (([u] : List Token).flatMap Token.lexeme).length := by simp [hu]
  obtain ⟨s', hpeek, hs'⟩ := takes_peek (by simpa using hquoted) hn s hs
  exact ⟨s', by simpa [hu] using hpeek, hs'⟩

/-- Further levels within the limit pass the check. -/
theorem takes_checkDepth {extra : Nat} (h : depth + extra ≤ limits.maxDepth.toNat) :
    Takes (checkDepth extra) (Session.At limits depth tokens) () (Session.At limits depth tokens) := by
  intro s hs
  refine ⟨s, ?_, hs⟩
  have hlimit : ¬ s.limits.maxDepth.toNat < s.depth + extra := by
    rw [hs.limits_eq, hs.depth_eq]
    omega
  change (if s.limits.maxDepth.toNat < s.depth + extra then
    malformed (.tooDeep s.limits.maxDepth.toNat) else pure () : Reader Unit) s = .ok () s
  rw [if_neg hlimit]
  rfl

/-- A level that is opened is closed again. -/
theorem takes_deeper {α : Type} {r : Reader α} {a : α} {rest : List Token}
    (hr : Takes r (Session.At limits (depth + 1) tokens) a (Session.At limits (depth + 1) rest)) :
    Takes (deeper r) (Session.At limits depth tokens) a (Session.At limits depth rest) := by
  intro s hs
  obtain ⟨s', hok, hs'⟩ := hr { s with depth := s.depth + 1 }
    ⟨hs.limits_eq, congrArg (· + 1) hs.depth_eq, hs.sees⟩
  refine ⟨{ s' with depth := s'.depth - 1 }, ?_, hs'.limits_eq, ?_, hs'.sees⟩
  · simp [deeper, hok]
  · simp [hs'.depth_eq]

/-- A reader runs one level deeper, within the limit. -/
theorem takes_nested {α : Type} {r : Reader α} {a : α} {rest : List Token}
    (h : depth + 1 ≤ limits.maxDepth.toNat)
    (hr : Takes r (Session.At limits (depth + 1) tokens) a (Session.At limits (depth + 1) rest)) :
    Takes (nested r) (Session.At limits depth tokens) a (Session.At limits depth rest) :=
  (takes_checkDepth h).bind (takes_deeper hr)

/-- An operator that is the next token is read. -/
theorem takes_skipOp {c : Char} : Takes (skipOp c) (Session.At limits depth (.op c :: tokens)) ()
    (Session.At limits depth tokens) := by
  apply takes_advance.bind
  simp only [ne_eq, not_true_eq_false, if_false]
  exact (Takes.pure _ _).of_imp fun s hs => hs.tail

/-- A note changes nothing that is read. -/
theorem takes_advise {note : String} : Takes (advise note) (Session.At limits depth tokens) ()
    (Session.At limits depth tokens) :=
  fun _ hs => ⟨_, rfl, hs.limits_eq, hs.depth_eq, hs.sees⟩

/-- A loop has a pass for every token and one more. -/
theorem takes_passes {α : Type} {f : Nat → Reader α} {a : α} {Q : Session → Prop}
    (hf : ∀ fuel, tokens.length < fuel → Takes (f fuel) (Session.At limits depth tokens) a Q) :
    Takes (passes >>= f) (Session.At limits depth tokens) a Q := by
  intro s hs
  have hlength := hs.sees.length_le_remaining
  exact hf (s.scanner.remaining + 1) (by omega) s hs

section

variable {σ β : Type} {step : σ → Reader (σ ⊕ β)} {P Q S : Session → Prop}

/-- A pass that goes on. -/
theorem takes_iterate_inl {fuel : Nat} {state state' : σ} {b : β} (hstep : Takes (step state) P (.inl state') Q)
    (hrest : Takes (iterate step fuel state') Q b S) :
    Takes (iterate step (fuel + 1) state) P b S :=
  hstep.bind hrest

/-- The last pass. -/
theorem takes_iterate_inr {fuel : Nat} {state : σ} {b : β} (hstep : Takes (step state) P (.inr b) Q) :
    Takes (iterate step (fuel + 1) state) P b Q :=
  hstep.bind (Takes.pure b Q)

end

end

end Reader

end PolynomialText
