import PolynomialText.Source

/-!
# The lines of a text

A source that holds a single text delivers the lines of the text, each with its newline, and no
failure. The newline character is the only one whose bytes hold the byte ten, so that cutting the
stream of bytes into lines cuts the text between characters.
-/

namespace PolynomialText

/-- The lines of a text after the characters of an unfinished line. -/
def Text.linesFrom (unfinished : Text) : Text → List Text
  | [] => if unfinished = [] then [] else [unfinished]
  | c :: rest =>
    if c = '\n' then (unfinished ++ [c]) :: linesFrom [] rest
    else linesFrom (unfinished ++ [c]) rest

/-- The lines of a text, each but the last with a newline at its end. -/
def Text.lines (t : Text) : List Text := Text.linesFrom [] t

/-- Only a newline is encoded with the byte ten. -/
theorem ten_not_mem_utf8EncodeChar {c : Char} (hc : c ≠ '\n') : ∀ b ∈ String.utf8EncodeChar c, b ≠ 10 := by
  have hval : c.val.toNat ≠ 10 := by
    intro h
    apply hc
    exact Char.ext (UInt32.toNat.inj h)
  have hten : ∀ n : Nat, n < 256 → n ≠ 10 → UInt8.ofNat n ≠ 10 := by
    intro n hlt hne heq
    have := congrArg UInt8.toNat heq
    rw [UInt8.toNat_ofNat_of_lt' hlt] at this
    exact hne this
  intro b hb
  unfold String.utf8EncodeChar at hb
  dsimp only at hb
  split at hb
  · rw [List.mem_singleton.1 hb]
    exact hten _ (by omega) hval
  · split at hb
    · simp only [List.mem_cons, List.not_mem_nil, or_false] at hb
      rcases hb with rfl | rfl <;> exact hten _ (by omega) (by omega)
    · split at hb
      · simp only [List.mem_cons, List.not_mem_nil, or_false] at hb
        rcases hb with rfl | rfl | rfl <;> exact hten _ (by omega) (by omega)
      · simp only [List.mem_cons, List.not_mem_nil, or_false] at hb
        rcases hb with rfl | rfl | rfl | rfl <;> exact hten _ (by omega) (by omega)

/-- Bytes other than ten extend the unfinished line. -/
theorem Read.ofEvents_bytes (unfinished : ByteArray) {bytes : List UInt8} (hten : ∀ b ∈ bytes, b ≠ 10)
    (rest : List Event) :
    Read.ofEvents unfinished (bytes.map .byte ++ rest) =
      Read.ofEvents (unfinished ++ bytes.toByteArray) rest := by
  induction bytes generalizing unfinished with
  | nil => simp
  | cons b bytes ih =>
    have hb : b ≠ 10 := hten b List.mem_cons_self
    rw [List.map_cons, List.cons_append, Read.ofEvents, if_neg hb,
      ih (unfinished.push b) fun d hd => hten d (List.mem_cons_of_mem _ hd)]
    congr 1
    apply ByteArray.ext
    simp

/-- The reads of a text after an unfinished line are the lines after it. -/
theorem Read.ofEvents_text (unfinished t : Text) :
    Read.ofEvents unfinished.utf8Encode ((t.flatMap String.utf8EncodeChar).map .byte) =
      (Text.linesFrom unfinished t).map .line := by
  induction t generalizing unfinished with
  | nil =>
    by_cases hnil : unfinished = []
    · subst hnil
      rfl
    · have hnonempty : unfinished.utf8Encode.isEmpty = false := by
        cases unfinished with
        | nil => exact absurd rfl hnil
        | cons c rest =>
          have hpos : 0 < c.utf8Size := c.utf8Size_pos
          simp [ByteArray.isEmpty, List.utf8Encode]
          omega
      simp [Read.ofEvents, Text.linesFrom, hnil, hnonempty]
  | cons c rest ih =>
    rw [List.flatMap_cons, List.map_append, Text.linesFrom]
    have hsnoc : (unfinished ++ [c]).utf8Encode =
        unfinished.utf8Encode ++ (String.utf8EncodeChar c).toByteArray := by
      rw [List.utf8Encode_append, List.utf8Encode_singleton]
    split
    · rename_i hc
      subst hc
      have hline : unfinished.utf8Encode.push 10 = (unfinished ++ ['\n']).utf8Encode := by
        rw [hsnoc]
        apply ByteArray.ext
        simp [String.utf8EncodeChar]
      have hbytes : (String.utf8EncodeChar '\n').map Event.byte = [.byte 10] := by rfl
      rw [hbytes, List.singleton_append, Read.ofEvents, if_pos rfl, hline, Read.ofBytes_utf8Encode,
        List.map_cons]
      exact congrArg _ (ih [])
    · rename_i hc
      rw [Read.ofEvents_bytes _ (ten_not_mem_utf8EncodeChar hc), ← hsnoc, ih]

/-- A source that holds a single text delivers its lines. -/
theorem Read.ofText_eq_lines (t : Text) : Read.ofText t = t.lines.map .line := by
  have h := Read.ofEvents_text [] t
  simpa [Read.ofText, Read.ofChunks, Chunk.events, Text.lines] using h

end PolynomialText
