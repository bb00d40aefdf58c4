import PolynomialText.Text.Basic

/-!
# Character sources

A source delivers chunks: texts, raw bytes, failures and interrupts. What a reader sees of it is
a list of reads, one for each line and one for each failure. Lines are found in the stream of
bytes, so that neither the borders of chunks nor interrupts matter, even inside a character.

A failure loses the unfinished line in front of it. A finished line that is not valid UTF-8 is
lost as a whole and counts as a failure.
-/

namespace PolynomialText

/-- One piece of a source. -/
inductive Chunk where
  | text (t : Text)
  | bytes (bs : List UInt8)
  | failure (message : String)
  | interrupt
  deriving DecidableEq

/-- What happens when a source is read byte by byte. -/
inductive Event where
  | byte (b : UInt8)
  | failure (message : String)
  deriving DecidableEq

/-- What a line-by-line reader sees: a line with its newline, or a failure. -/
inductive Read where
  | line (t : Text)
  | failure (message : String)
  deriving DecidableEq

/-- A text counts with its UTF-8 bytes, and an interrupt is not seen. -/
def Chunk.events : Chunk → List Event
  | .text t => (t.flatMap String.utf8EncodeChar).map .byte
  | .bytes bs => bs.map .byte
  | .failure message => [.failure message]
  | .interrupt => []

/-- A finished line, or a failure if its bytes are not valid UTF-8. -/
def Read.ofBytes (bytes : ByteArray) : Read :=
  match bytes.utf8Decode? with
  | some chars => .line chars.toList
  | none => .failure "stream did not contain valid UTF-8"

/-- The reads of a stream of events, after the bytes of an unfinished line. -/
def Read.ofEvents (unfinished : ByteArray) : List Event → List Read
  | [] => if unfinished.isEmpty then [] else [.ofBytes unfinished]
  | .byte b :: rest =>
    if b = 10 then .ofBytes (unfinished.push b) :: Read.ofEvents .empty rest
    else Read.ofEvents (unfinished.push b) rest
  | .failure message :: rest => .failure message :: Read.ofEvents .empty rest

/-- The reads of a source given by its chunks. -/
def Read.ofChunks (chunks : List Chunk) : List Read :=
  Read.ofEvents .empty (chunks.flatMap Chunk.events)

/-- The reads of a source that holds a single text. -/
def Read.ofText (t : Text) : List Read := Read.ofChunks [.text t]

/-- The number of characters that a read delivers. -/
def Read.size : Read → Nat
  | .line t => t.length
  | .failure _ => 0

/-- The number of characters that reads deliver. -/
def Read.totalSize : List Read → Nat
  | [] => 0
  | read :: rest => read.size + Read.totalSize rest

/-- A line that is valid UTF-8 is read as its characters. -/
@[simp]
theorem Read.ofBytes_utf8Encode (t : Text) : Read.ofBytes t.utf8Encode = .line t := by
  simp [Read.ofBytes]

/-- Interrupts and empty chunks change nothing. -/
@[simp]
theorem Chunk.events_interrupt : Chunk.interrupt.events = [] := rfl

/-- Reads depend only on the stream of events. -/
theorem Read.ofChunks_congr {chunks others : List Chunk}
    (h : chunks.flatMap Chunk.events = others.flatMap Chunk.events) :
    Read.ofChunks chunks = Read.ofChunks others := by
  rw [Read.ofChunks, Read.ofChunks, h]

end PolynomialText
