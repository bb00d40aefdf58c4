import PolynomialText.Proofs.ScannerView

/-!
# The reads of a source

A source is cut into reads by its bytes. `Chunk.readLine` is a single read of a line: it collects
bytes across chunks up to a newline, passes over interrupts, and gives up the unfinished line when
the source fails. `Read.ofChunks` lists what it gives when it is called again and again.

In such a list a newline stands only at the end of a line, and every line but the last has one,
because an unfinished line is delivered at the end of the source only.
-/

namespace PolynomialText

/-! ### Reading a line -/

/-- The bytes of a chunk. -/
def Chunk.content : Chunk → List UInt8
  | .text t => t.flatMap String.utf8EncodeChar
  | .bytes bs => bs
  | .failure _ => []
  | .interrupt => []

/-- Read a line after the bytes of an unfinished one: the read and the chunks behind it, or nothing
at the end of the source. -/
def Chunk.readLine (unfinished : ByteArray) : List Chunk → Option (Read × List Chunk)
  | [] => if unfinished.isEmpty then none else some (.ofBytes unfinished, [])
  | .failure message :: rest => some (.failure message, rest)
  | chunk :: rest =>
    match chunk.content.dropWhile (· != 10) with
    | [] => Chunk.readLine (unfinished ++ chunk.content.toByteArray) rest
    | newline :: behind =>
      let line := unfinished ++ (chunk.content.takeWhile (· != 10)).toByteArray
      some (.ofBytes (line.push newline), .bytes behind :: rest)

/-- The bytes in front of the first newline. -/
theorem ne_ten_of_mem_takeWhile {bs : List UInt8} {b : UInt8} (h : b ∈ bs.takeWhile (· != 10)) :
    b ≠ 10 := by
  have hrun := List.all_eq_true.1 List.all_takeWhile b h
  simpa using hrun

/-- Bytes without a newline join the unfinished line, and a newline ends it. -/
theorem Read.ofEvents_content (unfinished : ByteArray) (bs : List UInt8) (events : List Event) :
    Read.ofEvents unfinished (bs.map .byte ++ events) =
      match bs.dropWhile (· != 10) with
      | [] => Read.ofEvents (unfinished ++ bs.toByteArray) events
      | newline :: behind =>
        Read.ofBytes ((unfinished ++ (bs.takeWhile (· != 10)).toByteArray).push newline) ::
          Read.ofEvents .empty (behind.map .byte ++ events) := by
  have hsplit := List.takeWhile_append_dropWhile (p := fun b : UInt8 => b != 10) (l := bs)
  cases hrest : bs.dropWhile (· != 10) with
  | nil =>
    have hten : ∀ b ∈ bs, b ≠ 10 := by
      rw [hrest, List.append_nil] at hsplit
      intro b hb
      exact ne_ten_of_mem_takeWhile (hsplit.symm ▸ hb)
    exact Read.ofEvents_bytes unfinished hten events
  | cons newline behind =>
    have hten : newline = 10 := by
      have hhead := List.head?_dropWhile_not (fun b : UInt8 => b != 10) bs
      rw [hrest] at hhead
      simpa using hhead
    have hmap : bs.map Event.byte ++ events =
        (bs.takeWhile (· != 10)).map .byte ++ (.byte newline :: (behind.map .byte ++ events)) := by
      rw [hrest] at hsplit
      calc bs.map Event.byte ++ events
          = (bs.takeWhile (· != 10) ++ newline :: behind).map Event.byte ++ events := by rw [hsplit]
        _ = _ := by simp
    rw [hmap, Read.ofEvents_bytes unfinished fun b hb => ne_ten_of_mem_takeWhile hb, Read.ofEvents,
      if_pos hten]

/-- The reads of a source after an unfinished line are a first read and the reads behind it. -/
theorem Read.ofEvents_eq_readLine (unfinished : ByteArray) (chunks : List Chunk) :
    Read.ofEvents unfinished (chunks.flatMap Chunk.events) =
      match Chunk.readLine unfinished chunks with
      | none => []
      | some (read, rest) => read :: Read.ofChunks rest := by
  induction chunks generalizing unfinished with
  | nil =>
    rw [List.flatMap_nil, Read.ofEvents, Chunk.readLine]
    split
    · rfl
    · rfl
  | cons chunk rest ih =>
    have hbytes : chunk.events = chunk.content.map .byte → (∀ message, chunk ≠ .failure message) →
        Read.ofEvents unfinished ((chunk :: rest).flatMap Chunk.events) =
          match Chunk.readLine unfinished (chunk :: rest) with
          | none => []
          | some (read, rest) => read :: Read.ofChunks rest := by
      intro hevents hfailure
      rw [List.flatMap_cons, hevents, Read.ofEvents_content, Chunk.readLine.eq_3 _ _ _ hfailure]
      cases chunk.content.dropWhile (· != 10) with
      | nil => exact ih _
      | cons newline behind => rfl
    cases chunk with
    | text t => exact hbytes rfl (by simp)
    | bytes bs => exact hbytes rfl (by simp)
    | interrupt => exact hbytes rfl (by simp)
    | failure message => rfl

/-- The reads of a source are what reading line after line gives. -/
theorem Read.ofChunks_eq_readLine (chunks : List Chunk) :
    Read.ofChunks chunks =
      match Chunk.readLine .empty chunks with
      | none => []
      | some (read, rest) => read :: Read.ofChunks rest :=
  Read.ofEvents_eq_readLine .empty chunks

/-! ### Lines -/

/-- A newline stands at the end of the text only. -/
def Text.SingleLine (t : Text) : Prop := ∀ before after, t = before ++ '\n' :: after → after = []

/-- Lines that end with a newline each, except that a last one need not. -/
def Read.Lined : List Read → Prop
  | [] => True
  | .line t :: rest => t.SingleLine ∧ (rest = [] ∨ t.EndsLine) ∧ Read.Lined rest
  | .failure _ :: rest => Read.Lined rest

/-- A read that succeeds decodes its bytes. -/
theorem Read.utf8Encode_of_ofBytes_eq_line {bytes : ByteArray} {t : Text}
    (h : Read.ofBytes bytes = .line t) : t.utf8Encode = bytes := by
  unfold Read.ofBytes at h
  split at h
  · rename_i chars hchars
    have hsome : bytes.utf8Decode?.isSome := by simp [hchars]
    have hencode := ByteArray.utf8Encode_get_utf8Decode? (b := bytes) (h := hsome)
    obtain rfl : chars.toList = t := Read.line.inj h
    simpa [hchars] using hencode
  · contradiction

/-- The bytes of a text that was read. -/
theorem Read.flatMap_of_ofBytes_eq_line {bytes : ByteArray} {t : Text}
    (h : Read.ofBytes bytes = .line t) :
    t.flatMap String.utf8EncodeChar = bytes.data.toList := by
  rw [← Read.utf8Encode_of_ofBytes_eq_line h]
  simp [List.utf8Encode]

/-- Bytes without a newline are read as a text without a newline. -/
theorem Read.newline_not_mem {bytes : ByteArray} (hten : ∀ b ∈ bytes.data.toList, b ≠ 10) {t : Text}
    (h : Read.ofBytes bytes = .line t) : '\n' ∉ t := by
  intro hmem
  have hbyte : (10 : UInt8) ∈ t.flatMap String.utf8EncodeChar :=
    List.mem_flatMap.2 ⟨'\n', hmem, List.mem_singleton.2 rfl⟩
  rw [Read.flatMap_of_ofBytes_eq_line h] at hbyte
  exact hten 10 hbyte rfl

/-- Bytes with a newline at their end are read as a text with a newline at its end. -/
theorem Read.eq_append_newline {bytes : ByteArray} (hten : ∀ b ∈ bytes.data.toList, b ≠ 10) {t : Text}
    (h : Read.ofBytes (bytes.push 10) = .line t) : ∃ before, t = before ++ ['\n'] ∧ '\n' ∉ before := by
  have hbytes : t.flatMap String.utf8EncodeChar = bytes.data.toList ++ [10] := by
    rw [Read.flatMap_of_ofBytes_eq_line h]
    simp
  have hmem : '\n' ∈ t := by
    have hten : (10 : UInt8) ∈ t.flatMap String.utf8EncodeChar := by simp [hbytes]
    obtain ⟨c, hc, hb⟩ := List.mem_flatMap.1 hten
    by_cases hnewline : c = '\n'
    · rwa [hnewline] at hc
    · exact absurd rfl (ten_not_mem_utf8EncodeChar hnewline 10 hb)
  obtain ⟨before, after, rfl, hbefore⟩ := List.eq_append_cons_of_mem hmem
  have hfirst : ∀ b ∈ before.flatMap String.utf8EncodeChar, (b != 10) = true := by
    intro b hb
    obtain ⟨c, hc, hbyte⟩ := List.mem_flatMap.1 hb
    have hne : c ≠ '\n' := fun heq => hbefore (heq ▸ hc)
    simpa using ten_not_mem_utf8EncodeChar hne b hbyte
  have hlast : ∀ b ∈ bytes.data.toList, (b != 10) = true := by
    intro b hb
    simpa using hten b hb
  -- Both sides are cut at the first byte ten, behind which the right side is empty.
  have hcut := congrArg (List.dropWhile (· != 10)) hbytes
  rw [List.flatMap_append, List.dropWhile_append_of_pos hfirst,
    List.dropWhile_append_of_pos hlast] at hcut
  have hafter : after = [] := by
    have hnewline : String.utf8EncodeChar '\n' = [10] := rfl
    rw [List.flatMap_cons, hnewline] at hcut
    exact List.eq_nil_iff_forall_not_mem.2 (by simpa using hcut)
  exact ⟨before, by rw [hafter], hbefore⟩

/-- A text without a newline is a single line. -/
theorem Text.singleLine_of_newline_not_mem {t : Text} (h : '\n' ∉ t) : t.SingleLine := by
  rintro before after rfl
  simp at h

/-- A text with a newline at its end only is a single line. -/
theorem Text.singleLine_append_newline {t : Text} (h : '\n' ∉ t) : Text.SingleLine (t ++ ['\n']) := by
  intro before after heq
  rcases List.append_eq_append_iff.1 heq with ⟨middle, rfl, hmiddle⟩ | ⟨middle, rfl, hmiddle⟩
  · cases middle with
    | nil => exact (List.cons.inj hmiddle).2.symm
    | cons c middle => simp at hmiddle
  · cases middle with
    | nil => exact (List.cons.inj hmiddle).2
    | cons c middle =>
      obtain ⟨rfl, rfl⟩ := List.cons.inj hmiddle
      simp at h

/-- The reads of a stream of events, after an unfinished line without a newline, are lined. -/
theorem Read.lined_ofEvents {unfinished : ByteArray} (hten : ∀ b ∈ unfinished.data.toList, b ≠ 10)
    (events : List Event) : Read.Lined (Read.ofEvents unfinished events) := by
  have hempty : ∀ b ∈ (ByteArray.empty).data.toList, b ≠ 10 := by simp
  induction events generalizing unfinished with
  | nil =>
    rw [Read.ofEvents]
    split
    · trivial
    · cases hread : Read.ofBytes unfinished with
      | line t => exact ⟨Text.singleLine_of_newline_not_mem (Read.newline_not_mem hten hread), .inl rfl, trivial⟩
      | failure message => trivial
  | cons event rest ih =>
    cases event with
    | failure message => exact ih hempty
    | byte b =>
      rw [Read.ofEvents]
      split
      · rename_i hb
        subst hb
        cases hread : Read.ofBytes (unfinished.push 10) with
        | line t =>
          obtain ⟨before, rfl, hbefore⟩ := Read.eq_append_newline hten hread
          exact ⟨Text.singleLine_append_newline hbefore, .inr (.inr (by simp)), ih hempty⟩
        | failure message => exact ih hempty
      · rename_i hb
        apply ih
        intro d hd
        simp only [ByteArray.data_push, Array.toList_push, List.mem_append, List.mem_singleton] at hd
        rcases hd with hd | rfl
        · exact hten d hd
        · exact hb

/-- The reads of a source are lined. -/
theorem Read.lined_ofChunks (chunks : List Chunk) : Read.Lined (Read.ofChunks chunks) :=
  Read.lined_ofEvents (by simp) _

end PolynomialText
