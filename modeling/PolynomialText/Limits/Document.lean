import PolynomialText.Limits
import PolynomialText.Number.Rounding
import PolynomialText.Text.Basic

/-!
# Limits from a document

Limits are given by a JSON document: an object with the members `max_depth` and
`word_modulus_limit`, or an array with these two numbers in order. Missing numbers take their
defaults, and other members are skipped. A document is refused because its text is malformed,
because it ends too early, or because it has another shape; the first fault decides. Every reader
of a part of a document gives the value of that part and the text behind it.
-/

namespace PolynomialText

/-- Why a document is refused. -/
inductive DocumentFault where
  /-- The text is no document. -/
  | malformed
  /-- The text is well formed so far, but no document of limits starts like this. -/
  | shape
  /-- The text ends too early. -/
  | unfinished
  deriving DecidableEq

namespace Document

/-- White space between the parts of a document. -/
def isSpace (c : Char) : Bool := c = ' ' || c = '\n' || c = '\t' || c = '\r'

/-- The text behind white space. -/
def skipSpace (t : Text) : Text := t.dropWhile isSpace

/-- The rest of a word such as `null`. -/
def restOfWord : Text → Text → Except DocumentFault (Unit × Text)
  | [], t => .ok ((), t)
  | _ :: _, [] => .error .unfinished
  | c :: rest, d :: t => if c = d then restOfWord rest t else .error .malformed

/-- The value of a digit in base sixteen. -/
def hexValue? (c : Char) : Option Nat :=
  if c.isDigit then some (c.toNat - '0'.toNat)
  else if 'a' ≤ c ∧ c ≤ 'f' then some (c.toNat - 'a'.toNat + 10)
  else if 'A' ≤ c ∧ c ≤ 'F' then some (c.toNat - 'A'.toNat + 10)
  else none

/-- Four digits in base sixteen, out of at least four remaining bytes. -/
def hexEscape (t : Text) : Except DocumentFault (Nat × Text) :=
  if ((t.take 4).flatMap String.utf8EncodeChar).length < 4 then .error .unfinished
  else
    match (t.take 4).mapM hexValue? with
    | some [a, b, c, d] => .ok (((a * 16 + b) * 16 + c) * 16 + d, t.drop 4)
    | _ => .error .malformed

/-- The second half of a character that is written as two escapes. -/
def trailingEscape (high : Nat) : Text → Except DocumentFault (Char × Text)
  | [] => .error .unfinished
  | ['\\'] => .error .unfinished
  | '\\' :: 'u' :: rest => do
    let (low, rest') ← hexEscape rest
    if low < 0xDC00 ∨ 0xDFFF < low then .error .malformed
    else .ok (.ofNat ((high - 0xD800) * 0x400 + (low - 0xDC00) + 0x10000), rest')
  | _ => .error .malformed

/-- The character that an escape stands for. In a string that is skipped, halves of characters
need not be paired. -/
def escaped (skipped : Bool) : Text → Except DocumentFault (Char × Text)
  | [] => .error .unfinished
  | 'u' :: rest => do
    let (code, rest') ← hexEscape rest
    if skipped ∨ code < 0xD800 ∨ 0xDFFF < code then .ok (.ofNat code, rest')
    else if 0xDC00 ≤ code then .error .malformed
    else trailingEscape code rest'
  | c :: rest =>
    match [('"', '"'), ('\\', '\\'), ('/', '/'), ('b', '\x08'), ('f', '\x0c'), ('n', '\n'),
        ('r', '\r'), ('t', '\t')].lookup c with
    | some d => .ok (d, rest)
    | none => .error .malformed

/-- The content of a string, after the opening quote. -/
def stringFrom (skipped : Bool) (content : Text) :
    (fuel : Nat) → Text → Except DocumentFault (Text × Text)
  | 0, _ => .error .unfinished
  | _ + 1, [] => .error .unfinished
  | fuel + 1, c :: rest =>
    if c = '"' then .ok (content.reverse, rest)
    else if c = '\\' then do
      let (d, rest') ← escaped skipped rest
      stringFrom skipped (d :: content) fuel rest'
    else if c < ' ' then .error .malformed
    else stringFrom skipped (c :: content) fuel rest

/-- A string, after the opening quote. -/
def string (skipped : Bool) (t : Text) : Except DocumentFault (Text × Text) :=
  stringFrom skipped [] (t.length + 1) t

/-- A number as it is written: sign, digits before and after the point, and the exponent. -/
structure Numeral where
  negative : Bool
  whole : Text
  fraction : Option Text
  exponent : Option Int

/-- Append digits to a significand as long as it stays below 64 bits: the significand, and how many
digits are left over. -/
def appendDigits (m : Nat) : Text → Nat × Nat
  | [] => (m, 0)
  | c :: rest =>
    let m' := 10 * m + (c.toNat - '0'.toNat)
    if m' < UInt64.size then appendDigits m' rest else (m, rest.length + 1)

/-- The significand of 64 bits and the power of ten that stand for a numeral. Digits before the
point that are left over raise the exponent, those after it are dropped. -/
def Numeral.scientific (n : Numeral) : Nat × Int :=
  let fraction := n.fraction.getD []
  let (m, skipped) := appendDigits 0 n.whole
  let (m', dropped) := appendDigits m fraction
  (m', n.exponent.getD 0 + skipped - (fraction.length - dropped : Nat))

/-- The number is too large in size for a double. Significand and power of ten are each rounded to
53 bits, and their product may not round beyond the largest double. -/
def Numeral.isTooLarge (n : Numeral) : Bool :=
  let (m, exponent) := n.scientific
  m ≠ 0 && (308 < exponent || 0 ≤ exponent &&
    Nat.pow 2 1024 - Nat.pow 2 970 ≤
      roundToBits 53 m * roundToBits 53 (Nat.pow 10 exponent.toNat))

/-- A fault at the end of the text or in front of another character. -/
def faultAt : Text → DocumentFault
  | [] => .unfinished
  | _ :: _ => .malformed

/-- The digits before the point, without a leading zero. -/
def wholePart : Text → Except DocumentFault (Text × Text)
  | '0' :: rest => if rest.head?.any Char.isDigit then .error .malformed else .ok (['0'], rest)
  | t =>
    match t.takeWhile Char.isDigit with
    | [] => .error (faultAt t)
    | digits => .ok (digits, t.dropWhile Char.isDigit)

/-- The digits after a point, if there is one. -/
def fractionPart : Text → Except DocumentFault (Option Text × Text)
  | '.' :: rest =>
    match rest.takeWhile Char.isDigit with
    | [] => .error (faultAt rest)
    | digits => .ok (some digits, rest.dropWhile Char.isDigit)
  | t => .ok (none, t)

/-- The exponent after its mark, if there is one. -/
def exponentPart : Text → Except DocumentFault (Option Int × Text)
  | [] => .ok (none, [])
  | c :: rest =>
    if c = 'e' ∨ c = 'E' then
      let (negative, unsigned) := match rest with
        | '-' :: t => (true, t)
        | '+' :: t => (false, t)
        | t => (false, t)
      match unsigned.takeWhile Char.isDigit with
      | [] => .error (faultAt unsigned)
      | digits =>
        let size : Int := Text.value digits
        .ok (some (if negative then -size else size), unsigned.dropWhile Char.isDigit)
    else .ok (none, c :: rest)

/-- A number, after its sign. -/
def numeral (negative : Bool) (t : Text) : Except DocumentFault (Numeral × Text) := do
  let (whole, t) ← wholePart t
  let (fraction, t) ← fractionPart t
  let (exponent, t) ← exponentPart t
  .ok (⟨negative, whole, fraction, exponent⟩, t)

/-- A number that is skipped is malformed also where it ends too early. -/
def skipNumber (t : Text) : Except DocumentFault (Unit × Text) :=
  match numeral false t with
  | .ok (_, rest) => .ok ((), rest)
  | .error _ => .error .malformed

/-- The fault of a value that is no number: its text has to be well formed up to its end, but not
inside a list or an object. -/
def otherValue : Text → Except DocumentFault Unit
  | [] => .error .unfinished
  | 'n' :: rest => (restOfWord "ull".toList rest).map fun _ => ()
  | 't' :: rest => (restOfWord "rue".toList rest).map fun _ => ()
  | 'f' :: rest => (restOfWord "alse".toList rest).map fun _ => ()
  | '"' :: rest => (string false rest).map fun _ => ()
  | '[' :: _ => .ok ()
  | '\x7b' :: _ => .ok ()
  | _ => .error .malformed

/-- The 64-bit number that a numeral without point and exponent writes. -/
def Numeral.toWord (n : Numeral) : Except DocumentFault UInt64 :=
  if n.negative = false ∧ n.fraction = none ∧ n.exponent = none ∧
      Text.value n.whole < UInt64.size then
    .ok (.ofNat (Text.value n.whole))
  else if n.isTooLarge then .error .malformed
  else .error .shape

/-- A value that has to be a 64-bit number. -/
def word (t : Text) : Except DocumentFault (UInt64 × Text) :=
  let number (negative : Bool) (t : Text) : Except DocumentFault (UInt64 × Text) := do
    let (n, rest) ← numeral negative t
    .ok (← n.toWord, rest)
  match skipSpace t with
  | '-' :: rest => number true rest
  | c :: rest =>
    if c.isDigit then number false (c :: rest)
    else do
      otherValue (c :: rest)
      .error .shape
  | [] => .error .unfinished

/-- A list or an object that is open around a value that is skipped. -/
inductive Frame where
  | list
  | object
  deriving DecidableEq

/-- The character that closes a list or an object. -/
def Frame.closer : Frame → Char
  | list => ']'
  | object => '\x7d'

/-- A colon behind the name of a member. -/
def colon (t : Text) : Except DocumentFault (Unit × Text) :=
  match skipSpace t with
  | ':' :: rest => .ok ((), rest)
  | rest => .error (faultAt rest)

/-- What comes in front of a value inside a list or an object that is skipped. -/
def skipName (frame : Frame) (t : Text) : Except DocumentFault (Unit × Text) :=
  match frame with
  | .list => .ok ((), t)
  | .object =>
    match skipSpace t with
    | '"' :: rest => do
      let (_, rest') ← string true rest
      colon rest'
    | rest => .error (faultAt rest)

/-- Whether a value that is skipped opens a list or an object, and the text behind what it opens
or behind the whole value. -/
def skipStart (t : Text) : Except DocumentFault (Option Frame × Text) :=
  match skipSpace t with
  | [] => .error .unfinished
  | 'n' :: rest => (restOfWord "ull".toList rest).map fun r => (none, r.2)
  | 't' :: rest => (restOfWord "rue".toList rest).map fun r => (none, r.2)
  | 'f' :: rest => (restOfWord "alse".toList rest).map fun r => (none, r.2)
  | '"' :: rest => (string true rest).map fun r => (none, r.2)
  | '-' :: rest => (skipNumber rest).map fun r => (none, r.2)
  | '[' :: rest => .ok (some .list, rest)
  | '\x7b' :: rest => .ok (some .object, rest)
  | c :: rest =>
    if c.isDigit then (skipNumber (c :: rest)).map fun r => (none, r.2) else .error .malformed

/-- Close what is closed behind a value, and go on to the next value of what is still open. The
flag tells that a value stands in front. -/
def skipEnd (afterValue : Bool) :
    List Frame → (fuel : Nat) → Text → Except DocumentFault (List Frame × Text)
  | [], _, t => .ok ([], t)
  | frame :: outer, 0, _ => .ok (frame :: outer, [])
  | frame :: outer, fuel + 1, t =>
    match skipSpace t with
    | [] => .error .unfinished
    | c :: rest =>
      if c = frame.closer then skipEnd true outer fuel rest
      else if afterValue then
        if c = ',' then (skipName frame rest).map fun r => (frame :: outer, r.2)
        else .error .malformed
      else (skipName frame (c :: rest)).map fun r => (frame :: outer, r.2)

/-- Skip values until nothing that was opened is open any more. -/
def skipFrom (frames : List Frame) : (fuel : Nat) → Text → Except DocumentFault (Unit × Text)
  | 0, _ => .error .unfinished
  | fuel + 1, t => do
    let (opened, rest) ← skipStart t
    let inner := opened.toList ++ frames
    let (frames', rest') ← skipEnd opened.isNone inner (inner.length + rest.length) rest
    if frames' = [] then .ok ((), rest') else skipFrom frames' fuel rest'

/-- Skip a value. -/
def skipValue (t : Text) : Except DocumentFault (Unit × Text) := skipFrom [] (t.length + 1) t

/-- The two numbers, as far as they were given. -/
structure Members where
  maxDepth : Option UInt64
  wordModulusLimit : Option UInt64

/-- Limits with the given numbers and defaults for the others. -/
def Members.toLimits (m : Members) : Limits :=
  let defaults : Limits := {}
  ⟨m.maxDepth.getD defaults.maxDepth, m.wordModulusLimit.getD defaults.wordModulusLimit⟩

/-- The value of a member; neither number may be given twice. -/
def member (m : Members) (name t : Text) : Except DocumentFault (Members × Text) := do
  if name = "max_depth".toList then
    if m.maxDepth.isSome then .error .shape
    else
      let (_, t) ← colon t
      let (value, t) ← word t
      .ok ({ m with maxDepth := some value }, t)
  else if name = "word_modulus_limit".toList then
    if m.wordModulusLimit.isSome then .error .shape
    else
      let (_, t) ← colon t
      let (value, t) ← word t
      .ok ({ m with wordModulusLimit := some value }, t)
  else
    let (_, t) ← colon t
    let (_, t) ← skipValue t
    .ok (m, t)

/-- The members of an object, after the opening brace or a member. -/
def objectFrom (m : Members) (first : Bool) :
    (fuel : Nat) → Text → Except DocumentFault (Members × Text)
  | 0, _ => .error .unfinished
  | fuel + 1, t =>
    let name (t : Text) : Except DocumentFault (Members × Text) := do
      match t with
      | '"' :: rest =>
        let (name, rest) ← string false rest
        let (m', rest) ← member m name rest
        objectFrom m' false fuel rest
      | t => .error (faultAt t)
    match skipSpace t with
    | '\x7d' :: rest => .ok (m, rest)
    | c :: rest =>
      if first then name (c :: rest)
      else if c = ',' then name (skipSpace rest)
      else .error .malformed
    | [] => .error .unfinished

/-- A number of an array, if there is another one. -/
def element (first : Bool) (t : Text) : Except DocumentFault (Option UInt64 × Text) :=
  match skipSpace t with
  | [] => .error .unfinished
  | c :: rest =>
    if c = ']' then .ok (none, c :: rest)
    else if first then (word (c :: rest)).map fun r => (some r.1, r.2)
    else if c = ',' then
      match skipSpace rest with
      | [] => .error .unfinished
      | d :: rest' =>
        if d = ']' then .error .malformed
        else (word (d :: rest')).map fun r => (some r.1, r.2)
    else .error .malformed

/-- The numbers of an array, after the opening bracket. -/
def array (t : Text) : Except DocumentFault (Members × Text) := do
  let (depth, t) ← element true t
  let (limit, t) ← if depth.isSome then element false t else .ok (none, t)
  match skipSpace t with
  | ']' :: rest => .ok (⟨depth, limit⟩, rest)
  | rest => .error (faultAt rest)

/-- The value of a document. -/
def value (t : Text) : Except DocumentFault (Members × Text) :=
  match skipSpace t with
  | '[' :: rest => array rest
  | '\x7b' :: rest => objectFrom ⟨none, none⟩ true (rest.length + 1) rest
  | rest => do
    let _ ← word rest
    .error .shape

end Document

/-- The limits of a document, behind which only white space may stand. -/
def Limits.ofDocument (t : Text) : Except DocumentFault Limits := do
  let (m, rest) ← Document.value t
  if Document.skipSpace rest = [] then .ok m.toLimits else .error .malformed

end PolynomialText
