/-!
# UTF-8

Lengths and cuts of a text counted in encoded bytes, and the reading of arbitrary bytes as
text. Bytes that are no text are not refused: each longest start of an encoded character that
does not continue as one becomes a single replacement character, and so does each byte that
starts none.
-/

namespace PageMachine.Text

/-- The number of bytes that encode a text. -/
def byteLength : List Char → Nat
  | [] => 0
  | c :: rest => c.utf8Size + byteLength rest

/-- What is left after `n` bytes, unless they end inside a character or beyond the text. -/
def dropBytes? : Nat → List Char → Option (List Char)
  | 0, text => some text
  | _ + 1, [] => none
  | n + 1, c :: rest => if c.utf8Size ≤ n + 1 then dropBytes? (n + 1 - c.utf8Size) rest else none

/-- The first `n` bytes, unless they end inside a character or beyond the text. -/
def takeBytes? : Nat → List Char → Option (List Char)
  | 0, _ => some []
  | _ + 1, [] => none
  | n + 1, c :: rest =>
      if c.utf8Size ≤ n + 1 then (takeBytes? (n + 1 - c.utf8Size) rest).map (c :: ·) else none

/-- The bytes from position `first` up to `last`, that one excluded. -/
def byteSlice? (first last : Nat) (text : List Char) : Option (List Char) :=
  (dropBytes? first text).bind (takeBytes? (last - first))

/-- The character that stands for bytes that encode none. -/
def replacement : Char := '\uFFFD'

/-- The start of an encoded character: what is still needed to complete it. -/
structure PartialChar where
  /-- The number of bytes missing. -/
  missing : Nat
  /-- The bits collected so far. -/
  bits : Nat
  /-- The least value of the next byte. -/
  low : Nat
  /-- The largest value of the next byte. -/
  high : Nat

/-- The meaning of a byte with which a character begins. -/
inductive LeadByte where
  /-- The byte is a whole character. -/
  | whole (c : Char)
  /-- The byte begins a character of several bytes. -/
  | start (partialChar : PartialChar)
  /-- No character begins with the byte. -/
  | invalid

/-- Classify a first byte. The bounds on the second byte exclude overlong forms, surrogates and
numbers beyond the last character. -/
def LeadByte.ofByte (byte : UInt8) : LeadByte :=
  let n := byte.toNat
  if n < 0x80 then .whole (Char.ofNat n)
  else if n < 0xC2 then .invalid
  else if n < 0xE0 then .start ⟨1, n - 0xC0, 0x80, 0xBF⟩
  else if n < 0xF0 then
    .start ⟨2, n - 0xE0, if n = 0xE0 then 0xA0 else 0x80, if n = 0xED then 0x9F else 0xBF⟩
  else if n < 0xF5 then
    .start ⟨3, n - 0xF0, if n = 0xF0 then 0x90 else 0x80, if n = 0xF4 then 0x8F else 0xBF⟩
  else .invalid

/-- Whether a byte continues a character. -/
def PartialChar.accepts (p : PartialChar) (byte : UInt8) : Bool :=
  p.low ≤ byte.toNat && byte.toNat ≤ p.high

/-- The bits of a character with those of a continuing byte added. -/
def PartialChar.extend (p : PartialChar) (byte : UInt8) : Nat :=
  p.bits * 64 + byte.toNat % 64

/-- Decode bytes after the start of a character, if one is under way. -/
def decodeFrom : Option PartialChar → List UInt8 → List Char
  | none, [] => []
  | some _, [] => [replacement]
  | none, byte :: rest =>
      match LeadByte.ofByte byte with
      | .whole c => c :: decodeFrom none rest
      | .start p => decodeFrom (some p) rest
      | .invalid => replacement :: decodeFrom none rest
  | some p, byte :: rest =>
      if p.accepts byte then
        match p.missing with
        | 0 | 1 => Char.ofNat (p.extend byte) :: decodeFrom none rest
        | missing + 1 => decodeFrom (some ⟨missing, p.extend byte, 0x80, 0xBF⟩) rest
      else
        match LeadByte.ofByte byte with
        | .whole c => replacement :: c :: decodeFrom none rest
        | .start q => replacement :: decodeFrom (some q) rest
        | .invalid => replacement :: replacement :: decodeFrom none rest

/-- Read bytes as text. -/
def decode (bytes : List UInt8) : List Char :=
  decodeFrom none bytes

end PageMachine.Text
