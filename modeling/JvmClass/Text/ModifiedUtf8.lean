/-!
# The text encoding of class files

Class files store text in a variant of UTF-8: the character NUL takes the two bytes `C0 80`, and a
character beyond `U+FFFF` is stored as its two UTF-16 surrogates with three bytes each, so that no
byte of an encoded text is zero and no sequence is longer than three bytes.

Reading is more lenient than writing in one way: bytes that are standard UTF-8 as a whole are taken
as such, zero bytes and four-byte sequences included.
-/

namespace JvmClass.Text

/-- A byte that continues a sequence, with `payload` as its low six bits. -/
def continuation (payload : Nat) : UInt8 := UInt8.ofNat (0x80 + payload % 64)

/-- Three bytes for a 16-bit unit. -/
def threeBytes (unit : Nat) : List UInt8 :=
  [UInt8.ofNat (0xE0 + unit / 4096), continuation (unit / 64), continuation unit]

namespace ModifiedUtf8

/-- The bytes that store a character. -/
def encodeChar (c : Char) : List UInt8 :=
  let n := c.toNat
  if n = 0 then [0xC0, 0x80]
  else if n < 0x80 then [UInt8.ofNat n]
  else if n < 0x800 then [UInt8.ofNat (0xC0 + n / 64), continuation n]
  else if n < 0x10000 then threeBytes n
  else threeBytes (0xD800 + (n - 0x10000) / 1024) ++ threeBytes (0xDC00 + (n - 0x10000) % 1024)

/-- The bytes that store a text. -/
def encode (text : String) : List UInt8 := text.toList.flatMap encodeChar

/-- How many bytes store a character. -/
def charSize (c : Char) : Nat :=
  let n := c.toNat
  if n = 0 then 2 else if n < 0x80 then 1 else if n < 0x800 then 2
  else if n < 0x10000 then 3 else 6

/-- How many bytes store a text. -/
def encodedSize (text : String) : Nat := text.toList.foldl (fun n c => n + charSize c) 0

end ModifiedUtf8

/-- Whether a byte continues a sequence. -/
def isContinuation (b : UInt8) : Bool := 0x80 ≤ b && b < 0xC0

/-- The character of a two-byte sequence. -/
def joinTwo (a b : UInt8) : Char := Char.ofNat (a.toNat % 32 * 64 + b.toNat % 64)

/-- The 16-bit unit of a three-byte sequence. -/
def unitOf (a b c : UInt8) : Nat := a.toNat % 16 * 4096 + b.toNat % 64 * 64 + c.toNat % 64

/-- The character of a four-byte sequence. -/
def joinFour (a b c d : UInt8) : Char :=
  Char.ofNat (a.toNat % 8 * 262144 + b.toNat % 64 * 4096 + c.toNat % 64 * 64 + d.toNat % 64)

/-- The character of two surrogates. -/
def joinSurrogates (high low : Nat) : Char :=
  Char.ofNat (0x10000 + (high - 0xD800) * 1024 + (low - 0xDC00))

/-- Whether two bytes open a three-byte sequence for a character: the shortest form, no
surrogate. -/
def opensThree (a b : UInt8) : Bool :=
  (a == 0xE0 && 0xA0 ≤ b && b ≤ 0xBF) || (0xE1 ≤ a && a ≤ 0xEC && isContinuation b) ||
    (a == 0xED && 0x80 ≤ b && b ≤ 0x9F) || (0xEE ≤ a && a ≤ 0xEF && isContinuation b)

/-- Whether two bytes open a four-byte sequence for a character. -/
def opensFour (a b : UInt8) : Bool :=
  (a == 0xF0 && 0x90 ≤ b && b ≤ 0xBF) || (0xF1 ≤ a && a ≤ 0xF3 && isContinuation b) ||
    (a == 0xF4 && 0x80 ≤ b && b ≤ 0x8F)

/-- Whether a byte opens a two-byte sequence. -/
def opensTwo (a : UInt8) : Bool := 0xC2 ≤ a && a ≤ 0xDF

/-- Reads standard UTF-8, with the characters read so far in reverse. -/
def decodeStandard? (read : List Char) : List UInt8 → Option (List Char)
  | [] => some read.reverse
  | a :: rest =>
    if a < 0x80 then decodeStandard? (Char.ofNat a.toNat :: read) rest
    else match rest with
      | [] => none
      | b :: rest =>
        if opensTwo a && isContinuation b then decodeStandard? (joinTwo a b :: read) rest
        else match rest with
          | [] => none
          | c :: rest =>
            if opensThree a b && isContinuation c then
              decodeStandard? (Char.ofNat (unitOf a b c) :: read) rest
            else match rest with
              | [] => none
              | d :: rest =>
                if opensFour a b && isContinuation c && isContinuation d then
                  decodeStandard? (joinFour a b c d :: read) rest
                else none

/-- Whether three bytes store the first unit of a surrogate pair. -/
def isHighUnit (a b c : UInt8) : Bool := a == 0xED && 0xA0 ≤ b && b ≤ 0xAF && isContinuation c

/-- Whether three bytes store the second unit of a surrogate pair. -/
def isLowUnit (a b c : UInt8) : Bool := a == 0xED && 0xB0 ≤ b && b ≤ 0xBF && isContinuation c

/-- Reads what `ModifiedUtf8.encode` writes and nothing else, with the characters read so far in
reverse. -/
def decodeStrict? (read : List Char) : List UInt8 → Option (List Char)
  | [] => some read.reverse
  | a :: rest =>
    if a == 0 then none
    else if a < 0x80 then decodeStrict? (Char.ofNat a.toNat :: read) rest
    else match rest with
      | [] => none
      | b :: rest =>
        if a == 0xC0 && b == 0x80 then decodeStrict? ('\x00' :: read) rest
        else if opensTwo a && isContinuation b then decodeStrict? (joinTwo a b :: read) rest
        else match rest with
          | [] => none
          | c :: rest =>
            if opensThree a b && isContinuation c then
              decodeStrict? (Char.ofNat (unitOf a b c) :: read) rest
            else match rest with
              | d :: e :: f :: rest =>
                if isHighUnit a b c && isLowUnit d e f then
                  decodeStrict? (joinSurrogates (unitOf a b c) (unitOf d e f) :: read) rest
                else none
              | _ => none

/-- Reads stored text: standard UTF-8 if the bytes are that as a whole, else the strict form. -/
def ModifiedUtf8.decode? (bytes : List UInt8) : Option String :=
  match decodeStandard? [] bytes with
  | some chars => some (String.ofList chars)
  | none => (decodeStrict? [] bytes).map String.ofList

end JvmClass.Text
