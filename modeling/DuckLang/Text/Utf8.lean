/-! Byte strings read as text.  `pieces` splits a byte string into the characters its well formed
sequences encode and the stray bytes between them; `lossy` is the text in which each stray byte
stands as the replacement character. -/

namespace DuckLang

/-- A byte string: text that need not be well formed. -/
abbrev Bytes := List UInt8

namespace Text.Utf8

/-- The replacement character. -/
def replacement : Char := '\uFFFD'

/-- The bytes of a text. -/
def encode (s : String) : Bytes :=
  s.toUTF8.data.toList

/-- The number of bytes of a text. -/
def size (s : String) : Nat :=
  s.utf8ByteSize

/-- A decoded position of a byte string. -/
inductive Piece where
  /-- A character encoded by a well formed sequence. -/
  | char (c : Char)
  /-- A byte that starts no well formed sequence. -/
  | stray (b : UInt8)
  deriving DecidableEq

/-- Whether a byte continues a sequence. -/
def isContinuation (b : UInt8) : Bool :=
  0x80 ≤ b && b ≤ 0xBF

/-- The six payload bits of a continuation byte. -/
def payload (b : UInt8) : Nat :=
  b.toNat % 64

/-- The range the second byte of a three byte sequence lies in: it excludes long forms and
surrogates. -/
def isSecondOfThree (first second : UInt8) : Bool :=
  if first == 0xE0 then 0xA0 ≤ second && second ≤ 0xBF
  else if first == 0xED then 0x80 ≤ second && second ≤ 0x9F
  else isContinuation second

/-- The range the second byte of a four byte sequence lies in: it excludes long forms and values
past the last code point. -/
def isSecondOfFour (first second : UInt8) : Bool :=
  if first == 0xF0 then 0x90 ≤ second && second ≤ 0xBF
  else if first == 0xF4 then 0x80 ≤ second && second ≤ 0x8F
  else isContinuation second

/-- The character encoded by a sequence that starts with the byte `b`, and the number of bytes it
takes from those that follow. -/
def sequence? (b : UInt8) (rest : Bytes) : Option (Char × Nat) :=
  if b < 0x80 then some (Char.ofNat b.toNat, 0)
  else if 0xC2 ≤ b && b ≤ 0xDF then
    match rest with
    | c :: _ =>
      if isContinuation c then some (Char.ofNat (b.toNat % 32 * 64 + payload c), 1) else none
    | _ => none
  else if 0xE0 ≤ b && b ≤ 0xEF then
    match rest with
    | c :: d :: _ =>
      if isSecondOfThree b c && isContinuation d then
        some (Char.ofNat ((b.toNat % 16 * 64 + payload c) * 64 + payload d), 2)
      else none
    | _ => none
  else if 0xF0 ≤ b && b ≤ 0xF4 then
    match rest with
    | c :: d :: e :: _ =>
      if isSecondOfFour b c && isContinuation d && isContinuation e then
        some (Char.ofNat (((b.toNat % 8 * 64 + payload c) * 64 + payload d) * 64 + payload e), 3)
      else none
    | _ => none
  else none

/-- The pieces of a byte string whose first `skip` bytes belong to a sequence already read. -/
def piecesAfter : Nat → Bytes → List Piece
  | _, [] => []
  | skip + 1, _ :: rest => piecesAfter skip rest
  | 0, b :: rest =>
    match sequence? b rest with
    | some (c, n) => .char c :: piecesAfter n rest
    | none => .stray b :: piecesAfter 0 rest

/-- The pieces of a byte string, from left to right. -/
def pieces (bytes : Bytes) : List Piece :=
  piecesAfter 0 bytes

/-- The character a piece reads as. -/
def Piece.toChar : Piece → Char
  | .char c => c
  | .stray _ => replacement

/-- The text of a byte string, each stray byte read as the replacement character. -/
def lossy (bytes : Bytes) : String :=
  String.ofList ((pieces bytes).map Piece.toChar)

end Text.Utf8

end DuckLang
