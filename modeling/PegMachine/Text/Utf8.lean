import PegMachine.Text.Bytes

namespace PegMachine.Utf8

/-- The character that stands for a byte which starts no well-formed character. -/
def replacement : Nat := 0xFFFD

def maxRune : Nat := 0x10FFFF

def within (lo hi b : UInt8) : Bool := decide (lo ≤ b) && decide (b ≤ hi)

def isTail (b : UInt8) : Bool := within 0x80 0xBF b

/-- The character that starts with byte `b`, and the number of its bytes. -/
def decodeAt (b : UInt8) (rest : Bytes) : Nat × Nat :=
  if b < 0x80 then (b.toNat, 1)
  else if within 0xC2 0xDF b then
    match rest with
    | c :: _ =>
      if isTail c then ((b.toNat - 0xC0) * 64 + (c.toNat - 0x80), 2) else (replacement, 1)
    | [] => (replacement, 1)
  else if within 0xE0 0xEF b then
    match rest with
    | c :: d :: _ =>
      if within (if b = 0xE0 then 0xA0 else 0x80) (if b = 0xED then 0x9F else 0xBF) c && isTail d then
        ((b.toNat - 0xE0) * 4096 + (c.toNat - 0x80) * 64 + (d.toNat - 0x80), 3)
      else (replacement, 1)
    | _ => (replacement, 1)
  else if within 0xF0 0xF4 b then
    match rest with
    | c :: d :: e :: _ =>
      if within (if b = 0xF0 then 0x90 else 0x80) (if b = 0xF4 then 0x8F else 0xBF) c
          && isTail d && isTail e then
        ((b.toNat - 0xF0) * 262144 + (c.toNat - 0x80) * 4096 + (d.toNat - 0x80) * 64
          + (e.toNat - 0x80), 4)
      else (replacement, 1)
    | _ => (replacement, 1)
  else (replacement, 1)

/-- Whether the byte `b` starts no well-formed character. -/
def isIllFormed (b : UInt8) (rest : Bytes) : Bool := decide (0x80 ≤ b) && (decodeAt b rest).2 == 1

/-- The characters of a text whose first `skip` bytes belong to a character already read. -/
def runesFrom : Nat → Bytes → List Nat
  | _, [] => []
  | skip + 1, _ :: rest => runesFrom skip rest
  | 0, b :: rest => (decodeAt b rest).1 :: runesFrom ((decodeAt b rest).2 - 1) rest

def runes (text : Bytes) : List Nat := runesFrom 0 text

/-- The first `n` characters of a text, after `skip` bytes that belong to a character before. -/
def takeFrom : Nat → Nat → Bytes → Bytes
  | _, _, [] => []
  | n, skip + 1, b :: rest => b :: takeFrom n skip rest
  | 0, 0, _ :: _ => []
  | n + 1, 0, b :: rest => b :: takeFrom n ((decodeAt b rest).2 - 1) rest

/-- The first `n` characters of a text. -/
def take (n : Nat) (text : Bytes) : Bytes := takeFrom n 0 text

/-- Code points that UTF-8 can encode: surrogates and what lies past the end cannot. -/
def isScalar (c : Nat) : Bool := c ≤ maxRune && !(0xD800 ≤ c && c ≤ 0xDFFF)

/-- The encoding of a character; what cannot be encoded is written as the replacement. -/
def encode (c : Nat) : Bytes :=
  if !isScalar c then [0xEF, 0xBF, 0xBD]
  else if c < 0x80 then [c.toUInt8]
  else if c < 0x800 then [(0xC0 + c / 64).toUInt8, (0x80 + c % 64).toUInt8]
  else if c < 0x10000 then
    [(0xE0 + c / 4096).toUInt8, (0x80 + c / 64 % 64).toUInt8, (0x80 + c % 64).toUInt8]
  else
    [(0xF0 + c / 262144).toUInt8, (0x80 + c / 4096 % 64).toUInt8, (0x80 + c / 64 % 64).toUInt8,
      (0x80 + c % 64).toUInt8]

end PegMachine.Utf8
