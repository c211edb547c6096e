namespace PegMachine.Ascii

def code (c : Char) : UInt8 := c.toNat.toUInt8

@[match_pattern] abbrev newline : UInt8 := 0x0A
@[match_pattern] abbrev blank : UInt8 := 0x20
@[match_pattern] abbrev quote : UInt8 := 0x22
@[match_pattern] abbrev percent : UInt8 := 0x25
@[match_pattern] abbrev apostrophe : UInt8 := 0x27
@[match_pattern] abbrev star : UInt8 := 0x2A
@[match_pattern] abbrev plus : UInt8 := 0x2B
@[match_pattern] abbrev comma : UInt8 := 0x2C
@[match_pattern] abbrev hyphen : UInt8 := 0x2D
@[match_pattern] abbrev dot : UInt8 := 0x2E
@[match_pattern] abbrev zero : UInt8 := 0x30
@[match_pattern] abbrev colon : UInt8 := 0x3A
@[match_pattern] abbrev less : UInt8 := 0x3C
@[match_pattern] abbrev greater : UInt8 := 0x3E
@[match_pattern] abbrev question : UInt8 := 0x3F
@[match_pattern] abbrev upperP : UInt8 := 0x50
@[match_pattern] abbrev openBracket : UInt8 := 0x5B
@[match_pattern] abbrev backslash : UInt8 := 0x5C
@[match_pattern] abbrev closeBracket : UInt8 := 0x5D
@[match_pattern] abbrev caret : UInt8 := 0x5E
@[match_pattern] abbrev underscore : UInt8 := 0x5F
@[match_pattern] abbrev openBrace : UInt8 := 0x7B
@[match_pattern] abbrev closeBrace : UInt8 := 0x7D

def isDigit (b : UInt8) : Bool := 0x30 ≤ b && b ≤ 0x39

def isLetter (b : UInt8) : Bool := (0x41 ≤ b && b ≤ 0x5A) || (0x61 ≤ b && b ≤ 0x7A)

def isWord (b : UInt8) : Bool := isDigit b || isLetter b || b == underscore

def digitValue (b : UInt8) : Nat := b.toNat - 0x30

def hexValue? (b : UInt8) : Option Nat :=
  if isDigit b then some (digitValue b)
  else if 0x61 ≤ b ∧ b ≤ 0x66 then some (b.toNat - 0x57)
  else if 0x41 ≤ b ∧ b ≤ 0x46 then some (b.toNat - 0x37)
  else none

def octalValue? (b : UInt8) : Option Nat :=
  if 0x30 ≤ b ∧ b ≤ 0x37 then some (digitValue b) else none

/-- The hexadecimal digit for the last four bits of a number. -/
def hexDigit (n : Nat) : UInt8 :=
  if n % 16 < 10 then (0x30 + n % 16).toUInt8 else (0x57 + n % 16).toUInt8

end PegMachine.Ascii
