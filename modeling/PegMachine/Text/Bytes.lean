import PegMachine.Text.Ascii

namespace PegMachine

/-- Texts are byte strings. They are usually UTF-8, but nothing relies on it. -/
abbrev Bytes := List UInt8

namespace Bytes

def ofString (s : String) : Bytes := s.toList.flatMap String.utf8EncodeChar

instance : Coe String Bytes := ⟨ofString⟩

def ofNat (n : Nat) : Bytes := (Nat.toDigits 10 n).map fun c => c.toNat.toUInt8

/-- The decimal numeral of `n`, with a minus sign when it is negative. -/
def ofInt (n : Int) : Bytes :=
  if n < 0 then Ascii.hyphen :: ofNat n.natAbs else ofNat n.natAbs

/-- The numeral of `n`, filled with zeros after the sign up to `width` characters. -/
def ofIntPadded (width : Nat) (n : Int) : Bytes :=
  if n < 0 then
    Ascii.hyphen :: (List.replicate (width - 1 - (ofNat n.natAbs).length) Ascii.zero ++ ofNat n.natAbs)
  else List.replicate (width - (ofNat n.natAbs).length) Ascii.zero ++ ofNat n.natAbs

def join (sep : Bytes) : List Bytes → Bytes
  | [] => []
  | [part] => part
  | part :: next :: parts => part ++ sep ++ join sep (next :: parts)

def less : Bytes → Bytes → Bool
  | [], [] => false
  | [], _ :: _ => true
  | _ :: _, [] => false
  | a :: as, b :: bs => if a < b then true else if b < a then false else less as bs

def newline : Bytes := [Ascii.newline]

def blanks (n : Nat) : Bytes := List.replicate n Ascii.blank

/-- The text as a line: a newline ends it, and none is added when there is one already. -/
def line (text : Bytes) : Bytes :=
  if text.getLast? = some Ascii.newline then text else text ++ newline

/-- The bytes between two offsets, when both lie inside the text and in order. -/
def slice? (text : Bytes) (start stop : Int) : Option Bytes :=
  if 0 ≤ start ∧ start ≤ stop ∧ stop ≤ text.length then
    some ((text.drop start.toNat).take (stop - start).toNat)
  else none

end Bytes

end PegMachine
