import PegMachine.Text.Quoted

namespace PegMachine.Decimal

def words : Nat := 0x10000000000000000

/-- The number of 64-bit integers that are not negative. -/
def halfWords : Nat := 0x8000000000000000

/-- Why a text is not a numeral of a 64-bit integer. -/
inductive Refusal where
  | notANumeral (text : Bytes)
  | outOfRange (text : Bytes)
  deriving Repr, DecidableEq

def Refusal.message : Refusal → Bytes
  | .notANumeral text => "strconv.Atoi: parsing " ++ Quoted.quote text ++ ": invalid syntax"
  | .outOfRange text => "strconv.Atoi: parsing " ++ Quoted.quote text ++ ": value out of range"

/-- How reading digits ended: at a byte that is no digit, at a value of more than 64 bits, or with
the value. -/
inductive Digits where
  | notANumeral
  | overflow
  | value (n : Nat)

/-- Reads digits on top of `n`. It stops at the first byte that settles the answer, so that digits
which overflow are reported even when something else follows them. -/
def digitsFrom (n : Nat) : Bytes → Digits
  | [] => .value n
  | b :: rest =>
    if !Ascii.isDigit b then .notANumeral
    else if n * 10 + Ascii.digitValue b ≥ words then .overflow
    else digitsFrom (n * 10 + Ascii.digitValue b) rest

/-- Reads a numeral with an optional sign. -/
def read (text : Bytes) : Except Refusal Int :=
  let (negative, digits) := match text with
    | Ascii.hyphen :: rest => (true, rest)
    | Ascii.plus :: rest => (false, rest)
    | _ => (false, text)
  if digits.isEmpty then .error (.notANumeral text)
  else
    match digitsFrom 0 digits with
    | .notANumeral => .error (.notANumeral text)
    | .overflow => .error (.outOfRange text)
    | .value n =>
      if negative then (if n ≤ halfWords then .ok (-n) else .error (.outOfRange text))
      else (if n < halfWords then .ok n else .error (.outOfRange text))

/-- The 64-bit integer that `n` becomes when it overflows. -/
def wrap (n : Int) : Int := Int.bmod n words

end PegMachine.Decimal
