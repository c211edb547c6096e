import PegMachine.Regex.Error
import PegMachine.Regex.Flags
import PegMachine.Regex.Named

namespace PegMachine.Regex

/-- Reads the digits of `\x{...}` on top of `value`; `start` is the backslash. -/
def hexBraced (start : Bytes) (value : Nat) (any : Bool) : Bytes → Except ReadError (Nat × Bytes)
  | [] => fail .escape start
  | b :: rest =>
    if b = Ascii.closeBrace then
      if any then .ok (value, rest) else fail .escape (consumed start rest)
    else
      match Ascii.hexValue? b with
      | some d =>
        if value * 16 + d > Utf8.maxRune then fail .escape (consumed start rest)
        else hexBraced start (value * 16 + d) true rest
      | none => do
        let (_, rest) ← nextRune (b :: rest)
        fail .escape (consumed start rest)

def octal : Nat → Nat → Bytes → Nat × Bytes
  | 0, value, text => (value, text)
  | _ + 1, value, [] => (value, [])
  | n + 1, value, b :: rest =>
    match Ascii.octalValue? b with
    | some d => octal n (value * 8 + d) rest
    | none => (value, b :: rest)

def hexRune? (c : Nat) : Option Nat := if c < 0x80 then Ascii.hexValue? c.toUInt8 else none

def hexEscape (start text : Bytes) : Except ReadError (Nat × Bytes) :=
  match text with
  | [] => fail .escape start
  | _ :: _ => do
    let (high, rest) ← nextRune text
    if high = '{'.toNat then hexBraced start 0 false rest
    else
      let (low, rest) ← nextRune rest
      match hexRune? high, hexRune? low with
      | some h, some l => .ok (h * 16 + l, rest)
      | _, _ => fail .escape (consumed start rest)

def controlRune? (letter : UInt8) : Option Nat :=
  if letter = Ascii.code 'a' then some 0x07
  else if letter = Ascii.code 'f' then some 0x0C
  else if letter = Ascii.code 'n' then some 0x0A
  else if letter = Ascii.code 'r' then some 0x0D
  else if letter = Ascii.code 't' then some 0x09
  else if letter = Ascii.code 'v' then some 0x0B
  else none

/-- Whether an octal number starts with `b`. A digit other than zero needs a second one. -/
def startsOctal (b : UInt8) (rest : Bytes) : Bool :=
  b == Ascii.zero
    || ((Ascii.octalValue? b).isSome && (rest.head?.bind Ascii.octalValue?).isSome)

def escapedRune (start text : Bytes) : Except ReadError (Nat × Bytes) :=
  match text with
  | [] => fail .trailingBackslash []
  | b :: rest => do
    let (_, after) ← nextRune text
    if startsOctal b rest then .ok (octal 2 (Ascii.digitValue b) rest)
    else if b = Ascii.code 'x' then hexEscape start rest
    else
      match controlRune? b with
      | some c => .ok (c, rest)
      | none =>
        if b < 0x80 ∧ !Ascii.isDigit b ∧ !Ascii.isLetter b then .ok (b.toNat, rest)
        else fail .escape (consumed start after)

/-- The name of the class after `\p`, with what follows it; `start` is the backslash. A name of
more than one letter stands in braces. -/
def className (start text : Bytes) : Except ReadError (Bytes × Bytes) := do
  let (c, rest) ← nextRune text
  if c ≠ '{'.toNat then .ok (consumed text rest, rest)
  else
    match splitAt? [Ascii.closeBrace] text with
    | none => do
      checkUtf8 0 start
      fail .charRange start
    | some (before, after) => do
      checkUtf8 0 (before.drop 1)
      .ok (before.drop 1, after)

def signed (name : Bytes) (negated : Bool) : Bytes × Bool :=
  match name with
  | Ascii.caret :: base => (base, !negated)
  | _ => (name, negated)

/-- Reads `\p...` or `\P...`; `start` is the backslash and `text` what follows the letter. -/
def unicodeClass (flags : Flags) (start text : Bytes) (negated : Bool) :
    Except ReadError (CharClass × Bytes) := do
  let (name, rest) ← className start text
  let (base, negated) := signed name negated
  match Named.unicode? base with
  | none => fail .charRange (consumed start rest)
  | some cls => .ok (flags.applySigned cls negated, rest)

/-- Reads an escape that stands for a class, if there is one at the start of the text. -/
def classEscape? (flags : Flags) (text : Bytes) : Except ReadError (Option (CharClass × Bytes)) :=
  match text with
  | Ascii.backslash :: letter :: rest =>
    if letter = Ascii.code 'p' ∨ letter = Ascii.upperP then do
      let found ← unicodeClass flags text rest (letter == Ascii.upperP)
      .ok (some found)
    else
      match Named.shorthand? letter with
      | some (cls, negated) => .ok (some (flags.applySigned cls negated, rest))
      | none => .ok none
  | _ => .ok none

/-- Reads `[:name:]`, if there is one at the start of the text. -/
def posixClass? (flags : Flags) (text : Bytes) : Except ReadError (Option (CharClass × Bytes)) :=
  match text with
  | Ascii.openBracket :: Ascii.colon :: rest =>
    match splitAt? ":]" rest with
    | none => .ok none
    | some (name, after) =>
      let (base, negated) := signed name false
      match Named.posix.lookup base with
      | none => fail .charRange (consumed text after)
      | some cls => .ok (some (flags.applySigned cls negated, after))
  | _ => .ok none

/-- Reads one character of a class; `whole` is the class from its opening bracket on. -/
def classRune (whole text : Bytes) : Except ReadError (Nat × Bytes) :=
  match text with
  | [] => fail .missingBracket whole
  | Ascii.backslash :: rest => escapedRune text rest
  | _ => nextRune text

def classRange (whole text : Bytes) : Except ReadError ((Nat × Nat) × Bytes) := do
  let (lo, rest) ← classRune whole text
  match rest with
  | Ascii.hyphen :: b :: more =>
    if b = Ascii.closeBracket then .ok ((lo, lo), rest)
    else
      let (hi, rest) ← classRune whole (b :: more)
      if hi < lo then fail .charRange (consumed text rest) else .ok ((lo, hi), rest)
  | _ => .ok ((lo, lo), rest)

/-- Reads the items of a class up to its closing bracket, which does not close a class that is
still empty. Each item takes a byte at least, so `fuel` is more than their number. -/
def classItems (flags : Flags) (whole : Bytes) :
    Nat → Bool → Bytes → CharClass → Except ReadError (CharClass × Bytes)
  | 0, _, _, _ => fail .missingBracket whole
  | fuel + 1, first, text, cls =>
    match text, first with
    | Ascii.closeBracket :: rest, false => .ok (cls, rest)
    | _, _ => do
      match ← posixClass? flags text with
      | some (named, rest) => classItems flags whole fuel false rest (cls.union named)
      | none =>
        match ← classEscape? flags text with
        | some (named, rest) => classItems flags whole fuel false rest (cls.union named)
        | none =>
          let ((lo, hi), rest) ← classRange whole text
          classItems flags whole fuel false rest (cls.union (flags.apply [(lo, hi)]))

def bracketClass (flags : Flags) (text : Bytes) : Except ReadError (CharClass × Bytes) := do
  let (items, negated) := signed (text.drop 1) false
  let (cls, rest) ← classItems flags text (text.length + 1) true items []
  .ok (if negated then cls.complement else cls, rest)

end PegMachine.Regex
