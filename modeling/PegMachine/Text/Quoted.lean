import PegMachine.Unicode.Category

namespace PegMachine.Quoted

def hex : Nat → Nat → Bytes
  | 0, _ => []
  | digits + 1, n => hex digits (n / 16) ++ [Ascii.hexDigit n]

def controlLetter? (c : Nat) : Option UInt8 :=
  match c with
  | 0x07 => some (Ascii.code 'a')
  | 0x08 => some (Ascii.code 'b')
  | 0x09 => some (Ascii.code 't')
  | 0x0A => some (Ascii.code 'n')
  | 0x0B => some (Ascii.code 'v')
  | 0x0C => some (Ascii.code 'f')
  | 0x0D => some (Ascii.code 'r')
  | _ => none

/-- A well-formed character inside double quotes, where `plain` are those written as they are. -/
def quoteRune (plain : Nat → Bool) (c : Nat) : Bytes :=
  if c = Ascii.quote.toNat ∨ c = Ascii.backslash.toNat then [Ascii.backslash, c.toUInt8]
  else if plain c then Utf8.encode c
  else
    match controlLetter? c with
    | some letter => [Ascii.backslash, letter]
    | none =>
      if c < 0x20 ∨ c = 0x7F then "\\x" ++ hex 2 c
      else if c < 0x10000 then "\\u" ++ hex 4 c
      else "\\U" ++ hex 8 c

/-- The quoted form of a text whose first `skip` bytes are already written. -/
def quoteFrom (plain : Nat → Bool) : Nat → Bytes → Bytes
  | _, [] => []
  | skip + 1, _ :: rest => quoteFrom plain skip rest
  | 0, b :: rest =>
    if Utf8.isIllFormed b rest then
      "\\x" ++ hex 2 b.toNat ++ quoteFrom plain 0 rest
    else
      quoteRune plain (Utf8.decodeAt b rest).1
        ++ quoteFrom plain ((Utf8.decodeAt b rest).2 - 1) rest

/-- The text in double quotes, with everything escaped that is not plain. -/
def quoteWith (plain : Nat → Bool) (text : Bytes) : Bytes :=
  Ascii.quote :: (quoteFrom plain 0 text ++ [Ascii.quote])

/-- The text in double quotes, with everything that does not print escaped. -/
def quote (text : Bytes) : Bytes := quoteWith Unicode.isPrintable text

/-- The text in double quotes, with everything that is not ASCII escaped as well. -/
def quoteAscii (text : Bytes) : Bytes := quoteWith (fun c => decide (0x20 ≤ c ∧ c < 0x7F)) text

/-- Whether a text, whose first `skip` bytes are known to be so, can stand between raw quotes, in
which nothing is escaped: it holds no such quote, no control character but the tab, no byte order
mark and no byte that starts no well-formed character. -/
def isRawFrom : Nat → Bytes → Bool
  | _, [] => true
  | skip + 1, _ :: rest => isRawFrom skip rest
  | 0, b :: rest =>
    let c := (Utf8.decodeAt b rest).1
    !Utf8.isIllFormed b rest && (decide (0x20 ≤ c) || c == 0x09) && c != 0x60 && c != 0x7F
      && c != 0xFEFF && isRawFrom ((Utf8.decodeAt b rest).2 - 1) rest

def isRaw (text : Bytes) : Bool := isRawFrom 0 text

/-- A byte of a literal as it is written between single quotes. -/
def escapeByte (b : UInt8) : Bytes :=
  if b = Ascii.backslash then "\\\\"
  else if b = Ascii.apostrophe then "\\'"
  else if b = Ascii.newline then "\\n"
  else if b = Ascii.code '\r' then "\\r"
  else if b = Ascii.code '\t' then "\\t"
  else [b]

def escape (text : Bytes) : Bytes := text.flatMap escapeByte

/-- The number that exactly `count` leading digits denote, and the text after them. -/
def number? (base : Nat) (digit? : UInt8 → Option Nat) : Nat → Nat → Bytes → Option (Nat × Bytes)
  | 0, value, text => some (value, text)
  | _ + 1, _, [] => none
  | count + 1, value, b :: rest =>
    match digit? b with
    | some d => number? base digit? count (value * base + d) rest
    | none => none

/-- The character that a letter after a backslash stands for. -/
def controlRune? (letter : UInt8) : Option UInt8 :=
  if letter = Ascii.code 'a' then some 0x07
  else if letter = Ascii.code 'b' then some 0x08
  else if letter = Ascii.code 'f' then some 0x0C
  else if letter = Ascii.code 'n' then some 0x0A
  else if letter = Ascii.code 'r' then some 0x0D
  else if letter = Ascii.code 't' then some 0x09
  else if letter = Ascii.code 'v' then some 0x0B
  else none

/-- What the escape after a backslash stands for, and the text after it. -/
def unescape? (mark : UInt8) : Bytes → Option (Bytes × Bytes)
  | [] => none
  | c :: rest =>
    match controlRune? c with
    | some b => some ([b], rest)
    | none =>
      if c = Ascii.code 'x' then
        (number? 16 Ascii.hexValue? 2 0 rest).map fun (n, rest) => ([n.toUInt8], rest)
      else if c = Ascii.code 'u' then
        (number? 16 Ascii.hexValue? 4 0 rest).bind fun (n, rest) =>
          if Utf8.isScalar n then some (Utf8.encode n, rest) else none
      else if c = Ascii.code 'U' then
        (number? 16 Ascii.hexValue? 8 0 rest).bind fun (n, rest) =>
          if Utf8.isScalar n then some (Utf8.encode n, rest) else none
      else if (Ascii.octalValue? c).isSome then
        (number? 8 Ascii.octalValue? 2 (Ascii.digitValue c) rest).bind fun (n, rest) =>
          if n ≤ 255 then some ([n.toUInt8], rest) else none
      else if c = Ascii.backslash then some ([c], rest)
      else if c = Ascii.apostrophe ∨ c = Ascii.quote then (if c = mark then some ([c], rest) else none)
      else none

/-- The first character of the body of a literal, unescaped, and the text after it. A byte that
starts no well-formed character is read as the replacement character. -/
def unquoteRune? (mark : UInt8) : Bytes → Option (Bytes × Bytes)
  | [] => none
  | b :: rest =>
    if b = mark then none
    else if b ≥ 0x80 then
      some (Utf8.encode (Utf8.decodeAt b rest).1, (b :: rest).drop (Utf8.decodeAt b rest).2)
    else if b ≠ Ascii.backslash then some ([b], rest)
    else unescape? mark rest

/-- The text that the body of a literal denotes; `fuel` bounds the number of characters. -/
def unquoteWith (mark : UInt8) : Nat → Bytes → Option Bytes
  | _, [] => some []
  | 0, _ :: _ => none
  | fuel + 1, b :: rest =>
    match unquoteRune? mark (b :: rest) with
    | none => none
    | some (piece, rest) => (unquoteWith mark fuel rest).map (piece ++ ·)

/-- The text that the body of a literal denotes, where `mark` is the quote around it. -/
def unquote? (mark : UInt8) (body : Bytes) : Option Bytes := unquoteWith mark body.length body

end PegMachine.Quoted
