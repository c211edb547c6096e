import PegMachine.Text.Quoted

namespace PegMachine.Template

structure Layout where
  marked : Bool := false
  ascii : Bool := false
  left : Bool := false
  spaced : Bool := false
  zeros : Bool := false
  width : Option Nat := none
  precision : Option Nat := none
  deriving Repr, DecidableEq

namespace Layout

/-- The layout with a flag, if the byte is one. -/
def flag? (l : Layout) (b : UInt8) : Option Layout :=
  if b = Ascii.code '#' then some { l with marked := true }
  else if b = Ascii.zero then some { l with zeros := true }
  else if b = Ascii.plus then some { l with ascii := true }
  else if b = Ascii.hyphen then some { l with left := true }
  else if b = Ascii.blank then some { l with spaced := true }
  else none

def flags (l : Layout) : Bytes → Layout × Bytes
  | [] => (l, [])
  | b :: rest =>
    match l.flag? b with
    | some l => flags l rest
    | none => (l, b :: rest)

/-- The text filled up to the width. Zeros are put only in front of it. -/
def pad (l : Layout) (text : Bytes) : Bytes :=
  let filler := if l.zeros && !l.left then Ascii.zero else Ascii.blank
  let padding := List.replicate (l.width.getD 0 - (Utf8.runes text).length) filler
  if l.left then text ++ padding else padding ++ text

/-- As many characters of the text as the precision admits. -/
def cut (l : Layout) (text : Bytes) : Bytes :=
  match l.precision with
  | some n => Utf8.take n text
  | none => text

def plain (l : Layout) (text : Bytes) : Bytes := l.pad (l.cut text)

/-- The text between quotes: raw ones if it is marked and they can hold it. -/
def quoted (l : Layout) (text : Bytes) : Bytes :=
  let text := l.cut text
  if l.marked && Quoted.isRaw text then l.pad ("`" ++ text ++ "`")
  else l.pad (if l.ascii then Quoted.quoteAscii text else Quoted.quote text)

/-- The text as a value; a marked one is quoted. -/
def value (l : Layout) (text : Bytes) : Bytes :=
  if l.marked then { l with marked := false, ascii := false }.quoted text else l.plain text

/-- The bytes in hexadecimal, as many as the precision admits. The mark is `0x`; it stands in front
of every byte if they are spaced. -/
def hex (l : Layout) (upper : Bool) (text : Bytes) : Bytes :=
  let text := text.take (l.precision.getD text.length)
  let digits (b : UInt8) : Bytes :=
    (Quoted.hex 2 b.toNat).map fun d => if upper && Ascii.isLetter d then d - 32 else d
  let mark : Bytes := if l.marked then (if upper then "0X" else "0x") else []
  if text.isEmpty then l.pad []
  else if l.spaced then l.pad (Bytes.join [Ascii.blank] (text.map fun b => mark ++ digits b))
  else l.pad (mark ++ text.flatMap digits)

/-- The operand as a verb writes it. A verb that is none for texts is named with the operand. -/
def write (l : Layout) (verb : Nat) (text : Bytes) : Bytes :=
  if verb = 's'.toNat then l.plain text
  else if verb = 'v'.toNat then l.value text
  else if verb = 'q'.toNat then l.quoted text
  else if verb = 'x'.toNat then l.hex false text
  else if verb = 'X'.toNat then l.hex true text
  else if verb = 'T'.toNat then l.plain "string"
  else
    let shown := if verb = 'w'.toNat then l.value text else l.plain text
    "%!" ++ Utf8.encode verb ++ "(string=" ++ shown ++ ")"

end Layout

/-- The largest number that may have another digit. -/
def maxNumber : Nat := 1000000

/-- Reads a numeral on top of `value`. A numeral that is too long takes the whole text with it. -/
def numberFrom (value : Option Nat) : Bytes → Option Nat × Bytes
  | [] => (value, [])
  | b :: rest =>
    if Ascii.isDigit b then
      if value.getD 0 > maxNumber then (none, [])
      else numberFrom (some (value.getD 0 * 10 + Ascii.digitValue b)) rest
    else (value, b :: rest)

def number (text : Bytes) : Option Nat × Bytes := numberFrom none text

/-- Reads a number in brackets; the text starts with the opening one. A bracket that is not closed
is skipped alone. -/
def bracketed (text : Bytes) : Option Nat × Bytes :=
  let inner := (text.drop 1).takeWhile (· != Ascii.closeBracket)
  match text.drop (1 + inner.length) with
  | [] => (none, text.drop 1)
  | _ :: rest =>
    if text.length < 3 then (none, text.drop 1)
    else
      match number inner with
      | (some n, []) => (some n, rest)
      | _ => (none, rest)

/-- A directive while it is read: the rest of the template, the number of the operand it asks for,
whether operands were ever asked for by number, the complaints so far, whether a number in brackets
was read last, and whether all such numbers were in order. -/
structure Directive where
  rest : Bytes
  operand : Nat
  reordered : Bool
  layout : Layout := {}
  complaints : Bytes := []
  indexed : Bool := false
  valid : Bool := true

namespace Directive

/-- Reads the number of an operand out of `count`. Numbers start at one. -/
def index (count : Nat) (d : Directive) : Directive :=
  match d.rest with
  | Ascii.openBracket :: _ =>
    let (n, rest) := bracketed d.rest
    let d := { d with rest := rest, reordered := true, indexed := n.isSome }
    match n with
    | some (k + 1) => if k < count then { d with operand := k } else { d with valid := false }
    | _ => { d with valid := false }
  | _ => { d with indexed := false }

/-- Takes the next operand for a number. A text is none, so all that is left is a complaint. -/
def noNumber (count : Nat) (complaint rest : Bytes) (d : Directive) : Directive :=
  { d with
    rest := rest
    operand := if d.operand < count then d.operand + 1 else d.operand
    complaints := d.complaints ++ complaint
    indexed := false }

def width (count : Nat) (d : Directive) : Directive :=
  match d.rest with
  | Ascii.star :: rest => d.noNumber count "%!(BADWIDTH)" rest
  | _ =>
    let (n, rest) := number d.rest
    { d with
      rest := rest
      layout := { d.layout with width := n }
      valid := d.valid && !(d.indexed && n.isSome) }

def precision (count : Nat) (d : Directive) : Directive :=
  match d.rest with
  | Ascii.dot :: rest =>
    let d := { d with rest := rest, valid := d.valid && !d.indexed }.index count
    match d.rest with
    | Ascii.star :: rest => d.noNumber count "%!(BADPREC)" rest
    | _ =>
      let (n, rest) := number d.rest
      { d with rest := rest, layout := { d.layout with precision := some (n.getD 0) } }
  | _ => d

/-- Reads a directive up to its verb; `rest` is the text after the percent sign. -/
def read (count operand : Nat) (reordered : Bool) (rest : Bytes) : Directive :=
  let (layout, rest) := Layout.flags {} rest
  let d : Directive := { rest := rest, operand := operand, reordered := reordered, layout := layout }
  let d := ((d.index count).width count).precision count
  if d.indexed then d else d.index count

/-- What a verb writes, and the number of the operand after it. A percent sign takes none. -/
def write (operands : List Bytes) (d : Directive) (verb : Nat) : Bytes × Nat :=
  if verb = Ascii.percent.toNat then ([Ascii.percent], d.operand)
  else if !d.valid then ("%!" ++ Utf8.encode verb ++ "(BADINDEX)", d.operand)
  else
    match operands[d.operand]? with
    | none => ("%!" ++ Utf8.encode verb ++ "(MISSING)", d.operand)
    | some text => (d.layout.write verb text, d.operand + 1)

end Directive

def leftOver (operands : List Bytes) : Bytes :=
  if operands.isEmpty then []
  else "%!(EXTRA " ++ Bytes.join ", " (operands.map fun text => "string=" ++ text) ++ ")"

/-- Fills a template from the operand with the given number on. Each round takes a byte at least,
so `fuel` is the length. -/
def fillFrom (operands : List Bytes) (operand : Nat) (reordered : Bool) : Nat → Bytes → Bytes
  | 0, _ | _ + 1, [] => if reordered then [] else leftOver (operands.drop operand)
  | fuel + 1, b :: rest =>
    if b = Ascii.percent then
      let d := Directive.read operands.length operand reordered rest
      match d.rest with
      | [] => d.complaints ++ "%!(NOVERB)" ++ fillFrom operands d.operand d.reordered fuel []
      | b :: rest =>
        let (verb, size) := Utf8.decodeAt b rest
        let (text, operand) := d.write operands verb
        d.complaints ++ text
          ++ fillFrom operands operand d.reordered fuel ((b :: rest).drop size)
    else b :: fillFrom operands operand reordered fuel rest

/-- Fills a template: each directive takes the next operand, or the one whose number it gives in
brackets. -/
def fill (template : Bytes) (operands : List Bytes) : Bytes :=
  fillFrom operands 0 false template.length template

end PegMachine.Template
