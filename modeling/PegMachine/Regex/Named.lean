import PegMachine.Unicode.Category
import PegMachine.Unicode.Script

namespace PegMachine.Regex.Named

def digits : CharClass := [(0x30, 0x39)]
def blanks : CharClass := [(0x09, 0x0A), (0x0C, 0x0D), (0x20, 0x20)]
def wordChars : CharClass := [(0x30, 0x39), (0x41, 0x5A), (0x5F, 0x5F), (0x61, 0x7A)]

/-- The class of a backslash and a letter, and whether the letter asks for the opposite. -/
def shorthand? (letter : UInt8) : Option (CharClass × Bool) :=
  if letter = Ascii.code 'd' then some (digits, false)
  else if letter = Ascii.code 'D' then some (digits, true)
  else if letter = Ascii.code 's' then some (blanks, false)
  else if letter = Ascii.code 'S' then some (blanks, true)
  else if letter = Ascii.code 'w' then some (wordChars, false)
  else if letter = Ascii.code 'W' then some (wordChars, true)
  else none

def posix : List (Bytes × CharClass) :=
  [("alnum", [(0x30, 0x39), (0x41, 0x5A), (0x61, 0x7A)]),
    ("alpha", [(0x41, 0x5A), (0x61, 0x7A)]),
    ("ascii", [(0x00, 0x7F)]),
    ("blank", [(0x09, 0x09), (0x20, 0x20)]),
    ("cntrl", [(0x00, 0x1F), (0x7F, 0x7F)]),
    ("digit", digits),
    ("graph", [(0x21, 0x7E)]),
    ("lower", [(0x61, 0x7A)]),
    ("print", [(0x20, 0x7E)]),
    ("punct", [(0x21, 0x2F), (0x3A, 0x40), (0x5B, 0x60), (0x7B, 0x7E)]),
    ("space", [(0x09, 0x0D), (0x20, 0x20)]),
    ("upper", [(0x41, 0x5A)]),
    ("word", wordChars),
    ("xdigit", [(0x30, 0x39), (0x41, 0x46), (0x61, 0x66)])]

/-- The form that names are compared in: a capital letter and small letters after it, without
blanks, hyphens and underscores. -/
def canonical (name : String) : String :=
  match name.toList.filter fun c => c ≠ '_' && c ≠ '-' && c ≠ ' ' with
  | [] => ""
  | c :: cs => String.ofList (c.toUpper :: cs.map Char.toLower)

def categoryNames : List (String × String) :=
  [("Cased_Letter", "LC"), ("Close_Punctuation", "Pe"), ("Connector_Punctuation", "Pc"),
    ("Control", "Cc"), ("cntrl", "Cc"), ("Currency_Symbol", "Sc"), ("Dash_Punctuation", "Pd"),
    ("Decimal_Number", "Nd"), ("digit", "Nd"), ("Enclosing_Mark", "Me"),
    ("Final_Punctuation", "Pf"), ("Format", "Cf"), ("Initial_Punctuation", "Pi"),
    ("Letter", "L"), ("Letter_Number", "Nl"), ("Line_Separator", "Zl"),
    ("Lowercase_Letter", "Ll"), ("Mark", "M"), ("Combining_Mark", "M"), ("Math_Symbol", "Sm"),
    ("Modifier_Letter", "Lm"), ("Modifier_Symbol", "Sk"), ("Nonspacing_Mark", "Mn"),
    ("Number", "N"), ("Open_Punctuation", "Ps"), ("Other", "C"), ("Other_Letter", "Lo"),
    ("Other_Number", "No"), ("Other_Punctuation", "Po"), ("Other_Symbol", "So"),
    ("Paragraph_Separator", "Zp"), ("Private_Use", "Co"), ("Punctuation", "P"), ("punct", "P"),
    ("Separator", "Z"), ("Space_Separator", "Zs"), ("Spacing_Mark", "Mc"), ("Surrogate", "Cs"),
    ("Symbol", "S"), ("Titlecase_Letter", "Lt"), ("Unassigned", "Cn"), ("Uppercase_Letter", "Lu")]

/-- What a name stands for, among pairs of names and such. -/
def byName? {α : Type} (name : String) (entries : List (String × α)) : Option α :=
  (entries.find? fun entry => canonical entry.1 == name).map (·.2)

/-- The class of a general category or script, whose name may be written in several ways. -/
def unicode? (name : Bytes) : Option CharClass :=
  let name := canonical (String.ofList (name.map fun b => Char.ofNat b.toNat))
  if name = "Any" then some [(0, Utf8.maxRune)]
  else if name = "Assigned" then some Unicode.unassigned.complement
  else if name = "Ascii" then some [(0, 0x7F)]
  else if name = "Lc" then Unicode.category? "LC"
  else
    (Unicode.category? name).orElse fun _ =>
      (byName? name Unicode.scripts).orElse fun _ =>
        (byName? name categoryNames).bind Unicode.category?

end PegMachine.Regex.Named
