import PegMachine.Regex.Reader

namespace PegMachine

/-- The compiled forms of a pattern: one is tied to the start of the text, the other to both ends.
A form is absent when the text of the pattern cannot be read. -/
structure Forms where
  atStart : Option Regex
  whole : Option Regex
  error : Option Regex.ReadError
  deriving Repr, DecidableEq

/-- The source is put between the parts of each form as text, unread. -/
def Forms.ofSource (source : Bytes) : Forms :=
  match Regex.read ("^(?:" ++ source ++ ")") with
  | .error e => ⟨none, none, some e⟩
  | .ok atStart =>
    match Regex.read ("^(?:" ++ source ++ ")$") with
    | .error e => ⟨some atStart, none, some e⟩
    | .ok whole => ⟨some atStart, some whole, none⟩

/-- A pattern, with the forms its source compiles to. -/
structure Pattern where
  source : Bytes
  forms : Forms
  forms_eq : forms = Forms.ofSource source

namespace Pattern

def ofSource (source : Bytes) : Pattern := ⟨source, Forms.ofSource source, rfl⟩

instance : Inhabited Pattern := ⟨ofSource []⟩

def error (p : Pattern) : Option Regex.ReadError := p.forms.error

/-- The number of bytes that the pattern matches at the start of a text. -/
def matchStart (p : Pattern) (text : Bytes) : Option Nat :=
  p.forms.atStart.bind (·.search text)

def matchWhole (p : Pattern) (text : Bytes) : Bool :=
  (p.forms.whole.bind (·.search text)).isSome

/-- A pattern is its source. -/
theorem ext {p q : Pattern} (h : p.source = q.source) : p = q := by
  obtain ⟨s, f, hf⟩ := p
  obtain ⟨t, g, hg⟩ := q
  subst hf hg
  cases h
  rfl

end Pattern

end PegMachine
