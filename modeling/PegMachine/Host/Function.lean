import PegMachine.Value.Path

namespace PegMachine.Host

inductive Conversion where
  | drop
  | same
  | wrap (name : Bytes)
  | text
  | unwrap
  | const (v : Value)
  | int
  | fail (message : Bytes)

/-- Applies a conversion to the last value, if there is one. -/
def Conversion.apply (v : Option Value) : Conversion → Except Bytes (Option Value)
  | .drop => .ok none
  | .same => .ok v
  | .wrap name =>
    .ok (some (match v with
      | none => Value.ofItems name ⟨0, 0⟩ []
      | some v => Value.ofItems name v.span [v]))
  | .text => .ok (v.map fun v => Value.ofText v.content v.span)
  | .unwrap => .ok (v.map fun v => v.items.head?.getD v)
  | .const v => .ok (some v)
  | .int =>
    match v with
    | none => .error "no value"
    | some v =>
      match Decimal.read v.content with
      | .error e => .error e.message
      | .ok n => .ok (some (Value.ofText (Bytes.ofInt n) v.span))
  | .fail message => .error message

inductive Modification where
  | note (key : Bytes) (datum : Payload)
  | rename (name : Bytes)
  | append (v : Value)
  | reverse
  | fail (message : Bytes)

def Modification.apply (v : Value) : Modification → Except Bytes Value
  | .note key datum => .ok (v.annotate key datum)
  | .rename name =>
    .ok (match v with
      | .text _ span notes => .text name span notes
      | .node _ span items notes => .node name span items notes)
  | .append item => .ok (v.withItems (v.items ++ [item]))
  | .reverse => .ok (v.withItems v.items.reverse)
  | .fail message => .error message

end PegMachine.Host
