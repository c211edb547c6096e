import PegMachine.Value

namespace PegMachine.Value

/-- The items of a node; text has none. -/
def items : Value → List Value
  | .text .. => []
  | .node _ _ items _ => items

def withItems (items : List Value) : Value → Value
  | .text content span notes => .text content span notes
  | .node name span _ notes => .node name span items notes

def at? (vs : List Value) : List Int → Option Value
  | [] => none
  | i :: path =>
    if i < 0 then none
    else
      match vs[i.toNat]?, path with
      | none, _ => none
      | some v, [] => some v
      | some v, path => at? v.items path

/-- The values after a change to the one at a path. -/
def updateAt? (change : Value → Value) (vs : List Value) : List Int → Option (List Value)
  | [] => none
  | i :: path =>
    if i < 0 then none
    else
      match vs[i.toNat]?, path with
      | none, _ => none
      | some v, [] => some (vs.set i.toNat (change v))
      | some v, path => (updateAt? change v.items path).map fun items => vs.set i.toNat (v.withItems items)

end PegMachine.Value
