import PegMachine.Notation.Rules

namespace PegMachine.Notation

/-- Why a tree describes no expression. `fault` stands for a tree that is not of the shape the
grammar of the notation gives. -/
inductive BuildError where
  | fault
  | unexpectedValue (value : Bytes)
  | unexpectedNode (name : Bytes)
  | invalidLiteral (text : Bytes)
  | invalidBound (text : Bytes) (refusal : Decimal.Refusal)
  | emptyBounds
  deriving Repr, DecidableEq

def BuildError.message : BuildError → Bytes
  | .fault => "malformed tree"
  | .unexpectedValue value => "unexpected value " ++ value
  | .unexpectedNode name => "unexpected node " ++ name
  | .invalidLiteral text => "invalid literal " ++ text ++ ": invalid syntax"
  | .invalidBound text refusal => "invalid bound " ++ text ++ ": " ++ refusal.message
  | .emptyBounds => "empty bounds"

/-- The bounds found between a pair of braces. -/
structure Bounds where
  min : Option Int := none
  comma : Bool := false
  max : Option Int := none
  deriving Repr, DecidableEq

/-- Takes in one part of the bounds. -/
def Bounds.add (b : Bounds) : Value → Except BuildError Bounds
  | .text .. => .error .fault
  | .node name span items notes =>
    if name = "Comma" then .ok { b with comma := true }
    else
      let text := (Value.node name span items notes).content
      match Decimal.read text with
      | .error refusal => .error (.invalidBound text refusal)
      | .ok n =>
        if name = "Min" then .ok { b with min := some n }
        else if name = "Max" then .ok { b with max := some n }
        else .ok b

/-- The repetition that bounds stand for. A number alone is an exact count, and a side left out
is not bounded. -/
def Bounds.repetition (b : Bounds) : Except BuildError Repetition :=
  if b.comma then
    .ok (.bounded (b.min.getD Repetition.unbounded) (b.max.getD Repetition.unbounded))
  else
    match b.min with
    | none => .error .emptyBounds
    | some n => .ok (.bounded n n)

def suffix : Value → Except BuildError Repetition
  | .text .. => .error .fault
  | .node name span items notes =>
    if name = "Op" then
      let text := (Value.node name span items notes).content
      .ok (if text = "?" then .optional else if text = "*" then .zeroOrMore else .oneOrMore)
    else do
      let bounds ← items.foldlM Bounds.add {}
      bounds.repetition

/-- What stands between the first and the last byte. -/
def inside (text : Bytes) : Except BuildError Bytes :=
  if text.length < 2 then .error .fault else .ok (text.drop 1).dropLast

def literal (text : Bytes) : Except BuildError Expr := do
  let body ← inside text
  match Quoted.unquote? (text.headD 0) body with
  | none => .error (.invalidLiteral text)
  | some literal => .ok (.literal literal)

mutual

def build : Value → Except BuildError Expr
  | .text content span notes => .error (.unexpectedValue (Value.text content span notes).render)
  | .node name span items notes =>
    let text := (Value.node name span items notes).content
    if name = "Choice" then do
      match ← buildAll items with
      | [item] => .ok item
      | items => .ok (.choice items)
    else if name = "Sequence" then do
      match ← buildAll items with
      | [item] => .ok item
      | items => .ok (.sequence items)
    else if name = "Not" then
      match items with
      | item :: _ => do .ok (Expr.not [← build item])
      | [] => .error .fault
    else if name = "Hide" then
      match items with
      | item :: _ => do .ok (.hide [← build item])
      | [] => .error .fault
    else if name = "Suffix" then
      match items with
      | [] => .error .fault
      | [item] => build item
      | item :: op :: _ => do
        let item ← build item
        .ok (.iterate (← suffix op) item)
    else if name = "Label" then
      match items with
      | label :: item :: _ => do .ok (.wrap label.content [← build item])
      | _ => .error .fault
    else if name = "Identifier" then .ok (.rule text)
    else if name = "Literal" then literal text
    else if name = "Class" then .ok (.pattern (Pattern.ofSource text))
    else if name = "Regex" then do .ok (.pattern (Pattern.ofSource (← inside text)))
    else if name = "Any" then .ok (.pattern (Pattern.ofSource "(?s)."))
    else .error (.unexpectedNode name)

def buildAll : List Value → Except BuildError (List Expr)
  | [] => .ok []
  | v :: vs => do
    let item ← build v
    let items ← buildAll vs
    .ok (item :: items)

end

/-- Adds the rules that trees describe to a grammar. -/
def define (g : Grammar) : List Value → Answer Grammar
  | [] => .value g
  | .node name span [label, body] notes :: vs =>
    if name = "Definition" then
      match build body with
      | .error .fault => .fault
      | .error e => .error (.shape ⟨label.content, e.message⟩)
      | .ok e => define (g.define label.content e) vs
    else .error (.unexpectedValue (Value.node name span [label, body] notes).render)
  | v :: _ => .error (.unexpectedValue v.render)

end PegMachine.Notation
