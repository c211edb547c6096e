import PegMachine.Input

namespace PegMachine.Machine

/-- How many matches a loop asks for. -/
inductive Quota where
  | zeroOrMore
  | oneOrMore
  | bounded (min max : Int)
  deriving Repr, DecidableEq

/-- Whether a number of matches is enough, and not too much. -/
def Quota.admits (matched : Int) : Quota → Bool
  | .zeroOrMore => true
  | .oneOrMore => matched != 0
  | .bounded min max =>
    !((min != Repetition.unbounded && matched < min) || (max != Repetition.unbounded && matched > max))

/-- The combinator that a frame activates. A loop keeps its item, to try it again, and the cursor
at which its current round began. -/
inductive Kind where
  | root
  | sequence
  | choice
  | loop (quota : Quota) (item : Expr) (mark : Int)
  | optional
  | not
  | wrap (name : Bytes)
  | hide
  | unknown

namespace Kind

def name : Kind → Bytes
  | .root => "root"
  | .sequence => "sequence"
  | .choice => "choice"
  | .loop .zeroOrMore _ _ => "zero_or_more"
  | .loop .oneOrMore _ _ => "one_or_more"
  | .loop (.bounded ..) _ _ => "bounded"
  | .optional => "optional"
  | .not => "not"
  | .wrap _ => "wrap"
  | .hide => "hide"
  | .unknown => "unknown"

/-- The kind with a numeric code and nothing else given. -/
def ofCode (code : Int) : Kind :=
  match code with
  | 0 => .root
  | 1 => .sequence
  | 2 => .choice
  | 3 => .loop .zeroOrMore .missing 0
  | 4 => .loop .oneOrMore .missing 0
  | 5 => .loop (.bounded 0 0) .missing 0
  | 6 => .optional
  | 7 => .not
  | 8 => .wrap []
  | 9 => .hide
  | _ => .unknown

/-- The frame for a repetition that starts at `cursor`. -/
def ofRepetition (kind : Repetition) (item : Expr) (cursor : Int) : Kind :=
  match kind with
  | .zeroOrMore => .loop .zeroOrMore item cursor
  | .oneOrMore => .loop .oneOrMore item cursor
  | .bounded min max => .loop (.bounded min max) item cursor
  | .optional => .optional
  | .not => .not
  | .unknown .. => .root

end Kind

/-- An activation of a combinator. The output comes last first. -/
structure Frame where
  kind : Kind
  start : Int
  cursor : Int
  pending : List Expr
  failed : Bool := false
  matched : Int := 0
  output : List Value := []

namespace Frame

def enter (kind : Kind) (cursor : Int) (items : List Expr) : Frame :=
  { kind := kind, start := cursor, cursor := cursor, pending := items }

/-- Whether the machine is done with the frame. A loop goes on while there is input left and the
last round consumed some of it, for a round that consumed nothing would do so forever. -/
def isComplete (size : Int) (f : Frame) : Bool :=
  match f.kind with
  | .choice => decide (0 < f.matched) || f.pending.isEmpty
  | .not => (!f.failed && decide (0 < f.matched)) || f.pending.isEmpty
  | .loop _ _ mark => f.failed || (f.pending.isEmpty && !(decide (f.cursor < size) && f.cursor != mark))
  | _ => f.failed || f.pending.isEmpty

/-- Begins the next round of a loop that has nothing left to evaluate. -/
def restart (f : Frame) : Frame :=
  match f.kind, f.pending with
  | .loop quota item _, [] => { f with kind := .loop quota item f.cursor, pending := [item] }
  | _, _ => f

/-- Adds values to the output; they come last first. -/
def capture (f : Frame) (values : List Value) : Frame := { f with output := values ++ f.output }

def fail (f : Frame) : Frame := { f with failed := true }

/-- One match more. The count is a word of 64 bits, so it goes on at the smallest number after the
largest one. -/
def oneMore (matched : Int) : Int :=
  if matched = 9223372036854775807 then -9223372036854775808 else matched + 1

/-- Takes in a child that matched up to `cursor` with an output, last first. -/
def succeed (f : Frame) (cursor : Int) (output : List Value) : Frame :=
  { f with matched := oneMore f.matched, cursor := cursor, output := output ++ f.output }

/-- Takes the outcome of a complete child into its parent. It fails only where the input gives no
span for a node. -/
def fold? (input : Input) (child parent : Frame) : Option Frame :=
  match child.kind with
  | .root | .sequence =>
    some (if child.failed then parent.fail else parent.succeed child.cursor child.output)
  | .choice =>
    some (if child.matched = 0 then parent.fail else parent.succeed child.cursor child.output)
  | .loop quota _ _ =>
    some (if quota.admits child.matched then parent.succeed child.cursor child.output
      else parent.fail)
  | .optional =>
    some (if child.failed then parent.succeed child.start []
      else parent.succeed child.cursor child.output)
  | .not =>
    some (if child.failed || child.matched == 0 then
        { parent with matched := oneMore parent.matched }
      else parent.fail)
  | .wrap name =>
    if child.failed then some parent.fail
    else (input.span? child.start child.cursor).map fun span =>
      parent.succeed child.cursor [Value.ofItems name span child.output.reverse]
  | .hide => some (if child.failed then parent.fail else parent.succeed child.cursor [])
  | .unknown => some parent

end Frame

end PegMachine.Machine
