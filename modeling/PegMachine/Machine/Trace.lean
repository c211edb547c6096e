import PegMachine.Machine.Stack

namespace PegMachine.Machine

inductive Event where
  | push (kind : Bytes)
  | pop (kind : Bytes) (ok : Bool) (cursor : Int)
  | rule (name : Bytes)
  | attempt (ok : Bool) (leaf : Bytes)
  | action (text : Bytes)
  | embed (main : Bytes)
  | finish (ok : Bool) (cursor : Int)
  deriving Repr, DecidableEq

namespace Event

def name : Event → Bytes
  | .push _ => "push"
  | .pop .. => "pop"
  | .rule _ => "rule"
  | .attempt ok _ => if ok then "match" else "fail"
  | .action _ => "action"
  | .embed _ => "embed"
  | .finish .. => "end"

def status (ok : Bool) : Bytes := if ok then "ok" else "fail"

def detail : Event → Bytes
  | .push kind => kind
  | .pop kind ok cursor => kind ++ " " ++ status ok ++ " c=" ++ Bytes.ofInt cursor
  | .rule name => name
  | .attempt _ leaf => leaf
  | .action text => text
  | .embed main => main
  | .finish ok cursor => status ok ++ " c=" ++ Bytes.ofInt cursor

def statusColor (ok : Bool) : Bytes := if ok then Style.theme.success else Style.theme.failure

def color : Event → Bytes
  | .push _ => Style.theme.push
  | .pop _ ok _ => statusColor ok
  | .rule _ => Style.theme.operand
  | .attempt ok _ => statusColor ok
  | .action _ => Style.theme.operator
  | .embed _ => Style.theme.operator
  | .finish ok _ => statusColor ok

end Event

/-- An entry of the log. An event comes with whether its run is traced in colours, the number of
steps taken, the cursor of the top frame and the number of frames below it. -/
inductive Entry where
  | message (text : Bytes)
  | event (colors : Bool) (steps : Nat) (cursor : Int) (depth : Nat) (e : Event)
  deriving Repr, DecidableEq

namespace Entry

/-- Where an event happened, indented by the depth of the stack. -/
def place (steps : Nat) (cursor : Int) (depth : Nat) : Bytes :=
  "[" ++ Bytes.ofIntPadded 4 steps ++ ", c=" ++ Bytes.ofIntPadded 2 cursor ++ "] "
    ++ Bytes.blanks (2 * depth)

/-- The line of an entry. It is plain where colours are not wanted. -/
def render (wanted : Bool) : Entry → Bytes
  | .message text => Bytes.line text
  | .event colors steps cursor depth e =>
    let heading : Bytes :=
      if colors && wanted then
        Style.paint Style.theme.muted (place steps cursor depth) ++ Style.paint e.color e.name
      else place steps cursor depth ++ e.name
    Bytes.line (heading ++ ": " ++ e.detail)

end Entry

end PegMachine.Machine
