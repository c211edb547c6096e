import PegMachine.Text.Bytes

namespace PegMachine

inductive Payload where
  | nil
  | bool (b : Bool)
  | int (n : Int)
  | text (t : Bytes)
  | list (items : List Payload)
  | error (message : Bytes)
  deriving Repr, Inhabited

namespace Payload

mutual

/-- The datum as plain text; the items of a list are set apart by blanks. -/
def render : Payload → Bytes
  | .nil => "<nil>"
  | .bool b => if b then "true" else "false"
  | .int n => Bytes.ofInt n
  | .text t => t
  | .list items => "[" ++ Bytes.join " " (renderEach items) ++ "]"
  | .error message => message

def renderEach : List Payload → List Bytes
  | [] => []
  | item :: items => render item :: renderEach items

end

def isText : Payload → Bool
  | .text _ => true
  | _ => false

/-- The arguments one after the other, with a blank between two of which neither is text. -/
def renderLine : List Payload → Bytes
  | [] => []
  | [arg] => render arg
  | arg :: next :: args =>
    render arg ++ (if arg.isText || next.isText then [] else " ") ++ renderLine (next :: args)

end Payload

end PegMachine
