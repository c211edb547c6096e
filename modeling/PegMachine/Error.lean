import PegMachine.Payload
import PegMachine.Suggestion

namespace PegMachine

/-- Why a run failed: nothing matched, or an action gave up. -/
inductive FailureKind where
  | mismatch | payload | unknown
  deriving Repr, DecidableEq

namespace FailureKind

def name : FailureKind → Bytes
  | .mismatch => "mismatch"
  | .payload => "payload"
  | .unknown => "unknown"

def ofCode (code : Int) : FailureKind :=
  match code with
  | 0 => .mismatch
  | 1 => .payload
  | _ => .unknown

end FailureKind

/-- The failure of a run: where it stood, and the furthest offset at which anything was tried. -/
structure Failure where
  kind : FailureKind
  offset : Int
  line : Int
  column : Int
  payload : Payload
  furthest : Int
  deriving Repr

namespace Failure

def message (f : Failure) : Bytes :=
  (match f.payload with
    | .nil => "Fail"
    | payload => payload.render) ++ " @ " ++ Bytes.ofInt f.line ++ ":" ++ Bytes.ofInt f.column

end Failure

structure ShapeError where
  rule : Bytes
  text : Bytes
  deriving Repr, DecidableEq

def ShapeError.message (e : ShapeError) : Bytes :=
  if e.rule.isEmpty then e.text else e.text ++ " (inside `" ++ e.rule ++ "`)"

structure ResolutionError where
  name : Bytes
  referrer : Bytes
  guess : Suggestion
  deriving Repr, DecidableEq

namespace ResolutionError

def suggestion (e : ResolutionError) (search : Search := .byEdits) : Bytes :=
  e.guess.find search e.name

def message (e : ResolutionError) (search : Search := .byEdits) : Bytes :=
  let suggestion := e.suggestion search
  "undefined rule `" ++ e.name ++ "`"
    ++ (if e.referrer.isEmpty then "" else " referenced from `" ++ e.referrer ++ "`" : Bytes)
    ++ (if suggestion.isEmpty then "" else " (did you mean `" ++ suggestion ++ "`?)" : Bytes)

end ResolutionError

inductive Error where
  | failure (f : Failure)
  | undefined (e : ResolutionError)
  | shape (e : ShapeError)
  | limit (steps : Int)
  | joined (errors : List Error)
  | emptyStack
  | unknownExpression
  | unknownAction
  | unexpectedValue (value : Bytes)
  deriving Repr

namespace Error

mutual

def message (e : Error) (search : Search := .byEdits) : Bytes :=
  match e with
  | .failure f => f.message
  | .undefined e => e.message search
  | .shape e => e.message
  | .limit steps => "step limit of " ++ Bytes.ofInt steps ++ " reached"
  | .joined errors => Bytes.join Bytes.newline (messages search errors)
  | .emptyStack => "interpreter stack is empty"
  | .unknownExpression => "unknown expression type <nil>"
  | .unknownAction => "unknown action unknown"
  | .unexpectedValue value => "unexpected value in grammar: " ++ value

def messages (search : Search) : List Error → List Bytes
  | [] => []
  | e :: es => message e search :: messages search es

end

end Error

/-- How an evaluation ends: with a result, with an error, or at an operation that has none, such
as reading past the end of the input. -/
inductive Answer (α : Type) where
  | value (a : α)
  | error (e : Error)
  | fault

end PegMachine
