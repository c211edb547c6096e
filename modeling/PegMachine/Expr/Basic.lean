import PegMachine.Pattern
import PegMachine.Value

namespace PegMachine

/-- How often a repetition tries its item. A bound of `-1` is no bound. -/
inductive Repetition where
  | zeroOrMore
  | oneOrMore
  | bounded (min max : Int)
  | optional
  | not
  | unknown (min max : Int)
  deriving Repr, DecidableEq

namespace Repetition

def unbounded : Int := -1

def name : Repetition → Bytes
  | .zeroOrMore => "ZeroOrMore"
  | .oneOrMore => "OneOrMore"
  | .bounded .. => "Bounded"
  | .optional => "Optional"
  | .not => "Not"
  | .unknown .. => "Unknown"

/-- The repetition with a numeric code; codes that stand for none give an unknown one. -/
def ofCode (code : Int) (min max : Int) : Repetition :=
  match code with
  | 0 => .zeroOrMore
  | 1 => .oneOrMore
  | 2 => .bounded min max
  | 3 => .optional
  | 4 => .not
  | _ => .unknown min max

end Repetition

/-- An effect on the frame in which it is evaluated. Functions of the host may be absent; a custom
one is known by number, since it works on the machine that evaluates it. -/
inductive Action where
  | insert (values : List Value)
  | insertText (text : Bytes)
  | convert (f : Option (Option Value → Except Bytes (Option Value)))
  | modify (f : Option (Value → Except Bytes Value))
  | note (key : Bytes) (datum : Payload)
  | clear
  | custom (host : Option Nat)
  | throw (datum : Payload)
  | log (args : List Payload)
  | unknown

namespace Action

def name : Action → Bytes
  | .insert _ => "insert"
  | .insertText _ => "insert"
  | .convert _ => "convert"
  | .modify _ => "modify"
  | .note .. => "meta"
  | .clear => "clear"
  | .custom _ => "custom"
  | .throw _ => "throw"
  | .log _ => "log"
  | .unknown => "unknown"

/-- The action with a numeric code and nothing else given. -/
def ofCode (code : Int) : Action :=
  match code with
  | 0 => .insertText []
  | 1 => .convert none
  | 2 => .modify none
  | 3 => .note [] .nil
  | 4 => .clear
  | 5 => .custom none
  | 6 => .throw .nil
  | 7 => .log []
  | _ => .unknown

end Action

/-- A grammar expression. `missing` marks a place where one should be and is not. -/
inductive Expr where
  | missing
  | literal (text : Bytes)
  | pattern (p : Pattern)
  | rule (name : Bytes)
  | sequence (items : List Expr)
  | choice (items : List Expr)
  | iterate (kind : Repetition) (item : Expr)
  | wrap (name : Bytes) (items : List Expr)
  | hide (items : List Expr)
  | embed (grammar : Option Nat) (main : Bytes)
  | action (a : Action)
  deriving Inhabited

namespace Expr

def isMissing : Expr → Bool
  | .missing => true
  | _ => false

def group : List Expr → Expr
  | [item] => item
  | items => .sequence items

def zeroOrMore (items : List Expr) : Expr := .iterate .zeroOrMore (group items)
def oneOrMore (items : List Expr) : Expr := .iterate .oneOrMore (group items)
def bounded (min max : Int) (items : List Expr) : Expr := .iterate (.bounded min max) (group items)
def optional (items : List Expr) : Expr := .iterate .optional (group items)
def not (items : List Expr) : Expr := .iterate .not (group items)

def children : Expr → List Expr
  | .sequence items => items
  | .choice items => items
  | .iterate _ item => [item]
  | .wrap _ items => items
  | .hide items => items
  | _ => []

mutual

/-- The expressions of a tree, each before its children. Nothing is visited below an expression
that `enter` turns down, and missing ones are passed over. -/
def visit (enter : Expr → Bool) : Expr → List Expr
  | .missing => []
  | .sequence items =>
    .sequence items :: (if enter (.sequence items) then visitAll enter items else [])
  | .choice items => .choice items :: (if enter (.choice items) then visitAll enter items else [])
  | .iterate kind item =>
    .iterate kind item :: (if enter (.iterate kind item) then visit enter item else [])
  | .wrap name items =>
    .wrap name items :: (if enter (.wrap name items) then visitAll enter items else [])
  | .hide items => .hide items :: (if enter (.hide items) then visitAll enter items else [])
  | leaf => [leaf]

def visitAll (enter : Expr → Bool) : List Expr → List Expr
  | [] => []
  | item :: items => visit enter item ++ visitAll enter items

end

/-- A use of a rule, of the same grammar or of an embedded one. -/
inductive Reference where
  | rule (name : Bytes)
  | embed (grammar : Option Nat) (main : Bytes)
  deriving Repr, DecidableEq

def reference? : Expr → Option Reference
  | .rule name => some (.rule name)
  | .embed grammar main => some (.embed grammar main)
  | _ => none

/-- The uses of rules in an expression, in the order they are written. -/
def references (e : Expr) : List Reference := (e.visit fun _ => true).filterMap reference?

end Expr

end PegMachine
