import PegMachine.Expr.Basic

namespace PegMachine

def Repetition.bounds (min max : Int) : Bytes :=
  if min = unbounded ∧ max = unbounded then "\x7b,\x7d"
  else if min = max then "\x7b" ++ Bytes.ofInt min ++ "\x7d"
  else if max = unbounded then "\x7b" ++ Bytes.ofInt min ++ ",\x7d"
  else if min = unbounded then "\x7b," ++ Bytes.ofInt max ++ "\x7d"
  else "\x7b" ++ Bytes.ofInt min ++ "," ++ Bytes.ofInt max ++ "\x7d"

/-- The item with the operator of the repetition. -/
def Repetition.decorate (item : Bytes) : Repetition → Bytes
  | .zeroOrMore => item ++ "*"
  | .oneOrMore => item ++ "+"
  | .optional => item ++ "?"
  | .not => "!" ++ item
  | .bounded min max => item ++ bounds min max
  | .unknown min max => item ++ bounds min max

def Action.render : Action → Bytes
  | .insert values => "@insert(" ++ Bytes.join ", " (values.map Value.render) ++ ")"
  | .insertText text => "@insert(" ++ Quoted.quote text ++ ")"
  | .note key datum => "@meta(" ++ key ++ "=" ++ datum.render ++ ")"
  | .throw datum => "@throw(" ++ datum.render ++ ")"
  | .log args => "@log(" ++ Payload.renderLine args ++ ")"
  | a => "@" ++ a.name

namespace Expr

/-- Where an expression is written: on its own, as an item of a sequence, or next to an operator.
It decides about parentheses. -/
inductive Place where
  | alone | item | operand
  deriving Repr, DecidableEq

def parenthesize (yes : Bool) (text : Bytes) : Bytes := if yes then "(" ++ text ++ ")" else text

mutual

def renderAt : Place → Expr → Bytes
  | _, .missing => "<nil>"
  | _, .literal text => "'" ++ Quoted.escape text ++ "'"
  | _, .pattern p => "`" ++ p.source ++ "`"
  | _, .rule name => name
  | place, .sequence items =>
    match items with
    | [] => parenthesize (place == .operand) "()"
    | [item] => renderAt (if place == .operand then .operand else .item) item
    | item :: items =>
      parenthesize (place == .operand)
        (Bytes.join " " (renderAt .item item :: renderEach .item items))
  | place, .choice items =>
    parenthesize (place == .operand || (place == .item && decide (1 < items.length)))
      (Bytes.join " / " (renderEach .alone items))
  | place, .iterate kind item =>
    parenthesize (place == .operand) (kind.decorate (renderAt .operand item))
  | _, .wrap name items => name ++ ":(" ++ renderItems items ++ ")"
  | place, .hide items =>
    parenthesize (place == .operand)
      (match items with
        | [item] => "~" ++ renderAt .operand item
        | items => "~(" ++ renderItems items ++ ")")
  | _, .embed _ main => "@embed(" ++ main ++ ")"
  | _, .action a => a.render

def renderEach (place : Place) : List Expr → List Bytes
  | [] => []
  | item :: items => renderAt place item :: renderEach place items

def renderItems : List Expr → Bytes
  | [] => "()"
  | item :: items => Bytes.join " " (renderAt .item item :: renderEach .item items)

end

def render (e : Expr) : Bytes := renderAt .alone e

inductive Role where
  | literal | operator | operand
  deriving Repr, DecidableEq

def heading (operator : Bytes) : List (Role × Bytes) := [(.operator, operator)]

/-- A line that names an operator and, in brackets, what it is applied to. -/
def headingWith (operator operand : Bytes) : List (Role × Bytes) :=
  [(.operator, operator), (.operator, "["), (.operand, operand), (.operator, "]")]

/-- The line of a repetition; an unknown one has no name to show. -/
def repetitionHeading : Repetition → List (Role × Bytes)
  | .bounded min max => headingWith "Bounded" (Repetition.bounds min max)
  | .unknown .. => heading ""
  | kind => heading kind.name

mutual

def outline : Expr → Outline Role
  | .missing => .node (heading "<nil>") []
  | .literal text => .node [(.operator, "Literal"), (.literal, "['" ++ Quoted.escape text ++ "']")] []
  | .pattern p => .node [(.operator, "Pattern"), (.literal, "[`" ++ p.source ++ "`]")] []
  | .rule name => .node (headingWith "Rule" name) []
  | .sequence items => .node (heading "Sequence") (outlines items)
  | .choice items => .node (heading "Choice") (outlines items)
  | .iterate kind item => .node (repetitionHeading kind) [outline item]
  | .wrap name items => .node (headingWith "Wrap" name) (outlines items)
  | .hide items => .node (heading "Hide") (outlines items)
  | .embed _ main => .node (headingWith "Embed" main) []
  | .action a => .node (headingWith "Action" a.render) []

def outlines : List Expr → List (Outline Role)
  | [] => []
  | item :: items => outline item :: outlines items

end

def color : Role → Bytes
  | .literal => Style.theme.literal
  | .operator => Style.theme.operator
  | .operand => Style.theme.operand

def pretty (e : Expr) : Bytes := e.outline.render fun _ text => text

def highlight (e : Expr) : Bytes := e.outline.render fun role => Style.paint (color role)

end Expr

end PegMachine
