import PegMachine.Expr.Printer

namespace PegMachine.Expr

inductive Flaw where
  | pattern (source : Bytes) (e : Regex.ReadError)
  | nothingToRepeat (kind : Repetition)
  | boundsTooSmall (min max : Int)
  | boundsReversed (min max : Int)
  | wrapWithoutName
  | embedIncomplete
  | actionWithoutFunction (kind : Bytes)
  | noteWithoutKey
  | missingItem (container : Bytes)
  deriving Repr, DecidableEq

def Flaw.message : Flaw → Bytes
  | .pattern source e => "invalid pattern `" ++ source ++ "`: " ++ e.message
  | .nothingToRepeat kind => kind.name ++ " has no expression"
  | .boundsTooSmall min max =>
    "invalid range bounds \x7b" ++ Bytes.ofInt min ++ "," ++ Bytes.ofInt max ++ "\x7d"
  | .boundsReversed min max =>
    "range min " ++ Bytes.ofInt min ++ " is greater than max " ++ Bytes.ofInt max
  | .wrapWithoutName => "wrap name can't be empty"
  | .embedIncomplete => "embed needs a grammar and a rule name"
  | .actionWithoutFunction kind => kind ++ " action needs a function"
  | .noteWithoutKey => "meta action needs a key"
  | .missingItem container => "*pegstack." ++ container ++ " contains a nil expression"

def boundsFlaws (min max : Int) : List Flaw :=
  if min < Repetition.unbounded ∨ max < Repetition.unbounded then [.boundsTooSmall min max]
  else if min = Repetition.unbounded ∧ max = Repetition.unbounded then []
  else if max ≠ Repetition.unbounded ∧ min > max then [.boundsReversed min max]
  else []

def actionFlaws : Action → List Flaw
  | .convert none => [.actionWithoutFunction "convert"]
  | .modify none => [.actionWithoutFunction "modify"]
  | .custom none => [.actionWithoutFunction "custom"]
  | .note [] _ => [.noteWithoutKey]
  | _ => []

mutual

/-- The flaws of an expression, those of an expression before those of its items. The items are
not looked at when one of them is missing. -/
def flaws : Expr → List Flaw
  | .pattern p =>
    match p.error with
    | some e => [.pattern p.source e]
    | none => []
  | .sequence items =>
    if items.any isMissing then [.missingItem "SequenceExpr"] else flawsAll items
  | .choice items =>
    if items.any isMissing then [.missingItem "ChoiceExpr"] else flawsAll items
  | .iterate kind item =>
    if item.isMissing then [.nothingToRepeat kind]
    else
      (match kind with
        | .bounded min max => boundsFlaws min max
        | _ => []) ++ flaws item
  | .wrap name items =>
    (if name.isEmpty then [.wrapWithoutName] else []) ++
      (if items.any isMissing then [.missingItem "WrapExpr"] else flawsAll items)
  | .hide items =>
    if items.any isMissing then [.missingItem "HideExpr"] else flawsAll items
  | .embed grammar main =>
    if grammar.isNone || main.isEmpty then [.embedIncomplete] else []
  | .action a => actionFlaws a
  | _ => []

def flawsAll : List Expr → List Flaw
  | [] => []
  | item :: items => flaws item ++ flawsAll items

end

end PegMachine.Expr
