import PegMachine.Machine.Run
import PegMachine.Proofs.Expr.Parts

namespace PegMachine.Evaluator

open Machine

/-- What the items of a combinator have done so far. The output comes last first. -/
structure Activation where
  cursor : Int
  failed : Bool := false
  matched : Int := 0
  output : List Value := []

/-- How evaluating an item ends: the activation goes on, a payload or an error ends all runs, or an
operation has no result. Each comes with the furthest cursor at which anything was tried. -/
inductive Outcome where
  | done (a : Activation) (furthest : Int)
  | raised (payload : Payload) (furthest : Int)
  | aborted (e : Error) (furthest : Int)
  | fault

namespace Activation

def start (cursor : Int) : Activation := { cursor := cursor }

def fail (a : Activation) : Activation := { a with failed := true }

/-- One match more that leaves cursor and output alone. -/
def pass (a : Activation) : Activation := { a with matched := Frame.oneMore a.matched }

/-- One match more, up to `cursor` and with an output. -/
def succeed (a : Activation) (cursor : Int) (output : List Value) : Activation :=
  { a with matched := Frame.oneMore a.matched, cursor := cursor, output := output ++ a.output }

def capture (a : Activation) (values : List Value) : Activation :=
  { a with output := values ++ a.output }

/-- A sequence fails as soon as an item does. -/
def stopsSequence (a : Activation) : Bool := a.failed

/-- A choice is done with the first item that matches. -/
def stopsChoice (a : Activation) : Bool := decide (0 < a.matched)

def stopsNot (a : Activation) : Bool := !a.failed && decide (0 < a.matched)

/-- A loop stops at a mismatch, at the end of the input and after a round without progress. -/
def stopsLoop (size mark : Int) (a : Activation) : Bool :=
  a.failed || !(decide (a.cursor < size) && a.cursor != mark)

/-- Takes in a sequence whose items did `b`. -/
def takeSequence (a b : Activation) : Activation :=
  if b.failed then a.fail else a.succeed b.cursor b.output

def takeChoice (a b : Activation) : Activation :=
  if b.matched = 0 then a.fail else a.succeed b.cursor b.output

/-- Takes in a loop, whose rounds are counted. -/
def takeLoop (quota : Quota) (a b : Activation) : Activation :=
  if quota.admits b.matched then a.succeed b.cursor b.output else a.fail

/-- Takes in an optional item; a failed one matches nothing at all. -/
def takeOptional (a b : Activation) : Activation :=
  if b.failed then a.succeed a.cursor [] else a.succeed b.cursor b.output

def takeNot (a b : Activation) : Activation :=
  if b.failed || b.matched == 0 then a.pass else a.fail

def takeHide (a b : Activation) : Activation :=
  if b.failed then a.fail else a.succeed b.cursor []

/-- Takes in items whose output becomes a node, if the input gives a span for it. -/
def takeWrap? (input : Input) (name : Bytes) (a b : Activation) : Option Activation :=
  if b.failed then some a.fail
  else (input.span? a.cursor b.cursor).map fun span =>
    a.succeed b.cursor [Value.ofItems name span b.output.reverse]

def takeLeaf (a : Activation) (furthest : Int) : Attempt → Outcome
  | .fault => .fault
  | .mismatch => .done a.fail (max furthest a.cursor)
  | .success value next =>
    .done (a.succeed next [value]) (max (max furthest a.cursor) next)

end Activation

/-- The offsets that a failure reports, if the input gives them. -/
def position? (input : Input) (cursor furthest : Int) : Option (Int × Int) :=
  match input.offset? cursor, input.offset? furthest with
  | some offset, some furthest => some (offset, furthest)
  | _, _ => none

namespace Outcome

/-- Whether evaluation goes on after the item. -/
def isDone : Outcome → Bool
  | .done .. => true
  | _ => false

/-- Goes on after an item that ended; what ends all runs stays as it is. -/
def andThen (o : Outcome) (next : Activation → Int → Option Outcome) : Option Outcome :=
  match o with
  | .done a furthest => next a furthest
  | .raised payload furthest => some (.raised payload furthest)
  | .aborted e furthest => some (.aborted e furthest)
  | .fault => some .fault

/-- Takes what the items of a combinator did into the enclosing activation. -/
def into (o : Outcome) (take? : Activation → Option Activation) : Outcome :=
  match o with
  | .done b furthest =>
    match take? b with
    | none => .fault
    | some a => .done a furthest
  | o => o

/-- Takes the outcome of an embedded run into the activation that waits for it. A failure of the
run has to have a position, even though only the outermost one is reported. -/
def intoCaller (input : Input) (a : Activation) (furthest : Int) (o : Outcome) : Outcome :=
  match o with
  | .done b inner =>
    if b.failed then
      if (position? input b.cursor inner).isSome then .done a.fail (max furthest inner)
      else .fault
    else .done (a.succeed b.cursor b.output) (max furthest inner)
  | .raised payload inner =>
    if (position? input a.cursor inner).isSome then .raised payload (max furthest inner)
    else .fault
  | .aborted e inner => .aborted e (max furthest inner)
  | .fault => .fault

end Outcome

/-- Applies an action to the activation in which it is written. A custom action works on the stack
of a machine, so it has no outcome here. -/
def act (input : Input) (a : Activation) (furthest : Int) : Action → Option Outcome
  | .insert values => some (.done (a.capture values.reverse) furthest)
  | .insertText text =>
    match input.span? a.cursor a.cursor with
    | none => some .fault
    | some span => some (.done (a.capture [Value.ofText text span]) furthest)
  | .convert none => some .fault
  | .convert (some f) =>
    match f a.output.head? with
    | .error message => some (.raised (.error message) furthest)
    | .ok result => some (.done { a with output := result.toList ++ a.output.tail } furthest)
  | .modify f =>
    match a.output, f with
    | [], _ => some (.done a furthest)
    | _ :: _, none => some .fault
    | last :: output, some f =>
      match f last with
      | .error message => some (.raised (.error message) furthest)
      | .ok last => some (.done { a with output := last :: output } furthest)
  | .note key datum =>
    match a.output with
    | [] => some (.done a furthest)
    | last :: output => some (.done { a with output := last.annotate key datum :: output } furthest)
  | .clear => some (.done { a with output := [] } furthest)
  | .custom none => some .fault
  | .custom (some _) => none
  | .throw datum => some (.raised datum furthest)
  | .log _ => some (.done a furthest)
  | .unknown => some (.aborted .unknownAction furthest)

section

variable (family : Family) (input : Input)

mutual

/-- Evaluates an item of grammar `id` against an activation. -/
def evalItem : Nat → Nat → Expr → Activation → Int → Option Outcome
  | 0, _, _, _, _ => none
  | fuel + 1, id, e, a, furthest =>
    match e with
    | .missing => some (.aborted .unknownExpression furthest)
    | .literal text => some (a.takeLeaf furthest (input.tryLiteral a.cursor text))
    | .pattern p => some (a.takeLeaf furthest (input.tryPattern a.cursor p))
    | .rule name =>
      match (family.grammarAt id).rule? name with
      | none => some (.aborted (.undefined ((family.grammarAt id).undefined name [])) furthest)
      | some e => evalItem fuel id e a furthest
    | .sequence items =>
      (evalItems fuel id Activation.stopsSequence items (.start a.cursor) furthest).map
        (·.into fun b => some (a.takeSequence b))
    | .choice items =>
      (evalItems fuel id Activation.stopsChoice items (.start a.cursor) furthest).map
        (·.into fun b => some (a.takeChoice b))
    | .wrap name items =>
      (evalItems fuel id Activation.stopsSequence items (.start a.cursor) furthest).map
        (·.into (a.takeWrap? input name))
    | .hide items =>
      (evalItems fuel id Activation.stopsSequence items (.start a.cursor) furthest).map
        (·.into fun b => some (a.takeHide b))
    | .iterate .zeroOrMore item =>
      (evalLoop fuel id item (.start a.cursor) furthest).map
        (·.into fun b => some (a.takeLoop .zeroOrMore b))
    | .iterate .oneOrMore item =>
      (evalLoop fuel id item (.start a.cursor) furthest).map
        (·.into fun b => some (a.takeLoop .oneOrMore b))
    | .iterate (.bounded min max) item =>
      (evalLoop fuel id item (.start a.cursor) furthest).map
        (·.into fun b => some (a.takeLoop (.bounded min max) b))
    | .iterate .optional item =>
      (evalItems fuel id Activation.stopsSequence [item] (.start a.cursor) furthest).map
        (·.into fun b => some (a.takeOptional b))
    | .iterate .not item =>
      (evalItems fuel id Activation.stopsNot [item] (.start a.cursor) furthest).map
        (·.into fun b => some (a.takeNot b))
    | .iterate (.unknown ..) item =>
      (evalItems fuel id Activation.stopsSequence [item] (.start a.cursor) furthest).map
        (·.into fun b => some (a.takeSequence b))
    | .action effect => act input a furthest effect
    | .embed grammar main =>
      match grammar, family.grammar? grammar with
      | some inner, some g =>
        match g.rule? main with
        | none => some (.aborted (.undefined (g.undefined main [])) furthest)
        | some _ =>
          (evalItem fuel inner (.rule main) (.start a.cursor) a.cursor).map
            (·.intoCaller input a furthest)
      | _, _ => some .fault

/-- Evaluates items one after the other until the combinator around them is done. -/
def evalItems : Nat → Nat → (Activation → Bool) → List Expr → Activation → Int → Option Outcome
  | 0, _, _, _, _, _ => none
  | _ + 1, _, _, [], a, furthest => some (.done a furthest)
  | fuel + 1, id, stops, e :: items, a, furthest =>
    if stops a then some (.done a furthest)
    else
      match evalItem fuel id e a furthest with
      | none => none
      | some o => o.andThen (evalItems fuel id stops items)

def evalLoop : Nat → Nat → Expr → Activation → Int → Option Outcome
  | 0, _, _, _, _ => none
  | fuel + 1, id, item, a, furthest =>
    match evalItem fuel id item a furthest with
    | none => none
    | some o => o.andThen fun b furthest =>
      if b.stopsLoop input.size a.cursor then some (.done b furthest)
      else evalLoop fuel id item b furthest

end

end

/-- How a whole run ends, and how far it got. -/
inductive Result where
  | values (vs : List Value) (cursor furthest : Int)
  | error (e : Error) (cursor furthest : Int)
  | fault

def failureResult (input : Input) (kind : FailureKind) (payload : Payload)
    (cursor furthest : Int) : Result :=
  match position? input cursor furthest with
  | none => .fault
  | some position => .error (.failure (failureAt input kind payload position)) cursor furthest

/-- The result of a run from `start`, given the outcome of its main rule. -/
def Outcome.result (input : Input) (exact : Bool) (start : Int) : Outcome → Result
  | .done a furthest =>
    if a.failed || (exact && decide (a.cursor < input.size)) then
      failureResult input .mismatch .nil a.cursor furthest
    else .values a.output.reverse a.cursor furthest
  | .raised payload furthest => failureResult input .payload payload start furthest
  | .aborted e furthest => .error e start furthest
  | .fault => .fault

/-- Evaluates the main rule of grammar `id` on a whole input. -/
def evaluate (fuel : Nat) (family : Family) (input : Input) (config : Config) (id : Nat) :
    Option Result :=
  (evalItem family input fuel id (.rule config.main) (.start 0) 0).map
    (·.result input config.exact 0)

end PegMachine.Evaluator
