import PegMachine.Machine.Host

namespace PegMachine.Host

open Machine

/-- A command. Depths count from the top frame down. -/
inductive Command where
  | record
  | pushRoot (delta : Int) (items : List Expr)
  | pushFrame (kind : Kind) (delta : Int) (items : List Expr) (failed : Bool) (matched : Int)
      (output : List Value)
  | pop
  | popAll
  | setCursor (depth : Int) (cursor : Int)
  | advance (depth : Int) (delta : Int)
  | syncRoot
  | setFailed (depth : Int) (failed : Bool)
  | setMatched (depth : Int) (matched : Int)
  | setPending (depth : Int) (items : List Expr)
  | setOutput (depth : Int) (output : List Value)
  | take (literal : Bytes)
  | error (message : Bytes)

abbrev Script := List Command

/-- A cursor moved by `delta`, as a 64-bit integer. -/
def moved (cursor delta : Int) : Int := Decimal.wrap (cursor + delta)

/-- A record of the state. There is none when the top cursor has no offset, or when the settings
for the main rule and the end of the input are gone. -/
def snapshot? (view : View) (stack : Stack) : Option Snapshot :=
  match view.settings.getText Settings.mainKey, view.settings.getBool Settings.exactKey with
  | .ok main, .ok exact =>
    let record : Option Int → Snapshot := fun offset =>
      { steps := view.steps
        size := view.input.size
        source := view.input.source
        main := main
        exact := exact
        rules := view.rules
        frames := stack.frames.reverse
        offset := offset }
    match stack.frames with
    | [] => some (record none)
    | top :: _ => (view.input.offset? top.cursor).map fun offset => record (some offset)
  | _, _ => none

/-- Tries a literal at the cursor of the top frame. -/
def take? (view : View) (literal : Bytes) (stack : Stack) : Option Stack :=
  match stack.peek? 0 with
  | none => none
  | some top =>
    match view.input.tryLiteral top.cursor literal with
    | .fault => none
    | .mismatch => some (stack.updateTop Frame.fail)
    | .success value next => some (stack.updateTop (·.succeed next [value]))

def emptied (stack : Stack) : Stack := { frames := [], popped := stack.rootCursor }

/-- Moves the bottom frame to the cursor of the top one. -/
def synced? (stack : Stack) : Option Stack :=
  match stack.frames.head?, stack.frames.getLast? with
  | some top, some bottom =>
    some { stack with frames := stack.frames.dropLast ++ [{ bottom with cursor := top.cursor }] }
  | _, _ => none

/-- The stack after a command that only changes the stack. -/
def Command.apply? (view : View) (stack : Stack) : Command → Option Stack
  | .record | .error _ => some stack
  | .pushRoot delta items =>
    (stack.peek? 0).map fun top => stack.push (Frame.enter .root (moved top.cursor delta) items)
  | .pushFrame kind delta items failed matched output =>
    (stack.peek? 0).map fun top =>
      stack.push
        { kind := kind
          start := 0
          cursor := moved top.cursor delta
          pending := items
          failed := failed
          matched := matched
          output := output.reverse }
  | .pop => (stack.pop?).map (·.2)
  | .popAll => some (emptied stack)
  | .setCursor depth cursor => stack.update? depth ({ · with cursor := cursor })
  | .advance depth delta =>
    stack.update? depth fun f => { f with cursor := moved f.cursor delta }
  | .syncRoot => synced? stack
  | .setFailed depth failed => stack.update? depth ({ · with failed := failed })
  | .setMatched depth matched => stack.update? depth ({ · with matched := matched })
  | .setPending depth items => stack.update? depth ({ · with pending := items })
  | .setOutput depth output => stack.update? depth ({ · with output := output.reverse })
  | .take literal => take? view literal stack

/-- Runs the commands one after the other; records come last first. A command that cannot be
carried out ends the script. -/
def Script.runFrom (view : View) (snapshots : List Snapshot) (stack : Stack) : Script → Reply
  | [] => ⟨stack, view.settings, snapshots.reverse, .done⟩
  | .error message :: _ => ⟨stack, view.settings, snapshots.reverse, .failed message⟩
  | .record :: commands =>
    match snapshot? view stack with
    | none => ⟨stack, view.settings, snapshots.reverse, .fault⟩
    | some snapshot => runFrom view (snapshot :: snapshots) stack commands
  | command :: commands =>
    match command.apply? view stack with
    | none => ⟨stack, view.settings, snapshots.reverse, .fault⟩
    | some stack => runFrom view snapshots stack commands

def Script.run (script : Script) (view : View) : Reply := Script.runFrom view [] view.stack script

/-- The host whose functions are the given scripts. -/
def ofScripts (scripts : Array Script) : Machine.Host := fun id view =>
  match scripts[id]? with
  | some script => script.run view
  | none => ⟨view.stack, view.settings, [], .fault⟩

end PegMachine.Host
