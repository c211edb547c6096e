import PegMachine.Grammar.Basic
import PegMachine.Location
import PegMachine.Machine.Host
import PegMachine.Machine.Terms
import PegMachine.Machine.Trace

namespace PegMachine.Machine

/-- What stays the same while a machine runs. -/
structure Env where
  family : Family
  host : Host
  input : Input

/-- A run of one grammar of the family from a main rule. -/
structure Run where
  grammar : Nat
  main : Bytes
  exact : Bool
  terms : Terms
  stack : Stack
  furthest : Int

namespace Run

def start (grammar : Nat) (main : Bytes) (exact : Bool) (terms : Terms) (cursor : Int) : Run where
  grammar := grammar
  main := main
  exact := exact
  terms := terms
  stack := { frames := [Frame.enter .root cursor [.rule main]] }
  furthest := cursor

/-- Notes that something was tried at a cursor. -/
def reach (r : Run) (cursor : Int) : Run := { r with furthest := max r.furthest cursor }

/-- The offsets that a failure of the run reports: where it stands and the furthest attempt. -/
def position? (input : Input) (r : Run) : Option (Int × Int) :=
  match input.offset? r.stack.rootCursor, input.offset? r.furthest with
  | some offset, some furthest => some (offset, furthest)
  | _, _ => none

end Run

def failureAt (input : Input) (kind : FailureKind) (payload : Payload) (position : Int × Int) :
    Failure :=
  let location := locate input.source position.1
  { kind := kind
    offset := position.1
    line := location.line
    column := location.column
    payload := payload
    furthest := position.2 }

/-- The state of a machine. The callers wait for the run, the innermost of them first. Log and
snapshots come last first. -/
structure State where
  run : Run
  callers : List Run := []
  steps : Nat := 0
  log : List Entry := []
  snapshots : List Snapshot := []

namespace State

def withFrames (s : State) (frames : List Frame) : State :=
  { s with run := { s.run with stack := { s.run.stack with frames := frames } } }

/-- Notes an event, if the run is traced. -/
def trace (s : State) (e : Event) : State :=
  if s.run.terms.debug then
    let cursor := (s.run.stack.frames.head?.map Frame.cursor).getD 0
    let depth := s.run.stack.frames.length - 1
    { s with log := .event s.run.terms.colors s.steps cursor depth e :: s.log }
  else s

def grammar (env : Env) (s : State) : Grammar := (env.family[s.run.grammar]?).getD {}

def view (env : Env) (s : State) : View where
  stack := s.run.stack
  steps := s.steps
  input := env.input
  rules := (s.grammar env).names
  settings := s.run.terms.settings

end State

inductive Ending where
  | values (vs : List Value) (cursor : Int)
  | error (e : Error) (cursor : Int)
  | fault

inductive Progress where
  | next (s : State)
  | stop (s : State) (ending : Ending)

end PegMachine.Machine
