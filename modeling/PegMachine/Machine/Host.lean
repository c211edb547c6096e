import PegMachine.Machine.Stack
import PegMachine.Settings

namespace PegMachine.Machine

/-- What a custom action gets to work with. The stack and the settings are live. -/
structure View where
  stack : Stack
  steps : Nat
  input : Input
  rules : List Bytes
  settings : Settings

/-- A record of the state of a run; the frames come bottom first. -/
structure Snapshot where
  steps : Nat
  size : Int
  source : Bytes
  main : Bytes
  exact : Bool
  rules : List Bytes
  frames : List Frame
  offset : Option Int

inductive Verdict where
  | done
  | failed (message : Bytes)
  | fault

/-- What a custom action leaves behind: the stack, the settings, the records it made, and how it
ended. -/
structure Reply where
  stack : Stack
  settings : Settings
  snapshots : List Snapshot
  verdict : Verdict

/-- The functions of a host by number. They are arbitrary, and always end. -/
abbrev Host := Nat → View → Reply

/-- The host whose functions do nothing. -/
def Host.idle : Host := fun _ view => ⟨view.stack, view.settings, [], .done⟩

end PegMachine.Machine
