import PegMachine.Grammar.Check
import PegMachine.Machine.Step

namespace PegMachine.Machine

/-- Steps until the machine stops, at most `fuel` times. -/
def run (env : Env) : Nat → State → Option (State × Ending)
  | 0, _ => none
  | fuel + 1, s =>
    match step env s with
    | .next s => run env fuel s
    | .stop s ending => some (s, ending)

/-- The outcome of a match with the state in which the machine stopped. -/
structure Report where
  ending : Ending
  steps : Nat := 0
  furthest : Int := 0
  log : List Entry := []
  snapshots : List Snapshot := []

def Report.logText (wanted : Bool) (r : Report) : Bytes := r.log.flatMap (Entry.render wanted)

/-- The state in which a match of grammar `id` starts. -/
def initial (config : Config) (id : Nat) : State :=
  { run := Run.start id config.main config.exact config.terms 0 }

def environment (family : Family) (host : Host) (input : Input) : Env where
  family := family
  host := host
  input := input

/-- Matches an input with grammar `id`. The grammar is checked first, and its main rule has to be
defined. -/
def matchInput (fuel : Nat) (family : Family) (host : Host) (config : Config) (id : Nat)
    (input : Input) : Option Report :=
  let g := (family[id]?).getD {}
  match family.check id with
  | some e => some { ending := .error e 0 }
  | none =>
    match g.rule? config.main with
    | none => some { ending := .error (.undefined (g.undefined config.main [])) 0 }
    | some _ =>
      (run (environment family host input) fuel (initial config id)).map fun (s, ending) =>
        { ending := ending
          steps := s.steps
          furthest := s.run.furthest
          log := s.log.reverse
          snapshots := s.snapshots.reverse }

def Ending.answer : Ending → Answer (List Value)
  | .values vs _ => .value vs
  | .error e _ => .error e
  | .fault => .fault

end PegMachine.Machine
