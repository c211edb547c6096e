import PegMachine.Machine.Run
import PegMachine.Notation.Builder

namespace PegMachine

/-- Evaluates a grammar of a family on an input with the default configuration. -/
def evaluate (fuel : Nat) (family : Family) (host : Machine.Host) (config : Machine.Config) (id : Nat)
    (input : Input) : Option (Answer (List Value)) :=
  (Machine.matchInput fuel family host config id input).map (·.ending.answer)

def noHost : Machine.Host := fun _ view => ⟨view.stack, view.settings, [], .fault⟩

/-- Reads a grammar. A text that is not of the notation gives an error and no grammar; flaws of
the rules are errors of the grammar. -/
def Grammar.read (fuel : Nat) (text : Bytes) : Option (Answer Grammar) :=
  (evaluate fuel [Notation.grammar] noHost {} 0 (.text text)).map fun
    | .value vs => Notation.define {} vs
    | .error e => .error e
    | .fault => .fault

end PegMachine
