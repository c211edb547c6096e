import PegMachine.Unicode.Case

namespace PegMachine.Regex

/-- Whether case is ignored, `^` and `$` look at lines, the dot matches newlines, and repetitions
prefer fewer rounds. The longest match is taken anyway, so the last one changes no match. -/
structure Flags where
  fold : Bool := false
  lines : Bool := false
  dotAll : Bool := false
  lazy : Bool := false
  deriving Repr, DecidableEq

namespace Flags

def apply (flags : Flags) (cls : CharClass) : CharClass :=
  if flags.fold then Unicode.caseClosure cls else cls

/-- A class or its opposite, as the flags ask for it. -/
def applySigned (flags : Flags) (cls : CharClass) (negated : Bool) : CharClass :=
  if negated then (flags.apply cls).complement else flags.apply cls

/-- The character that stands for all that differ from it only in case, if case is ignored. -/
def literal (flags : Flags) (c : Nat) : Nat :=
  if flags.fold then (Unicode.orbit c).head?.getD c else c

def members (flags : Flags) (c : Nat) : List Nat := if flags.fold then Unicode.orbit c else [c]

end Flags

end PegMachine.Regex
