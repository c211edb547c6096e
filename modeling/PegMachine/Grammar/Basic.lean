import PegMachine.Error
import PegMachine.Expr.Shape

namespace PegMachine

/-- Rules in the order they were defined, and the flaws of their definitions. -/
structure Grammar where
  rules : List (Bytes × Expr) := []
  errors : List ShapeError := []
  deriving Inhabited

namespace Grammar

def rule? (g : Grammar) (name : Bytes) : Option Expr := g.rules.lookup name

def names (g : Grammar) : List Bytes := g.rules.map (·.1)

def report (g : Grammar) (rule text : Bytes) : Grammar :=
  { g with errors := g.errors ++ [⟨rule, text⟩] }

/-- Defines a rule. A rule without a name or an expression and a rule defined before are turned
down; the flaws of an expression are noted, and the rule is defined all the same. -/
def define (g : Grammar) (name : Bytes) (e : Expr) : Grammar :=
  if name.isEmpty then g.report [] "rule name can't be empty"
  else if (g.rule? name).isSome then g.report name ("can't redefine rule `" ++ name ++ "`")
  else if e.isMissing then g.report name "rule has no expression"
  else
    { rules := g.rules ++ [(name, e)]
      errors := g.errors ++ e.flaws.map fun flaw => ⟨name, flaw.message⟩ }

def ofRules (rules : List (Bytes × Expr)) : Grammar :=
  rules.foldl (fun g rule => g.define rule.1 rule.2) {}

/-- What is wrong with a use of a rule that is not defined. -/
def undefined (g : Grammar) (name referrer : Bytes) : ResolutionError :=
  ⟨name, referrer, .among g.names⟩

def error? (g : Grammar) : Option Error := g.errors.head?.map .shape

def renderRule (rule : Bytes × Expr) : Bytes := rule.1 ++ " <- " ++ rule.2.render

/-- The grammar as the notation writes it, one rule a line. -/
def render (g : Grammar) : Bytes := Bytes.join Bytes.newline (g.rules.map renderRule)

def ruleOutline (rule : Bytes × Expr) : Outline Expr.Role :=
  .node (Expr.headingWith "Definition" rule.1) [rule.2.outline]

def pretty (g : Grammar) : Bytes :=
  Bytes.join Bytes.newline (g.rules.map fun rule => (ruleOutline rule).render fun _ text => text)

end Grammar

/-- Grammars that may embed one another; each is known by its place in the list. -/
abbrev Family := List Grammar

namespace Family

/-- The grammar that an embedding names, if it names one. -/
def grammar? (family : Family) (id : Option Nat) : Option Grammar := id.bind (family[·]?)

end Family

end PegMachine
