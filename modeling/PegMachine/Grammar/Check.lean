import PegMachine.Grammar.Basic

namespace PegMachine.Family

/-- Where a check stands in a rule: the grammars looked at so far, the undefined names that were
reported for this rule, and the errors found, last first. -/
structure Progress where
  seen : List Nat
  reported : List Bytes
  errors : List Error

def joined? (errors : List Error) : Option Error :=
  if errors.isEmpty then none else some (.joined errors)

/-- Looks at a reference in the rule `referrer` of `g`. A name is reported once for each rule, and
`check` looks at an embedded grammar. -/
def checkReference (family : Family) (check : Nat → List Nat → Option Error × List Nat)
    (g : Grammar) (referrer : Bytes) (p : Progress) : Expr.Reference → Progress
  | .rule name =>
    if (g.rule? name).isSome || p.reported.contains name then p
    else
      { p with
        reported := name :: p.reported
        errors := .undefined (g.undefined name referrer) :: p.errors }
  | .embed none _ => p
  | .embed (some id) main =>
    match family[id]? with
    | none => p
    | some h =>
      let errors :=
        if (h.rule? main).isSome then p.errors
        else .undefined (h.undefined main referrer) :: p.errors
      let (found, seen) := check id p.seen
      { p with seen := seen, errors := found.toList ++ errors }

def checkRule (family : Family) (check : Nat → List Nat → Option Error × List Nat)
    (g : Grammar) (p : Progress) (rule : Bytes × Expr) : Progress :=
  rule.2.references.foldl (checkReference family check g rule.1) { p with reported := [] }

/-- Checks the grammar `id` and the grammars it embeds, except for those in `seen`. Every nested
check is of a grammar not seen before, so `fuel` is never used up when it exceeds their number. -/
def checkFrom (family : Family) : Nat → Nat → List Nat → Option Error × List Nat
  | 0, _, seen => (none, seen)
  | fuel + 1, id, seen =>
    if seen.contains id then (none, seen)
    else
      match family[id]? with
      | none => (none, seen)
      | some g =>
        let p := g.rules.foldl (checkRule family (checkFrom family fuel) g)
          { seen := id :: seen, reported := [], errors := (g.errors.map .shape).reverse }
        (joined? p.errors.reverse, p.seen)

/-- The errors of a grammar and of the grammars it embeds. -/
def check (family : Family) (id : Nat) : Option Error :=
  (checkFrom family (family.length + 1) id []).1

end PegMachine.Family
