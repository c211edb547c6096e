import PegMachine.Grammar.Basic
import PegMachine.Proofs.Expr.Parts

namespace PegMachine

namespace Expr

/-- An action that only writes, to the output or to the log. -/
def isRemark : Expr → Bool
  | .action (.insert _) | .action (.insertText _) | .action (.note ..) | .action .clear
  | .action (.log _) => true
  | _ => false

mutual

/-- The expression with sequences for what it wraps and hides, and without the remarks among the
items of its combinators. -/
def bare : Expr → Expr
  | .sequence items => .sequence (bareAll items)
  | .choice items => .choice (bareAll items)
  | .iterate kind item => .iterate kind (bare item)
  | .wrap _ items => .sequence (bareAll items)
  | .hide items => .sequence (bareAll items)
  | leaf => leaf

def bareAll : List Expr → List Expr
  | [] => []
  | item :: items => if item.isRemark then bareAll items else bare item :: bareAll items

end

/-- An expression without items. -/
def isLeaf : Expr → Bool
  | .sequence _ | .choice _ | .iterate .. | .wrap .. | .hide _ => false
  | _ => true

variable {e x item : Expr} {items : List Expr}

/-- Only a leaf is bared to that leaf. -/
theorem eq_of_bare_eq_leaf (h : e.bare = x) (hx : x.isLeaf = true) : e = x := by
  subst h
  cases e with
  | missing | literal | pattern | rule | embed | action => rfl
  | sequence | choice | iterate | wrap | hide => cases hx

/-- What is bared to a sequence groups items in a row. -/
theorem of_bare_eq_sequence (h : e.bare = .sequence items) :
    ∃ inner, bareAll inner = items ∧
      (e = .sequence inner ∨ (∃ name, e = .wrap name inner) ∨ e = .hide inner) := by
  cases e with
  | sequence inner =>
    cases h
    exact ⟨inner, rfl, .inl rfl⟩
  | wrap name inner =>
    cases h
    exact ⟨inner, rfl, .inr (.inl ⟨name, rfl⟩)⟩
  | hide inner =>
    cases h
    exact ⟨inner, rfl, .inr (.inr rfl)⟩
  | missing | literal | pattern | rule | choice | iterate | embed | action => cases h

theorem of_bare_eq_choice (h : e.bare = .choice items) :
    ∃ inner, bareAll inner = items ∧ e = .choice inner := by
  cases e with
  | choice inner =>
    cases h
    exact ⟨inner, rfl, rfl⟩
  | missing | literal | pattern | rule | sequence | iterate | wrap | hide | embed | action => cases h

theorem of_bare_eq_iterate {kind : Repetition} (h : e.bare = .iterate kind item) :
    ∃ inner, inner.bare = item ∧ e = .iterate kind inner := by
  cases e with
  | iterate kind inner =>
    cases h
    exact ⟨inner, rfl, rfl⟩
  | missing | literal | pattern | rule | sequence | choice | wrap | hide | embed | action => cases h

theorem bareAll_remark (h : item.isRemark = true) : bareAll (item :: items) = bareAll items := by
  rw [bareAll, if_pos h]

theorem bareAll_cons (h : item.isRemark = false) :
    bareAll (item :: items) = item.bare :: bareAll items := by
  rw [bareAll, if_neg (by simp [h])]

private theorem isRemark_bare (e : Expr) : e.bare.isRemark = e.isRemark := by
  cases e <;> rfl

/-- Items that are alike are so on their own. -/
theorem bareAll_singleton {item' : Expr} (h : item.bare = item'.bare) :
    bareAll [item] = bareAll [item'] := by
  have hremark : item.isRemark = item'.isRemark := by
    rw [← isRemark_bare item, h, isRemark_bare item']
  simp only [bareAll, hremark, h]

end Expr

namespace Grammar

/-- The rules of a grammar in their bare form. -/
def bareRules (g : Grammar) : List (Bytes × Expr) := g.rules.map fun rule => (rule.1, rule.2.bare)

variable {g g' : Grammar}

private theorem names_eq_of_bareRules (h : g.bareRules = g'.bareRules) : g.names = g'.names := by
  have hnames (g : Grammar) : g.names = g.bareRules.map (·.1) := by
    simp [names, bareRules]
  rw [hnames g, hnames g', h]

/-- What is wrong with a use of a rule shows in the names alone. -/
theorem undefined_eq_of_bareRules (h : g.bareRules = g'.bareRules) (name referrer : Bytes) :
    g.undefined name referrer = g'.undefined name referrer := by
  simp only [undefined, names_eq_of_bareRules h]

private theorem rule?_bare (g : Grammar) (name : Bytes) :
    (g.rule? name).map Expr.bare = g.bareRules.lookup name := by
  unfold rule? bareRules
  induction g.rules with
  | nil => rfl
  | cons rule rules ih =>
    rw [List.map_cons, List.lookup_cons, List.lookup_cons]
    cases hname : name == rule.1 with
    | true => rfl
    | false => exact ih

theorem rule?_eq_of_bareRules (h : g.bareRules = g'.bareRules) (name : Bytes) :
    (g.rule? name).map Expr.bare = (g'.rule? name).map Expr.bare := by
  rw [rule?_bare, rule?_bare, h]

theorem rule?_eq_none_of_bareRules (h : g.bareRules = g'.bareRules) {name : Bytes}
    (hnone : g.rule? name = none) : g'.rule? name = none := by
  have hname := rule?_eq_of_bareRules h name
  rw [hnone] at hname
  exact Option.map_eq_none_iff.1 hname.symm

/-- Grammars with the same bare rules have rules of the same names, and those rules are alike. -/
theorem exists_rule?_of_bareRules (h : g.bareRules = g'.bareRules) {name : Bytes} {body : Expr}
    (hbody : g.rule? name = some body) :
    ∃ body', g'.rule? name = some body' ∧ body.bare = body'.bare := by
  have hname := rule?_eq_of_bareRules h name
  rw [hbody] at hname
  obtain ⟨body', hbody', hbare⟩ := Option.map_eq_some_iff.1 hname.symm
  exact ⟨body', hbody', hbare.symm⟩

end Grammar

namespace Family

variable {family family' : Family}

theorem getElem?_of_bareRules (h : family.map Grammar.bareRules = family'.map Grammar.bareRules)
    (id : Nat) : (family[id]?).map Grammar.bareRules = (family'[id]?).map Grammar.bareRules := by
  have hid := congrArg (fun rules => rules[id]?) h
  simpa only [List.getElem?_map] using hid

theorem getElem?_eq_none_of_bareRules
    (h : family.map Grammar.bareRules = family'.map Grammar.bareRules) {id : Nat}
    (hnone : family[id]? = none) : family'[id]? = none := by
  have hid := getElem?_of_bareRules h id
  rw [hnone] at hid
  exact Option.map_eq_none_iff.1 hid.symm

theorem exists_getElem?_of_bareRules
    (h : family.map Grammar.bareRules = family'.map Grammar.bareRules) {id : Nat} {g : Grammar}
    (hg : family[id]? = some g) : ∃ g', family'[id]? = some g' ∧ g.bareRules = g'.bareRules := by
  have hid := getElem?_of_bareRules h id
  rw [hg] at hid
  obtain ⟨g', hg', hbare⟩ := Option.map_eq_some_iff.1 hid.symm
  exact ⟨g', hg', hbare.symm⟩

theorem grammarAt_of_bareRules (h : family.map Grammar.bareRules = family'.map Grammar.bareRules)
    (id : Nat) : (family.grammarAt id).bareRules = (family'.grammarAt id).bareRules := by
  unfold grammarAt
  cases hg : family[id]? with
  | none => rw [getElem?_eq_none_of_bareRules h hg]
  | some g =>
    obtain ⟨g', hg', hbare⟩ := exists_getElem?_of_bareRules h hg
    rw [hg']
    exact hbare

end Family

end PegMachine
