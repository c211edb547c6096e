import PegMachine.Proofs.Grammar.Checked
import PegMachine.Proofs.Rewriting.Places

namespace PegMachine

open Relation (ReflTransGen)

namespace Grammar

/-- The expression stands somewhere in the grammar. -/
def Holds (g : Grammar) (x : Expr) : Prop := ∃ rule ∈ g.rules, x ∈ rule.2.parts

/-- Redexes are replaced by expressions with nothing wrong, whose leaves are leaves of the
grammar. -/
structure Keeps (redex : Expr → Expr → Prop) (g : Grammar) : Prop where
  flawless : ∀ e e', redex e e' → e.Flawless → e'.Flawless
  leaves : ∀ e e', redex e e' → e.Leaves g.Holds → e'.Leaves g.Holds

/-- The same names in the same order, for expressions that were rewritten. -/
def Rewrote (redex : Expr → Expr → Prop) (rules rules' : List (Bytes × Expr)) : Prop :=
  List.Forall₂ (fun rule rule' => rule'.1 = rule.1 ∧
    ReflTransGen (Expr.Rewrites redex) rule.2 rule'.2) rules rules'

/-- A grammar defined by the rules of another one, after some of their redexes were replaced. What
a redex is may depend on the grammar that it was written in. -/
def Rewritten (redex : Grammar → Expr → Expr → Prop) (g g' : Grammar) : Prop :=
  ∃ rules, g' = .ofRules rules ∧ Rewrote (redex g) g.rules rules

section

variable {redex : Expr → Expr → Prop} {rules rules' : List (Bytes × Expr)} {g g' : Grammar}

theorem Rewrote.names_eq (h : Rewrote redex rules rules') : rules'.map (·.1) = rules.map (·.1) := by
  induction h with
  | nil => rfl
  | cons hrule _ ih => rw [List.map_cons, List.map_cons, hrule.1, ih]

/-- A rewritten rule comes from the one with its name. -/
theorem Rewrote.origin (h : Rewrote redex rules rules') :
    ∀ rule' ∈ rules', ∃ rule ∈ rules, rule'.1 = rule.1 ∧
      ReflTransGen (Expr.Rewrites redex) rule.2 rule'.2 := by
  induction h with
  | nil => exact nofun
  | @cons rule rule' rules rules' hrule _ ih =>
    intro r hr
    rcases List.mem_cons.1 hr with rfl | hr
    · exact ⟨rule, .head _, hrule⟩
    · obtain ⟨origin, horigin, hrule⟩ := ih r hr
      exact ⟨origin, .tail _ horigin, hrule⟩

theorem Rewrote.lookup (h : Rewrote redex rules rules') (name : Bytes) :
    Option.Rel (ReflTransGen (Expr.Rewrites redex)) (rules.lookup name) (rules'.lookup name) := by
  induction h with
  | nil => exact .none
  | @cons rule rule' _ _ hrule _ ih =>
    rw [List.lookup_cons, List.lookup_cons, hrule.1]
    cases name == rule.1 with
    | true => exact .some hrule.2
    | false => exact ih

theorem Rewrote.proper (h : Rewrote redex rules rules') (hp : Proper rules)
    (hflawless : ∀ rule ∈ rules, ∀ e, ReflTransGen (Expr.Rewrites redex) rule.2 e → e.Flawless) :
    Proper rules' where
  distinct := by
    rw [h.names_eq]
    exact hp.distinct
  named rule' hr' := by
    obtain ⟨rule, hr, hname, -⟩ := h.origin rule' hr'
    rw [hname]
    exact hp.named rule hr
  flawless rule' hr' := by
    obtain ⟨rule, hr, -, hrewritten⟩ := h.origin rule' hr'
    exact hflawless rule hr _ hrewritten

/-- What is said about a rule that is not defined shows in the names alone. -/
theorem undefined_eq_of_names (h : g'.names = g.names) (name referrer : Bytes) :
    g'.undefined name referrer = g.undefined name referrer := by
  simp only [undefined, h]

theorem rule?_eq_none_of_names
    (h : g'.names = g.names) {name : Bytes} (hnone : g.rule? name = none) :
    g'.rule? name = none := by
  rw [rule?_eq_none] at hnone ⊢
  rwa [h]

theorem exists_rule?_of_names (h : g'.names = g.names) {name : Bytes}
    (hsome : (g.rule? name).isSome) : ∃ e, g'.rule? name = some e := by
  rw [← Option.ne_none_iff_exists']
  intro hnone
  rw [rule?_eq_none_of_names h.symm hnone] at hsome
  cases hsome

end

/-- The grammars made of proper rules have just the rewritten rules, without an error. -/
theorem Rewritten.rules {redex : Grammar → Expr → Expr → Prop} {g g' : Grammar}
    (h : Rewritten redex g g') (hp : Proper g.rules)
    (hflawless : ∀ rule ∈ g.rules, ∀ e,
      ReflTransGen (Expr.Rewrites (redex g)) rule.2 e → e.Flawless) :
    g'.errors = [] ∧ Rewrote (redex g) g.rules g'.rules := by
  obtain ⟨rules, rfl, hrules⟩ := h
  rw [ofRules_proper (hrules.proper hp hflawless)]
  exact ⟨rfl, hrules⟩

end Grammar

namespace Family

/-- The grammars of both families have the same rules by name. -/
structure Namesakes (family family' : Family) : Prop where
  length_eq : family'.length = family.length
  names_eq : ∀ id, (family'.grammarAt id).names = (family.grammarAt id).names

/-- A family whose grammars were rewritten. -/
def Rewritten (redex : Grammar → Expr → Expr → Prop) (family family' : Family) : Prop :=
  List.Forall₂ (Grammar.Rewritten redex) family family'

section

variable {family family' : Family}

theorem grammarAt_eq {g : Grammar} {id : Nat} (h : family[id]? = some g) :
    family.grammarAt id = g := by
  rw [grammarAt, h]
  rfl

theorem Namesakes.symm (h : Namesakes family family') : Namesakes family' family :=
  ⟨h.length_eq.symm, fun id => (h.names_eq id).symm⟩

theorem Namesakes.getElem? (h : Namesakes family family') {id : Nat} {g : Grammar}
    (hg : family[id]? = some g) : ∃ g', family'[id]? = some g' ∧ g'.names = g.names := by
  obtain ⟨hlt, -⟩ := List.getElem?_eq_some_iff.1 hg
  rw [← h.length_eq] at hlt
  have hg' := List.getElem?_eq_getElem hlt
  refine ⟨_, hg', ?_⟩
  rw [← grammarAt_eq hg, ← grammarAt_eq hg', h.names_eq]

theorem Namesakes.grammar?_eq_none (h : Namesakes family family') {id : Option Nat}
    (hid : family.grammar? id = none) : family'.grammar? id = none := by
  cases id with
  | none => rfl
  | some id =>
    have hnone : family[id]? = none := hid
    rw [List.getElem?_eq_none_iff, ← h.length_eq] at hnone
    exact List.getElem?_eq_none hnone

variable {redex : Grammar → Expr → Expr → Prop}

/-- Past the last grammar of both families there is the one without rules. -/
theorem Rewritten.grammarAt (h : Rewritten redex family family') (id : Nat) :
    Grammar.Rewritten redex (family.grammarAt id) (family'.grammarAt id) := by
  unfold Family.grammarAt
  by_cases hid : id < family.length
  · have hid' : id < family'.length := h.length_eq ▸ hid
    rw [List.getElem?_eq_getElem hid, List.getElem?_eq_getElem hid']
    exact h.get hid hid'
  · have hid' : ¬id < family'.length := h.length_eq ▸ hid
    rw [List.getElem?_eq_none (Nat.le_of_not_lt hid), List.getElem?_eq_none (Nat.le_of_not_lt hid')]
    exact ⟨[], rfl, .nil⟩

section

variable (hproper : ∀ id, Grammar.Proper (family.grammarAt id).rules)
  (hkeeps : ∀ id, (family.grammarAt id).Keeps (redex (family.grammarAt id)))
include hproper hkeeps

theorem Rewritten.rules (h : Rewritten redex family family') (id : Nat) :
    (family'.grammarAt id).errors = [] ∧ Grammar.Rewrote (redex (family.grammarAt id))
      (family.grammarAt id).rules (family'.grammarAt id).rules := by
  refine (h.grammarAt id).rules (hproper id) fun rule hr e hrewritten => ?_
  exact Expr.compositional_flawless.rewritten (hkeeps id).flawless hrewritten
    ((hproper id).flawless rule hr)

theorem Rewritten.namesakes (h : Rewritten redex family family') : Namesakes family family' where
  length_eq := h.length_eq.symm
  names_eq id := (h.rules hproper hkeeps id).2.names_eq

/-- Looking up a name finds the rewritten rule. -/
theorem Rewritten.rule? (h : Rewritten redex family family') (id : Nat) (name : Bytes) :
    Option.Rel (ReflTransGen (Expr.Rewrites (redex (family.grammarAt id))))
      ((family.grammarAt id).rule? name) ((family'.grammarAt id).rule? name) :=
  (h.rules hproper hkeeps id).2.lookup name

theorem Rewritten.bodies (h : Rewritten redex family family') {id : Nat} {name : Bytes}
    {body body' : Expr} (hbody : (family.grammarAt id).rule? name = some body)
    (hbody' : (family'.grammarAt id).rule? name = some body') :
    ReflTransGen (Expr.Rewrites (redex (family.grammarAt id))) body body' := by
  have hrule := h.rule? hproper hkeeps id name
  rw [hbody, hbody'] at hrule
  cases hrule with
  | some hrewritten => exact hrewritten

/-- The leaves of a rewritten grammar were in it before. -/
theorem Rewritten.holds (h : Rewritten redex family family') {id : Nat} {x : Expr}
    (hx : (family'.grammarAt id).Holds x) (hleaf : x.isLeaf = true) :
    (family.grammarAt id).Holds x := by
  obtain ⟨rule', hr', hx⟩ := hx
  obtain ⟨rule, hr, -, hrewritten⟩ := (h.rules hproper hkeeps id).2.origin rule' hr'
  have hleaves : rule.2.Leaves (family.grammarAt id).Holds := fun x hx _ => ⟨rule, hr, hx⟩
  exact (Expr.compositional_leaves _).rewritten (hkeeps id).leaves hrewritten hleaves x hx hleaf

/-- Nothing is wrong with rewritten grammars if nothing was wrong before. -/
theorem Rewritten.clean (h : Rewritten redex family family') (hclean : ∀ id, family.Clean id)
    (id : Nat) : family'.Clean id where
  errors_eq := (h.rules hproper hkeeps id).1
  rule rule' hr' name hm := by
    obtain ⟨rule, hr, hx⟩ := h.holds hproper hkeeps ⟨rule', hr', hm⟩ rfl
    have hnames := (h.namesakes hproper hkeeps).names_eq id
    exact Option.isSome_iff_exists.2
      (Grammar.exists_rule?_of_names hnames ((hclean id).rule rule hr name hx))
  embed rule' hr' inner main hm := by
    obtain ⟨rule, hr, hx⟩ := h.holds hproper hkeeps ⟨rule', hr', hm⟩ rfl
    obtain ⟨g, hg, hmain⟩ := (hclean id).embed rule hr inner main hx
    obtain ⟨g', hg', hnames⟩ := (h.namesakes hproper hkeeps).getElem? hg
    exact ⟨g', hg', Option.isSome_iff_exists.2 (Grammar.exists_rule?_of_names hnames hmain)⟩

end

end

end Family

end PegMachine
