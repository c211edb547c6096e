import PegMachine.Grammar.Basic

namespace PegMachine

namespace Expr

/-- All expressions inside of an expression, itself first. Missing ones are left out. -/
def parts (e : Expr) : List Expr := e.visit fun _ => true

def isAction : Expr → Bool
  | .action _ => true
  | _ => false

def isCustom : Expr → Bool
  | .action (.custom _) => true
  | _ => false

/-- The grammar that an expression embeds, if it names one. -/
def embedded? : Expr → Option Nat
  | .embed grammar _ => grammar
  | _ => none

private theorem sizeOf_child {e child : Expr} (h : child ∈ e.children) :
    sizeOf child < sizeOf e := by
  cases e with
  | sequence items | choice items | wrap name items | hide items =>
    have hitem : sizeOf child < sizeOf items := List.sizeOf_lt_of_mem h
    simp only [sequence.sizeOf_spec, choice.sizeOf_spec, wrap.sizeOf_spec, hide.sizeOf_spec]
    omega
  | iterate kind item =>
    obtain rfl := List.mem_singleton.1 h
    simp only [iterate.sizeOf_spec]
    omega
  | missing | literal | pattern | rule | embed | action => cases h

/-- What holds of an expression if it holds of its children holds of every expression. -/
theorem induction {P : Expr → Prop} (step : ∀ e, (∀ child ∈ e.children, P child) → P e) (e : Expr) :
    P e := by
  generalize hn : sizeOf e = n
  induction n using Nat.strongRecOn generalizing e with
  | ind n ih =>
    subst hn
    exact step e fun child hc => ih (sizeOf child) (sizeOf_child hc) child rfl

theorem mem_visitAll (enter : Expr → Bool) (items : List Expr) (x : Expr) :
    x ∈ visitAll enter items ↔ ∃ item ∈ items, x ∈ visit enter item := by
  induction items with
  | nil => simp [visitAll]
  | cons item items ih => simp [visitAll, ih]

theorem mem_parts_self (e : Expr) (h : e.isMissing = false) : e ∈ e.parts := by
  cases e <;> simp [parts, visit, isMissing] at h ⊢

/-- The parts of a child are parts of its parent. -/
theorem mem_parts_of_child (e child x : Expr) (hc : child ∈ e.children) (hx : x ∈ child.parts) :
    x ∈ e.parts := by
  cases e with
  | sequence items =>
    simp only [parts, visit, if_true, List.mem_cons]
    exact Or.inr ((mem_visitAll _ _ _).2 ⟨child, hc, hx⟩)
  | choice items =>
    simp only [parts, visit, if_true, List.mem_cons]
    exact Or.inr ((mem_visitAll _ _ _).2 ⟨child, hc, hx⟩)
  | iterate kind item =>
    obtain rfl : child = item := by simpa [children] using hc
    simp only [parts, visit, if_true, List.mem_cons]
    exact Or.inr hx
  | wrap name items =>
    simp only [parts, visit, if_true, List.mem_cons]
    exact Or.inr ((mem_visitAll _ _ _).2 ⟨child, hc, hx⟩)
  | hide items =>
    simp only [parts, visit, if_true, List.mem_cons]
    exact Or.inr ((mem_visitAll _ _ _).2 ⟨child, hc, hx⟩)
  | missing | literal | pattern | rule | embed | action => simp [children] at hc

/-- The parts of an expression are itself and the parts of its children. -/
theorem mem_parts_cases {e x : Expr} (h : x ∈ e.parts) :
    x = e ∨ ∃ child ∈ e.children, x ∈ child.parts := by
  cases e with
  | sequence items | choice items | wrap name items | hide items =>
    simp only [parts, visit, if_true, List.mem_cons] at h
    exact h.imp_right (mem_visitAll _ _ _).1
  | iterate kind item =>
    simp only [parts, visit, if_true, List.mem_cons] at h
    exact h.imp_right fun hx => ⟨item, List.mem_singleton.2 rfl, hx⟩
  | missing => cases h
  | literal | pattern | rule | embed | action => exact .inl (List.mem_singleton.1 h)

/-- A use of a rule is a reference of the expression around it. -/
theorem mem_references (e x : Expr) (ref : Reference) (hx : x ∈ e.parts)
    (hr : x.reference? = some ref) : ref ∈ e.references :=
  List.mem_filterMap.2 ⟨x, hx, hr⟩

end Expr

namespace Grammar

/-- The rule that a look-up finds is one of the grammar's. -/
theorem mem_rules_of_rule? (g : Grammar) (name : Bytes) (e : Expr) (h : g.rule? name = some e) :
    (name, e) ∈ g.rules := by
  obtain ⟨before, after, hsplit, -⟩ := List.lookup_eq_some_iff.1 h
  rw [hsplit]
  simp

end Grammar

namespace Family

/-- The grammar with a number; there is an empty one past the last. -/
def grammarAt (family : Family) (id : Nat) : Grammar := (family[id]?).getD {}

/-- The grammars that grammar `id` leads to: itself, and those that their rules embed. -/
inductive Embeds (family : Family) (id : Nat) : Nat → Prop
  | refl : Embeds family id id
  | step {inner outer : Nat} {main : Bytes} {rule : Bytes × Expr} (h : Embeds family id outer)
      (hr : rule ∈ (family.grammarAt outer).rules) (he : .embed (some inner) main ∈ rule.2.parts) :
      Embeds family id inner

/-- Only the grammars of a family have rules. -/
theorem mem_of_mem_rules {family : Family} {id : Nat} {rule : Bytes × Expr}
    (h : rule ∈ (family.grammarAt id).rules) : family.grammarAt id ∈ family := by
  unfold grammarAt at h ⊢
  cases hg : family[id]? with
  | none =>
    rw [hg] at h
    cases h
  | some g => exact List.mem_of_getElem? hg

theorem Embeds.trans {family : Family} {id outer inner : Nat} (h : family.Embeds id outer)
    (h' : family.Embeds outer inner) : family.Embeds id inner := by
  induction h' with
  | refl => exact h
  | step _ hr he ih => exact .step ih hr he

/-- No grammar that `id` leads to has a custom action. -/
def CustomFree (family : Family) (id : Nat) : Prop :=
  ∀ inner, family.Embeds id inner → ∀ rule ∈ (family.grammarAt inner).rules,
    ∀ host, .action (.custom host) ∉ rule.2.parts

/-- Whether no rule of the family has a part of some kind. -/
def lacks (family : Family) (kind : Expr → Bool) : Bool :=
  family.all fun g => g.rules.all fun rule => rule.2.parts.all (!kind ·)

theorem not_mem_of_lacks {family : Family} {kind : Expr → Bool} (h : family.lacks kind = true)
    {id : Nat} {rule : Bytes × Expr} (hr : rule ∈ (family.grammarAt id).rules) {e : Expr}
    (he : kind e = true) : e ∉ rule.2.parts := by
  intro hm
  have hg := List.all_eq_true.1 h _ (mem_of_mem_rules hr)
  have hrule := List.all_eq_true.1 hg rule hr
  have hpart := List.all_eq_true.1 hrule e hm
  simp [he] at hpart

theorem customFree_of_lacks {family : Family} (h : family.lacks Expr.isCustom = true) (id : Nat) :
    family.CustomFree id := by
  intro inner _ rule hr host
  exact not_mem_of_lacks h hr rfl

end Family

end PegMachine
