import Mathlib.Order.WellFoundedSet
import PegMachine.Proofs.Expr.Parts

namespace PegMachine

/-- The rule that a use in grammar `id` means, with its grammar. -/
def Expr.Reference.target? (id : Nat) : Expr.Reference → Option (Nat × Bytes)
  | .rule name => some (id, name)
  | .embed grammar main => grammar.map (·, main)

namespace Family

section

variable (family : Family)

/-- The rule that a grammar and a name stand for is there. -/
def Defines (target : Nat × Bytes) : Prop :=
  ((family.grammarAt target.1).rule? target.2).isSome

/-- Expressions of a grammar that may match and consume nothing. A lower bound that is absent is
negative. -/
inductive Nullable : Nat → Expr → Prop
  | literal {id} : Nullable id (.literal [])
  | pattern {id p text} (h : p.matchStart text = some 0) : Nullable id (.pattern p)
  | action {id a} : Nullable id (.action a)
  | not {id item} : Nullable id (.iterate .not item)
  | optional {id item} : Nullable id (.iterate .optional item)
  | zeroOrMore {id item} : Nullable id (.iterate .zeroOrMore item)
  | bounded {id min max item} (h : min ≤ 0) : Nullable id (.iterate (.bounded min max) item)
  | iterate {id kind item} (h : Nullable id item) : Nullable id (.iterate kind item)
  | sequence {id items} (h : ∀ item ∈ items, Nullable id item) : Nullable id (.sequence items)
  | wrap {id name items} (h : ∀ item ∈ items, Nullable id item) : Nullable id (.wrap name items)
  | hide {id items} (h : ∀ item ∈ items, Nullable id item) : Nullable id (.hide items)
  | choice {id items item} (hm : item ∈ items) (h : Nullable id item) : Nullable id (.choice items)
  | rule {id name body} (hr : (family.grammarAt id).rule? name = some body)
      (h : Nullable id body) : Nullable id (.rule name)
  | embed {id inner main body} (hr : (family.grammarAt inner).rule? main = some body)
      (h : Nullable inner body) : Nullable id (.embed (some inner) main)

mutual

/-- An expression of grammar `id` may come to a use of a rule with nothing consumed before. -/
def Begins (id : Nat) (ref : Expr.Reference) : Expr → Prop
  | .rule name => ref = .rule name
  | .embed grammar main => ref = .embed grammar main
  | .iterate _ item => Begins id ref item
  | .choice items => BeginsAny id ref items
  | .sequence items => BeginsInOrder id ref items
  | .wrap _ items => BeginsInOrder id ref items
  | .hide items => BeginsInOrder id ref items
  | .missing | .literal _ | .pattern _ | .action _ => False

def BeginsAny (id : Nat) (ref : Expr.Reference) : List Expr → Prop
  | [] => False
  | item :: items => Begins id ref item ∨ BeginsAny id ref items

/-- An item is come to with nothing consumed if all items before it are nullable. -/
def BeginsInOrder (id : Nat) (ref : Expr.Reference) : List Expr → Prop
  | [] => False
  | item :: items =>
    Begins id ref item ∨ family.Nullable id item ∧ BeginsInOrder id ref items

end

/-- A ranking decreases from each rule to the rules that it may begin with, in all grammars that
`id` leads to. -/
def Ranked {α : Type*} [Preorder α] (id : Nat) (rank : Nat × Bytes → α) : Prop :=
  ∀ inner, family.Embeds id inner → ∀ name body, (family.grammarAt inner).rule? name = some body →
    ∀ ref target, family.Begins inner ref body → ref.target? inner = some target →
      rank target < rank (inner, name)

end

section

variable {family : Family} {id : Nat} {ref : Expr.Reference}

theorem beginsAny_iff {items : List Expr} :
    family.BeginsAny id ref items ↔ ∃ item ∈ items, family.Begins id ref item := by
  induction items with
  | nil => simp [BeginsAny]
  | cons item items ih => simp [BeginsAny, ih]

private theorem exists_of_beginsInOrder
    {items : List Expr} (h : family.BeginsInOrder id ref items) :
    ∃ item ∈ items, family.Begins id ref item := by
  induction items with
  | nil => exact h.elim
  | cons item items ih =>
    obtain hitem | ⟨-, hitems⟩ := h
    · exact ⟨item, List.mem_cons_self, hitem⟩
    · obtain ⟨found, hm, hfound⟩ := ih hitems
      exact ⟨found, List.mem_cons_of_mem _ hm, hfound⟩

/-- What an expression begins with is one of its parts. -/
theorem mem_parts_of_begins {e : Expr} (h : family.Begins id ref e) :
    ∃ use ∈ e.parts, use.reference? = some ref := by
  induction e using Expr.induction with
  | step e ih =>
    have lift {child : Expr} (hc : child ∈ e.children) (hb : family.Begins id ref child) :
        ∃ use ∈ e.parts, use.reference? = some ref := by
      obtain ⟨use, hm, huse⟩ := ih child hc hb
      exact ⟨use, Expr.mem_parts_of_child e child use hc hm, huse⟩
    cases e with
    | rule name => exact ⟨_, Expr.mem_parts_self _ rfl, congrArg some h.symm⟩
    | embed grammar main => exact ⟨_, Expr.mem_parts_self _ rfl, congrArg some h.symm⟩
    | iterate kind item => exact lift (List.mem_singleton.2 rfl) h
    | choice items =>
      obtain ⟨item, hm, hitem⟩ := beginsAny_iff.1 h
      exact lift hm hitem
    | sequence items | wrap name items | hide items =>
      obtain ⟨item, hm, hitem⟩ := exists_of_beginsInOrder h
      exact lift hm hitem
    | missing | literal | pattern | action => exact h.elim

end

private theorem finite_defines (family : Family) : {target | family.Defines target}.Finite := by
  let listed := (List.range family.length).flatMap fun id => (family.grammarAt id).names.map (id, ·)
  refine (List.finite_toSet listed).subset ?_
  rintro ⟨id, name⟩ htarget
  obtain ⟨body, hbody⟩ := Option.isSome_iff_exists.1 htarget
  have hrule := Grammar.mem_rules_of_rule? _ _ _ hbody
  have hid : id < family.length := by
    by_contra hge
    have hempty : family.grammarAt id = {} := by
      simp [grammarAt, List.getElem?_eq_none (Nat.le_of_not_lt hge)]
    rw [hempty] at hrule
    cases hrule
  have hname : name ∈ (family.grammarAt id).names := List.mem_map.2 ⟨_, hrule, rfl⟩
  exact List.mem_flatMap.2 ⟨id, List.mem_range.2 hid, List.mem_map.2 ⟨name, hname, rfl⟩⟩

/-- What holds of a rule if it holds of all rules of lower rank holds of every rule, since there are
only finitely many. -/
theorem induction_rank {α : Type*} [Preorder α] (family : Family) (rank : Nat × Bytes → α)
    {P : Nat × Bytes → Prop}
    (step : ∀ target, (∀ lower, family.Defines lower → rank lower < rank target → P lower) →
      P target) (target : Nat × Bytes) : P target := by
  have horder : IsStrictOrder (Nat × Bytes) fun lower target => rank lower < rank target :=
    { irrefl := fun _ => lt_irrefl _
      trans := fun _ _ _ => lt_trans }
  have hfounded : Set.WellFoundedOn {target | family.Defines target}
      fun lower target => rank lower < rank target := (finite_defines family).wellFoundedOn
  refine step target fun lower hlower _ => ?_
  exact hfounded.induction hlower fun target _ ih => step target ih

end Family

end PegMachine
