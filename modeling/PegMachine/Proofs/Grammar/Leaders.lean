import PegMachine.Proofs.Grammar.LeftRecursion

namespace PegMachine

namespace Expr

/-- The expression is a use of one of the rules. -/
def uses (names : List Bytes) : Expr → Bool
  | .rule name => names.contains name
  | _ => false

mutual

/-- The names that an expression may begin with, if the rules in `firm` all consume something. -/
def leaders (firm : List Bytes) : Expr → List Bytes
  | .rule name => [name]
  | .iterate _ item => leaders firm item
  | .choice items => leadersAny firm items
  | .sequence items => leadersInOrder firm items
  | .wrap _ items => leadersInOrder firm items
  | .hide items => leadersInOrder firm items
  | _ => []

def leadersAny (firm : List Bytes) : List Expr → List Bytes
  | [] => []
  | item :: items => leaders firm item ++ leadersAny firm items

def leadersInOrder (firm : List Bytes) : List Expr → List Bytes
  | [] => []
  | item :: items =>
    leaders firm item ++ if item.uses firm then [] else leadersInOrder firm items

end

end Expr

namespace Family

section

variable {family : Family} {id : Nat} {firm : List Bytes} {name : Bytes}

private theorem mem_leadersAny {items : List Expr} (h : ∃ item ∈ items, name ∈ item.leaders firm) :
    name ∈ Expr.leadersAny firm items := by
  obtain ⟨item, hm, hitem⟩ := h
  induction items with
  | nil => cases hm
  | cons first items ih =>
    rw [Expr.leadersAny, List.mem_append]
    rcases List.mem_cons.1 hm with rfl | hm
    · exact .inl hitem
    · exact .inr (ih hm)

/-- An item behind a rule that consumes something is not come to. -/
theorem mem_leadersInOrder (hfirm : ∀ name ∈ firm, ¬family.Nullable id (.rule name))
    {items : List Expr}
    (hitems : ∀ item ∈ items, family.Begins id (.rule name) item → name ∈ item.leaders firm)
    (h : family.BeginsInOrder id (.rule name) items) : name ∈ Expr.leadersInOrder firm items := by
  induction items with
  | nil => exact h.elim
  | cons item items ih =>
    obtain ⟨hitem, hrest⟩ := List.forall_mem_cons.1 hitems
    rw [Expr.leadersInOrder, List.mem_append]
    obtain h | ⟨hnullable, h⟩ := h
    · exact .inl (hitem h)
    · have hloose : item.uses firm = false := by
        cases item with
        | rule used =>
          rw [Expr.uses, List.contains_eq_mem, decide_eq_false_iff_not]
          exact fun hm => hfirm used hm hnullable
        | _ => rfl
      rw [hloose, if_neg Bool.false_ne_true]
      exact .inr (ih hrest h)

/-- The rules that an expression may begin with are among those collected. -/
theorem mem_leaders (hfirm : ∀ name ∈ firm, ¬family.Nullable id (.rule name)) {e : Expr}
    (h : family.Begins id (.rule name) e) : name ∈ e.leaders firm := by
  induction e using Expr.induction with
  | step e ih =>
    cases e with
    | rule used =>
      cases h
      exact List.mem_singleton.2 rfl
    | iterate kind item => exact ih item (List.mem_singleton.2 rfl) h
    | choice items =>
      obtain ⟨item, hm, hitem⟩ := beginsAny_iff.1 h
      exact mem_leadersAny ⟨item, hm, ih item hm hitem⟩
    | sequence items | wrap _ items | hide items => exact mem_leadersInOrder hfirm ih h
    | missing | literal | pattern | action | embed => cases h

end

section

variable {g : Grammar}

/-- A grammar that embeds none leads to no other. -/
theorem eq_zero_of_embeds
    (hlone : ∀ rule ∈ g.rules, ∀ inner main, .embed (some inner) main ∉ rule.2.parts) {inner : Nat}
    (h : Family.Embeds [g] 0 inner) : inner = 0 := by
  induction h with
  | refl => rfl
  | step _ hr he ih =>
    subst ih
    exact absurd he (hlone _ hr _ _)

/-- A list of the rules in which each begins only with rules before it ranks them. -/
theorem ranked_of_leaders {firm : List Bytes} (order : List Bytes)
    (hlone : ∀ rule ∈ g.rules, ∀ inner main, .embed (some inner) main ∉ rule.2.parts)
    (hfirm : ∀ name ∈ firm, ¬Family.Nullable [g] 0 (.rule name))
    (horder : ∀ rule ∈ g.rules, ∀ name ∈ rule.2.leaders firm,
      order.idxOf name < order.idxOf rule.1) :
    Family.Ranked [g] 0 fun target => order.idxOf target.2 := by
  intro inner hinner name body hbody ref target hbegins htarget
  obtain rfl := eq_zero_of_embeds hlone hinner
  have hrule := Grammar.mem_rules_of_rule? _ _ _ hbody
  cases ref with
  | rule lower =>
    cases htarget
    exact horder _ hrule lower (mem_leaders hfirm hbegins)
  | embed grammar main =>
    obtain ⟨use, hm, huse⟩ := mem_parts_of_begins hbegins
    obtain ⟨inner, rfl, -⟩ := Option.map_eq_some_iff.1 htarget
    cases use <;> cases huse
    exact absurd hm (hlone _ hrule inner main)

end

end Family

end PegMachine
