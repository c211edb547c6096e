import Mathlib.Data.List.Forall2
import Mathlib.Logic.Relation
import PegMachine.Proofs.Expr.Bare
import PegMachine.Proofs.Grammar.Defined

namespace PegMachine.Expr

open Relation (ReflTransGen)

/-- Combinators of which all items have to match, one after the other. -/
inductive Chain : (List Expr → Expr) → Prop where
  | sequence : Chain .sequence
  | wrap (name : Bytes) : Chain (.wrap name)
  | hide : Chain .hide

/-- Combinators with a list of items. -/
inductive Row : (List Expr → Expr) → Prop where
  | chain {row : List Expr → Expr} (h : Chain row) : Row row
  | choice : Row .choice

/-- One redex of an expression is replaced. -/
inductive Rewrites (redex : Expr → Expr → Prop) : Expr → Expr → Prop where
  | here {e e' : Expr} (h : redex e e') : Rewrites redex e e'
  | row {row : List Expr → Expr} {before after : List Expr} {e e' : Expr} (hrow : Row row)
    (h : Rewrites redex e e') :
    Rewrites redex (row (before ++ e :: after)) (row (before ++ e' :: after))
  | iterate {kind : Repetition} {item item' : Expr} (h : Rewrites redex item item') :
    Rewrites redex (.iterate kind item) (.iterate kind item')

section

variable {redex : Expr → Expr → Prop} {row : List Expr → Expr} {e e' : Expr} {items : List Expr}

theorem children_row (hrow : Row row) (items : List Expr) : (row items).children = items := by
  cases hrow with
  | chain h => cases h <;> rfl
  | choice => rfl

private theorem isLeaf_row (hrow : Row row) (items : List Expr) : (row items).isLeaf = false := by
  cases hrow with
  | chain h => cases h <;> rfl
  | choice => rfl

/-- Rewriting can be taken back where its redexes are. -/
theorem Rewrites.swap (h : Rewrites redex e e') : Rewrites (fun e' e => redex e e') e' e := by
  induction h with
  | here h => exact .here h
  | row hrow _ ih => exact .row hrow ih
  | iterate _ ih => exact .iterate ih

theorem rewrites_swap (h : ReflTransGen (Rewrites redex) e e') :
    ReflTransGen (Rewrites fun e' e => redex e e') e' e := by
  induction h with
  | refl => exact .refl
  | tail _ hstep ih => exact .head hstep.swap ih

/-- Items of a combinator are rewritten one by one, those that come before first. -/
theorem row_rewritten {items' : List Expr} (hrow : Row row) (before : List Expr)
    (h : List.Forall₂ (ReflTransGen (Rewrites redex)) items items') :
    ReflTransGen (Rewrites redex) (row (before ++ items)) (row (before ++ items')) := by
  induction h generalizing before with
  | nil => exact .refl
  | @cons item item' items items' hitem _ ih =>
    have hfirst : ReflTransGen (Rewrites redex) (row (before ++ item :: items))
        (row (before ++ item' :: items)) :=
      hitem.lift (fun e => row (before ++ e :: items)) fun _ _ h => .row hrow h
    have hrest := ih (before ++ [item'])
    rw [List.append_assoc, List.append_assoc] at hrest
    exact hfirst.trans hrest

/-- A property that an expression has together with its items, and that does not hang on which items
these are. -/
structure Compositional (ok : Expr → Prop) : Prop where
  child : ∀ {e child}, ok e → child ∈ e.children → ok child
  row : ∀ {row items items'}, Row row → ok (row items) → (∀ item ∈ items', ok item) →
    ok (row items')
  iterate : ∀ {kind item item'}, ok (.iterate kind item) → ok item' → ok (.iterate kind item')

theorem Compositional.and {ok ok' : Expr → Prop} (h : Compositional ok) (h' : Compositional ok') :
    Compositional fun e => ok e ∧ ok' e where
  child he hc := ⟨h.child he.1 hc, h'.child he.2 hc⟩
  row hrow he hitems := ⟨h.row hrow he.1 fun item hm => (hitems item hm).1,
    h'.row hrow he.2 fun item hm => (hitems item hm).2⟩
  iterate he hitem := ⟨h.iterate he.1 hitem.1, h'.iterate he.2 hitem.2⟩

private theorem Compositional.rewrites {ok : Expr → Prop} (hok : Compositional ok)
    (hredex : ∀ e e', redex e e' → ok e → ok e') (h : Rewrites redex e e') (he : ok e) : ok e' := by
  induction h with
  | here h => exact hredex _ _ h he
  | @row row before after e e' hrow _ ih =>
    have hitems (item : Expr) (hm : item ∈ before ++ e :: after) : ok item := by
      apply hok.child he
      rw [children_row hrow]
      exact hm
    apply hok.row hrow he
    intro item hm
    rcases List.mem_append.1 hm with hm | hm
    · exact hitems item (List.mem_append_left _ hm)
    · rcases List.mem_cons.1 hm with rfl | hm
      · exact ih (hitems e (by simp))
      · exact hitems item (by simp [hm])
  | iterate _ ih => exact hok.iterate he (ih (hok.child he (List.mem_singleton.2 rfl)))

theorem Compositional.rewritten {ok : Expr → Prop} (hok : Compositional ok)
    (hredex : ∀ e e', redex e e' → ok e → ok e') (h : ReflTransGen (Rewrites redex) e e')
    (he : ok e) : ok e' := by
  induction h with
  | refl => exact he
  | tail _ hstep ih => exact hok.rewrites hredex hstep ih

end

section

theorem flawsAll_of_flawless {items : List Expr} (h : ∀ item ∈ items, item.Flawless) :
    flawsAll items = [] := by
  induction items with
  | nil => rfl
  | cons item items ih =>
    obtain ⟨hitem, hitems⟩ := List.forall_mem_cons.1 h
    rw [flawsAll, hitem.flaws_eq, ih hitems]
    rfl

theorem any_isMissing_of_flawless {items : List Expr} (h : ∀ item ∈ items, item.Flawless) :
    items.any isMissing = false := by
  rw [List.any_eq_false]
  intro item hm
  simp [(h item hm).present]

/-- Whether something is wrong with an expression shows in the expression alone and in its items. -/
theorem compositional_flawless : Compositional Flawless where
  child h hc := h.child hc
  row hrow h hitems := by
    have hany := any_isMissing_of_flawless hitems
    have hall := flawsAll_of_flawless hitems
    cases hrow with
    | chain hchain =>
      cases hchain with
      | sequence => exact ⟨rfl, by simp [flaws, hany, hall]⟩
      | wrap name =>
        have hname := (List.append_eq_nil_iff.1 h.flaws_eq).1
        refine ⟨rfl, ?_⟩
        rw [flaws, hname, hany, hall]
        rfl
      | hide => exact ⟨rfl, by simp [flaws, hany, hall]⟩
    | choice => exact ⟨rfl, by simp [flaws, hany, hall]⟩
  iterate h hitem := by
    have hflaws := h.flaws_eq
    simp only [flaws] at hflaws
    split at hflaws
    · cases hflaws
    · have hbounds := (List.append_eq_nil_iff.1 hflaws).1
      refine ⟨rfl, ?_⟩
      simp only [flaws, hitem.present, hitem.flaws_eq, List.append_nil]
      exact hbounds

/-- The leaves of an expression have a property. -/
def Leaves (good : Expr → Prop) (e : Expr) : Prop := ∀ x ∈ e.parts, x.isLeaf = true → good x

theorem leaves_of_items {good : Expr → Prop} {e : Expr} (he : e.isLeaf = false)
    (h : ∀ item ∈ e.children, item.Leaves good) : e.Leaves good := by
  intro x hx hleaf
  rcases mem_parts_cases hx with rfl | ⟨child, hc, hx⟩
  · rw [he] at hleaf
    cases hleaf
  · exact h child hc x hx hleaf

theorem Leaves.child {good : Expr → Prop} {e child : Expr} (h : e.Leaves good)
    (hc : child ∈ e.children) : child.Leaves good :=
  fun x hx hleaf => h x (mem_parts_of_child _ _ x hc hx) hleaf

theorem leaves_row {good : Expr → Prop} {row : List Expr → Expr} (hrow : Row row)
    {items : List Expr} : (row items).Leaves good ↔ ∀ item ∈ items, item.Leaves good := by
  constructor
  · intro h item hm
    apply h.child
    rwa [children_row hrow]
  · intro h
    have hitems : ∀ item ∈ (row items).children, item.Leaves good := by
      rwa [children_row hrow]
    exact leaves_of_items (isLeaf_row hrow items) hitems

theorem compositional_leaves (good : Expr → Prop) : Compositional (Leaves good) where
  child h hc := h.child hc
  row hrow _ hitems := (leaves_row hrow).2 hitems
  iterate {kind item item'} _ hitem := by
    have hitems : ∀ item ∈ (Expr.iterate kind item').children, item.Leaves good := by
      intro item hm
      obtain rfl := List.mem_singleton.1 hm
      exact hitem
    exact leaves_of_items rfl hitems

end

/-- Two expressions are the same leaf, or the same combinator around items that are related. -/
inductive Lift (R : Expr → Expr → Prop) : Expr → Expr → Prop where
  | leaf {e : Expr} (h : e.isLeaf = true) : Lift R e e
  | sequence {items items' : List Expr} (h : List.Forall₂ R items items') :
    Lift R (.sequence items) (.sequence items')
  | choice {items items' : List Expr} (h : List.Forall₂ R items items') :
    Lift R (.choice items) (.choice items')
  | wrap {name : Bytes} {items items' : List Expr} (h : List.Forall₂ R items items') :
    Lift R (.wrap name items) (.wrap name items')
  | hide {items items' : List Expr} (h : List.Forall₂ R items items') :
    Lift R (.hide items) (.hide items')
  | iterate {kind : Repetition} {item item' : Expr} (h : R item item') :
    Lift R (.iterate kind item) (.iterate kind item')

section

variable {R : Expr → Expr → Prop} {items items' : List Expr} {e e' m : Expr}

theorem Lift.of_row {row : List Expr → Expr} (hrow : Row row) (h : List.Forall₂ R items items') :
    Lift R (row items) (row items') := by
  cases hrow with
  | chain hchain =>
    cases hchain with
    | sequence => exact .sequence h
    | wrap name => exact .wrap h
    | hide => exact .hide h
  | choice => exact .choice h

theorem Lift.refl (hR : ∀ e, R e e) (e : Expr) : Lift R e e := by
  have hitems (items : List Expr) : List.Forall₂ R items items :=
    List.forall₂_same.2 fun item _ => hR item
  cases e with
  | missing | literal | pattern | rule | embed | action => exact .leaf rfl
  | sequence items => exact .sequence (hitems items)
  | choice items => exact .choice (hitems items)
  | wrap name items => exact .wrap (hitems items)
  | hide items => exact .hide (hitems items)
  | iterate kind item => exact .iterate (hR item)

private theorem forall₂_trans (hR : ∀ a b c, R a b → R b c → R a c) {items'' : List Expr}
    (h : List.Forall₂ R items items') (h' : List.Forall₂ R items' items'') :
    List.Forall₂ R items items'' := by
  induction h generalizing items'' with
  | nil => exact h'
  | cons hitem _ ih =>
    cases h' with
    | cons hitem' hrest => exact .cons (hR _ _ _ hitem hitem') (ih hrest)

theorem Lift.trans (hR : ∀ a b c, R a b → R b c → R a c) (h : Lift R e m) (h' : Lift R m e') :
    Lift R e e' := by
  cases h with
  | leaf _ => exact h'
  | sequence h =>
    cases h' with
    | leaf hleaf => cases hleaf
    | sequence h' => exact .sequence (forall₂_trans hR h h')
  | choice h =>
    cases h' with
    | leaf hleaf => cases hleaf
    | choice h' => exact .choice (forall₂_trans hR h h')
  | wrap h =>
    cases h' with
    | leaf hleaf => cases hleaf
    | wrap h' => exact .wrap (forall₂_trans hR h h')
  | hide h =>
    cases h' with
    | leaf hleaf => cases hleaf
    | hide h' => exact .hide (forall₂_trans hR h h')
  | iterate h =>
    cases h' with
    | leaf hleaf => cases hleaf
    | iterate h' => exact .iterate (hR _ _ _ h h')

theorem Lift.and {p : Expr → Prop} (h : Lift R e e') (hp : ∀ child ∈ e.children, p child) :
    Lift (fun x y => p x ∧ R x y) e e' := by
  have hitems {xs ys : List Expr} (hxs : ∀ x ∈ xs, p x) (h : List.Forall₂ R xs ys) :
      List.Forall₂ (fun x y => p x ∧ R x y) xs ys := (List.forall₂_and_left xs ys).2 ⟨hxs, h⟩
  cases h with
  | leaf h => exact .leaf h
  | sequence h => exact .sequence (hitems hp h)
  | choice h => exact .choice (hitems hp h)
  | wrap h => exact .wrap (hitems hp h)
  | hide h => exact .hide (hitems hp h)
  | iterate h => exact .iterate ⟨hp _ (.head _), h⟩

end

variable {redex : Expr → Expr → Prop} {e e' m : Expr}

/-- A rewriting inside of a combinator keeps the combinator. -/
theorem Rewrites.lift_or_redex (h : Rewrites redex e m) :
    redex e m ∨ Lift (ReflTransGen (Rewrites redex)) e m := by
  cases h with
  | here h => exact .inl h
  | @row row before after x x' hrow h =>
    right
    apply Lift.of_row hrow
    have hsame (items : List Expr) : List.Forall₂ (ReflTransGen (Rewrites redex)) items items :=
      List.forall₂_same.2 fun item _ => .refl
    exact List.rel_append (hsame before) (.cons (.single h) (hsame after))
  | iterate h => exact .inr (.iterate (.single h))

/-- Where only leaves are redexes, an expression is rewritten in its items, or at its head first. -/
theorem lift_or_redex (hleaf : ∀ e e', redex e e' → e.isLeaf = true)
    (h : ReflTransGen (Rewrites redex) e e') :
    Lift (ReflTransGen (Rewrites redex)) e e' ∨
      ∃ m, redex e m ∧ ReflTransGen (Rewrites redex) m e' := by
  induction h using ReflTransGen.head_induction_on with
  | refl => exact .inl (.refl (fun _ => .refl) e')
  | head hstep hrest ih =>
    rcases hstep.lift_or_redex with hredex | hlift
    · exact .inr ⟨_, hredex, hrest⟩
    · rcases ih with hrest | ⟨m, hredex, hm⟩
      · exact .inl (hlift.trans (fun _ _ _ h h' => h.trans h') hrest)
      · -- a leaf that a combinator was not rewritten to was there before
        cases hlift with
        | leaf _ => exact .inr ⟨m, hredex, hm⟩
        | sequence | choice | wrap | hide | iterate => cases hleaf _ _ hredex

end PegMachine.Expr
