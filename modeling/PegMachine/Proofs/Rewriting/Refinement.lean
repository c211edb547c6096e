import PegMachine.Proofs.Evaluator.Matches
import PegMachine.Proofs.Rewriting.Grammars

namespace PegMachine.Evaluator

open Machine
open Relation (ReflTransGen)

section

variable {family : Family} {input : Input} {id : Nat} {e e' : Expr}

/-- Whatever comes of evaluating the first expression comes of the second one as well. -/
def Refines (family : Family) (input : Input) (id : Nat) (e e' : Expr) : Prop :=
  ∀ a furthest o, Evaluates family input id (.item e) a furthest o →
    Evaluates family input id (.item e') a furthest o

private theorem refines_items
    {stops : Activation → Bool} {items items' : List Expr} {a : Activation}
    {furthest : Int} {o : Outcome} (hitems : List.Forall₂ (Refines family input id) items items')
    (h : Evaluates family input id (.items stops items) a furthest o) :
    Evaluates family input id (.items stops items') a furthest o := by
  induction hitems generalizing a furthest with
  | nil => exact h
  | cons hitem _ ih =>
    cases h with
    | stopped hstop => exact .stopped hstop
    | cons hstop head tail => exact .cons hstop (hitem _ _ _ head) (ih tail)
    | halted hstop head ho => exact .halted hstop (hitem _ _ _ head) ho

private theorem refines_rounds {a : Activation} {furthest : Int} {o : Outcome}
    (hitem : Refines family input id e e')
    (h : Evaluates family input id (.rounds e) a furthest o) :
    Evaluates family input id (.rounds e') a furthest o := by
  generalize htask : Task.rounds e = task at h
  induction h with
  | last round hstop =>
    cases htask
    exact .last (hitem _ _ _ round) hstop
  | again round hstop _ _ ih =>
    cases htask
    exact .again (hitem _ _ _ round) hstop (ih hitem rfl)
  | broken round ho =>
    cases htask
    exact .broken (hitem _ _ _ round) ho
  | _ => cases htask

/-- A combinator refines to the one around items to which its own refine. -/
theorem refines_lift (h : Expr.Lift (Refines family input id) e e') :
    Refines family input id e e' := by
  intro a furthest o heval
  have hone {item item' : Expr} (h : Refines family input id item item') :
      List.Forall₂ (Refines family input id) [item] [item'] := .cons h .nil
  cases h with
  | leaf => exact heval
  | sequence hitems =>
    cases heval with
    | sequence inner => exact .sequence (refines_items hitems inner)
  | choice hitems =>
    cases heval with
    | choice inner => exact .choice (refines_items hitems inner)
  | wrap hitems =>
    cases heval with
    | wrap inner => exact .wrap (refines_items hitems inner)
  | hide hitems =>
    cases heval with
    | hide inner => exact .hide (refines_items hitems inner)
  | iterate hitem =>
    cases heval with
    | loop hquota inner => exact .loop hquota (refines_rounds hitem inner)
    | optional inner => exact .optional (refines_items (hone hitem) inner)
    | not inner => exact .not (refines_items (hone hitem) inner)
    | once inner => exact .once (refines_items (hone hitem) inner)

variable {redex : Expr → Expr → Prop} {ok : Expr → Prop}

/-- An expression refines to what it is rewritten to, if redexes do. -/
theorem refines_rewrites (hok : Expr.Compositional ok)
    (hredex : ∀ e e', redex e e' → ok e → Refines family input id e e')
    (h : Expr.Rewrites redex e e') (he : ok e) : Refines family input id e e' := by
  have hsame (items : List Expr) : List.Forall₂ (Refines family input id) items items :=
    List.forall₂_same.2 fun _ _ _ _ _ heval => heval
  induction h with
  | here h => exact hredex _ _ h he
  | @row row before after e e' hrow _ ih =>
    have hitem : ok e := by
      apply hok.child he
      rw [Expr.children_row hrow]
      simp
    have hitems := List.rel_append (hsame before) (.cons (ih hitem) (hsame after))
    exact refines_lift (.of_row hrow hitems)
  | iterate _ ih =>
    have hitem := hok.child he (List.mem_singleton.2 rfl)
    exact refines_lift (.iterate (ih hitem))

theorem refines_rewritten (hok : Expr.Compositional ok)
    (hkeep : ∀ e e', redex e e' → ok e → ok e')
    (hredex : ∀ e e', redex e e' → ok e → Refines family input id e e')
    (h : ReflTransGen (Expr.Rewrites redex) e e') (he : ok e) : Refines family input id e e' := by
  induction h with
  | refl => exact fun _ _ _ heval => heval
  | tail hrest hstep ih =>
    have hlast := refines_rewrites hok hredex hstep (hok.rewritten hkeep hrest he)
    exact fun a furthest o heval => hlast a furthest o (ih a furthest o heval)

end

section

variable {family family' : Family} {input : Input}

/-- Evaluation gives the same with the rules of another family to which its own rules refine
there. -/
theorem Evaluates.transfer (hn : family.Namesakes family')
    (hrules : ∀ id name body body', (family.grammarAt id).rule? name = some body →
      (family'.grammarAt id).rule? name = some body' → Refines family' input id body body')
    {id : Nat} {task : Task} {a : Activation} {furthest : Int} {o : Outcome}
    (h : Evaluates family input id task a furthest o) :
    Evaluates family' input id task a furthest o := by
  induction h with
  | missing => exact .missing
  | literal => exact .literal
  | pattern => exact .pattern
  | @undefined id _ _ name h =>
    have hnames := hn.names_eq id
    rw [← Grammar.undefined_eq_of_names hnames]
    exact .undefined (Grammar.rule?_eq_none_of_names hnames h)
  | @rule id _ _ name body _ h _ ih =>
    obtain ⟨body', hbody'⟩ :=
      Grammar.exists_rule?_of_names (hn.names_eq id) (Option.isSome_of_eq_some h)
    exact .rule hbody' (hrules id name body body' h hbody' _ _ _ ih)
  | sequence _ ih => exact .sequence ih
  | choice _ ih => exact .choice ih
  | wrap _ ih => exact .wrap ih
  | hide _ ih => exact .hide ih
  | loop hquota _ ih => exact .loop hquota ih
  | optional _ ih => exact .optional ih
  | not _ ih => exact .not ih
  | once _ ih => exact .once ih
  | action h => exact .action h
  | stranded h => exact .stranded (hn.grammar?_eq_none h)
  | @headless _ _ _ _ g main hg hm =>
    obtain ⟨g', hg', hnames⟩ := hn.getElem? hg
    rw [← Grammar.undefined_eq_of_names hnames]
    exact .headless hg' (Grammar.rule?_eq_none_of_names hnames hm)
  | @embed _ _ _ _ g main _ _ hg hm _ ih =>
    -- the run evaluates a reference to the main rule, which `ih` has already exchanged
    obtain ⟨g', hg', hnames⟩ := hn.getElem? hg
    obtain ⟨body', hbody'⟩ := Grammar.exists_rule?_of_names hnames (Option.isSome_of_eq_some hm)
    exact .embed hg' hbody' ih
  | nil => exact .nil
  | stopped h => exact .stopped h
  | cons h _ _ head tail => exact .cons h head tail
  | halted h _ ho head => exact .halted h head ho
  | last _ h round => exact .last round h
  | again _ h _ round more => exact .again round h more
  | broken _ ho round => exact .broken round ho

end

end PegMachine.Evaluator

namespace PegMachine.Machine

open Evaluator

/-- A match ends with one family as it does with another one in which main rules are evaluated
alike. -/
theorem matchEnds_of_evaluates {family family' : Family} {host : Host} {config : Config} {id : Nat}
    {input : Input} {ending : Ending} (hl : config.limit ≤ 0) (hn : family.Namesakes family')
    (hcheck : family.check id = none) (hcheck' : family'.check id = none)
    (hfree : family.CustomFree id) (hfree' : family'.CustomFree id)
    (heval : ∀ o, Evaluates family input id (.item (.rule config.main)) (.start 0) 0 o →
      Evaluates family' input id (.item (.rule config.main)) (.start 0) 0 o)
    (h : MatchEnds family host config id input ending) :
    MatchEnds family' host config id input ending := by
  have hnames := hn.names_eq id
  cases hmain : (family.grammarAt id).rule? config.main with
  | none =>
    obtain rfl := h.unique (matchEnds_undefined hcheck hmain)
    rw [← Grammar.undefined_eq_of_names hnames]
    exact matchEnds_undefined hcheck' (Grammar.rule?_eq_none_of_names hnames hmain)
  | some body =>
    have hmain := Option.isSome_of_eq_some hmain
    have hmain' := Option.isSome_iff_exists.2 (Grammar.exists_rule?_of_names hnames hmain)
    have hrun := (matchEnds_iff_run hcheck hmain).1 h
    obtain ⟨o, ho, hending⟩ := (run_iff_evaluates hl hfree).1 hrun
    apply (matchEnds_iff_run hcheck' hmain').2
    exact (run_iff_evaluates hl hfree').2 ⟨o, heval o ho, hending⟩

/-- Matches end alike with a family and with a rewritten one, if their main rules are evaluated
alike. -/
theorem matchEnds_rewritten {family family' : Family} {host : Host} {config : Config} {id : Nat}
    {input : Input} {ending : Ending} {redex : Grammar → Expr → Expr → Prop}
    (hl : config.limit ≤ 0) (hclean : ∀ id, family.Clean id)
    (hproper : ∀ id, Grammar.Proper (family.grammarAt id).rules)
    (hcustom : ∀ id, ∀ rule ∈ (family.grammarAt id).rules, ∀ host,
      .action (.custom host) ∉ rule.2.parts)
    (hkeeps : ∀ id, (family.grammarAt id).Keeps (redex (family.grammarAt id)))
    (hfamily : family.Rewritten redex family')
    (heval : ∀ o, Evaluates family input id (.item (.rule config.main)) (.start 0) 0 o ↔
      Evaluates family' input id (.item (.rule config.main)) (.start 0) 0 o) :
    MatchEnds family host config id input ending ↔
      MatchEnds family' host config id input ending := by
  have hn := hfamily.namesakes hproper hkeeps
  have hcheck := Family.check_of_clean hclean id
  have hcheck' := Family.check_of_clean (hfamily.clean hproper hkeeps hclean) id
  have hfree : family.CustomFree id := fun inner _ => hcustom inner
  have hfree' : family'.CustomFree id := by
    intro inner _ rule' hr' host hm
    obtain ⟨rule, hr, hx⟩ := hfamily.holds hproper hkeeps ⟨rule', hr', hm⟩ rfl
    exact hcustom inner rule hr host hx
  constructor
  · exact matchEnds_of_evaluates hl hn hcheck hcheck' hfree hfree' fun o => (heval o).1
  · exact matchEnds_of_evaluates hl hn.symm hcheck' hcheck hfree' hfree fun o => (heval o).2

end PegMachine.Machine
