import PegMachine.Proofs.Notation.Writable
import PegMachine.Proofs.Rewriting.Rows

namespace PegMachine

open Relation (ReflTransGen)

namespace Expr

/-- An expression with a group in it and the expression without this group. -/
inductive Flattens : Expr → Expr → Prop where
  | sequence {row : List Expr → Expr} {before inner after : List Expr} (hrow : Chain row) :
    Flattens (row (before ++ .sequence inner :: after)) (row (before ++ inner ++ after))
  | choice {before inner after : List Expr} :
    Flattens (.choice (before ++ .choice inner :: after)) (.choice (before ++ inner ++ after))
  | loneSequence {e : Expr} : Flattens (.sequence [e]) e
  | loneChoice {e : Expr} : Flattens (.choice [e]) e

variable {e e' : Expr}

private theorem leaves_ungroup {good : Expr → Prop} {row group : List Expr → Expr}
    {before inner after : List Expr} (hrow : Row row) (hgroup : Row group) :
    (row (before ++ group inner :: after)).Leaves good ↔
      (row (before ++ inner ++ after)).Leaves good := by
  simp [leaves_row hrow, leaves_row hgroup, or_imp, forall_and]

/-- Leaves stay when groups are taken away. -/
theorem Flattens.leaves_iff {good : Expr → Prop} (h : Flattens e e') :
    e.Leaves good ↔ e'.Leaves good := by
  cases h with
  | sequence hrow => exact leaves_ungroup (.chain hrow) (.chain .sequence)
  | choice => exact leaves_ungroup .choice .choice
  | loneSequence => exact (leaves_row (.chain .sequence)).trans List.forall_mem_singleton
  | loneChoice => exact (leaves_row .choice).trans List.forall_mem_singleton

theorem Flawless.items {row : List Expr → Expr} {items : List Expr} (h : (row items).Flawless)
    (hrow : Row row) : ∀ item ∈ items, item.Flawless := by
  intro item hm
  apply h.child
  rwa [children_row hrow]

private theorem flawless_ungroup {row group : List Expr → Expr} {before inner after : List Expr}
    (hrow : Row row) (hgroup : Row group)
    (he : (row (before ++ group inner :: after)).Flawless) :
    (row (before ++ inner ++ after)).Flawless := by
  have hitems := he.items hrow
  have hinner := (hitems (group inner) (by simp)).items hgroup
  apply compositional_flawless.row hrow he
  intro item hm
  simp only [List.mem_append, List.mem_cons] at hm hitems
  rcases hm with (hm | hm) | hm
  · exact hitems item (.inl hm)
  · exact hinner item hm
  · exact hitems item (.inr (.inr hm))

theorem Flattens.flawless (h : Flattens e e') (he : e.Flawless) : e'.Flawless := by
  cases h with
  | sequence hrow => exact flawless_ungroup (.chain hrow) (.chain .sequence) he
  | choice => exact flawless_ungroup .choice .choice he
  | loneSequence => exact he.items (.chain .sequence) e' (by simp)
  | loneChoice => exact he.items .choice e' (by simp)

/-- If any item can be replaced by its parts, all of them can, those that come before first. -/
theorem parts_rewritten {row : List Expr → Expr} {parts : Expr → List Expr}
    (hitem : ∀ before item after, ReflTransGen (Rewrites Flattens)
      (row (before ++ item :: after)) (row (before ++ parts item ++ after)))
    (before items : List Expr) : ReflTransGen (Rewrites Flattens) (row (before ++ items))
      (row (before ++ items.flatMap parts)) := by
  induction items generalizing before with
  | nil => exact .refl
  | cons item items ih =>
    rw [List.flatMap_cons, ← List.append_assoc]
    exact (hitem before item items).trans (ih (before ++ parts item))

private theorem sequenceItems_rewritten (before : List Expr) (item : Expr) (after : List Expr) :
    ReflTransGen (Rewrites Flattens) (.sequence (before ++ item :: after))
      (.sequence (before ++ item.sequenceItems ++ after)) := by
  unfold sequenceItems
  split
  · exact .single (.here (.sequence .sequence))
  · rw [List.append_assoc]
    exact .refl

private theorem choiceItems_rewritten (before : List Expr) (item : Expr) (after : List Expr) :
    ReflTransGen (Rewrites Flattens) (.choice (before ++ item :: after))
      (.choice (before ++ item.choiceItems ++ after)) := by
  unfold choiceItems
  split
  · exact .single (.here .choice)
  · rw [List.append_assoc]
    exact .refl

private theorem forall₂_flattenEach {R : Expr → Expr → Prop} {items : List Expr}
    (h : ∀ item ∈ items, R item item.flatten) : List.Forall₂ R items (flattenEach items) := by
  induction items with
  | nil => exact .nil
  | cons item items ih =>
    obtain ⟨hitem, hitems⟩ := List.forall_mem_cons.1 h
    exact .cons hitem (ih hitems)

/-- To flatten an expression as the notation does is to take groups away. -/
private theorem rewritten_flatten (e : Expr) : ReflTransGen (Rewrites Flattens) e e.flatten := by
  induction e using Expr.induction with
  | step e ih =>
    cases e with
    | missing | literal | pattern | rule | embed | action => exact .refl
    | sequence items =>
      have hitems := row_rewritten (.chain .sequence) [] (forall₂_flattenEach ih)
      exact hitems.trans (parts_rewritten sequenceItems_rewritten [] _)
    | choice items =>
      have hitems := row_rewritten .choice [] (forall₂_flattenEach ih)
      exact hitems.trans (parts_rewritten choiceItems_rewritten [] _)
    | wrap name items => exact row_rewritten (.chain (.wrap name)) [] (forall₂_flattenEach ih)
    | hide items => exact row_rewritten (.chain .hide) [] (forall₂_flattenEach ih)
    | iterate kind item =>
      have hitem := ih item (List.mem_singleton.2 rfl)
      exact hitem.lift (Expr.iterate kind) fun _ _ h => .iterate h

end Expr

namespace Grammar

private theorem keeps_flattens (g : Grammar) : g.Keeps Expr.Flattens where
  flawless _ _ h he := h.flawless he
  leaves _ _ h he := h.leaves_iff.1 he

/-- The grammar as it is after being written and read again. -/
def flatten (g : Grammar) : Grammar := .ofRules (g.rules.map fun rule => (rule.1, rule.2.flatten))

private theorem rewritten_flatten (g : Grammar) :
    Rewritten (fun _ => Expr.Flattens) g g.flatten := by
  refine ⟨_, rfl, ?_⟩
  rw [Rewrote, List.forall₂_map_right_iff, List.forall₂_same]
  intro rule _
  exact ⟨rfl, rule.2.rewritten_flatten⟩

end Grammar

private theorem Family.rewritten_flatten (family : Family) :
    family.Rewritten (fun _ => Expr.Flattens) (family.map Grammar.flatten) := by
  rw [Family.Rewritten, List.forall₂_map_right_iff, List.forall₂_same]
  intro g _
  exact g.rewritten_flatten

namespace Evaluator

open Machine

section

variable {family : Family} {input : Input} {id : Nat} {e e' : Expr}
  {before inner after : List Expr} {cursor furthest : Int} {j : Judgement}

private theorem inRow_group
    (hfamily : family.Actionless) (hinner : ∀ item ∈ inner, item.Actionless) :
    InRow family input id (before ++ .sequence inner :: after) cursor furthest j ↔
      InRow family input id (before ++ inner ++ after) cursor furthest j := by
  have hgroup : InRow family input id [.sequence inner] = InRow family input id inner := by
    funext cursor furthest j
    exact propext (inRow_singleton.trans (judges_sequence hfamily hinner))
  have hsplit : before ++ .sequence inner :: after = before ++ [.sequence inner] ++ after := by simp
  rw [hsplit]
  simp only [inRow_append, hgroup]

private theorem inTurn_group
    (hfamily : family.Actionless) (hinner : ∀ item ∈ inner, item.Actionless) :
    InTurn family input id (before ++ .choice inner :: after) cursor furthest j ↔
      InTurn family input id (before ++ inner ++ after) cursor furthest j := by
  have hgroup : InTurn family input id [.choice inner] = InTurn family input id inner := by
    funext cursor furthest j
    exact propext (inTurn_singleton.trans (judges_choice hfamily hinner))
  have hsplit : before ++ .choice inner :: after = before ++ [.choice inner] ++ after := by simp
  rw [hsplit]
  simp only [inTurn_append, hgroup]

private theorem refines_of_judges_iff (hfamily : family.Actionless) (he : e.Actionless)
    (he' : e'.Actionless) (h : ∀ cursor furthest j, Judges family input id e cursor furthest j ↔
      Judges family input id e' cursor furthest j) :
    Refines family input id e e' ∧ Refines family input id e' e := by
  constructor
  · exact refines_of_judges hfamily he fun cursor furthest j => (h cursor furthest j).1
  · exact refines_of_judges hfamily he' fun cursor furthest j => (h cursor furthest j).2

/-- With or without a group, an expression without actions has the same outcomes. -/
theorem refines_flattens (hfamily : family.Actionless) (h : Expr.Flattens e e')
    (he : e.Actionless) : Refines family input id e e' ∧ Refines family input id e' e := by
  have he' : e'.Actionless := h.leaves_iff.1 he
  cases h with
  | @sequence row before inner after hrow =>
    have hitems := (Expr.leaves_row (.chain hrow)).1 he
    have hitems' := (Expr.leaves_row (.chain hrow)).1 he'
    have hinner := (Expr.leaves_row (.chain .sequence)).1 (hitems (.sequence inner) (by simp))
    constructor
    · exact refines_chain hfamily hitems hrow fun _ _ _ => (inRow_group hfamily hinner).1
    · exact refines_chain hfamily hitems' hrow fun _ _ _ => (inRow_group hfamily hinner).2
  | @choice before inner after =>
    have hitems := (Expr.leaves_row .choice).1 he
    have hitems' := (Expr.leaves_row .choice).1 he'
    have hinner := (Expr.leaves_row .choice).1 (hitems (.choice inner) (by simp))
    have hjudges (cursor furthest : Int) (j : Judgement) :
        Judges family input id (.choice (before ++ .choice inner :: after)) cursor furthest j ↔
          Judges family input id (.choice (before ++ inner ++ after)) cursor furthest j := by
      rw [judges_choice hfamily hitems, judges_choice hfamily hitems', inTurn_group hfamily hinner]
    exact refines_of_judges_iff hfamily he he' hjudges
  | loneSequence =>
    apply refines_of_judges_iff hfamily he he'
    intro cursor furthest j
    exact (judges_sequence hfamily (by simpa using he')).trans inRow_singleton
  | loneChoice =>
    apply refines_of_judges_iff hfamily he he'
    intro cursor furthest j
    exact (judges_choice hfamily (by simpa using he')).trans inTurn_singleton

private theorem refines_flattened (hfamily : family.Actionless)
    (h : ReflTransGen (Expr.Rewrites Expr.Flattens) e e') (he : e.Actionless) :
    Refines family input id e e' ∧ Refines family input id e' e := by
  have hok := Expr.compositional_leaves fun x => ∀ a, x ≠ .action a
  have hkeep (e e' : Expr) (h : Expr.Flattens e e') (he : e.Actionless) : e'.Actionless :=
    h.leaves_iff.1 he
  have hback (e' e : Expr) (h : Expr.Flattens e e') (he' : e'.Actionless) : e.Actionless :=
    h.leaves_iff.2 he'
  constructor
  · apply refines_rewritten hok hkeep _ h he
    intro e e' h he
    exact (refines_flattens hfamily h he).1
  · apply refines_rewritten hok hback _ (Expr.rewrites_swap h) (hok.rewritten hkeep h he)
    intro e' e h he'
    exact (refines_flattens hfamily h (hback e' e h he')).2

end

end Evaluator

namespace Machine

open Evaluator

/-- Groups are of no account. Where groups are taken away from rules without actions, a match ends in
the same way, or does not end in both cases. So it does after the grammars were written, without
parentheses around such groups, and read again. -/
theorem match_flattened (family : Family) (host : Host) (config : Config) (id : Nat) (input : Input)
    (ending : Ending) (hl : config.limit ≤ 0) (hdefined : ∀ g ∈ family, g.Defined)
    (hclosed : family.Closed) (hcheck : ∀ id, family.check id = none)
    (hactions : ∀ id, ∀ rule ∈ (family.grammarAt id).rules, ∀ effect,
      .action effect ∉ rule.2.parts) :
    (∀ family', family.Rewritten (fun _ => Expr.Flattens) family' →
      (MatchEnds family host config id input ending ↔
        MatchEnds family' host config id input ending)) ∧
    (MatchEnds family host config id input ending ↔
      MatchEnds (family.map Grammar.flatten) host config id input ending) := by
  have hclean := Family.clean_of_checks hcheck hclosed
  have hproper (id : Nat) : Grammar.Proper (family.grammarAt id).rules :=
    (Family.defined_grammarAt hdefined id).proper (hclean id).errors_eq
  have hkeeps (id : Nat) := (family.grammarAt id).keeps_flattens
  have hless := Family.actionless_of_forall hactions
  have hall (family' : Family) (hfamily : family.Rewritten (fun _ => Expr.Flattens) family') :
      MatchEnds family host config id input ending ↔
        MatchEnds family' host config id input ending := by
    have hn := hfamily.namesakes hproper hkeeps
    have hless' : family'.Actionless := by
      apply Family.actionless_of_forall
      intro id rule' hr' effect hm
      obtain ⟨rule, hr, hx⟩ := hfamily.holds hproper hkeeps ⟨rule', hr', hm⟩ rfl
      exact hactions id rule hr effect hx
    apply matchEnds_rewritten hl hclean hproper (fun id rule hr host => hactions id rule hr _)
      hkeeps hfamily
    intro o
    constructor
    -- a body is compared with its replacement in the family that takes it over, one way and back
    · intro ho
      apply ho.transfer hn
      intro id name body body' hbody hbody'
      have hflattened := hfamily.bodies hproper hkeeps hbody hbody'
      exact (refines_flattened hless' hflattened (hless.rule? hbody)).1
    · intro ho
      apply ho.transfer hn.symm
      intro id name body' body hbody' hbody
      have hflattened := hfamily.bodies hproper hkeeps hbody hbody'
      exact (refines_flattened hless hflattened (hless.rule? hbody)).2
  exact ⟨hall, hall _ family.rewritten_flatten⟩

/-- Lists of letters in brackets, written with groups that are not needed. -/
def grouped : Family :=
  [.ofRules [("main", .wrap "list" [.sequence [.literal "[",
      .sequence [.iterate .zeroOrMore (.rule "item")], .hide [.sequence [.literal "]"]]]]),
    ("item", .choice [.choice [.literal "a", .literal "b"], .sequence [.rule "main"]])]]

/-- The same lists without the groups. -/
def ungrouped : Family :=
  [.ofRules [("main", .wrap "list" [.literal "[", .iterate .zeroOrMore (.rule "item"),
      .hide [.literal "]"]]),
    ("item", .choice [.literal "a", .literal "b", .rule "main"])]]

private theorem flattens_grouped : grouped.Rewritten (fun _ => Expr.Flattens) ungrouped := by
  have hwhole (loop : Expr) : Expr.Flattens
      (.wrap "list" [.sequence [.literal "[", .sequence [loop], .hide [.sequence [.literal "]"]]]])
      (.wrap "list" [.literal "[", .sequence [loop], .hide [.sequence [.literal "]"]]]) :=
    @Expr.Flattens.sequence _ [] _ [] (.wrap "list")
  have hloop (loop : Expr) : Expr.Flattens
      (.wrap "list" [.literal "[", .sequence [loop], .hide [.sequence [.literal "]"]]])
      (.wrap "list" [.literal "[", loop, .hide [.sequence [.literal "]"]]]) :=
    @Expr.Flattens.sequence _ [.literal "["] [loop] [.hide [.sequence [.literal "]"]]] (.wrap "list")
  have hclosing (loop : Expr) : Expr.Rewrites Expr.Flattens
      (.wrap "list" [.literal "[", loop, .hide [.sequence [.literal "]"]]])
      (.wrap "list" [.literal "[", loop, .hide [.literal "]"]]) :=
    @Expr.Rewrites.row _ _ [.literal "[", loop] [] _ _ (.chain (.wrap "list"))
      (.here (@Expr.Flattens.sequence _ [] _ [] .hide))
  have hletters : Expr.Flattens
      (.choice [.choice [.literal "a", .literal "b"], .sequence [.rule "main"]])
      (.choice [.literal "a", .literal "b", .sequence [.rule "main"]]) :=
    @Expr.Flattens.choice [] _ [.sequence [.rule "main"]]
  have hlone : Expr.Rewrites Expr.Flattens
      (.choice [.literal "a", .literal "b", .sequence [.rule "main"]])
      (.choice [.literal "a", .literal "b", .rule "main"]) :=
    @Expr.Rewrites.row _ _ [.literal "a", .literal "b"] [] _ _ .choice (.here .loneSequence)
  refine .cons ⟨_, rfl, .cons ⟨rfl, ?_⟩ (.cons ⟨rfl, ?_⟩ .nil)⟩ .nil
  · exact .head (.here (hwhole _)) (.head (.here (hloop _)) (.single (hclosing _)))
  · exact .head (.here hletters) (.single hlone)

/-- A list inside of a list. -/
theorem match_flattened_grouped :
    (∀ g ∈ grouped, g.Defined) ∧ grouped.Closed ∧ (∀ id, grouped.check id = none) ∧
    (∀ id, ∀ rule ∈ (grouped.grammarAt id).rules, ∀ effect, .action effect ∉ rule.2.parts) ∧
    grouped.Rewritten (fun _ => Expr.Flattens) ungrouped ∧
    ∃ ending, MatchEnds grouped Host.idle {} 0 (.text "[a[b]]")
        ending ∧
      MatchEnds ungrouped Host.idle {} 0 (.text "[a[b]]") ending ∧
      MatchEnds (grouped.map Grammar.flatten) Host.idle {} 0
        (.text "[a[b]]") ending := by
  have hdefined : ∀ g ∈ grouped, g.Defined := Grammar.defined_map [_]
  have hclosed : grouped.Closed := by decide
  have hcheck (id : Nat) : grouped.check id = none := by
    cases id <;> rfl
  have hlacks : grouped.lacks Expr.isAction = true := rfl
  have hactions : ∀ id, ∀ rule ∈ (grouped.grammarAt id).rules, ∀ effect,
      .action effect ∉ rule.2.parts := fun _ _ hr _ => Family.not_mem_of_lacks hlacks hr rfl
  have hends : ∃ ending, MatchEnds grouped Host.idle {} 0
      (.text "[a[b]]") ending := ⟨_, 120, _, rfl, rfl⟩
  obtain ⟨ending, hending⟩ := hends
  obtain ⟨hall, hread⟩ := match_flattened grouped Host.idle {} 0
    (.text "[a[b]]") ending (Int.le_refl 0) hdefined hclosed hcheck hactions
  exact ⟨hdefined, hclosed, hcheck, hactions, flattens_grouped, ending, hending,
    (hall ungrouped flattens_grouped).1 hending, hread.1 hending⟩

end Machine

end PegMachine
