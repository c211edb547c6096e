import PegMachine.Proofs.Rewriting.Refinement

namespace PegMachine

open Relation (ReflTransGen)

namespace Grammar

variable {g : Grammar} {e e' : Expr}

/-- A use of a rule and the expression of that rule. -/
def Unfolds (g : Grammar) (e e' : Expr) : Prop := ∃ name, e = .rule name ∧ g.rule? name = some e'

/-- The second expression is the first one with some of its references replaced. -/
abbrev Unfolded (g : Grammar) : Expr → Expr → Prop := ReflTransGen (Expr.Rewrites g.Unfolds)

private theorem keeps_unfolds (hp : Proper g.rules) : g.Keeps g.Unfolds where
  flawless := by
    rintro _ e' ⟨name, rfl, hrule⟩ _
    exact hp.flawless _ (mem_rules_of_rule? g name e' hrule)
  leaves := by
    rintro _ e' ⟨name, rfl, hrule⟩ _ x hx _
    exact ⟨_, mem_rules_of_rule? g name e' hrule, hx⟩

/-- A reference may have been replaced; all else is what it was, around items that may have been. -/
theorem Unfolded.cases (h : g.Unfolded e e') :
    Expr.Lift g.Unfolded e e' ∨
      ∃ name body, e = .rule name ∧ g.rule? name = some body ∧ g.Unfolded body e' := by
  have hleaf (e e' : Expr) (h : g.Unfolds e e') : e.isLeaf = true := by
    obtain ⟨name, rfl, -⟩ := h
    rfl
  rcases Expr.lift_or_redex hleaf h with hlift | ⟨body, ⟨name, rfl, hrule⟩, hrest⟩
  · exact .inl hlift
  · exact .inr ⟨name, body, rfl, hrule, hrest⟩

theorem Unfolded.lift (h : g.Unfolded e e') (hne : ∀ name, e ≠ .rule name) :
    Expr.Lift g.Unfolded e e' := by
  rcases h.cases with hlift | ⟨name, body, rfl, -, -⟩
  · exact hlift
  · exact absurd rfl (hne name)

private theorem Unfolded.eq_of_isLeaf (h : g.Unfolded e e') (hne : ∀ name, e ≠ .rule name)
    (hleaf : e.isLeaf = true) : e' = e := by
  cases h.lift hne with
  | leaf => rfl
  | sequence | choice | wrap | hide | iterate => cases hleaf

end Grammar

namespace Evaluator

open Machine

/-- The second task is the first one with some of its references replaced. -/
inductive Task.Unfolded (g : Grammar) : Task → Task → Prop where
  | item {e e' : Expr} (h : g.Unfolded e e') : Unfolded g (.item e) (.item e')
  | items {stops : Activation → Bool} {pending pending' : List Expr}
    (h : List.Forall₂ g.Unfolded pending pending') :
    Unfolded g (.items stops pending) (.items stops pending')
  | rounds {e e' : Expr} (h : g.Unfolded e e') : Unfolded g (.rounds e) (.rounds e')

/-- What comes of a task in one family comes of it with references replaced in the other. -/
def Follows (family family' : Family) (input : Input) (id : Nat) (task : Task) (a : Activation)
    (furthest : Int) (o : Outcome) : Prop :=
  ∀ task', task.Unfolded (family.grammarAt id) task' →
    Evaluates family' input id task' a furthest o

section

variable {family family' : Family} {input : Input} {id : Nat} {task : Task} {a b : Activation}
  {furthest furthest' : Int} {o : Outcome} {name : Bytes} {e item : Expr} {items : List Expr}
  {stops : Activation → Bool} {take? : Activation → Option Activation}

namespace Follows

/-- All leaves but references stay as they are. -/
theorem leaf (hne : ∀ name, e ≠ .rule name) (hleaf : e.isLeaf = true)
    (h : Evaluates family' input id (.item e) a furthest o) :
    Follows family family' input id (.item e) a furthest o := by
  rintro _ (⟨he⟩ | _ | _)
  rwa [he.eq_of_isLeaf hne hleaf]

theorem undefined (hn : family.Namesakes family') (h : (family.grammarAt id).rule? name = none) :
    Follows family family' input id (.item (.rule name)) a furthest
      (.aborted (.undefined ((family.grammarAt id).undefined name [])) furthest) := by
  rintro _ (⟨he⟩ | _ | _)
  rcases he.cases with hlift | ⟨name, body, hname, hbody, -⟩
  · cases hlift
    have hnames := hn.names_eq id
    rw [← Grammar.undefined_eq_of_names hnames]
    exact .undefined (Grammar.rule?_eq_none_of_names hnames h)
  · cases hname
    rw [h] at hbody
    cases hbody

theorem rule (hrules : ∀ id name, Option.Rel (family.grammarAt id).Unfolded
      ((family.grammarAt id).rule? name) ((family'.grammarAt id).rule? name))
    (h : (family.grammarAt id).rule? name = some e)
    (ih : Follows family family' input id (.item e) a furthest o) :
    Follows family family' input id (.item (.rule name)) a furthest o := by
  rintro _ (⟨he⟩ | _ | _)
  rcases he.cases with hlift | ⟨name, body', hname, hbody, hrest⟩
  · -- the reference stays, and its rule may have been rewritten
    cases hlift
    have hrule := hrules id name
    rw [h] at hrule
    generalize hbody' : (family'.grammarAt id).rule? name = found at hrule
    cases hrule with
    | some hunfolded => exact .rule hbody' (ih _ (.item hunfolded))
  · cases hname
    rw [h] at hbody
    cases hbody
    exact ih _ (.item hrest)

theorem sequence (ih : Follows family family' input id (.items Activation.stopsSequence items)
      (.start a.cursor) furthest o) :
    Follows family family' input id (.item (.sequence items)) a furthest
      (o.into fun b => some (a.takeSequence b)) := by
  rintro _ (⟨he⟩ | _ | _)
  cases he.lift nofun with
  | leaf hleaf => cases hleaf
  | sequence hitems => exact .sequence (ih _ (.items hitems))

theorem choice (ih : Follows family family' input id (.items Activation.stopsChoice items)
      (.start a.cursor) furthest o) :
    Follows family family' input id (.item (.choice items)) a furthest
      (o.into fun b => some (a.takeChoice b)) := by
  rintro _ (⟨he⟩ | _ | _)
  cases he.lift nofun with
  | leaf hleaf => cases hleaf
  | choice hitems => exact .choice (ih _ (.items hitems))

theorem wrap (ih : Follows family family' input id (.items Activation.stopsSequence items)
      (.start a.cursor) furthest o) :
    Follows family family' input id (.item (.wrap name items)) a furthest
      (o.into (a.takeWrap? input name)) := by
  rintro _ (⟨he⟩ | _ | _)
  cases he.lift nofun with
  | leaf hleaf => cases hleaf
  | wrap hitems => exact .wrap (ih _ (.items hitems))

theorem hide (ih : Follows family family' input id (.items Activation.stopsSequence items)
      (.start a.cursor) furthest o) :
    Follows family family' input id (.item (.hide items)) a furthest
      (o.into fun b => some (a.takeHide b)) := by
  rintro _ (⟨he⟩ | _ | _)
  cases he.lift nofun with
  | leaf hleaf => cases hleaf
  | hide hitems => exact .hide (ih _ (.items hitems))

/-- A repetition of one kind goes on in the same way with another item. -/
theorem iterate {kind : Repetition} {inner : Expr → Task}
    (hinner : ∀ {item'}, (family.grammarAt id).Unfolded item item' →
      (inner item).Unfolded (family.grammarAt id) (inner item'))
    (ih : Follows family family' input id (inner item) (.start a.cursor) furthest o)
    (hmake : ∀ {item'}, Evaluates family' input id (inner item') (.start a.cursor) furthest o →
      Evaluates family' input id (.item (.iterate kind item')) a furthest (o.into take?)) :
    Follows family family' input id (.item (.iterate kind item)) a furthest (o.into take?) := by
  rintro _ (⟨he⟩ | _ | _)
  cases he.lift nofun with
  | leaf hleaf => cases hleaf
  | iterate hitem => exact hmake (ih _ (hinner hitem))

theorem embed {inner : Nat} {g : Grammar} {main : Bytes} {body : Expr}
    (hn : family.Namesakes family') (hg : family[inner]? = some g) (hm : g.rule? main = some body)
    (ih : Follows family family' input inner (.item (.rule main)) (.start a.cursor) a.cursor o) :
    Follows family family' input id (.item (.embed (some inner) main)) a furthest
      (o.intoCaller input a furthest) := by
  obtain ⟨g', hg', hnames⟩ := hn.getElem? hg
  obtain ⟨body', hm'⟩ := Grammar.exists_rule?_of_names hnames (Option.isSome_of_eq_some hm)
  exact .leaf nofun rfl (.embed hg' hm' (ih _ (.item .refl)))

theorem headless {inner : Nat} {g : Grammar} {main : Bytes} (hn : family.Namesakes family')
    (hg : family[inner]? = some g) (hm : g.rule? main = none) :
    Follows family family' input id (.item (.embed (some inner) main)) a furthest
      (.aborted (.undefined (g.undefined main [])) furthest) := by
  obtain ⟨g', hg', hnames⟩ := hn.getElem? hg
  rw [← Grammar.undefined_eq_of_names hnames]
  exact .leaf nofun rfl (.headless hg' (Grammar.rule?_eq_none_of_names hnames hm))

theorem cons (hstop : stops a = false)
    (head : Follows family family' input id (.item e) a furthest (.done b furthest'))
    (tail : Follows family family' input id (.items stops items) b furthest' o) :
    Follows family family' input id (.items stops (e :: items)) a furthest o := by
  rintro _ (_ | ⟨hitems⟩ | _)
  cases hitems with
  | cons hitem hrest => exact .cons hstop (head _ (.item hitem)) (tail _ (.items hrest))

theorem halted (hstop : stops a = false) (ho : o.isDone = false)
    (head : Follows family family' input id (.item e) a furthest o) :
    Follows family family' input id (.items stops (e :: items)) a furthest o := by
  rintro _ (_ | ⟨hitems⟩ | _)
  cases hitems with
  | cons hitem hrest => exact .halted hstop (head _ (.item hitem)) ho

end Follows

/-- What comes of a task comes of it with references replaced as well, in the rules, too. -/
theorem Evaluates.unfolded (hn : family.Namesakes family')
    (hrules : ∀ id name, Option.Rel (family.grammarAt id).Unfolded
      ((family.grammarAt id).rule? name) ((family'.grammarAt id).rule? name))
    (h : Evaluates family input id task a furthest o) :
    Follows family family' input id task a furthest o := by
  induction h with
  | missing => exact .leaf nofun rfl .missing
  | literal => exact .leaf nofun rfl .literal
  | pattern => exact .leaf nofun rfl .pattern
  | undefined h => exact .undefined hn h
  | rule h _ ih => exact .rule hrules h ih
  | sequence _ ih => exact .sequence ih
  | choice _ ih => exact .choice ih
  | wrap _ ih => exact .wrap ih
  | hide _ ih => exact .hide ih
  | loop hquota _ ih => exact .iterate .rounds ih (.loop hquota)
  | optional _ ih => exact .iterate (fun hitem => .items (.cons hitem .nil)) ih .optional
  | not _ ih => exact .iterate (fun hitem => .items (.cons hitem .nil)) ih .not
  | once _ ih => exact .iterate (fun hitem => .items (.cons hitem .nil)) ih .once
  | action hact => exact .leaf nofun rfl (.action hact)
  | stranded h => exact .leaf nofun rfl (.stranded (hn.grammar?_eq_none h))
  | headless hg hm => exact .headless hn hg hm
  | embed hg hm _ ih => exact .embed hn hg hm ih
  | nil =>
    rintro _ (_ | ⟨hitems⟩ | _)
    cases hitems
    exact .nil
  | stopped hstop =>
    rintro _ (_ | ⟨hitems⟩ | _)
    exact .stopped hstop
  | cons hstop _ _ head tail => exact .cons hstop head tail
  | halted hstop _ ho head => exact .halted hstop ho head
  | last _ hstop round =>
    rintro _ (_ | _ | ⟨hitem⟩)
    exact .last (round _ (.item hitem)) hstop
  | again _ hstop _ round more =>
    rintro _ (_ | _ | ⟨hitem⟩)
    exact .again (round _ (.item hitem)) hstop (more _ (.rounds hitem))
  | broken _ ho round =>
    rintro _ (_ | _ | ⟨hitem⟩)
    exact .broken (round _ (.item hitem)) ho

/-- Evaluation with references replaced gives nothing that it does not give without. -/
theorem Evaluates.folded (hn : family.Namesakes family')
    (hrules : ∀ id name, Option.Rel (family.grammarAt id).Unfolded
      ((family.grammarAt id).rule? name) ((family'.grammarAt id).rule? name))
    (h : Evaluates family' input id task a furthest o) :
    Evaluates family input id task a furthest o := by
  have hall : Expr.Compositional fun _ => True :=
    ⟨fun _ _ => trivial, fun _ _ _ => trivial, fun _ _ => trivial⟩
  apply h.transfer hn.symm
  intro id name body' body hbody' hbody
  have hrule := hrules id name
  rw [hbody, hbody'] at hrule
  cases hrule with
  | some hunfolded =>
    refine refines_rewritten hall (fun _ _ _ _ => trivial) ?_ (Expr.rewrites_swap hunfolded) trivial
    rintro e' _ ⟨name, rfl, hrule⟩ _ a furthest o heval
    exact .rule hrule heval

end

end Evaluator

namespace Machine

open Evaluator

/-- References are transparent. Where some of them are replaced by the expressions of their rules, a
match ends in the same way, or does not end in both cases. -/
theorem match_unfolded (family family' : Family) (host : Host) (config : Config) (id : Nat)
    (input : Input) (ending : Ending) (hl : config.limit ≤ 0) (hdefined : ∀ g ∈ family, g.Defined)
    (hclosed : family.Closed) (hcheck : ∀ id, family.check id = none)
    (hcustom : ∀ id, ∀ rule ∈ (family.grammarAt id).rules, ∀ host,
      .action (.custom host) ∉ rule.2.parts)
    (hfamily : family.Rewritten Grammar.Unfolds family') :
    MatchEnds family host config id input ending ↔
      MatchEnds family' host config id input ending := by
  have hclean := Family.clean_of_checks hcheck hclosed
  have hproper (id : Nat) : Grammar.Proper (family.grammarAt id).rules :=
    (Family.defined_grammarAt hdefined id).proper (hclean id).errors_eq
  have hkeeps (id : Nat) := Grammar.keeps_unfolds (hproper id)
  have hn := hfamily.namesakes hproper hkeeps
  have hrules := hfamily.rule? hproper hkeeps
  apply matchEnds_rewritten hl hclean hproper hcustom hkeeps hfamily
  intro o
  constructor
  · intro ho
    exact ho.unfolded hn hrules _ (.item .refl)
  · intro ho
    exact ho.folded hn hrules

/-- Lists of words in brackets. The note on the last item of a list is a rule of its own. -/
def referring : Family :=
  [.ofRules [("main", .sequence [.literal "[", .iterate .zeroOrMore (.rule "item"),
      .rule "mark", .literal "]"]),
    ("item", .choice [.wrap "word" [.literal "w", .rule "mark"], .rule "main"]),
    ("mark", .action (.note "seen" .nil))]]

/-- The same lists, with some of the references replaced, that of the repeated item among them. -/
def unfoldedReferring : Family :=
  [.ofRules [("main", .sequence [.literal "[", .iterate .zeroOrMore (.choice [.wrap "word"
        [.literal "w", .action (.note "seen" .nil)], .rule "main"]),
      .action (.note "seen" .nil), .literal "]"]),
    ("item", .choice [.wrap "word" [.literal "w", .rule "mark"], .rule "main"]),
    ("mark", .action (.note "seen" .nil))]]

private theorem unfolds_referring : referring.Rewritten Grammar.Unfolds unfoldedReferring := by
  have hitem : (referring.grammarAt 0).Unfolds (.rule "item")
      (.choice [.wrap "word" [.literal "w", .rule "mark"], .rule "main"]) := ⟨_, rfl, rfl⟩
  have hmark : (referring.grammarAt 0).Unfolds (.rule "mark") (.action (.note "seen" .nil)) :=
    ⟨_, rfl, rfl⟩
  have hword : Expr.Rewrites (referring.grammarAt 0).Unfolds
      (.wrap "word" [.literal "w", .rule "mark"])
      (.wrap "word" [.literal "w", .action (.note "seen" .nil)]) :=
    @Expr.Rewrites.row _ _ [.literal "w"] [] _ _ (.chain (.wrap "word")) (.here hmark)
  have hchoice : Expr.Rewrites (referring.grammarAt 0).Unfolds
      (.choice [.wrap "word" [.literal "w", .rule "mark"], .rule "main"])
      (.choice [.wrap "word" [.literal "w", .action (.note "seen" .nil)], .rule "main"]) :=
    @Expr.Rewrites.row _ _ [] [.rule "main"] _ _ .choice hword
  -- the repeated item is rewritten twice, as a reference and inside of the rule
  have hlist {item item' : Expr} (h : Expr.Rewrites (referring.grammarAt 0).Unfolds item item') :
      Expr.Rewrites (referring.grammarAt 0).Unfolds
        (.sequence [.literal "[", .iterate .zeroOrMore item, .rule "mark", .literal "]"])
        (.sequence [.literal "[", .iterate .zeroOrMore item', .rule "mark", .literal "]"]) :=
    @Expr.Rewrites.row _ _ [.literal "["] [.rule "mark", .literal "]"] _ _ (.chain .sequence)
      (.iterate h)
  have hlast (item : Expr) : Expr.Rewrites (referring.grammarAt 0).Unfolds
      (.sequence [.literal "[", item, .rule "mark", .literal "]"])
      (.sequence [.literal "[", item, .action (.note "seen" .nil), .literal "]"]) :=
    @Expr.Rewrites.row _ _ [.literal "[", item] [.literal "]"] _ _ (.chain .sequence) (.here hmark)
  have hmain := ReflTransGen.head (hlist (.here hitem)) (.head (hlist hchoice) (.single (hlast _)))
  exact .cons ⟨_, rfl, .cons ⟨rfl, hmain⟩ (.cons ⟨rfl, .refl⟩ (.cons ⟨rfl, .refl⟩ .nil))⟩ .nil

/-- A list inside of a list, with a note on the word and on each list. -/
theorem match_unfolded_referring :
    (∀ g ∈ referring, g.Defined) ∧ referring.Closed ∧ (∀ id, referring.check id = none) ∧
    (∀ id, ∀ rule ∈ (referring.grammarAt id).rules, ∀ host,
      .action (.custom host) ∉ rule.2.parts) ∧
    referring.Rewritten Grammar.Unfolds unfoldedReferring ∧
    ∃ ending, MatchEnds referring Host.idle {} 0 (.text "[w[w]]")
        ending ∧
      MatchEnds unfoldedReferring Host.idle {} 0 (.text "[w[w]]")
        ending := by
  have hdefined : ∀ g ∈ referring, g.Defined := Grammar.defined_map [_]
  have hclosed : referring.Closed := by decide
  have hcheck (id : Nat) : referring.check id = none := by
    cases id <;> rfl
  have hlacks : referring.lacks Expr.isCustom = true := rfl
  have hcustom : ∀ id, ∀ rule ∈ (referring.grammarAt id).rules, ∀ host,
      .action (.custom host) ∉ rule.2.parts :=
    fun _ _ hr _ => Family.not_mem_of_lacks hlacks hr rfl
  have hends : ∃ ending, MatchEnds referring Host.idle {} 0
      (.text "[w[w]]") ending := ⟨_, 120, _, rfl, rfl⟩
  obtain ⟨ending, hending⟩ := hends
  have hunfolded := match_unfolded referring unfoldedReferring
    Host.idle {} 0 (.text "[w[w]]") ending (Int.le_refl 0) hdefined
    hclosed hcheck hcustom unfolds_referring
  exact ⟨hdefined, hclosed, hcheck, hcustom, unfolds_referring, ending, hending,
    hunfolded.1 hending⟩

end Machine

end PegMachine
