import PegMachine.Notation.Reader
import PegMachine.Proofs.Evaluator.Agreement
import PegMachine.Proofs.Notation.Reading

namespace PegMachine

namespace Notation

open Evaluator

variable {text : Bytes}

theorem renderRule_append (rule : Bytes × Expr) (u : Bytes) : Grammar.renderRule rule ++ u =
    rule.1 ++ Ascii.blank :: Ascii.less :: Ascii.hyphen :: Ascii.blank :: (rule.2.render ++ u) := by
  rw [Grammar.renderRule, List.append_assoc, List.append_assoc]
  rfl

/-- A name with alternatives behind the arrow is read as a definition where another rule or the end
of the text comes behind it. -/
theorem reads_definition_of_alternatives {name r : Bytes} {es : List Expr}
    (hn : isIdentifier name = true) (hr : Begins itemStarts r) (h : ReadsAlternatives text r es)
    {u t : Bytes} (hf : Follows u t) (ht : StartsIn initials t)
    (hno : Refuses text (.rule "Primary") t) :
    ∃ label body span, label.content = name ∧ build body = .ok (Expr.alternatives es) ∧
      Reads text (.rule "Definition")
        (name ++ Ascii.blank :: Ascii.less :: Ascii.hyphen :: Ascii.blank :: (r ++ u)) t
        [Value.node "Definition" span [label, body] []] := by
  obtain ⟨body, hbody, hb⟩ := h.expression hf (ht.mono (by decide))
    (refuses_item ht (by decide) (by decide) hno) (refuses_otherwise ht (by decide))
  obtain ⟨label, span, hlabel, hread⟩ :=
    reads_definition hn ((hr.append u).startsIn (by decide)) hbody
  exact ⟨label, body, span, hlabel, hb, hread⟩

/-- A rule is read as its definition where another rule or the end of the text comes behind it. -/
theorem reads_rule_definition {rule : Bytes × Expr} (hn : isIdentifier rule.1 = true)
    (hw : rule.2.Writable) {u t : Bytes} (hf : Follows u t) (ht : StartsIn initials t)
    (hno : Refuses text (.rule "Primary") t) :
    ∃ label body span, label.content = rule.1 ∧ build body = .ok rule.2.flatten ∧
      Reads text (.rule "Definition") (Grammar.renderRule rule ++ u) t
        [Value.node "Definition" span [label, body] []] := by
  have h := reads_definition_of_alternatives hn (begins_render hw .alone)
    (readable text hw).alone hf ht hno
  rw [Expr.alternatives_choiceItems hw] at h
  rw [renderRule_append]
  exact h

theorem define_cons {label body : Value} {span : Span} {vs : List Value} {g : Grammar} {e : Expr}
    (h : build body = .ok e) :
    define g (Value.node "Definition" span [label, body] [] :: vs) =
      define (g.define label.content e) vs := by
  rw [define, if_pos rfl, h]

def defineAll (g : Grammar) (rules : List (Bytes × Expr)) : Grammar :=
  rules.foldl (fun g rule => g.define rule.1 rule.2.flatten) g

private theorem reads_rules_cons {rule : Bytes × Expr} {rules : List (Bytes × Expr)}
    (hn : isIdentifier rule.1 = true) (hw : rule.2.Writable) {u t : Bytes} (hf : Follows u t)
    (ht : StartsIn initials t) (hno : Refuses text (.rule "Primary") t) {vs : List Value} {n : Nat}
    (hvs : ReadsMany text (.rule "Definition") t [] vs n)
    (hd : ∀ g, define g vs = .value (defineAll g rules)) :
    ∃ vs, ReadsMany text (.rule "Definition") (Grammar.renderRule rule ++ u) [] vs (n + 1) ∧
      ∀ g, define g vs = .value (defineAll g (rule :: rules)) := by
  obtain ⟨label, body, span, hlabel, hb, hr⟩ := reads_rule_definition hn hw hf ht hno
  refine ⟨_, .round hr ?_ hvs, fun g => ?_⟩
  · have hlen := hf.gap.length_le
    rw [renderRule_append]
    simp only [List.length_append, List.length_cons]
    omega
  · rw [List.singleton_append, define_cons hb, hlabel, hd]
    rfl

theorem join_cons (sep a : Bytes) (parts : List Bytes) :
    ∃ rest, Bytes.join sep (a :: parts) = a ++ rest := by
  cases parts with
  | nil => exact ⟨[], (List.append_nil a).symm⟩
  | cons b parts => exact ⟨_, join_cons_cons sep a b parts⟩

variable (text) in
/-- A rule starts with its name, and no expression starts where it does. -/
theorem starts_rule {rule : Bytes × Expr} (hn : isIdentifier rule.1 = true)
    (hw : rule.2.Writable) (rest : Bytes) :
    StartsIn initials (Grammar.renderRule rule ++ rest) ∧
      Refuses text (.rule "Primary") (Grammar.renderRule rule ++ rest) := by
  have hstart := (begins_render hw .alone).append rest
  rw [renderRule_append]
  exact ⟨(startsIn_identifier hn _).2, refuses_definition hn (hstart.startsIn (by decide))⟩

variable (text) in
private theorem reads_rules {rules : List (Bytes × Expr)} (hne : rules ≠ [])
    (hn : ∀ rule ∈ rules, isIdentifier rule.1 = true) (hw : ∀ rule ∈ rules, rule.2.Writable) :
    ∃ vs, ReadsMany text (.rule "Definition")
        (Bytes.join Bytes.newline (rules.map Grammar.renderRule)) [] vs rules.length ∧
      ∀ g, define g vs = .value (defineAll g rules) := by
  induction rules with
  | nil => exact absurd rfl hne
  | cons rule rules ih =>
    have hname := hn rule (by simp)
    have hrule := hw rule (by simp)
    cases rules with
    | nil =>
      have hstop : ReadsMany text (.rule "Definition") [] [] [] 0 := .stop refuses_definition_at_end
      have hnone : ∀ g, define g [] = .value (defineAll g []) := fun g => rfl
      obtain ⟨vs, hvs, hd⟩ := reads_rules_cons hname hrule (.tight .nil) .nil
        (refuses_primary .nil) hstop hnone
      rw [List.append_nil] at hvs
      exact ⟨vs, hvs, hd⟩
    | cons next rules =>
      obtain ⟨vs, hvs, hd⟩ := ih (by simp) (fun r hr => hn r (by simp [hr]))
        (fun r hr => hw r (by simp [hr]))
      obtain ⟨rest, hrest⟩ := join_cons Bytes.newline (Grammar.renderRule next)
        (rules.map Grammar.renderRule)
      obtain ⟨hstart, hno⟩ := starts_rule text (hn next (by simp)) (hw next (by simp)) rest
      simp only [List.map_cons] at hvs ⊢
      rw [← hrest] at hstart hno
      rw [join_cons_cons]
      exact reads_rules_cons hname hrule (.newline (hstart.mono (by decide))) hstart hno hvs hd

def anything : Regex := .one [(0, 1114111)]

private theorem denotes_anything : Denotes "(?s)." anything := ⟨by decide +kernel, rfl, rfl⟩

/-- Definitions up to the end of the text are a grammar. -/
theorem reads_main_of_definitions {s : Bytes} {vs : List Value} {n : Nat} (hs : StartsIn initials s)
    (hvs : ReadsMany text (.rule "Definition") s [] vs n) (hpos : 0 < n)
    (hn : (n : Int) < Decimal.halfWords) : Reads text (.rule "main") s [] vs := by
  have hloop : Reads text (Expr.oneOrMore [.rule "Definition"]) s [] vs := .oneOrMore hvs hpos hn
  have hend : Refuses text (pattern "(?s).") [] :=
    refuses_pattern denotes_anything (.nil : StartsIn [] []) (by decide)
  have hlast : Reads text (.choice [Expr.not [pattern "(?s)."], throw "expected a rule definition"])
      [] [] [] := .choice (.here (.not hend))
  have hall := Parses.sequence (.cons (reads_spacing .none (hs.mono (by decide)))
    (.cons hloop (.cons hlast .nil)))
  rw [List.append_nil, List.append_nil] at hall
  exact reads_rule rfl hall

variable (text) in
private theorem reads_main {rules : List (Bytes × Expr)} (hne : rules ≠ [])
    (hlen : (rules.length : Int) < Decimal.halfWords)
    (hn : ∀ rule ∈ rules, isIdentifier rule.1 = true) (hw : ∀ rule ∈ rules, rule.2.Writable) :
    ∃ vs, Reads text (.rule "main") (Bytes.join Bytes.newline (rules.map Grammar.renderRule)) []
        vs ∧ ∀ g, define g vs = .value (defineAll g rules) := by
  obtain ⟨vs, hvs, hd⟩ := reads_rules text hne hn hw
  obtain ⟨first, rest, rfl⟩ := List.exists_cons_of_ne_nil hne
  obtain ⟨after, hafter⟩ := join_cons Bytes.newline (Grammar.renderRule first)
    (rest.map Grammar.renderRule)
  have hstart := (starts_rule text (hn first (by simp)) (hw first (by simp)) after).1
  rw [← hafter] at hstart
  exact ⟨vs, reads_main_of_definitions hstart hvs (Nat.succ_pos _) hlen, hd⟩

def flattenRules (rules : List (Bytes × Expr)) : List (Bytes × Expr) :=
  rules.map fun rule => (rule.1, rule.2.flatten)

private theorem proper_flattenRules {rules : List (Bytes × Expr)} (h : Grammar.Proper rules)
    (hw : ∀ rule ∈ rules, rule.2.Writable) : Grammar.Proper (flattenRules rules) := by
  refine ⟨?_, ?_, ?_⟩
  · rw [flattenRules, List.map_map]
    exact h.distinct
  · intro rule hr
    obtain ⟨r, hmem, rfl⟩ := List.mem_map.1 hr
    exact h.named r hmem
  · intro rule hr
    obtain ⟨r, hmem, rfl⟩ := List.mem_map.1 hr
    exact (h.flawless r hmem).flatten (hw r hmem)

private theorem defineAll_eq {rules : List (Bytes × Expr)} (h : Grammar.Proper rules)
    (hw : ∀ rule ∈ rules, rule.2.Writable) :
    defineAll {} rules = { rules := flattenRules rules } := by
  rw [← Grammar.ofRules_proper (proper_flattenRules h hw), Grammar.ofRules, flattenRules,
    List.foldl_map]
  rfl

theorem check_eq : Family.check [grammar] 0 = none := by
  have hcheck : (Family.check [grammar] 0).isNone = true := by decide +kernel
  exact Option.isNone_iff_eq_none.1 hcheck

/-- What the main rule leads to at the end of a text is what the machine answers with. -/
theorem evaluate_of_reads {vs : List Value} (h : Reads text (.rule "main") text [] vs) :
    ∃ enough, ∀ fuel, enough ≤ fuel →
      PegMachine.evaluate fuel [grammar] noHost {} 0 (.text text) = some (.value vs) := by
  have hat : (Activation.start 0).At text text :=
    ⟨List.suffix_refl text, by simp [place, Activation.start]⟩
  obtain ⟨further, fuel, hf⟩ := h.yields (.start 0) 0 hat
  have heval : Evaluator.evaluate fuel [grammar] (.text text) {} 0 =
      some (.values vs (place text []) further) := by
    have hend : decide (place text [] < (Input.text text).size) = false := by
      simp [place, Input.size]
    rw [Evaluator.evaluate, hf]
    simp only [Option.map_some, Outcome.result, Activation.succeed, Activation.start, hend,
      Bool.and_false, Bool.or_false, Bool.false_eq_true, if_false, List.append_nil,
      List.reverse_reverse]
  -- the machine ends as the evaluator does, and with more fuel in the same way
  obtain ⟨enough, s, ending, hrun, hresult⟩ :=
    endsWith_of_evaluate noHost (Int.le_refl 0) heval
  have hanswer : ending.answer = .value vs := by
    cases ending with
    | values ws cursor =>
      cases hresult
      rfl
    | error e cursor => cases hresult
    | fault => cases hresult
  obtain ⟨body, hbody⟩ : ∃ e, (Family.grammarAt [grammar] 0).rule? "main" = some e :=
    ⟨_, (rule?_grammarAt "main").trans rfl⟩
  have hmain : (([grammar] : Family)[0]?.getD ({} : Grammar)).rule? "main" = some body := hbody
  refine ⟨enough, ?_⟩
  intro fuel hle
  have hrun := Machine.run_mono hrun hle
  simp only [PegMachine.evaluate, Machine.matchInput, check_eq, hmain, hrun, Option.map_some,
    hanswer]

end Notation

/-- Printing a grammar without errors and reading the text gives a grammar without errors, with the
same rules in the same order, up to nested sequences and choices. Rules are numbered by words, and
so are the matches of a repetition. -/
theorem Grammar.read_render (g : Grammar) (hd : g.Defined) (he : g.error? = none)
    (hne : g.rules ≠ []) (hlen : (g.rules.length : Int) < Decimal.halfWords)
    (hn : ∀ rule ∈ g.rules, Notation.isIdentifier rule.1 = true)
    (hw : ∀ rule ∈ g.rules, rule.2.Writable) :
    ∃ enough, ∀ fuel, enough ≤ fuel → ∃ h, Grammar.read fuel g.render = some (.value h) ∧
      h.error? = none ∧ h.rules = g.rules.map fun rule => (rule.1, rule.2.flatten) := by
  have herrors : g.errors = [] := by
    simpa [Grammar.error?] using he
  have hp := hd.proper herrors
  obtain ⟨vs, hvs, hdefine⟩ := Notation.reads_main g.render hne hlen hn hw
  obtain ⟨enough, hall⟩ := Notation.evaluate_of_reads hvs
  refine ⟨enough, fun fuel hf => ⟨{ rules := Notation.flattenRules g.rules }, ?_, rfl, rfl⟩⟩
  have heval := hall fuel hf
  rw [Grammar.read, heval, Option.map_some]
  simp only [hdefine, Notation.defineAll_eq hp hw]

namespace Grammar

/-- Quoted words, written with more nesting than is needed. -/
def quotedRules : List (Bytes × Expr) :=
  [("main", .sequence [.literal "'", .sequence [.rule "words", .literal "'"]]),
    ("words", .choice [.wrap "word" [.iterate (.bounded 1 (-1)) (.pattern (Pattern.ofSource "[a-z]"))],
      .choice [.iterate .not (.hide [.rule "main"]), .sequence []]])]

def quotedWords : Grammar := ofRules quotedRules

private theorem rules_quotedWords : quotedWords.rules = quotedRules := rfl

private theorem writable_quotedWords : ∀ rule ∈ quotedWords.rules, rule.2.Writable := by
  have quote : (Expr.literal "'").Writable := .literal rfl
  have letter : (Expr.pattern (Pattern.ofSource "[a-z]")).Writable := .pattern (by decide)
  simp only [rules_quotedWords, quotedRules, List.mem_cons, List.not_mem_nil, or_false,
    forall_eq_or_imp, forall_eq]
  refine ⟨.sequence (by decide) ?_, .choice (by decide) ?_⟩
  · simp only [List.mem_cons, List.not_mem_nil, or_false, forall_eq_or_imp, forall_eq]
    refine ⟨quote, .sequence (by decide) ?_⟩
    simp only [List.mem_cons, List.not_mem_nil, or_false, forall_eq_or_imp, forall_eq]
    exact ⟨.rule rfl, quote⟩
  · simp only [List.mem_cons, List.not_mem_nil, or_false, forall_eq_or_imp, forall_eq]
    refine ⟨.wrap rfl (.iterate ⟨by decide, by decide, by decide⟩ letter), .choice (by decide) ?_⟩
    simp only [List.mem_cons, List.not_mem_nil, or_false, forall_eq_or_imp, forall_eq]
    exact ⟨.iterate trivial (.hide (.rule rfl)), .sequence (by decide) (by simp)⟩

/-- The nesting is gone after reading the printed grammar. -/
theorem read_render_quotedWords : quotedWords.error? = none ∧
    ∃ enough, ∀ fuel, enough ≤ fuel → ∃ h,
      Grammar.read fuel quotedWords.render = some (.value h) ∧ h.error? = none ∧ h.rules =
        ([("main", .sequence [.literal "'", .rule "words", .literal "'"]),
          ("words", .choice
            [.wrap "word" [.iterate (.bounded 1 (-1)) (.pattern (Pattern.ofSource "[a-z]"))],
              .iterate .not (.hide [.rule "main"]), .sequence []])] : List (Bytes × Expr)) := by
  have herror : quotedWords.error? = none := by
    have hnone : quotedWords.error?.isNone = true := by decide +kernel
    exact Option.isNone_iff_eq_none.1 hnone
  exact ⟨herror, read_render quotedWords ⟨_, rfl⟩ herror (by decide) (by decide)
    (by decide) writable_quotedWords⟩

end Grammar

end PegMachine
