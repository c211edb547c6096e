import PegMachine.Proofs.Evaluator.Failures
import PegMachine.Proofs.Evaluator.Termination
import PegMachine.Proofs.Grammar.Leaders
import PegMachine.Proofs.Notation.RoundTrip
import PegMachine.Proofs.Notation.Shapes

namespace PegMachine

namespace Notation

open Evaluator Machine

/-- Neither an embedding nor an action other than a throw. -/
def isLocal : Expr → Bool
  | .embed .. => false
  | .action (.throw _) => true
  | .action _ => false
  | _ => true

theorem rules_eq : (Family.grammarAt [grammar] 0).rules = rules := by
  have hone (g : Grammar) : Family.grammarAt [g] 0 = g := rfl
  rw [hone, grammar_eq]

theorem isLocal_of_mem {rule : Bytes × Expr} (hr : rule ∈ rules) {e : Expr}
    (hm : e ∈ rule.2.parts) : isLocal e = true := by
  have hall : (rules.all fun rule => rule.2.parts.all isLocal) = true := by decide +kernel
  exact List.all_eq_true.1 (List.all_eq_true.1 hall rule hr) e hm

theorem lone : ∀ rule ∈ grammar.rules, ∀ inner main, .embed (some inner) main ∉ rule.2.parts := by
  intro rule hr inner main hm
  rw [grammar_eq] at hr
  cases isLocal_of_mem hr hm

private theorem defined : ∀ g ∈ ([grammar] : Family), g.Defined := by
  intro g hg
  obtain rfl := List.mem_singleton.1 hg
  exact ⟨rules, rfl⟩

theorem closed : Family.Closed [grammar] := by
  intro id rule hr inner main hm
  rcases id with _ | id
  · rw [rules_eq] at hr
    cases isLocal_of_mem hr hm
  · cases hr

theorem action_isThrow : ∀ inner, Family.Embeds [grammar] 0 inner →
    ∀ rule ∈ (Family.grammarAt [grammar] inner).rules, ∀ a, .action a ∈ rule.2.parts →
      a.IsThrow := by
  intro inner hi rule hr a hm
  obtain rfl := Family.eq_zero_of_embeds lone hi
  rw [rules_eq] at hr
  have hlocal := isLocal_of_mem hr hm
  cases a with
  | throw datum => exact ⟨datum, rfl⟩
  | insert | insertText | convert | modify | note | clear | custom | log | unknown => cases hlocal

theorem customFree : Family.CustomFree [grammar] 0 := by
  intro inner hi rule hr host hm
  obtain ⟨datum, hthrow⟩ := action_isThrow inner hi rule hr _ hm
  cases hthrow

private theorem main_isSome : ((Family.grammarAt [grammar] 0).rule? "main").isSome := by
  rw [rule?_grammarAt]
  rfl

/-- The rules of the notation, each of which begins only with rules before it. -/
def ascending : List Bytes :=
  ["Spacing", "LEFTARROW", "SLASH", "OPEN", "CLOSE", "Identifier", "Literal", "Class", "Regex",
    "Label", "Primary", "Bounds", "Suffix", "Prefix", "Sequence", "Expression", "Definition",
    "main"]

/-- Parentheses keep an expression apart from the one that it stands in. -/
theorem not_nullable_open : ¬Family.Nullable [grammar] 0 (.rule "OPEN") := by
  intro h
  cases h with
  | rule hr h =>
    rw [rule?_grammarAt] at hr
    obtain rfl := Option.some.inj hr
    cases h with
    | hide h => cases h _ (List.mem_cons_self ..)

private theorem ranked : Family.Ranked [grammar] 0 fun target => ascending.idxOf target.2 := by
  have hfirm : ∀ name ∈ (["OPEN"] : List Bytes), ¬Family.Nullable [grammar] 0 (.rule name) := by
    intro name hm
    obtain rfl := List.mem_singleton.1 hm
    exact not_nullable_open
  have hall : (rules.all fun rule => (rule.2.leaders ["OPEN"]).all fun name =>
      decide (ascending.idxOf name < ascending.idxOf rule.1)) = true := by decide +kernel
  refine Family.ranked_of_leaders ascending lone hfirm ?_
  intro rule hr name hm
  rw [grammar_eq] at hr
  exact of_decide_eq_true (List.all_eq_true.1 (List.all_eq_true.1 hall rule hr) name hm)

private theorem admitted :
    AdmittedRules [grammar] (Family.Embeds [grammar] 0) True Action.IsThrow :=
  admittedRules_embeds (fun _ _ _ _ _ _ => trivial) action_isThrow

private theorem keepsContract (text : Bytes) :
    KeepsContract [grammar] (Family.Embeds [grammar] 0) (.text text) (shapes text) := by
  intro inner hi name body hbody s t vs hvs
  obtain rfl := Family.eq_zero_of_embeds lone hi
  have hname : name ∈ rules.map (·.1) := by
    have hrule := Grammar.mem_rules_of_rule? _ _ _ hbody
    rw [rules_eq] at hrule
    exact List.mem_map.2 ⟨_, hrule, rfl⟩
  rw [rule?_grammarAt] at hbody
  exact shaped_rules text name hname body s t vs hbody hvs

section

variable {text : Bytes} {vs : List Value} {cursor : Int}

/-- The notation puts out definitions only. -/
theorem defining_of_values
    (h : MatchEnds [grammar] noHost {} 0 (.text text) (.values vs cursor)) :
    ∀ v ∈ vs, Defining text v := by
  obtain ⟨b, furthest, heval, hb, rfl, -⟩ := evaluates_of_values customFree h
  obtain rfl | ⟨ws, next, hws, rfl⟩ :=
    heval.keeps admitted (keepsContract text) .refl (.rule _) rfl
  · cases hb
  · have hmain : ∀ v ∈ ws, Defining text v := hws
    simpa [Activation.succeed, Activation.start] using hmain

private theorem defines_of_values
    (h : MatchEnds [grammar] noHost {} 0 (.text text) (.values vs cursor)) :
    ∀ v ∈ vs, Defines v := fun v hv => (defining_of_values h v hv).defines

end

/-- Matching the notation ends, and it fails or gives values. -/
theorem matchEnds (text : Bytes) : ∃ ending, MatchEnds [grammar] noHost {} 0 (.text text) ending ∧
    ((∃ f cursor, ending = .error (.failure f) cursor) ∨ ∃ vs cursor, ending = .values vs cursor) := by
  obtain ⟨o, ho⟩ := evaluates_of_ranked customFree ranked (.text text) "main"
  have hends : MatchEnds [grammar] noHost {} 0 (.text text) (o.result (.text text) true 0).ending :=
    (matchEnds_iff_run check_eq main_isSome).2
      ((run_iff_evaluates (Int.le_refl 0) customFree).2 ⟨o, ho, rfl⟩)
  refine ⟨_, hends, ?_⟩
  have hplain : ∀ inner, Family.Embeds [grammar] 0 inner →
      ∀ rule ∈ (Family.grammarAt [grammar] inner).rules, ∀ a, .action a ∈ rule.2.parts →
        Plain a := by
    intro inner hi rule hr a hm
    obtain ⟨datum, rfl⟩ := action_isThrow inner hi rule hr a hm
    trivial
  have hexpected := hends.expected defined closed check_eq main_isSome hplain
  cases hending : (o.result (.text text) true 0).ending with
  | values vs cursor => exact .inr ⟨vs, cursor, rfl⟩
  | fault =>
    rw [hending] at hexpected
    exact hexpected.elim
  | error e cursor =>
    obtain ⟨f, rfl⟩ | ⟨furthest, rfl⟩ := ending_eq_error hending
    · exact .inl ⟨f, cursor, rfl⟩
    · -- a defect of the grammar is not expected
      rw [hending] at hexpected
      cases ho.aborted rfl <;> exact hexpected.elim

section

variable {g : Grammar} {label body : Value} {span : Span} {vs : List Value}

theorem define_flaw {e : BuildError} (h : build body = .error e) (he : e.IsFlaw) :
    define g (Value.node "Definition" span [label, body] [] :: vs) =
      .error (.shape ⟨label.content, e.message⟩) := by
  rw [define, if_pos rfl, h]
  cases he <;> rfl

end

end Notation

namespace Grammar

/-- What reading a text may come to: a failure with a position, a flaw in the expression of a rule,
a grammar without an error, or a grammar with the first error of its definitions. -/
inductive Reading : Answer Grammar → Prop
  | failure (f : Failure) : Reading (.error (.failure f))
  | flaw (rule : Bytes) {e : Notation.BuildError} (h : e.IsFlaw) :
    Reading (.error (.shape ⟨rule, e.message⟩))
  | flawless {g : Grammar} (h : g.Defined) (he : g.error? = none) : Reading (.value g)
  | flawed {g : Grammar} {first : ShapeError} {others : List ShapeError} (h : g.Defined)
    (hg : g.errors = first :: others) (he : g.error? = some (.shape first)) : Reading (.value g)

private theorem Defined.reading {g : Grammar} (h : g.Defined) : Reading (.value g) := by
  cases hg : g.errors with
  | nil => exact .flawless h (by simp [error?, hg])
  | cons first others => exact .flawed h hg (by simp [error?, hg])

/-- Defining what the notation puts out comes to one of these. -/
theorem reading_define {g : Grammar} (hg : g.Defined) {vs : List Value}
    (h : ∀ v ∈ vs, Notation.Defines v) : Reading (Notation.define g vs) := by
  induction vs generalizing g with
  | nil => exact hg.reading
  | cons v vs ih =>
    obtain ⟨⟨span, label, body, rfl, hbody⟩, hvs⟩ := List.forall_mem_cons.1 h
    cases hb : Notation.build body with
    | ok e =>
      rw [Value.ofItems, Notation.define_cons hb]
      exact ih (hg.define _ _) hvs
    | error e =>
      rw [Value.ofItems, Notation.define_flaw hb (hbody e hb)]
      exact .flaw _ (hbody e hb)

/-- Reading a grammar ends for every text, with a grammar or with an error that tells what is wrong
with the text. The notation puts out only trees that can be built from. -/
theorem read_total (text : Bytes) :
    (∃ answer enough, (∀ fuel, enough ≤ fuel → Grammar.read fuel text = some answer) ∧
      Reading answer) ∧
    ∀ vs cursor, Machine.MatchEnds [Notation.grammar] noHost {} 0 (.text text) (.values vs cursor) →
      ∀ v ∈ vs, Notation.Defines v := by
  refine ⟨?_, fun vs cursor h => Notation.defines_of_values h⟩
  obtain ⟨ending, hends, hcases⟩ := Notation.matchEnds text
  obtain ⟨enough, heval⟩ := hends.evaluate_eq
  obtain ⟨f, cursor, rfl⟩ | ⟨vs, cursor, rfl⟩ := hcases
  · refine ⟨.error (.failure f), enough, ?_, .failure f⟩
    intro fuel hle
    rw [Grammar.read, heval fuel hle]
    rfl
  · have hdefines := Notation.defines_of_values hends
    refine ⟨Notation.define {} vs, enough, ?_, reading_define ⟨[], rfl⟩ hdefines⟩
    intro fuel hle
    rw [Grammar.read, heval fuel hle]
    rfl

end Grammar

end PegMachine
