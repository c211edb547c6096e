import PegMachine.Proofs.Evaluator.Derivations
import PegMachine.Proofs.Rewriting.Places

namespace PegMachine

/-- There are no actions in an expression. -/
def Expr.Actionless (e : Expr) : Prop := e.Leaves fun x => ∀ a, x ≠ .action a

/-- There are no actions in the rules of a family. -/
def Family.Actionless (family : Family) : Prop :=
  ∀ id, ∀ rule ∈ (family.grammarAt id).rules, rule.2.Actionless

theorem Family.actionless_of_forall {family : Family}
    (h : ∀ id, ∀ rule ∈ (family.grammarAt id).rules, ∀ effect, .action effect ∉ rule.2.parts) :
    family.Actionless := by
  intro id rule hr x hx _ effect hxa
  subst hxa
  exact h id rule hr effect hx

theorem Family.Actionless.rule? {family : Family} (h : family.Actionless) {id : Nat} {name : Bytes}
    {body : Expr} (hbody : (family.grammarAt id).rule? name = some body) : body.Actionless :=
  h id _ (Grammar.mem_rules_of_rule? _ name body hbody)

namespace Evaluator

open Machine

/-- What comes of an item without actions: a mismatch, a match, or the end of all runs. -/
inductive Judgement where
  | missed (furthest : Int)
  | matched (cursor : Int) (output : List Value) (furthest : Int)
  | ended (o : Outcome) (h : o.isDone = false)

namespace Judgement

/-- The outcome for the activation that the item is evaluated in. -/
def on (a : Activation) : Judgement → Outcome
  | .missed furthest => .done a.fail furthest
  | .matched cursor output furthest => .done (a.succeed cursor output) furthest
  | .ended o _ => o

/-- The judgement on items of which some matched before. -/
def after (output : List Value) : Judgement → Judgement
  | .matched cursor later furthest => .matched cursor (later ++ output) furthest
  | j => j

/-- A match goes on with what comes after it. -/
def Then (next : Int → Int → Judgement → Prop) (j j' : Judgement) : Prop :=
  match j with
  | .matched cursor output furthest => ∃ later, next cursor furthest later ∧ j' = later.after output
  | j => j' = j

/-- A mismatch goes on with what is tried instead. -/
def Else (next : Int → Judgement → Prop) (j j' : Judgement) : Prop :=
  match j with
  | .missed furthest => next furthest j'
  | j => j' = j

variable {j j' : Judgement}

theorem after_nil : j.after [] = j := by
  cases j <;> simp [after]

private theorem after_after (output earlier : List Value) :
    (j.after output).after earlier = j.after (output ++ earlier) := by
  cases j <;> simp [after]

private theorem then_after {next : Int → Int → Judgement → Prop} (output : List Value) :
    (j.after output).Then next j' ↔ ∃ later, j.Then next later ∧ j' = later.after output := by
  cases j with
  | missed furthest => simp [Then, after]
  | ended o h => simp [Then, after]
  | matched cursor own furthest =>
    constructor
    · rintro ⟨later, hlater, rfl⟩
      exact ⟨later.after own, ⟨later, hlater, rfl⟩, (after_after own output).symm⟩
    · rintro ⟨_, ⟨later, hlater, rfl⟩, rfl⟩
      exact ⟨later, hlater, after_after own output⟩

/-- Going on twice is going on with both, one after the other. -/
theorem then_assoc {next last : Int → Int → Judgement → Prop} :
    j.Then (fun cursor furthest j' => ∃ m, next cursor furthest m ∧ m.Then last j') j' ↔
      ∃ m, j.Then next m ∧ m.Then last j' := by
  cases j with
  | missed furthest => simp [Then]
  | ended o h => simp [Then]
  | matched cursor output furthest =>
    constructor
    · rintro ⟨later, ⟨m, hm, hlater⟩, rfl⟩
      exact ⟨m.after output, ⟨m, hm, rfl⟩, (then_after output).2 ⟨later, hlater, rfl⟩⟩
    · rintro ⟨_, ⟨m, hm, rfl⟩, hlast⟩
      obtain ⟨later, hlater, rfl⟩ := (then_after output).1 hlast
      exact ⟨later, ⟨m, hm, hlater⟩, rfl⟩

theorem then_nothing :
    j.Then (fun cursor furthest later => later = .matched cursor [] furthest) j' ↔ j' = j := by
  cases j <;> simp [Then, after]

theorem else_nothing : j.Else (fun furthest later => later = .missed furthest) j' ↔ j' = j := by
  cases j <;> simp [Else]

theorem else_assoc {next last : Int → Judgement → Prop} :
    j.Else (fun furthest j' => ∃ m, next furthest m ∧ m.Else last j') j' ↔
      ∃ m, j.Else next m ∧ m.Else last j' := by
  cases j with
  | missed furthest => rfl
  | ended o h => simp [Else]
  | matched cursor output furthest => simp [Else]

/-- The outcome for a fresh activation tells the judgement. -/
theorem on_start_injective {cursor : Int} (h : j.on (.start cursor) = j'.on (.start cursor)) :
    j = j' := by
  cases j with
  | missed furthest =>
    cases j' with
    | missed furthest' => simpa [on] using h
    | matched cursor' output' furthest' =>
      simp [on, Activation.fail, Activation.succeed, Activation.start] at h
    | ended o ho =>
      subst h
      cases ho
  | matched cursor output furthest =>
    cases j' with
    | missed furthest' =>
      simp [on, Activation.fail, Activation.succeed, Activation.start] at h
    | matched cursor' output' furthest' =>
      simpa [on, Activation.succeed, Activation.start, and_assoc] using h
    | ended o ho =>
      subst h
      cases ho
  | ended o ho =>
    cases j' with
    | missed furthest' =>
      obtain rfl : o = _ := h
      cases ho
    | matched cursor' output' furthest' =>
      obtain rfl : o = _ := h
      cases ho
    | ended o' ho' =>
      obtain rfl : o = o' := h
      rfl

end Judgement

/-- An activation takes a child in as a judgement on the child says, as long as it is at the
cursor. -/
def Uniform (cursor : Int) (take? : Activation → Activation → Option Activation) : Prop :=
  ∀ b furthest, ∃ j : Judgement, ∀ a, a.cursor = cursor →
    (Outcome.done b furthest).into (take? a) = j.on a

section

variable {input : Input} {cursor : Int} {take? : Activation → Activation → Option Activation}

theorem Uniform.into (h : Uniform cursor take?) (o : Outcome) :
    ∃ j : Judgement, ∀ a, a.cursor = cursor → o.into (take? a) = j.on a := by
  cases o with
  | done b furthest => exact h b furthest
  | raised payload furthest => exact ⟨.ended (.raised payload furthest) rfl, fun _ _ => rfl⟩
  | aborted e furthest => exact ⟨.ended (.aborted e furthest) rfl, fun _ _ => rfl⟩
  | fault => exact ⟨.ended .fault rfl, fun _ _ => rfl⟩

/-- A child that fails or succeeds by its own means is taken in as such. -/
theorem uniform_of_cases
    (h : ∀ b, (∀ a, a.cursor = cursor → take? a b = none) ∨
      (∀ a, a.cursor = cursor → take? a b = some a.fail) ∨
      ∃ next output, ∀ a, a.cursor = cursor → take? a b = some (a.succeed next output)) :
    Uniform cursor take? := by
  intro b furthest
  obtain hnone | hfail | ⟨next, output, hsucceed⟩ := h b
  · refine ⟨.ended .fault rfl, ?_⟩
    intro a ha
    simp only [Outcome.into, hnone a ha]
    rfl
  · refine ⟨.missed furthest, ?_⟩
    intro a ha
    simp only [Outcome.into, hfail a ha]
    rfl
  · refine ⟨.matched next output furthest, ?_⟩
    intro a ha
    simp only [Outcome.into, hsucceed a ha]
    rfl

private theorem uniform_takeSequence : Uniform cursor fun a b => some (a.takeSequence b) := by
  apply uniform_of_cases
  intro b
  cases hb : b.failed with
  | true => exact .inr (.inl fun a _ => by simp [Activation.takeSequence, hb])
  | false => exact .inr (.inr ⟨b.cursor, b.output, fun a _ => by simp [Activation.takeSequence, hb]⟩)

private theorem uniform_takeChoice : Uniform cursor fun a b => some (a.takeChoice b) := by
  apply uniform_of_cases
  intro b
  by_cases hb : b.matched = 0
  · exact .inr (.inl fun a _ => by simp [Activation.takeChoice, hb])
  · exact .inr (.inr ⟨b.cursor, b.output, fun a _ => by simp [Activation.takeChoice, hb]⟩)

private theorem uniform_takeLoop (quota : Quota) :
    Uniform cursor fun a b => some (a.takeLoop quota b) := by
  apply uniform_of_cases
  intro b
  cases hb : quota.admits b.matched with
  | false => exact .inr (.inl fun a _ => by simp [Activation.takeLoop, hb])
  | true => exact .inr (.inr ⟨b.cursor, b.output, fun a _ => by simp [Activation.takeLoop, hb]⟩)

private theorem uniform_takeOptional : Uniform cursor fun a b => some (a.takeOptional b) := by
  apply uniform_of_cases
  intro b
  cases hb : b.failed with
  | true =>
    refine .inr (.inr ⟨cursor, [], ?_⟩)
    intro a ha
    simp [Activation.takeOptional, hb, ha]
  | false => exact .inr (.inr ⟨b.cursor, b.output, fun a _ => by simp [Activation.takeOptional, hb]⟩)

/-- That an item does not match is a match of nothing. -/
theorem uniform_takeNot : Uniform cursor fun a b => some (a.takeNot b) := by
  apply uniform_of_cases
  intro b
  cases hb : b.failed || b.matched == 0 with
  | true =>
    refine .inr (.inr ⟨cursor, [], ?_⟩)
    intro a ha
    simp [Activation.takeNot, hb, Activation.pass, Activation.succeed, ← ha]
  | false => exact .inr (.inl fun a _ => by simp [Activation.takeNot, hb])

private theorem uniform_takeHide : Uniform cursor fun a b => some (a.takeHide b) := by
  apply uniform_of_cases
  intro b
  cases hb : b.failed with
  | true => exact .inr (.inl fun a _ => by simp [Activation.takeHide, hb])
  | false => exact .inr (.inr ⟨b.cursor, [], fun a _ => by simp [Activation.takeHide, hb]⟩)

private theorem uniform_takeWrap? (name : Bytes) :
    Uniform cursor fun a b => a.takeWrap? input name b := by
  apply uniform_of_cases
  intro b
  cases hb : b.failed with
  | true => exact .inr (.inl fun a _ => by simp [Activation.takeWrap?, hb])
  | false =>
    cases hspan : input.span? cursor b.cursor with
    | none =>
      refine .inl ?_
      intro a ha
      simp [Activation.takeWrap?, hb, ha, hspan]
    | some span =>
      refine .inr (.inr ⟨b.cursor, [Value.ofItems name span b.output.reverse], ?_⟩)
      intro a ha
      simp [Activation.takeWrap?, hb, ha, hspan]

private theorem judgement_of_leaf (furthest : Int) (attempt : Attempt) :
    ∃ j : Judgement, ∀ a : Activation, a.cursor = cursor →
      a.takeLeaf furthest attempt = j.on a := by
  cases attempt with
  | fault => exact ⟨.ended .fault rfl, fun _ _ => rfl⟩
  | mismatch =>
    refine ⟨.missed (max furthest cursor), ?_⟩
    rintro a rfl
    rfl
  | success value next =>
    refine ⟨.matched next [value] (max (max furthest cursor) next), ?_⟩
    rintro a rfl
    rfl

/-- An embedded run starts anew, so its outcome is a judgement, too. -/
theorem judgement_of_run (furthest : Int) (o : Outcome) :
    ∃ j : Judgement, ∀ a : Activation, a.cursor = cursor →
      o.intoCaller input a furthest = j.on a := by
  cases o with
  | done b inner =>
    cases hb : b.failed with
    | false =>
      refine ⟨.matched b.cursor b.output (max furthest inner), ?_⟩
      intro a _
      simp [Outcome.intoCaller, hb, Judgement.on]
    | true =>
      by_cases hp : (position? input b.cursor inner).isSome
      · refine ⟨.missed (max furthest inner), ?_⟩
        intro a _
        simp [Outcome.intoCaller, hb, hp, Judgement.on]
      · refine ⟨.ended .fault rfl, ?_⟩
        intro a _
        simp [Outcome.intoCaller, hb, hp, Judgement.on]
  | raised payload inner =>
    by_cases hp : (position? input cursor inner).isSome
    · refine ⟨.ended (.raised payload (max furthest inner)) rfl, ?_⟩
      rintro a rfl
      simp [Outcome.intoCaller, hp, Judgement.on]
    · refine ⟨.ended .fault rfl, ?_⟩
      rintro a rfl
      simp [Outcome.intoCaller, hp, Judgement.on]
  | aborted e inner => exact ⟨.ended (.aborted e (max furthest inner)) rfl, fun _ _ => rfl⟩
  | fault => exact ⟨.ended .fault rfl, fun _ _ => rfl⟩

end

section

variable (family : Family) (input : Input)

/-- Wherever the cursor is as given, the outcome of an item is as judged. -/
def Judges (id : Nat) (e : Expr) (cursor furthest : Int) (j : Judgement) : Prop :=
  ∀ a, a.cursor = cursor → Evaluates family input id (.item e) a furthest (j.on a)

end

section

variable {family : Family} {input : Input} {id : Nat} {e : Expr} {a : Activation} {furthest : Int}
  {o : Outcome}

private theorem judged_of_uniform {outcome : Activation → Outcome}
    (huniform : ∃ j : Judgement, ∀ b, b.cursor = a.cursor → outcome b = j.on b)
    (heval : ∀ b, b.cursor = a.cursor →
      Evaluates family input id (.item e) b furthest (outcome b)) :
    ∃ j, Judges family input id e a.cursor furthest j ∧ outcome a = j.on a := by
  obtain ⟨j, hj⟩ := huniform
  refine ⟨j, ?_, hj a rfl⟩
  intro b hb
  rw [← hj b hb]
  exact heval b hb

/-- What ends all runs does so in each activation. -/
theorem judged_of_ended (ho : o.isDone = false)
    (heval : ∀ b, b.cursor = a.cursor → Evaluates family input id (.item e) b furthest o) :
    ∃ j, Judges family input id e a.cursor furthest j ∧ o = j.on a :=
  ⟨.ended o ho, heval, rfl⟩

/-- The item is an action, or a reference to a rule that is one. -/
inductive Acts (family : Family) (id : Nat) : Expr → Prop
  | action (effect : Action) : Acts family id (.action effect)
  | rule {name : Bytes} {body : Expr} (h : (family.grammarAt id).rule? name = some body)
      (acts : Acts family id body) : Acts family id (.rule name)

private theorem not_acts_of_actionless (hfamily : family.Actionless) (he : e.Actionless) :
    ¬Acts family id e := by
  intro h
  induction h with
  | action effect => exact he _ (Expr.mem_parts_self _ rfl) rfl effect rfl
  | rule hbody _ ih => exact ih (hfamily.rule? hbody)

/-- The outcome of an item that does not act on the activation is judged by its cursor alone. -/
theorem Evaluates.judged_of_not_acts (hno : ¬Acts family id e)
    (h : Evaluates family input id (.item e) a furthest o) :
    ∃ j, Judges family input id e a.cursor furthest j ∧ o = j.on a := by
  generalize htask : Task.item e = task at h
  induction h generalizing e with
  | missing =>
    cases htask
    exact judged_of_ended rfl fun _ _ => .missing
  | literal =>
    cases htask
    apply judged_of_uniform (judgement_of_leaf _ _)
    intro b hb
    rw [← hb]
    exact .literal
  | pattern =>
    cases htask
    apply judged_of_uniform (judgement_of_leaf _ _)
    intro b hb
    rw [← hb]
    exact .pattern
  | undefined hnone =>
    cases htask
    exact judged_of_ended rfl fun _ _ => .undefined hnone
  | rule hbody _ ih =>
    -- only a reference passes the activation itself on; combinators start a new one for their items
    cases htask
    obtain ⟨j, hj, ho⟩ := ih (fun hacts => hno (.rule hbody hacts)) rfl
    exact ⟨j, fun b hb => .rule hbody (hj b hb), ho⟩
  | sequence inner =>
    cases htask
    exact judged_of_uniform (uniform_takeSequence.into _) fun b hb => .sequence (hb ▸ inner)
  | choice inner =>
    cases htask
    exact judged_of_uniform (uniform_takeChoice.into _) fun b hb => .choice (hb ▸ inner)
  | wrap inner =>
    cases htask
    exact judged_of_uniform ((uniform_takeWrap? _).into _) fun b hb => .wrap (hb ▸ inner)
  | hide inner =>
    cases htask
    exact judged_of_uniform (uniform_takeHide.into _) fun b hb => .hide (hb ▸ inner)
  | loop hquota inner =>
    cases htask
    exact judged_of_uniform ((uniform_takeLoop _).into _) fun b hb => .loop hquota (hb ▸ inner)
  | optional inner =>
    cases htask
    exact judged_of_uniform (uniform_takeOptional.into _) fun b hb => .optional (hb ▸ inner)
  | not inner =>
    cases htask
    exact judged_of_uniform (uniform_takeNot.into _) fun b hb => .not (hb ▸ inner)
  | once inner =>
    cases htask
    exact judged_of_uniform (uniform_takeSequence.into _) fun b hb => .once (hb ▸ inner)
  | @action _ _ _ effect =>
    cases htask
    exact absurd (.action effect) hno
  | stranded hnone =>
    cases htask
    exact judged_of_ended rfl fun _ _ => .stranded hnone
  | headless hg hnone =>
    cases htask
    exact judged_of_ended rfl fun _ _ => .headless hg hnone
  | embed hg hbody run =>
    cases htask
    apply judged_of_uniform (judgement_of_run _ _)
    intro b hb
    rw [← hb] at run
    exact .embed hg hbody run
  | _ => cases htask

/-- So is that of an item without actions. -/
theorem Evaluates.judged (hfamily : family.Actionless) (he : e.Actionless)
    (h : Evaluates family input id (.item e) a furthest o) :
    ∃ j, Judges family input id e a.cursor furthest j ∧ o = j.on a :=
  h.judged_of_not_acts (not_acts_of_actionless hfamily he)

end

end Evaluator

end PegMachine
