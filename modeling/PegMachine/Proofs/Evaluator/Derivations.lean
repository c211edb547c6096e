import PegMachine.Proofs.Evaluator.Fuel

namespace PegMachine

/-- How many rounds a repetition asks for, if it goes in rounds. -/
def Repetition.quota? : Repetition → Option Machine.Quota
  | .zeroOrMore => some .zeroOrMore
  | .oneOrMore => some .oneOrMore
  | .bounded min max => some (.bounded min max)
  | .optional | .not | .unknown .. => none

namespace Evaluator

open Machine

/-- What is evaluated: an item, the items of a combinator until it stops, or the rounds of a loop. -/
inductive Task where
  | item (e : Expr)
  | items (stops : Activation → Bool) (pending : List Expr)
  | rounds (e : Expr)

/-- What the evaluator answers to a task. -/
def Task.eval (family : Family) (input : Input) (fuel id : Nat) (a : Activation) (furthest : Int) :
    Task → Option Outcome
  | .item e => evalItem family input fuel id e a furthest
  | .items stops pending => evalItems family input fuel id stops pending a furthest
  | .rounds e => evalLoop family input fuel id e a furthest

/-- Evaluating a task of grammar `id` against an activation has an outcome. -/
inductive Evaluates (family : Family) (input : Input) :
    Nat → Task → Activation → Int → Outcome → Prop
  | missing {id a furthest} :
    Evaluates family input id (.item .missing) a furthest (.aborted .unknownExpression furthest)
  | literal {id a furthest text} :
    Evaluates family input id (.item (.literal text)) a furthest
      (a.takeLeaf furthest (input.tryLiteral a.cursor text))
  | pattern {id a furthest p} :
    Evaluates family input id (.item (.pattern p)) a furthest
      (a.takeLeaf furthest (input.tryPattern a.cursor p))
  | undefined {id a furthest name} (h : (family.grammarAt id).rule? name = none) :
    Evaluates family input id (.item (.rule name)) a furthest
      (.aborted (.undefined ((family.grammarAt id).undefined name [])) furthest)
  | rule {id a furthest name body o} (h : (family.grammarAt id).rule? name = some body)
      (body_eval : Evaluates family input id (.item body) a furthest o) :
    Evaluates family input id (.item (.rule name)) a furthest o
  | sequence {id a furthest items o}
      (inner : Evaluates family input id (.items Activation.stopsSequence items)
        (.start a.cursor) furthest o) :
    Evaluates family input id (.item (.sequence items)) a furthest
      (o.into fun b => some (a.takeSequence b))
  | choice {id a furthest items o}
      (inner : Evaluates family input id (.items Activation.stopsChoice items)
        (.start a.cursor) furthest o) :
    Evaluates family input id (.item (.choice items)) a furthest
      (o.into fun b => some (a.takeChoice b))
  | wrap {id a furthest name items o}
      (inner : Evaluates family input id (.items Activation.stopsSequence items)
        (.start a.cursor) furthest o) :
    Evaluates family input id (.item (.wrap name items)) a furthest
      (o.into (a.takeWrap? input name))
  | hide {id a furthest items o}
      (inner : Evaluates family input id (.items Activation.stopsSequence items)
        (.start a.cursor) furthest o) :
    Evaluates family input id (.item (.hide items)) a furthest
      (o.into fun b => some (a.takeHide b))
  | loop {id a furthest kind quota item o} (h : kind.quota? = some quota)
      (inner : Evaluates family input id (.rounds item) (.start a.cursor) furthest o) :
    Evaluates family input id (.item (.iterate kind item)) a furthest
      (o.into fun b => some (a.takeLoop quota b))
  | optional {id a furthest item o}
      (inner : Evaluates family input id (.items Activation.stopsSequence [item])
        (.start a.cursor) furthest o) :
    Evaluates family input id (.item (.iterate .optional item)) a furthest
      (o.into fun b => some (a.takeOptional b))
  | not {id a furthest item o}
      (inner : Evaluates family input id (.items Activation.stopsNot [item])
        (.start a.cursor) furthest o) :
    Evaluates family input id (.item (.iterate .not item)) a furthest
      (o.into fun b => some (a.takeNot b))
  | once {id a furthest min max item o}
      (inner : Evaluates family input id (.items Activation.stopsSequence [item])
        (.start a.cursor) furthest o) :
    Evaluates family input id (.item (.iterate (.unknown min max) item)) a furthest
      (o.into fun b => some (a.takeSequence b))
  | action {id a furthest effect o} (h : act input a furthest effect = some o) :
    Evaluates family input id (.item (.action effect)) a furthest o
  | stranded {id a furthest grammar main} (h : family.grammar? grammar = none) :
    Evaluates family input id (.item (.embed grammar main)) a furthest .fault
  | headless {id a furthest inner g main} (hg : family[inner]? = some g)
      (hm : g.rule? main = none) :
    Evaluates family input id (.item (.embed (some inner) main)) a furthest
      (.aborted (.undefined (g.undefined main [])) furthest)
  | embed {id a furthest inner g main body o} (hg : family[inner]? = some g)
      (hm : g.rule? main = some body)
      (run : Evaluates family input inner (.item (.rule main)) (.start a.cursor) a.cursor o) :
    Evaluates family input id (.item (.embed (some inner) main)) a furthest
      (o.intoCaller input a furthest)
  | nil {id a furthest stops} :
    Evaluates family input id (.items stops []) a furthest (.done a furthest)
  | stopped {id a furthest stops pending} (h : stops a = true) :
    Evaluates family input id (.items stops pending) a furthest (.done a furthest)
  | cons {id a furthest stops e pending b furthest' o} (h : stops a = false)
      (head : Evaluates family input id (.item e) a furthest (.done b furthest'))
      (tail : Evaluates family input id (.items stops pending) b furthest' o) :
    Evaluates family input id (.items stops (e :: pending)) a furthest o
  | halted {id a furthest stops e pending o} (h : stops a = false)
      (head : Evaluates family input id (.item e) a furthest o) (ho : o.isDone = false) :
    Evaluates family input id (.items stops (e :: pending)) a furthest o
  | last {id a furthest item b furthest'}
      (round : Evaluates family input id (.item item) a furthest (.done b furthest'))
      (h : b.stopsLoop input.size a.cursor = true) :
    Evaluates family input id (.rounds item) a furthest (.done b furthest')
  | again {id a furthest item b furthest' o}
      (round : Evaluates family input id (.item item) a furthest (.done b furthest'))
      (h : b.stopsLoop input.size a.cursor = false)
      (more : Evaluates family input id (.rounds item) b furthest' o) :
    Evaluates family input id (.rounds item) a furthest o
  | broken {id a furthest item o}
      (round : Evaluates family input id (.item item) a furthest o) (ho : o.isDone = false) :
    Evaluates family input id (.rounds item) a furthest o

section

variable {family : Family} {input : Input}

/-- What the evaluator answers with some fuel has a derivation, whatever the task. -/
structure Derived (family : Family) (input : Input) (fuel : Nat) : Prop where
  item : ∀ {id : Nat} {e : Expr} {a : Activation} {furthest : Int} {o : Outcome},
    evalItem family input fuel id e a furthest = some o →
    Evaluates family input id (.item e) a furthest o
  items : ∀ {id : Nat} {stops : Activation → Bool} {pending : List Expr} {a : Activation}
      {furthest : Int} {o : Outcome},
    evalItems family input fuel id stops pending a furthest = some o →
    Evaluates family input id (.items stops pending) a furthest o
  rounds : ∀ {id : Nat} {item : Expr} {a : Activation} {furthest : Int} {o : Outcome},
    evalLoop family input fuel id item a furthest = some o →
    Evaluates family input id (.rounds item) a furthest o

private theorem derived_item {fuel : Nat} (ih : Derived family input fuel) {id : Nat} {e : Expr}
    {a : Activation} {furthest : Int} {o : Outcome}
    (h : evalItem family input (fuel + 1) id e a furthest = some o) :
    Evaluates family input id (.item e) a furthest o := by
  cases e with
  | missing => cases h; exact .missing
  | literal text => cases h; exact .literal
  | pattern p => cases h; exact .pattern
  | rule name =>
    simp only [evalItem] at h
    cases hr : (family.grammarAt id).rule? name with
    | none =>
      rw [hr] at h
      cases h
      exact .undefined hr
    | some body =>
      rw [hr] at h
      exact .rule hr (ih.item h)
  | sequence items =>
    obtain ⟨o, ho, rfl⟩ := Option.map_eq_some_iff.1 h
    exact .sequence (ih.items ho)
  | choice items =>
    obtain ⟨o, ho, rfl⟩ := Option.map_eq_some_iff.1 h
    exact .choice (ih.items ho)
  | wrap name items =>
    obtain ⟨o, ho, rfl⟩ := Option.map_eq_some_iff.1 h
    exact .wrap (ih.items ho)
  | hide items =>
    obtain ⟨o, ho, rfl⟩ := Option.map_eq_some_iff.1 h
    exact .hide (ih.items ho)
  | iterate kind item =>
    cases kind with
    | zeroOrMore | oneOrMore | bounded =>
      obtain ⟨o, ho, rfl⟩ := Option.map_eq_some_iff.1 h
      exact .loop rfl (ih.rounds ho)
    | optional =>
      obtain ⟨o, ho, rfl⟩ := Option.map_eq_some_iff.1 h
      exact .optional (ih.items ho)
    | not =>
      obtain ⟨o, ho, rfl⟩ := Option.map_eq_some_iff.1 h
      exact .not (ih.items ho)
    | unknown min max =>
      obtain ⟨o, ho, rfl⟩ := Option.map_eq_some_iff.1 h
      exact .once (ih.items ho)
  | action effect => exact .action h
  | embed grammar main =>
    cases grammar with
    | none =>
      cases h
      exact .stranded rfl
    | some inner =>
      simp only [evalItem, Family.grammar?, Option.bind_some] at h
      cases hg : family[inner]? with
      | none =>
        rw [hg] at h
        cases h
        exact .stranded hg
      | some g =>
        cases hm : g.rule? main with
        | none =>
          simp only [hg, hm] at h
          cases h
          exact .headless hg hm
        | some body =>
          simp only [hg, hm] at h
          obtain ⟨o, ho, rfl⟩ := Option.map_eq_some_iff.1 h
          exact .embed hg hm (ih.item ho)

private theorem derived_items {fuel : Nat} (ih : Derived family input fuel) {id : Nat}
    {stops : Activation → Bool} {pending : List Expr} {a : Activation} {furthest : Int}
    {o : Outcome} (h : evalItems family input (fuel + 1) id stops pending a furthest = some o) :
    Evaluates family input id (.items stops pending) a furthest o := by
  cases pending with
  | nil =>
    cases h
    exact .nil
  | cons e pending =>
    rw [evalItems] at h
    cases hstop : stops a with
    | true =>
      simp only [hstop, if_true, Option.some.injEq] at h
      exact h ▸ .stopped hstop
    | false =>
      simp only [hstop, Bool.false_eq_true, if_false] at h
      cases he : evalItem family input fuel id e a furthest with
      | none => simp [he] at h
      | some head =>
        have hhead := ih.item he
        simp only [he] at h
        cases head with
        | done b furthest' => exact .cons hstop hhead (ih.items h)
        | raised | aborted | fault =>
          cases h
          exact .halted hstop hhead rfl

private theorem derived_rounds
    {fuel : Nat} (ih : Derived family input fuel) {id : Nat} {item : Expr}
    {a : Activation} {furthest : Int} {o : Outcome}
    (h : evalLoop family input (fuel + 1) id item a furthest = some o) :
    Evaluates family input id (.rounds item) a furthest o := by
  rw [evalLoop] at h
  cases he : evalItem family input fuel id item a furthest with
  | none => simp [he] at h
  | some round =>
    have hround := ih.item he
    simp only [he] at h
    cases round with
    | done b furthest' =>
      simp only [Outcome.andThen] at h
      cases hstop : b.stopsLoop input.size a.cursor with
      | true =>
        simp only [hstop, if_true, Option.some.injEq] at h
        exact h ▸ .last hround hstop
      | false =>
        simp only [hstop, Bool.false_eq_true, if_false] at h
        exact .again hround hstop (ih.rounds h)
    | raised | aborted | fault =>
      cases h
      exact .broken hround rfl

private theorem derived (family : Family) (input : Input) (fuel : Nat) :
    Derived family input fuel := by
  induction fuel with
  | zero =>
    refine ⟨?_, ?_, ?_⟩
    · intro id e a furthest o h
      simp [evalItem] at h
    · intro id stops pending a furthest o h
      simp [evalItems] at h
    · intro id item a furthest o h
      simp [evalLoop] at h
  | succ fuel ih => exact ⟨derived_item ih, derived_items ih, derived_rounds ih⟩

/-- The outcome of a derivation is what the evaluator answers with enough fuel. -/
theorem Evaluates.answered {id : Nat} {task : Task} {a : Activation} {furthest : Int} {o : Outcome}
    (h : Evaluates family input id task a furthest o) :
    ∃ fuel, task.eval family input fuel id a furthest = some o := by
  induction h with
  | missing | literal | pattern => exact ⟨1, rfl⟩
  | undefined h => exact ⟨1, by simp [Task.eval, evalItem, h]⟩
  | rule h _ ih =>
    obtain ⟨fuel, hf⟩ := ih
    exact ⟨fuel + 1, by simpa only [Task.eval, evalItem, h] using hf⟩
  | sequence _ ih | choice _ ih | wrap _ ih | hide _ ih | optional _ ih | not _ ih | once _ ih =>
    obtain ⟨fuel, hf⟩ := ih
    exact ⟨fuel + 1, Option.map_eq_some_iff.2 ⟨_, hf, rfl⟩⟩
  | @loop _ _ _ kind _ _ _ h _ ih =>
    obtain ⟨fuel, hf⟩ := ih
    refine ⟨fuel + 1, ?_⟩
    cases kind <;> cases h <;> exact Option.map_eq_some_iff.2 ⟨_, hf, rfl⟩
  | action h => exact ⟨1, h⟩
  | @stranded _ _ _ grammar _ h =>
    refine ⟨1, ?_⟩
    cases grammar with
    | none => rfl
    | some inner =>
      have hg : family[inner]? = none := h
      simp [Task.eval, evalItem, Family.grammar?, hg]
  | headless hg hm => exact ⟨1, by simp [Task.eval, evalItem, Family.grammar?, hg, hm]⟩
  | embed hg hm _ ih =>
    obtain ⟨fuel, hf⟩ := ih
    refine ⟨fuel + 1, ?_⟩
    simp only [Task.eval, evalItem, Family.grammar?, Option.bind_some, hg, hm]
    exact Option.map_eq_some_iff.2 ⟨_, hf, rfl⟩
  | nil => exact ⟨1, rfl⟩
  | stopped h => exact ItemsYield.stopped h
  | cons h _ _ head tail => exact ItemsYield.cons h head tail
  | halted h _ ho head => exact ItemsYield.halted h head ho
  | last _ h round => exact LoopYields.stopped round h
  | again _ h _ round more => exact LoopYields.again round h more
  | broken _ ho round => exact LoopYields.halted round ho

/-- Derivations and the evaluator agree. -/
theorem evaluates_iff {id : Nat} {task : Task} {a : Activation} {furthest : Int} {o : Outcome} :
    Evaluates family input id task a furthest o ↔
      ∃ fuel, task.eval family input fuel id a furthest = some o := by
  refine ⟨Evaluates.answered, ?_⟩
  rintro ⟨fuel, h⟩
  cases task with
  | item e => exact (derived family input fuel).item h
  | items stops pending => exact (derived family input fuel).items h
  | rounds item => exact (derived family input fuel).rounds h

end

end Evaluator

end PegMachine
