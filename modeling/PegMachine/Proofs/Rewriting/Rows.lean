import PegMachine.Proofs.Rewriting.Judgements
import PegMachine.Proofs.Rewriting.Refinement

namespace PegMachine.Evaluator

open Machine

section

variable (family : Family) (input : Input) (id : Nat)

/-- What comes of items that all have to match, one after the other. -/
def InRow : List Expr → Int → Int → Judgement → Prop
  | [], cursor, furthest, j => j = .matched cursor [] furthest
  | e :: items, cursor, furthest, j =>
    ∃ first, Judges family input id e cursor furthest first ∧ first.Then (InRow items) j

/-- What comes of items of which the first one that matches is taken. -/
def InTurn : List Expr → Int → Int → Judgement → Prop
  | [], _, furthest, j => j = .missed furthest
  | e :: items, cursor, furthest, j =>
    ∃ first, Judges family input id e cursor furthest first ∧ first.Else (InTurn items cursor) j

end

section

variable {family : Family} {input : Input} {id : Nat} {e : Expr} {before after : List Expr}
  {cursor furthest : Int} {j : Judgement}

theorem inRow_append : InRow family input id (before ++ after) cursor furthest j ↔
    ∃ m, InRow family input id before cursor furthest m ∧
      m.Then (InRow family input id after) j := by
  -- the induction unrolls `before`, and at each item goes on by associativity
  induction before generalizing cursor furthest j with
  | nil => simp [InRow, Judgement.Then, Judgement.after_nil]
  | cons e before ih =>
    have hrest : InRow family input id (before ++ after) = fun cursor furthest j =>
        ∃ m, InRow family input id before cursor furthest m ∧
          m.Then (InRow family input id after) j := by
      funext cursor furthest j
      exact propext ih
    simp only [List.cons_append, InRow, hrest, Judgement.then_assoc]
    constructor
    · rintro ⟨first, hfirst, m, hm, hj⟩
      exact ⟨m, ⟨first, hfirst, hm⟩, hj⟩
    · rintro ⟨m, ⟨first, hfirst, hm⟩, hj⟩
      exact ⟨first, hfirst, m, hm, hj⟩

theorem inTurn_append : InTurn family input id (before ++ after) cursor furthest j ↔
    ∃ m, InTurn family input id before cursor furthest m ∧
      m.Else (InTurn family input id after cursor) j := by
  induction before generalizing furthest j with
  | nil => simp [InTurn, Judgement.Else]
  | cons e before ih =>
    have hrest : InTurn family input id (before ++ after) cursor = fun furthest j =>
        ∃ m, InTurn family input id before cursor furthest m ∧
          m.Else (InTurn family input id after cursor) j := by
      funext furthest j
      exact propext ih
    simp only [List.cons_append, InTurn, hrest, Judgement.else_assoc]
    constructor
    · rintro ⟨first, hfirst, m, hm, hj⟩
      exact ⟨m, ⟨first, hfirst, hm⟩, hj⟩
    · rintro ⟨m, ⟨first, hfirst, hm⟩, hj⟩
      exact ⟨first, hfirst, m, hm, hj⟩

theorem inRow_singleton : InRow family input id [e] cursor furthest j ↔
    Judges family input id e cursor furthest j := by
  simp [InRow, Judgement.then_nothing]

theorem inTurn_singleton : InTurn family input id [e] cursor furthest j ↔
    Judges family input id e cursor furthest j := by
  simp [InTurn, Judgement.else_nothing]

end

/-- Items did to an activation what they are judged to do. By `fails` the combinator around them
tells that they did not match, and the activation had some output before. -/
def Judgement.Shows (fails : Activation → Bool) (before : List Value) (j : Judgement)
    (o : Outcome) : Prop :=
  match j with
  | .missed furthest => ∃ b, o = .done b furthest ∧ fails b = true
  | .matched cursor output furthest =>
    ∃ b, o = .done b furthest ∧ fails b = false ∧ b.cursor = cursor ∧ b.output = output ++ before
  | .ended o' _ => o = o'

theorem Judgement.shows_after {fails : Activation → Bool} {before output : List Value}
    {j : Judgement} {o : Outcome} :
    (j.after output).Shows fails before o ↔ j.Shows fails (output ++ before) o := by
  cases j <;> simp [Shows, after]

/-- The first match of a choice is the one that it stops at. -/
theorem stopsChoice_succeed {a : Activation} (ha : a.matched = 0) (cursor : Int)
    (output : List Value) : (a.succeed cursor output).stopsChoice = true ∧
      ((a.succeed cursor output).matched == 0) = false := by
  simp [Activation.stopsChoice, Activation.succeed, ha, Frame.oneMore]

section

variable {family : Family} {input : Input} {id : Nat} {e : Expr} {items : List Expr}
  {stops : Activation → Bool} {a : Activation} {furthest : Int} {o : Outcome} {j : Judgement}

/-- After the outcome of an item the others are evaluated, unless all runs end. -/
def Continues (family : Family) (input : Input) (id : Nat) (stops : Activation → Bool)
    (items : List Expr) (o : Outcome) : Outcome → Prop
  | .done b furthest => Evaluates family input id (.items stops items) b furthest o
  | head => o = head

theorem continues_of_ended {head : Outcome} (hhead : head.isDone = false) :
    Continues family input id stops items o head ↔ o = head := by
  cases head with
  | done => cases hhead
  | raised | aborted | fault => rfl

theorem Evaluates.of_stops (hstop : stops a = true)
    (h : Evaluates family input id (.items stops items) a furthest o) : o = .done a furthest := by
  cases h with
  | nil | stopped => rfl
  | cons hgo | halted hgo =>
    rw [hstop] at hgo
    cases hgo

/-- Items go on in the activation in which the first one leaves them. -/
theorem Judges.cons {first : Judgement} (hfirst : Judges family input id e a.cursor furthest first)
    (hgo : stops a = false) (hrest : Continues family input id stops items o (first.on a)) :
    Evaluates family input id (.items stops (e :: items)) a furthest o := by
  have head := hfirst a rfl
  cases hon : first.on a with
  | done b furthest' =>
    rw [hon] at head hrest
    exact .cons hgo head hrest
  | raised | aborted | fault =>
    rw [hon] at head hrest
    obtain rfl := hrest
    exact .halted hgo head rfl

theorem Evaluates.of_cons (hfamily : family.Actionless) (he : e.Actionless)
    (hgo : stops a = false)
    (h : Evaluates family input id (.items stops (e :: items)) a furthest o) :
    ∃ first, Judges family input id e a.cursor furthest first ∧
      Continues family input id stops items o (first.on a) := by
  cases h with
  | stopped hstop =>
    rw [hgo] at hstop
    cases hstop
  | cons _ head tail =>
    obtain ⟨first, hfirst, hon⟩ := head.judged hfamily he
    exact ⟨first, hfirst, hon ▸ tail⟩
  | halted _ head ho =>
    obtain ⟨first, hfirst, hon⟩ := head.judged hfamily he
    exact ⟨first, hfirst, hon ▸ (continues_of_ended ho).2 rfl⟩

/-- What items in a row are judged to do, those of a sequence do. -/
theorem InRow.evaluates (ha : a.failed = false)
    (h : InRow family input id items a.cursor furthest j) :
    ∃ o, Evaluates family input id (.items Activation.stopsSequence items) a furthest o ∧
      j.Shows (·.failed) a.output o := by
  induction items generalizing a furthest j with
  | nil =>
    obtain rfl : j = _ := h
    exact ⟨_, .nil, a, rfl, ha, rfl, rfl⟩
  | cons e items ih =>
    obtain ⟨first, hfirst, hrest⟩ := h
    cases first with
    | missed furthest' =>
      obtain rfl : j = _ := hrest
      exact ⟨_, hfirst.cons ha (.stopped rfl), a.fail, rfl, rfl⟩
    | matched cursor output furthest' =>
      obtain ⟨later, hlater, rfl⟩ := hrest
      obtain ⟨o, ho, hshows⟩ := ih (a := a.succeed cursor output) ha hlater
      exact ⟨o, hfirst.cons ha ho, Judgement.shows_after.2 hshows⟩
    | ended o' ho' =>
      obtain rfl : j = _ := hrest
      exact ⟨o', hfirst.cons ha ((continues_of_ended ho').2 rfl), rfl⟩

/-- What items in turn are judged to do, those of a choice do. -/
theorem InTurn.evaluates (ha : a.matched = 0)
    (h : InTurn family input id items a.cursor furthest j) :
    ∃ o, Evaluates family input id (.items Activation.stopsChoice items) a furthest o ∧
      j.Shows (·.matched == 0) a.output o := by
  have hgo : a.stopsChoice = false := by simp [Activation.stopsChoice, ha]
  induction items generalizing a furthest j with
  | nil =>
    obtain rfl : j = _ := h
    exact ⟨_, .nil, a, rfl, beq_iff_eq.2 ha⟩
  | cons e items ih =>
    obtain ⟨first, hfirst, hrest⟩ := h
    cases first with
    | missed furthest' =>
      obtain ⟨o, ho, hshows⟩ := ih (a := a.fail) ha hrest hgo
      exact ⟨o, hfirst.cons hgo ho, hshows⟩
    | matched cursor output furthest' =>
      -- nothing matched before, so this match is the one that is counted
      obtain rfl : j = _ := hrest
      obtain ⟨hstop, hmatched⟩ := stopsChoice_succeed ha cursor output
      exact ⟨_, hfirst.cons hgo (.stopped hstop), _, rfl, hmatched, rfl, rfl⟩
    | ended o' ho' =>
      obtain rfl : j = _ := hrest
      exact ⟨o', hfirst.cons hgo ((continues_of_ended ho').2 rfl), rfl⟩

variable (hfamily : family.Actionless) (hitems : ∀ item ∈ items, item.Actionless)
include hfamily hitems

/-- What the items of a sequence do, they are judged to do in a row. -/
theorem Evaluates.inRow (ha : a.failed = false)
    (h : Evaluates family input id (.items Activation.stopsSequence items) a furthest o) :
    ∃ j, InRow family input id items a.cursor furthest j ∧ j.Shows (·.failed) a.output o := by
  induction items generalizing a furthest with
  | nil =>
    have ho : o = .done a furthest := by cases h <;> rfl
    exact ⟨_, rfl, a, ho, ha, rfl, rfl⟩
  | cons e items ih =>
    obtain ⟨he, hitems⟩ := List.forall_mem_cons.1 hitems
    obtain ⟨first, hfirst, hrest⟩ := h.of_cons hfamily he ha
    cases first with
    | missed furthest' => exact ⟨_, ⟨_, hfirst, rfl⟩, a.fail, Evaluates.of_stops rfl hrest, rfl⟩
    | matched cursor output furthest' =>
      obtain ⟨later, hlater, hshows⟩ := ih hitems (a := a.succeed cursor output) ha hrest
      exact ⟨_, ⟨_, hfirst, later, hlater, rfl⟩, Judgement.shows_after.2 hshows⟩
    | ended o' ho' => exact ⟨_, ⟨_, hfirst, rfl⟩, (continues_of_ended ho').1 hrest⟩

/-- What the items of a choice do, they are judged to do in turn. -/
theorem Evaluates.inTurn (ha : a.matched = 0)
    (h : Evaluates family input id (.items Activation.stopsChoice items) a furthest o) :
    ∃ j, InTurn family input id items a.cursor furthest j ∧
      j.Shows (·.matched == 0) a.output o := by
  have hgo : a.stopsChoice = false := by simp [Activation.stopsChoice, ha]
  induction items generalizing a furthest with
  | nil =>
    have ho : o = .done a furthest := by cases h <;> rfl
    exact ⟨_, rfl, a, ho, beq_iff_eq.2 ha⟩
  | cons e items ih =>
    obtain ⟨he, hitems⟩ := List.forall_mem_cons.1 hitems
    obtain ⟨first, hfirst, hrest⟩ := h.of_cons hfamily he hgo
    cases first with
    | missed furthest' =>
      obtain ⟨later, hlater, hshows⟩ := ih hitems (a := a.fail) ha hrest hgo
      exact ⟨later, ⟨_, hfirst, hlater⟩, hshows⟩
    | matched cursor output furthest' =>
      obtain ⟨hstop, hmatched⟩ := stopsChoice_succeed ha cursor output
      exact ⟨_, ⟨_, hfirst, rfl⟩, _, Evaluates.of_stops hstop hrest, hmatched, rfl, rfl⟩
    | ended o' ho' => exact ⟨_, ⟨_, hfirst, rfl⟩, (continues_of_ended ho').1 hrest⟩

end

section

variable {fails : Activation → Bool} {take? : Activation → Option Activation} {a : Activation}
  {before : List Value} {o o' : Outcome} {j : Judgement}

/-- A combinator that adds what its items put out does what they are judged to do. -/
theorem into_of_shows (hmissed : ∀ b, fails b = true → take? b = some a.fail)
    (hmatched : ∀ b, fails b = false → take? b = some (a.succeed b.cursor b.output))
    (h : j.Shows fails [] o) : o.into take? = j.on a := by
  cases j with
  | missed furthest =>
    obtain ⟨b, rfl, hb⟩ := h
    simp only [Outcome.into, hmissed b hb, Judgement.on]
  | matched cursor output furthest =>
    obtain ⟨b, rfl, hb, rfl, hout⟩ := h
    simp only [Outcome.into, hmatched b hb, hout, List.append_nil, Judgement.on]
  | ended e he =>
    obtain rfl : o = e := h
    cases o with
    | done => cases he
    | raised | aborted | fault => rfl

private theorem into_takeSequence (h : j.Shows (·.failed) [] o) :
    o.into (fun b => some (a.takeSequence b)) = j.on a := by
  apply into_of_shows _ _ h
  · intro b hb
    simp [Activation.takeSequence, hb]
  · intro b hb
    simp [Activation.takeSequence, hb]

private theorem into_takeChoice (h : j.Shows (·.matched == 0) [] o) :
    o.into (fun b => some (a.takeChoice b)) = j.on a := by
  apply into_of_shows _ _ h
  · intro b hb
    simp [Activation.takeChoice, beq_iff_eq.1 hb]
  · intro b hb
    simp [Activation.takeChoice, beq_eq_false_iff_ne.1 hb]

/-- Of what its items did a combinator sees whether they matched and, if so, where that ended and
what it put out. -/
def Observes (take? : Activation → Option Activation) : Prop :=
  ∀ b b' : Activation, b.failed = b'.failed →
    (b.failed = false → b.cursor = b'.cursor ∧ b.output = b'.output) → take? b = take? b'

private theorem Observes.into_eq (htake : Observes take?) (h : j.Shows (·.failed) before o)
    (h' : j.Shows (·.failed) before o') : o.into take? = o'.into take? := by
  cases j with
  | missed furthest =>
    obtain ⟨b, rfl, hb⟩ := h
    obtain ⟨b', rfl, hb'⟩ := h'
    have htaken : take? b = take? b' := by
      apply htake b b' (hb.trans hb'.symm)
      intro hmatched
      rw [show b.failed = true from hb] at hmatched
      cases hmatched
    simp only [Outcome.into, htaken]
  | matched cursor output furthest =>
    obtain ⟨b, rfl, hb, hcursor, houtput⟩ := h
    obtain ⟨b', rfl, hb', hcursor', houtput'⟩ := h'
    have htaken : take? b = take? b' := by
      apply htake b b' (hb.trans hb'.symm)
      intro _
      exact ⟨hcursor.trans hcursor'.symm, houtput.trans houtput'.symm⟩
    simp only [Outcome.into, htaken]
  | ended e he =>
    obtain rfl : o = e := h
    obtain rfl : o' = o := h'
    rfl

private theorem observes_takeSequence : Observes fun b => some (a.takeSequence b) := by
  intro b b' hfailed hmatched
  cases hb : b.failed with
  | true => simp [Activation.takeSequence, ← hfailed, hb]
  | false => simp [Activation.takeSequence, ← hfailed, hb, hmatched hb]

private theorem observes_takeHide : Observes fun b => some (a.takeHide b) := by
  intro b b' hfailed hmatched
  cases hb : b.failed with
  | true => simp [Activation.takeHide, ← hfailed, hb]
  | false => simp [Activation.takeHide, ← hfailed, hb, hmatched hb]

private theorem observes_takeWrap? {input : Input} {name : Bytes} :
    Observes (a.takeWrap? input name) := by
  intro b b' hfailed hmatched
  cases hb : b.failed with
  | true => simp [Activation.takeWrap?, ← hfailed, hb]
  | false => simp [Activation.takeWrap?, ← hfailed, hb, hmatched hb]

end

section

variable {family : Family} {input : Input} {id : Nat} {e e' : Expr} {items items' : List Expr}
  {cursor furthest : Int} {j : Judgement}

/-- An item without actions does what it is judged to do. -/
theorem refines_of_judges (hfamily : family.Actionless) (he : e.Actionless)
    (h : ∀ cursor furthest j, Judges family input id e cursor furthest j →
      Judges family input id e' cursor furthest j) : Refines family input id e e' := by
  intro a furthest o heval
  obtain ⟨j, hj, rfl⟩ := heval.judged hfamily he
  exact h a.cursor furthest j hj a rfl

variable (hfamily : family.Actionless) (hitems : ∀ item ∈ items, item.Actionless)
include hfamily hitems

theorem judges_sequence : Judges family input id (.sequence items) cursor furthest j ↔
    InRow family input id items cursor furthest j := by
  constructor
  · intro h
    have heval := h (.start cursor) rfl
    generalize ho : j.on (.start cursor) = o at heval
    cases heval with
    | sequence inner =>
      obtain ⟨j', hj', hshows⟩ := inner.inRow hfamily hitems rfl
      rw [into_takeSequence hshows] at ho
      rwa [Judgement.on_start_injective ho]
  · rintro h a rfl
    obtain ⟨o, inner, hshows⟩ := InRow.evaluates (a := .start a.cursor) rfl h
    rw [← into_takeSequence hshows]
    exact .sequence inner

theorem judges_choice : Judges family input id (.choice items) cursor furthest j ↔
    InTurn family input id items cursor furthest j := by
  constructor
  · intro h
    have heval := h (.start cursor) rfl
    generalize ho : j.on (.start cursor) = o at heval
    cases heval with
    | choice inner =>
      obtain ⟨j', hj', hshows⟩ := inner.inTurn hfamily hitems rfl
      rw [into_takeChoice hshows] at ho
      rwa [Judgement.on_start_injective ho]
  · rintro h a rfl
    obtain ⟨o, inner, hshows⟩ := InTurn.evaluates (a := .start a.cursor) rfl h
    rw [← into_takeChoice hshows]
    exact .choice inner

/-- Combinators do the same with items that are judged alike in a row. -/
theorem refines_chain {row : List Expr → Expr} (hrow : Expr.Chain row)
    (h : ∀ cursor furthest j, InRow family input id items cursor furthest j →
      InRow family input id items' cursor furthest j) :
    Refines family input id (row items) (row items') := by
  intro a furthest o heval
  have hinner {o : Outcome} (inner : Evaluates family input id
      (.items Activation.stopsSequence items) (.start a.cursor) furthest o) :
      ∃ o', Evaluates family input id (.items Activation.stopsSequence items')
        (.start a.cursor) furthest o' ∧ ∀ take?, Observes take? → o.into take? = o'.into take? := by
    obtain ⟨j, hj, hshows⟩ := inner.inRow hfamily hitems rfl
    obtain ⟨o', inner', hshows'⟩ := InRow.evaluates (a := .start a.cursor) rfl (h _ _ _ hj)
    exact ⟨o', inner', fun take? htake => htake.into_eq hshows hshows'⟩
  cases hrow with
  | sequence =>
    cases heval with
    | sequence inner =>
      obtain ⟨o', inner', hinto⟩ := hinner inner
      rw [hinto _ observes_takeSequence]
      exact .sequence inner'
  | wrap name =>
    cases heval with
    | wrap inner =>
      obtain ⟨o', inner', hinto⟩ := hinner inner
      rw [hinto _ observes_takeWrap?]
      exact .wrap inner'
  | hide =>
    cases heval with
    | hide inner =>
      obtain ⟨o', inner', hinto⟩ := hinner inner
      rw [hinto _ observes_takeHide]
      exact .hide inner'

end

end PegMachine.Evaluator
