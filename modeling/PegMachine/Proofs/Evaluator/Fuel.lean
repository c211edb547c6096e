import PegMachine.Proofs.Evaluator.Basic

namespace PegMachine.Evaluator

open Machine

variable {family : Family} {input : Input}

/-- One more unit of fuel changes no answer. -/
structure Stable (family : Family) (input : Input) (fuel : Nat) : Prop where
  item : ∀ {id : Nat} {e : Expr} {a : Activation} {furthest : Int} {o : Outcome},
    evalItem family input fuel id e a furthest = some o →
    evalItem family input (fuel + 1) id e a furthest = some o
  items : ∀ {id : Nat} {stops : Activation → Bool} {pending : List Expr} {a : Activation}
      {furthest : Int} {o : Outcome},
    evalItems family input fuel id stops pending a furthest = some o →
    evalItems family input (fuel + 1) id stops pending a furthest = some o
  loop : ∀ {id : Nat} {item : Expr} {a : Activation} {furthest : Int} {o : Outcome},
    evalLoop family input fuel id item a furthest = some o →
    evalLoop family input (fuel + 1) id item a furthest = some o

theorem andThen_stable {o o' : Outcome} {next next' : Activation → Int → Option Outcome}
    (hn : ∀ b furthest, next b furthest = some o' → next' b furthest = some o')
    (h : o.andThen next = some o') : o.andThen next' = some o' := by
  cases o with
  | done b furthest => exact hn b furthest h
  | raised payload furthest => exact h
  | aborted e furthest => exact h
  | fault => exact h

private theorem stable_items {fuel : Nat} (ih : Stable family input fuel) {id : Nat}
    {stops : Activation → Bool} {pending : List Expr} {a : Activation} {furthest : Int}
    {o : Outcome} (h : evalItems family input (fuel + 1) id stops pending a furthest = some o) :
    evalItems family input (fuel + 2) id stops pending a furthest = some o := by
  cases pending with
  | nil => exact h
  | cons e pending =>
    rw [evalItems] at h ⊢
    cases hstop : stops a with
    | true => simpa [hstop] using h
    | false =>
      simp only [hstop, Bool.false_eq_true, if_false] at h ⊢
      cases he : evalItem family input fuel id e a furthest with
      | none => simp [he] at h
      | some o' =>
        simp only [he] at h
        simp only [ih.item he]
        exact andThen_stable (fun _ _ => ih.items) h

private theorem stable_loop {fuel : Nat} (ih : Stable family input fuel) {id : Nat} {item : Expr}
    {a : Activation} {furthest : Int} {o : Outcome}
    (h : evalLoop family input (fuel + 1) id item a furthest = some o) :
    evalLoop family input (fuel + 2) id item a furthest = some o := by
  rw [evalLoop] at h ⊢
  cases he : evalItem family input fuel id item a furthest with
  | none => simp [he] at h
  | some o' =>
    simp only [he] at h
    simp only [ih.item he]
    refine andThen_stable (fun b furthest' hn => ?_) h
    cases hstop : b.stopsLoop input.size a.cursor with
    | true => simpa [hstop] using hn
    | false =>
      simp only [hstop, Bool.false_eq_true, if_false] at hn ⊢
      exact ih.loop hn

private theorem stable_item {fuel : Nat} (ih : Stable family input fuel) {id : Nat} {e : Expr}
    {a : Activation} {furthest : Int} {o : Outcome}
    (h : evalItem family input (fuel + 1) id e a furthest = some o) :
    evalItem family input (fuel + 2) id e a furthest = some o := by
  -- what is done with the outcome of the items does not depend on the fuel
  have enclose {stops : Activation → Bool} {items : List Expr} {f : Outcome → Outcome}
      (h : (evalItems family input fuel id stops items (.start a.cursor) furthest).map f = some o) :
      (evalItems family input (fuel + 1) id stops items (.start a.cursor) furthest).map f =
        some o := by
    obtain ⟨o', ho', hf⟩ := Option.map_eq_some_iff.1 h
    exact Option.map_eq_some_iff.2 ⟨o', ih.items ho', hf⟩
  have repeated {item : Expr} {f : Outcome → Outcome}
      (h : (evalLoop family input fuel id item (.start a.cursor) furthest).map f = some o) :
      (evalLoop family input (fuel + 1) id item (.start a.cursor) furthest).map f = some o := by
    obtain ⟨o', ho', hf⟩ := Option.map_eq_some_iff.1 h
    exact Option.map_eq_some_iff.2 ⟨o', ih.loop ho', hf⟩
  cases e with
  | missing | literal | pattern | action => exact h
  | rule name =>
    simp only [evalItem] at h ⊢
    cases hr : (family.grammarAt id).rule? name with
    | none => simpa [hr] using h
    | some body =>
      simp only [hr] at h ⊢
      exact ih.item h
  | sequence items => exact enclose h
  | choice items => exact enclose h
  | wrap name items => exact enclose h
  | hide items => exact enclose h
  | iterate repetition item =>
    cases repetition with
    | zeroOrMore => exact repeated h
    | oneOrMore => exact repeated h
    | bounded min max => exact repeated h
    | optional => exact enclose h
    | not => exact enclose h
    | unknown min max => exact enclose h
  | embed grammar main =>
    simp only [evalItem] at h ⊢
    split at h <;> try exact h
    split at h
    · exact h
    · obtain ⟨o', ho', hf⟩ := Option.map_eq_some_iff.1 h
      exact Option.map_eq_some_iff.2 ⟨o', ih.item ho', hf⟩

theorem stable (family : Family) (input : Input) (fuel : Nat) : Stable family input fuel := by
  induction fuel with
  | zero =>
    refine ⟨?_, ?_, ?_⟩
    · intro id e a furthest o h
      simp [evalItem] at h
    · intro id stops pending a furthest o h
      simp [evalItems] at h
    · intro id item a furthest o h
      simp [evalLoop] at h
  | succ fuel ih => exact ⟨stable_item ih, stable_items ih, stable_loop ih⟩

theorem evalItem_mono {fuel more id : Nat} {e : Expr} {a : Activation} {furthest : Int}
    {o : Outcome} (hle : fuel ≤ more) (h : evalItem family input fuel id e a furthest = some o) :
    evalItem family input more id e a furthest = some o := by
  induction hle with
  | refl => exact h
  | step _ ih => exact (stable family input _).item ih

private theorem evalItems_mono
    {fuel more id : Nat} {stops : Activation → Bool} {pending : List Expr}
    {a : Activation} {furthest : Int} {o : Outcome} (hle : fuel ≤ more)
    (h : evalItems family input fuel id stops pending a furthest = some o) :
    evalItems family input more id stops pending a furthest = some o := by
  induction hle with
  | refl => exact h
  | step _ ih => exact (stable family input _).items ih

private theorem evalLoop_mono {fuel more id : Nat} {item : Expr} {a : Activation} {furthest : Int}
    {o : Outcome} (hle : fuel ≤ more)
    (h : evalLoop family input fuel id item a furthest = some o) :
    evalLoop family input more id item a furthest = some o := by
  induction hle with
  | refl => exact h
  | step _ ih => exact (stable family input _).loop ih

/-- An item evaluates to an outcome. -/
def Yields (family : Family) (input : Input) (id : Nat) (e : Expr) (a : Activation)
    (furthest : Int) (o : Outcome) : Prop :=
  ∃ fuel, evalItem family input fuel id e a furthest = some o

def ItemsYield (family : Family) (input : Input) (id : Nat) (stops : Activation → Bool)
    (pending : List Expr) (a : Activation) (furthest : Int) (o : Outcome) : Prop :=
  ∃ fuel, evalItems family input fuel id stops pending a furthest = some o

def LoopYields (family : Family) (input : Input) (id : Nat) (item : Expr) (a : Activation)
    (furthest : Int) (o : Outcome) : Prop :=
  ∃ fuel, evalLoop family input fuel id item a furthest = some o

section

variable {id : Nat} {e item : Expr} {a b : Activation} {furthest furthest' : Int} {o : Outcome}
  {stops : Activation → Bool} {pending : List Expr}

theorem Yields.unique {o' : Outcome} (h : Yields family input id e a furthest o)
    (h' : Yields family input id e a furthest o') : o = o' := by
  obtain ⟨n, hn⟩ := h
  obtain ⟨m, hm⟩ := h'
  have hmax := evalItem_mono (Nat.le_max_left n m) hn
  rw [evalItem_mono (Nat.le_max_right n m) hm] at hmax
  cases hmax
  rfl

theorem Yields.of_rule {name : Bytes} {body : Expr}
    (hr : (family.grammarAt id).rule? name = some body)
    (h : Yields family input id body a furthest o) :
    Yields family input id (.rule name) a furthest o := by
  obtain ⟨fuel, hf⟩ := h
  exact ⟨fuel + 1, by simp only [evalItem, hr, hf]⟩

theorem Yields.sequence
    (h : ItemsYield family input id Activation.stopsSequence pending (.start a.cursor) furthest
      (.done b furthest')) :
    Yields family input id (.sequence pending) a furthest (.done (a.takeSequence b) furthest') := by
  obtain ⟨fuel, hf⟩ := h
  exact ⟨fuel + 1, Option.map_eq_some_iff.2 ⟨_, hf, rfl⟩⟩

theorem Yields.choice
    (h : ItemsYield family input id Activation.stopsChoice pending (.start a.cursor) furthest
      (.done b furthest')) :
    Yields family input id (.choice pending) a furthest (.done (a.takeChoice b) furthest') := by
  obtain ⟨fuel, hf⟩ := h
  exact ⟨fuel + 1, Option.map_eq_some_iff.2 ⟨_, hf, rfl⟩⟩

theorem Yields.wrap {c : Activation} {name : Bytes}
    (h : ItemsYield family input id Activation.stopsSequence pending (.start a.cursor) furthest
      (.done b furthest')) (hc : a.takeWrap? input name b = some c) :
    Yields family input id (.wrap name pending) a furthest (.done c furthest') := by
  obtain ⟨fuel, hf⟩ := h
  exact ⟨fuel + 1, Option.map_eq_some_iff.2 ⟨_, hf, by rw [Outcome.into, hc]⟩⟩

theorem Yields.hide
    (h : ItemsYield family input id Activation.stopsSequence pending (.start a.cursor) furthest
      (.done b furthest')) :
    Yields family input id (.hide pending) a furthest (.done (a.takeHide b) furthest') := by
  obtain ⟨fuel, hf⟩ := h
  exact ⟨fuel + 1, Option.map_eq_some_iff.2 ⟨_, hf, rfl⟩⟩

theorem Yields.optional
    (h : ItemsYield family input id Activation.stopsSequence [item] (.start a.cursor) furthest
      (.done b furthest')) :
    Yields family input id (.iterate .optional item) a furthest
      (.done (a.takeOptional b) furthest') := by
  obtain ⟨fuel, hf⟩ := h
  exact ⟨fuel + 1, Option.map_eq_some_iff.2 ⟨_, hf, rfl⟩⟩

theorem Yields.not
    (h : ItemsYield family input id Activation.stopsNot [item] (.start a.cursor) furthest
      (.done b furthest')) :
    Yields family input id (.iterate .not item) a furthest (.done (a.takeNot b) furthest') := by
  obtain ⟨fuel, hf⟩ := h
  exact ⟨fuel + 1, Option.map_eq_some_iff.2 ⟨_, hf, rfl⟩⟩

theorem Yields.zeroOrMore
    (h : LoopYields family input id item (.start a.cursor) furthest (.done b furthest')) :
    Yields family input id (.iterate .zeroOrMore item) a furthest
      (.done (a.takeLoop .zeroOrMore b) furthest') := by
  obtain ⟨fuel, hf⟩ := h
  exact ⟨fuel + 1, Option.map_eq_some_iff.2 ⟨_, hf, rfl⟩⟩

theorem Yields.oneOrMore
    (h : LoopYields family input id item (.start a.cursor) furthest (.done b furthest')) :
    Yields family input id (.iterate .oneOrMore item) a furthest
      (.done (a.takeLoop .oneOrMore b) furthest') := by
  obtain ⟨fuel, hf⟩ := h
  exact ⟨fuel + 1, Option.map_eq_some_iff.2 ⟨_, hf, rfl⟩⟩

theorem ItemsYield.nil : ItemsYield family input id stops [] a furthest (.done a furthest) :=
  ⟨1, rfl⟩

theorem ItemsYield.stopped (h : stops a = true) :
    ItemsYield family input id stops pending a furthest (.done a furthest) := by
  cases pending with
  | nil => exact .nil
  | cons e pending => exact ⟨1, by simp [evalItems, h]⟩

theorem ItemsYield.cons (h : stops a = false)
    (he : Yields family input id e a furthest (.done b furthest'))
    (hs : ItemsYield family input id stops pending b furthest' o) :
    ItemsYield family input id stops (e :: pending) a furthest o := by
  obtain ⟨n, hn⟩ := he
  obtain ⟨m, hm⟩ := hs
  refine ⟨max n m + 1, ?_⟩
  rw [evalItems]
  simp only [h, Bool.false_eq_true, if_false, evalItem_mono (Nat.le_max_left n m) hn]
  exact evalItems_mono (Nat.le_max_right n m) hm

/-- What ends all runs is the outcome of the items around it. -/
theorem ItemsYield.halted (h : stops a = false) (he : Yields family input id e a furthest o)
    (ho : o.isDone = false) : ItemsYield family input id stops (e :: pending) a furthest o := by
  obtain ⟨n, hn⟩ := he
  refine ⟨n + 1, ?_⟩
  rw [evalItems]
  simp only [h, Bool.false_eq_true, if_false, hn]
  cases o <;> first | rfl | cases ho

theorem LoopYields.again (he : Yields family input id item a furthest (.done b furthest'))
    (h : b.stopsLoop input.size a.cursor = false)
    (hs : LoopYields family input id item b furthest' o) :
    LoopYields family input id item a furthest o := by
  obtain ⟨n, hn⟩ := he
  obtain ⟨m, hm⟩ := hs
  refine ⟨max n m + 1, ?_⟩
  rw [evalLoop]
  simp only [evalItem_mono (Nat.le_max_left n m) hn, Outcome.andThen, h, Bool.false_eq_true,
    if_false]
  exact evalLoop_mono (Nat.le_max_right n m) hm

theorem LoopYields.stopped (he : Yields family input id item a furthest (.done b furthest'))
    (h : b.stopsLoop input.size a.cursor = true) :
    LoopYields family input id item a furthest (.done b furthest') := by
  obtain ⟨n, hn⟩ := he
  exact ⟨n + 1, by simp [evalLoop, hn, Outcome.andThen, h]⟩

theorem LoopYields.halted (he : Yields family input id item a furthest o)
    (ho : o.isDone = false) : LoopYields family input id item a furthest o := by
  obtain ⟨n, hn⟩ := he
  refine ⟨n + 1, ?_⟩
  rw [evalLoop]
  simp only [hn]
  cases o <;> first | rfl | cases ho

end

end PegMachine.Evaluator
