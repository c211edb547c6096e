import PegMachine.Proofs.Evaluator.Frames

namespace PegMachine.Evaluator

open Machine

/-- The result that a machine stops with. -/
def resultOf (s : State) : Ending → Result
  | .values vs cursor => .values vs cursor s.run.furthest
  | .error e cursor => .error e cursor s.run.furthest
  | .fault => .fault

/-- The machine ends with a result. -/
def EndsWith (env : Env) (s : State) (result : Result) : Prop :=
  ∃ fuel t ending, run env fuel s = some (t, ending) ∧ resultOf t ending = result

namespace EndsWith

variable {env : Env} {s t : State} {result : Result}

theorem of_stop {ending : Ending} (h : step env s = .stop t ending)
    (hr : resultOf t ending = result) : EndsWith env s result :=
  ⟨1, t, ending, by rw [run, h], hr⟩

theorem of_steps {n : Nat} (h : Steps env n s t) (he : EndsWith env t result) :
    EndsWith env s result := by
  obtain ⟨fuel, u, ending, hu, hr⟩ := he
  exact ⟨n + fuel, u, ending, by rw [h.run_add, hu], hr⟩

theorem of_step_eq (h : step env s = step env t) (he : EndsWith env t result) :
    EndsWith env s result := by
  obtain ⟨fuel, u, ending, hu, hr⟩ := he
  exact ⟨fuel, u, ending, by rw [run_step_eq h, hu], hr⟩

theorem unique {result' : Result} (h : EndsWith env s result) (h' : EndsWith env s result') :
    result = result' := by
  obtain ⟨n, t, ending, ht, rfl⟩ := h
  obtain ⟨m, t', ending', ht', rfl⟩ := h'
  have hmax := run_mono ht (Nat.le_max_left n m)
  rw [run_mono ht' (Nat.le_max_right n m)] at hmax
  cases hmax
  rfl

theorem isSome (h : EndsWith env s result) : ∃ fuel, (run env fuel s).isSome := by
  obtain ⟨fuel, t, ending, ht, -⟩ := h
  exact ⟨fuel, by simp [ht]⟩

end EndsWith

/-- The cursor of the lowest frame, where `cursor` is that of the frame above the given ones. -/
def bottom (cursor : Int) : List Frame → Int
  | [] => cursor
  | f :: frames => bottom f.cursor frames

theorem rootCursor_eq (frames : List Frame) (f : Frame) (popped : Int) :
    Stack.rootCursor ⟨f :: frames, popped⟩ = bottom f.cursor frames := by
  induction frames generalizing f with
  | nil => rfl
  | cons g frames ih => exact ih g

theorem Stands.rootCursor {r : Run} {callers : List Run} {f : Frame} {frames : List Frame}
    {furthest : Int} {s : State} (h : Stands r callers (f :: frames) furthest s) :
    s.run.stack.rootCursor = bottom f.cursor frames := by
  rw [h.run_eq]
  exact rootCursor_eq frames f _

/-- The result of a payload raised in a run that stands at `cursor`. -/
def raisedResult (input : Input) (payload : Payload) (cursor furthest : Int) : List Run → Result
  | [] => failureResult input .payload payload cursor furthest
  | caller :: callers =>
    if (position? input cursor furthest).isSome then
      raisedResult input payload caller.stack.rootCursor (max caller.furthest furthest) callers
    else .fault

/-- The result of an error in a run that stands at `cursor`. -/
def abortedResult (e : Error) (cursor furthest : Int) : List Run → Result
  | [] => .error e cursor furthest
  | caller :: callers =>
    abortedResult e caller.stack.rootCursor (max caller.furthest furthest) callers

private theorem raise?_result (input : Input) (payload : Payload) (run : Run) (callers : List Run) :
    raisedResult input payload run.stack.rootCursor run.furthest callers =
      match raise? input payload run callers with
      | none => .fault
      | some (f, run) => .error (.failure f) run.stack.rootCursor run.furthest := by
  induction callers generalizing run with
  | nil =>
    change failureResult input .payload payload _ _ = _
    simp only [raise?, failureResult]
    have hposition : position? input run.stack.rootCursor run.furthest = run.position? input := rfl
    rw [hposition]
    cases run.position? input <;> rfl
  | cons caller callers ih =>
    change (if (run.position? input).isSome then _ else _) = _
    simp only [raise?]
    cases run.position? input with
    | none => rfl
    | some position => exact ih (caller.reach run.furthest)

theorem raise_stops (env : Env) (s : State) (payload : Payload) :
    ∃ t ending, raise env s payload = .stop t ending ∧ resultOf t ending =
      raisedResult env.input payload s.run.stack.rootCursor s.run.furthest s.callers := by
  rw [raise?_result]
  unfold raise
  cases raise? env.input payload s.run s.callers with
  | none => exact ⟨_, _, rfl, rfl⟩
  | some p => exact ⟨_, _, rfl, rfl⟩

private theorem outermost_result (e : Error) (run : Run) (callers : List Run) :
    abortedResult e run.stack.rootCursor run.furthest callers =
      .error e (outermost run callers).stack.rootCursor (outermost run callers).furthest := by
  induction callers generalizing run with
  | nil => rfl
  | cons caller callers ih => exact ih (caller.reach run.furthest)

/-- An error that nothing recovers from stops the machine. -/
theorem abort_stops (s : State) (e : Error) :
    ∃ t ending, abort s e = .stop t ending ∧ resultOf t ending =
      abortedResult e s.run.stack.rootCursor s.run.furthest s.callers := by
  rw [outermost_result]
  exact ⟨_, _, rfl, rfl⟩

/-- The machine does in `s` what an outcome says: it goes on, in `least` steps at least, to a state
as in `goal`, or it ends as the outcome ends a run that stands at `cursor`. -/
def Realizes (env : Env) (least : Nat) (callers : List Run) (cursor : Int)
    (goal : Activation → Int → State → Prop) (s : State) : Outcome → Prop
  | .done a furthest => ∃ n t, least ≤ n ∧ Steps env n s t ∧ goal a furthest t
  | .raised payload furthest =>
    EndsWith env s (raisedResult env.input payload cursor furthest callers)
  | .aborted e furthest => EndsWith env s (abortedResult e cursor furthest callers)
  | .fault => EndsWith env s .fault

namespace Realizes

variable {env : Env} {least : Nat} {callers : List Run} {cursor : Int}
  {goal : Activation → Int → State → Prop} {s t : State} {o : Outcome}

theorem of_steps {n : Nat} (h : Steps env n s t)
    (ht : Realizes env least callers cursor goal t o) :
    Realizes env (n + least) callers cursor goal s o := by
  cases o with
  | done a furthest =>
    obtain ⟨m, u, hm, hu, hg⟩ := ht
    exact ⟨n + m, u, by omega, h.trans hu, hg⟩
  | raised payload furthest => exact EndsWith.of_steps h ht
  | aborted e furthest => exact EndsWith.of_steps h ht
  | fault => exact EndsWith.of_steps h ht

theorem of_next (h : step env s = .next t) (ht : Realizes env least callers cursor goal t o) :
    Realizes env (least + 1) callers cursor goal s o := by
  rw [Nat.add_comm]
  exact of_steps (.single h) ht

theorem of_step_eq (h : step env s = step env t)
    (ht : Realizes env 1 callers cursor goal t o) : Realizes env 1 callers cursor goal s o := by
  cases o with
  | done a furthest =>
    obtain ⟨m, u, hm, hu, hg⟩ := ht
    obtain ⟨m, rfl⟩ : ∃ k, m = k + 1 := ⟨m - 1, by omega⟩
    exact ⟨m + 1, u, hm, hu.of_step_eq h, hg⟩
  | raised payload furthest => exact EndsWith.of_step_eq h ht
  | aborted e furthest => exact EndsWith.of_step_eq h ht
  | fault => exact EndsWith.of_step_eq h ht

theorem weaken {less : Nat} (hle : less ≤ least)
    (h : Realizes env least callers cursor goal s o) : Realizes env less callers cursor goal s o := by
  cases o with
  | done a furthest =>
    obtain ⟨m, u, hm, hu⟩ := h
    exact ⟨m, u, by omega, hu⟩
  | raised payload furthest => exact h
  | aborted e furthest => exact h
  | fault => exact h

theorem andThen {middle : Activation → Int → State → Prop} {next : Activation → Int → Option Outcome}
    {o' : Outcome} (h : Realizes env least callers cursor middle s o)
    (ho : o.andThen next = some o')
    (hn : ∀ b furthest t, o = .done b furthest → middle b furthest t → next b furthest = some o' →
      Realizes env 0 callers cursor goal t o') :
    Realizes env least callers cursor goal s o' := by
  cases o with
  | done b furthest =>
    obtain ⟨n, t, hle, hs, hm⟩ := h
    exact (of_steps hs (hn b furthest t rfl hm ho)).weaken hle
  | raised payload furthest => cases ho; exact h
  | aborted e furthest => cases ho; exact h
  | fault => cases ho; exact h

end Realizes

end PegMachine.Evaluator
