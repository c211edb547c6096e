import PegMachine.Proofs.Evaluator.Basic
import PegMachine.Proofs.Machine.Steps
import PegMachine.Proofs.Machine.Terms

namespace PegMachine.Evaluator

open Machine

/-- The frame of an activation with items still to be evaluated. -/
def Activation.frame (a : Activation) (kind : Kind) (start : Int) (pending : List Expr) : Frame where
  kind := kind
  start := start
  cursor := a.cursor
  pending := pending
  failed := a.failed
  matched := a.matched
  output := a.output

section

variable (a : Activation) (kind : Kind) (start cursor : Int) (pending rest : List Expr)

@[simp] theorem frame_kind : (a.frame kind start pending).kind = kind := rfl
@[simp] theorem frame_start : (a.frame kind start pending).start = start := rfl
@[simp] theorem frame_cursor : (a.frame kind start pending).cursor = a.cursor := rfl
@[simp] theorem frame_pending : (a.frame kind start pending).pending = pending := rfl
@[simp] theorem frame_failed : (a.frame kind start pending).failed = a.failed := rfl
@[simp] theorem frame_matched : (a.frame kind start pending).matched = a.matched := rfl
@[simp] theorem frame_output : (a.frame kind start pending).output = a.output := rfl

@[simp] theorem frame_fail : (a.frame kind start pending).fail = a.fail.frame kind start pending := rfl

@[simp] theorem frame_succeed (output : List Value) :
    (a.frame kind start pending).succeed cursor output =
      (a.succeed cursor output).frame kind start pending := rfl

/-- Whether a frame is complete hangs on its items only in that there are some. -/
theorem isComplete_cons (size : Int) (e e' : Expr) :
    (a.frame kind start (e :: rest)).isComplete size =
      (a.frame kind start (e' :: rest)).isComplete size := by
  cases kind <;> rfl

private theorem restart_cons (e : Expr) :
    (a.frame kind start (e :: rest)).restart = a.frame kind start (e :: rest) := by
  cases kind <;> rfl

/-- A loop whose round is over is complete when it stops. -/
theorem isComplete_loop (size mark : Int) (quota : Quota) (item : Expr) :
    (a.frame (.loop quota item mark) start []).isComplete size = a.stopsLoop size mark := rfl

end

/-- A state whose run has the given frames and mark, and is otherwise `r`. -/
structure Stands (r : Run) (callers : List Run) (frames : List Frame) (furthest : Int)
    (s : State) : Prop where
  run_eq : s.run = { r with stack := { r.stack with frames := frames }, furthest := furthest }
  callers_eq : s.callers = callers

namespace Stands

variable {r : Run} {callers : List Run} {frames : List Frame} {furthest : Int} {s : State}

theorem frames_eq (h : Stands r callers frames furthest s) : s.run.stack.frames = frames := by
  rw [h.run_eq]

theorem furthest_eq (h : Stands r callers frames furthest s) : s.run.furthest = furthest := by
  rw [h.run_eq]

theorem grammar_eq (h : Stands r callers frames furthest s) (env : Env) :
    s.grammar env = env.family.grammarAt r.grammar := by
  rw [State.grammar, h.run_eq]
  rfl

theorem trace (h : Stands r callers frames furthest s) (e : Event) :
    Stands r callers frames furthest (s.trace e) := by
  unfold State.trace
  split
  · exact ⟨h.run_eq, h.callers_eq⟩
  · exact h

theorem withFrames (h : Stands r callers frames furthest s) (frames' : List Frame) :
    Stands r callers frames' furthest (s.withFrames frames') := by
  refine ⟨?_, h.callers_eq⟩
  rw [State.withFrames, h.run_eq]

theorem reach (h : Stands r callers frames furthest s) (cursor : Int) :
    Stands r callers frames (max furthest cursor) { s with run := s.run.reach cursor } := by
  refine ⟨?_, h.callers_eq⟩
  simp only [h.run_eq, Run.reach]

theorem counted (h : Stands r callers frames furthest s) (n : Nat) :
    Stands r callers frames furthest { s with steps := n } := ⟨h.run_eq, h.callers_eq⟩

end Stands

section

variable {env : Env} {r : Run} {callers : List Run} {below : List Frame} {furthest : Int}
  {s : State} {a : Activation} {kind : Kind} {start : Int} {e : Expr} {rest : List Expr}

/-- A step in a frame that is not complete evaluates its first item. -/
theorem step_evaluate (hl : r.terms.Unlimited)
    (h : Stands r callers (a.frame kind start (e :: rest) :: below) furthest s)
    (hc : (a.frame kind start (e :: rest)).isComplete env.input.size = false) :
    ∃ t, Stands r callers (a.frame kind start (e :: rest) :: below) furthest t ∧
      step env s = Machine.evaluate env t (a.frame kind start (e :: rest)) below := by
  refine ⟨_, (h.counted (s.steps + 1)).withFrames _, ?_⟩
  have hno : ¬(0 < s.run.terms.limit ∧ s.run.terms.limit ≤ s.steps) := by
    rw [h.run_eq]
    exact fun hlimit => absurd hlimit.1 (Int.not_lt.2 hl.limit)
  simp only [step, if_neg hno, h.frames_eq, hc, Bool.false_eq_true, if_false, restart_cons]

theorem step_fold (hl : r.terms.Unlimited) {child parent : Frame}
    (h : Stands r callers (child :: parent :: below) furthest s)
    (hc : child.isComplete env.input.size = true) :
    ∃ t, Stands r callers (child :: parent :: below) furthest t ∧
      step env s = Machine.fold env t child parent below := by
  refine ⟨_, h.counted (s.steps + 1), ?_⟩
  have hno : ¬(0 < s.run.terms.limit ∧ s.run.terms.limit ≤ s.steps) := by
    rw [h.run_eq]
    exact fun hlimit => absurd hlimit.1 (Int.not_lt.2 hl.limit)
  simp only [step, if_neg hno, h.frames_eq, hc, if_true]

theorem step_finish (hl : r.terms.Unlimited) {root : Frame}
    (h : Stands r callers [root] furthest s) (hc : root.isComplete env.input.size = true) :
    ∃ t, Stands r callers [root] furthest t ∧ step env s = Machine.finish env t root := by
  refine ⟨_, h.counted (s.steps + 1), ?_⟩
  have hno : ¬(0 < s.run.terms.limit ∧ s.run.terms.limit ≤ s.steps) := by
    rw [h.run_eq]
    exact fun hlimit => absurd hlimit.1 (Int.not_lt.2 hl.limit)
  simp only [step, if_neg hno, h.frames_eq, hc, if_true]

/-- A loop with nothing left to evaluate steps as it does at the beginning of its next round. -/
theorem step_restart (hl : r.terms.Unlimited) {quota : Quota} {mark : Int} {item : Expr}
    (h : Stands r callers (a.frame (.loop quota item mark) start [] :: below) furthest s)
    (hc : a.stopsLoop env.input.size mark = false) :
    ∃ t, Stands r callers (a.frame (.loop quota item a.cursor) start [item] :: below) furthest t ∧
      step env s = step env t := by
  refine ⟨_, h.withFrames _, ?_⟩
  have hno : ¬(0 < s.run.terms.limit ∧ s.run.terms.limit ≤ s.steps) := by
    rw [h.run_eq]
    exact fun hlimit => absurd hlimit.1 (Int.not_lt.2 hl.limit)
  have hf : a.failed = false := by
    cases hf : a.failed <;> simp [Activation.stopsLoop, hf] at hc ⊢
  have hnext : (a.frame (.loop quota item a.cursor) start [item]).isComplete env.input.size =
      false := by
    simp [Frame.isComplete, hf]
  simp only [step, if_neg hno, h.frames_eq, isComplete_loop, hc, State.withFrames, hnext,
    Bool.false_eq_true, if_false]
  rfl

end

end PegMachine.Evaluator
