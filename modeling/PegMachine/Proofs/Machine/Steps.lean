import PegMachine.Machine.Run

namespace PegMachine.Machine

section

variable (s : State) (e : Event) (r : Run) (cursor : Int)

/-- Tracing changes the log only. -/
@[simp] theorem trace_run : (s.trace e).run = s.run := by
  unfold State.trace
  split <;> rfl

@[simp] theorem trace_callers : (s.trace e).callers = s.callers := by
  unfold State.trace
  split <;> rfl

@[simp] theorem trace_steps : (s.trace e).steps = s.steps := by
  unfold State.trace
  split <;> rfl

@[simp] theorem reach_grammar : (r.reach cursor).grammar = r.grammar := rfl
@[simp] theorem reach_terms : (r.reach cursor).terms = r.terms := rfl
@[simp] theorem reach_stack : (r.reach cursor).stack = r.stack := rfl
@[simp] theorem reach_furthest : (r.reach cursor).furthest = max r.furthest cursor := rfl

end

theorem outermost_furthest {r r' : Run} (hf : r.furthest = r'.furthest) (callers : List Run) :
    (outermost r callers).furthest = (outermost r' callers).furthest := by
  cases callers with
  | nil => exact hf
  | cons caller callers => rw [outermost, outermost, hf]

/-- An attempt of the innermost run counts for the outermost one. -/
theorem outermost_reach (r : Run) (cursor : Int) (callers : List Run) :
    (outermost (r.reach cursor) callers).furthest = max (outermost r callers).furthest cursor := by
  induction callers generalizing r with
  | nil => rfl
  | cons caller callers ih =>
    have hmax : (caller.reach (max r.furthest cursor)).furthest =
        ((caller.reach r.furthest).reach cursor).furthest := by
      simp only [reach_furthest]
      omega
    exact (outermost_furthest hmax callers).trans (ih (caller.reach r.furthest))

/-- The state that a step leads to or stops in. -/
def Progress.state : Progress → State
  | .next s => s
  | .stop s _ => s

/-- The limit does not keep the machine from its next step. -/
def State.MayStep (s : State) : Prop := ¬(0 < s.run.terms.limit ∧ s.run.terms.limit ≤ s.steps)

section

variable {env : Env} {s : State} {top : Frame} {below : List Frame}

@[simp] theorem state_next : (Progress.next s).state = s := rfl
@[simp] theorem state_stop (ending : Ending) : (Progress.stop s ending).state = s := rfl

/-- What a step does after it was counted leaves the count alone. -/
@[simp] theorem withFrames_steps (frames : List Frame) :
    (s.withFrames frames).steps = s.steps := rfl

@[simp] theorem abort_steps (e : Error) : (abort s e).state.steps = s.steps := rfl

@[simp] theorem raise_steps (payload : Payload) : (raise env s payload).state.steps = s.steps := by
  unfold raise
  split <;> rfl

@[simp] theorem finish_steps (root : Frame) : (finish env s root).state.steps = s.steps := by
  unfold finish resume
  simp only
  repeat' split
  all_goals simp

@[simp] theorem fold_steps (child parent : Frame) :
    (fold env s child parent below).state.steps = s.steps := by
  unfold fold
  split <;> simp

@[simp] theorem leaf_steps (e : Expr) (attempt : Attempt) :
    (leaf s top below e attempt).state.steps = s.steps := by
  cases attempt <;> simp [leaf]

@[simp] theorem enter_steps (kind : Kind) (items : List Expr) :
    (enter s top below kind items).state.steps = s.steps := by
  simp [enter]

@[simp] theorem embed_steps (id : Option Nat) (main : Bytes) :
    (embed env s top id main).state.steps = s.steps := by
  unfold embed
  repeat' split
  all_goals simp

@[simp] theorem custom_steps (host : Nat) : (custom env s host).state.steps = s.steps := by
  unfold custom
  simp only
  split <;> simp

@[simp] theorem act_steps (a : Action) : (act env s top below a).state.steps = s.steps := by
  unfold act
  simp only
  repeat' split
  all_goals simp

@[simp] theorem evaluate_steps : (evaluate env s top below).state.steps = s.steps := by
  unfold evaluate
  split
  · rfl
  · split <;> simp
  · simp only
    split <;> simp

/-- A step that the limit allows is counted, be it the last one or not. -/
theorem step_steps (h : s.MayStep) : (step env s).state.steps = s.steps + 1 := by
  unfold step
  rw [if_neg h]
  simp only
  repeat' split
  all_goals simp

theorem mayStep_of_nonpos (hl : s.run.terms.limit ≤ 0) : s.MayStep :=
  fun h => absurd h.1 (Int.not_lt.2 hl)

/-- The machine goes on only where the limit allows it. -/
theorem mayStep_of_next {t : State} (h : step env s = .next t) : s.MayStep := by
  intro hl
  rw [step, if_pos hl] at h
  cases h

end

/-- The machine goes from one state to another in `n` steps. -/
inductive Steps (env : Env) : Nat → State → State → Prop
  | refl (s : State) : Steps env 0 s s
  | head {n : Nat} {s t u : State} (h : step env s = .next t) (rest : Steps env n t u) :
      Steps env (n + 1) s u

namespace Steps

variable {env : Env}

theorem single {s t : State} (h : step env s = .next t) : Steps env 1 s t :=
  .head h (.refl t)

theorem trans {n m : Nat} {s t u : State} (h : Steps env n s t) (k : Steps env m t u) :
    Steps env (n + m) s u := by
  induction h with
  | refl s => simpa using k
  | head h _ ih =>
    rw [Nat.add_right_comm]
    exact .head h (ih k)

theorem run_add {n : Nat} {s t : State} (h : Steps env n s t) (fuel : Nat) :
    run env (n + fuel) s = run env fuel t := by
  induction h with
  | refl s => simp
  | head h _ ih =>
    rw [Nat.add_right_comm, run, h]
    exact ih

/-- A run that ends takes at least the steps that are known to be possible. -/
theorem run_split {n fuel : Nat} {s t : State} (h : Steps env n s t)
    (he : (run env fuel s).isSome) : ∃ rest, fuel = n + rest ∧ (run env rest t).isSome := by
  induction h generalizing fuel with
  | refl s => exact ⟨fuel, by simp, he⟩
  | head h _ ih =>
    cases fuel with
    | zero => simp [run] at he
    | succ fuel =>
      rw [run, h] at he
      obtain ⟨rest, hf, hr⟩ := ih he
      exact ⟨rest, by omega, hr⟩

/-- Each step is counted once, in whichever run it is taken. -/
theorem steps_eq {n : Nat} {s t : State} (h : Steps env n s t) : t.steps = s.steps + n := by
  induction h with
  | refl s => rfl
  | @head _ s _ _ h _ ih =>
    have hstep : (step env s).state.steps = s.steps + 1 := step_steps (mayStep_of_next h)
    rw [h] at hstep
    simp only [Progress.state] at hstep
    omega

/-- States that step alike are alike in all that follows. -/
theorem of_step_eq {n : Nat} {s s' t : State} (hs : step env s = step env s')
    (h : Steps env (n + 1) s' t) : Steps env (n + 1) s t := by
  cases h with
  | head h rest => exact .head (hs.trans h) rest

theorem unique {n : Nat} {s t t' : State} (h : Steps env n s t) (h' : Steps env n s t') :
    t = t' := by
  induction h with
  | refl s => cases h' with | refl => rfl
  | head hstep _ ih =>
    cases h' with
    | head hstep' rest =>
      obtain rfl := Progress.next.inj (hstep.symm.trans hstep')
      exact ih rest

/-- A number of steps can be taken in two parts. -/
theorem split {n m : Nat} {s t : State} (h : Steps env (n + m) s t) :
    ∃ u, Steps env n s u ∧ Steps env m u t := by
  induction n generalizing s with
  | zero => exact ⟨s, .refl s, by simpa using h⟩
  | succ n ih =>
    rw [Nat.add_right_comm] at h
    cases h with
    | head hstep rest =>
      obtain ⟨u, hu, hrest⟩ := ih rest
      exact ⟨u, .head hstep hu, hrest⟩

end Steps

theorem run_step_eq {env : Env} {s s' : State} (hs : step env s = step env s') (fuel : Nat) :
    run env fuel s = run env fuel s' := by
  cases fuel with
  | zero => rfl
  | succ fuel => rw [run, run, hs]

/-- A run that ends comes to a state in which the machine stops. -/
theorem steps_of_run {env : Env} {fuel : Nat} {s t : State} {ending : Ending}
    (h : run env fuel s = some (t, ending)) :
    ∃ n u, Steps env n s u ∧ step env u = .stop t ending := by
  induction fuel generalizing s with
  | zero => simp [run] at h
  | succ fuel ih =>
    rw [run] at h
    cases hs : step env s with
    | next u =>
      rw [hs] at h
      obtain ⟨n, v, hv, hstop⟩ := ih h
      exact ⟨n + 1, v, .head hs hv, hstop⟩
    | stop u ending' =>
      rw [hs] at h
      cases h
      exact ⟨0, s, .refl s, hs⟩

theorem run_mono {env : Env} {fuel more : Nat} {s : State} {r : State × Ending}
    (h : run env fuel s = some r) (hle : fuel ≤ more) : run env more s = some r := by
  induction fuel generalizing s more with
  | zero => simp [run] at h
  | succ fuel ih =>
    obtain ⟨more, rfl⟩ : ∃ m, more = m + 1 := ⟨more - 1, by omega⟩
    rw [run] at h ⊢
    cases hs : step env s with
    | stop t ending => simpa [hs] using h
    | next t =>
      rw [hs] at h
      exact ih h (by omega)

/-- A run ends in one way, whatever the fuel. -/
theorem run_unique {env : Env} {fuel fuel' : Nat} {s : State} {r r' : State × Ending}
    (h : run env fuel s = some r) (h' : run env fuel' s = some r') : r = r' := by
  have hmax := run_mono h (Nat.le_max_left fuel fuel')
  rw [run_mono h' (Nat.le_max_right fuel fuel')] at hmax
  exact (Option.some.inj hmax).symm

end PegMachine.Machine
