import PegMachine.Proofs.Machine.Payloads

namespace PegMachine

/-- The cursors that an attempt gets to: the one at which it is made, and the one behind a match. -/
def Attempt.reached (cursor : Int) : Attempt → List Int
  | .success _ next => [cursor, next]
  | .mismatch | .fault => [cursor]

namespace Machine

/-- The cursors that the next item of a frame gets to, if it is a leaf. -/
def Frame.tries (input : Input) (f : Frame) : List Int :=
  match f.restart.pending with
  | .literal text :: _ => (input.tryLiteral f.cursor text).reached f.cursor
  | .pattern p :: _ => (input.tryPattern f.cursor p).reached f.cursor
  | _ => []

/-- The cursors that the next step gets to: only the top frame of the innermost run tries leaves,
and only while it is not complete. -/
def State.tries (env : Env) (s : State) : List Int :=
  match s.run.stack.frames with
  | [] => []
  | top :: _ => if top.isComplete env.input.size then [] else top.tries env.input

/-- The cursors that up to `n` steps get to. At the limit no more steps are made. -/
def history (env : Env) : Nat → State → List Int
  | 0, _ => []
  | n + 1, s =>
    if 0 < s.run.terms.limit ∧ s.run.terms.limit ≤ s.steps then []
    else
      s.tries env ++
        match step env s with
        | .next t => history env n t
        | .stop .. => []

/-- The furthest cursor that the machine knows of. -/
def State.furthest (s : State) : Int := (outermost s.run s.callers).furthest

/-- An effect comes with the attempts that it says. One that ends all runs at an operation without
a result says nothing. -/
def Effect.Tries (tried : List Int) : Effect → Prop
  | .become _ tried' => tried' = tried
  | .fault => True
  | .enter .. | .embed .. | .call .. | .raise .. | .abort _ => tried = []

section

variable {env : Env} {grammar : Nat} {f top : Frame}

private theorem attempt_tries (attempt : Attempt) :
    (Attempt.effect top attempt).Tries (attempt.reached top.cursor) := by
  cases attempt with
  | fault => trivial
  | mismatch | success => rfl

private theorem action_tries (input : Input) (a : Action) :
    (Action.effect input top a).Tries [] := by
  refine action_elim (motive := (Effect.Tries [] ·)) ?emit ?call ?raise ?abort ?fault
  case emit => exact fun _ => rfl
  case call => exact fun _ _ => rfl
  case raise => exact fun _ _ => rfl
  case abort => exact fun _ _ => rfl
  case fault => trivial

/-- The effect of a frame comes with the attempts of the frame. -/
theorem effect_tries : (f.effect env grammar).Tries (f.tries env.input) := by
  unfold Frame.effect Frame.tries
  simp only
  cases f.restart.pending with
  | nil => trivial
  | cons e rest =>
    cases e with
    | literal text =>
      rw [← restart_cursor]
      exact attempt_tries _
    | pattern p =>
      rw [← restart_cursor]
      exact attempt_tries _
    | action a => exact action_tries env.input a
    | rule name =>
      simp only
      split <;> rfl
    | embed id main =>
      simp only
      split
      · split <;> rfl
      · trivial
    | sequence | choice | wrap | hide | iterate | missing => rfl

/-- An embedded run starts where the frame that embeds it stands. -/
theorem cursor_of_embed {id : Nat} {main : Bytes} (h : f.effect env grammar = .embed id main top) :
    top.cursor = f.cursor := by
  revert h
  refine effect_elim (motive := fun e => e = .embed id main top → top.cursor = f.cursor)
    ?expand ?mismatch ?success ?emit ?enter ?embed ?call ?raise ?abort ?fault
  case embed =>
    intro id' main' rest _ heq
    cases heq
    exact restart_cursor
  all_goals
    intros
    contradiction

end

private theorem foldl_reach_furthest (tried : List Int) (r : Run) (callers : List Run) :
    (outermost (tried.foldl Run.reach r) callers).furthest =
      tried.foldl max (outermost r callers).furthest := by
  induction tried generalizing r with
  | nil => rfl
  | cons cursor tried ih => rw [List.foldl_cons, ih, outermost_reach, List.foldl_cons]

/-- The mark of a run is not lost when the run is given up. -/
theorem le_outermost_furthest (r : Run) (callers : List Run) :
    r.furthest ≤ (outermost r callers).furthest := by
  induction callers generalizing r with
  | nil => exact Int.le_refl _
  | cons caller callers ih =>
    exact Int.le_trans (Int.le_max_right _ _) (ih (caller.reach r.furthest))

section

variable {env : Env} {s t : State} {below : List Frame}

theorem furthest_of_runs {r : Run} {callers : List Run} (h : t.run :: t.callers = r :: callers) :
    t.furthest = (outermost r callers).furthest := by
  obtain ⟨hr, hc⟩ := List.cons.inj h
  rw [State.furthest, hr, hc]

/-- An effect moves the mark to the furthest of the attempts it comes with. -/
theorem Effect.Performs.furthest {e : Effect} {tried : List Int}
    (hp : e.Performs env s below (.next t)) (htries : e.Tries tried)
    (hcall : ∀ host top, e ≠ .call host top)
    (hembed : ∀ id main top, e = .embed id main top → top.cursor ≤ s.run.furthest) :
    t.furthest = tried.foldl max s.furthest := by
  cases e with
  | become top tried' =>
    obtain rfl : tried' = tried := htries
    rw [furthest_of_runs (goesOn_next.1 hp),
      outermost_furthest (withFrames_furthest _ _), foldl_reach_furthest]
    rfl
  | enter child top =>
    obtain rfl : tried = [] := htries
    rw [furthest_of_runs (goesOn_next.1 hp), outermost_furthest (withFrames_furthest _ _)]
    rfl
  | embed id main top =>
    obtain rfl : tried = [] := htries
    have hle := Int.le_trans (hembed id main top rfl) (le_outermost_furthest s.run s.callers)
    have hreach := outermost_reach (s.run.withFrames (top :: below)) top.cursor s.callers
    rw [outermost_furthest (withFrames_furthest _ _), Int.max_eq_left hle] at hreach
    obtain ⟨terms, -, hruns⟩ := embedded_of_next hp
    rw [furthest_of_runs hruns]
    exact hreach
  | call host top => exact absurd rfl (hcall host top)
  | raise | abort | fault => exact absurd (hp.stops trivial) not_stops_next

variable {known : Nat → Prop} {allowed : Action → Prop}

theorem Safe.effect_ne_call {top : Frame} (h : Safe env known allowed s)
    (hcustom : ∀ host, ¬allowed (.custom host)) (hf : s.run.stack.frames = top :: below)
    (grammar host : Nat) (top' : Frame) : top.effect env grammar ≠ .call host top' := by
  intro hcall
  obtain ⟨rest, hp⟩ := custom_of_effect hcall
  exact h.pending_ne_action (hcustom (some host)) hf rest hp

/-- A step moves the mark to the furthest of its attempts. Handing the outcome of an embedded run
over keeps the mark of that run, be the outcome a match or not. -/
theorem furthest_of_step (hsafe : Safe env known allowed s)
    (hcustom : ∀ host, ¬allowed (.custom host)) (hstep : step env s = .next t) :
    t.furthest = (s.tries env).foldl max s.furthest := by
  unfold State.tries
  cases hf : s.run.stack.frames with
  | nil => exact absurd hf hsafe.run.nonempty
  | cons top below =>
    simp only
    cases hc : top.isComplete env.input.size with
    | false =>
      have hperforms := step_performs (mayStep_of_next hstep) hf hc
      rw [hstep] at hperforms
      refine hperforms.furthest effect_tries (hsafe.effect_ne_call hcustom hf _) ?_
      intro id main top' hembed
      rw [cursor_of_embed hembed]
      exact (hsafe.run.frames top (by simp [hf])).cursor_le
    | true =>
      cases below with
      | nil =>
        obtain ⟨caller, callers, change, hcallers, -, hruns⟩ := returns_of_next hf hc hstep
        have hresumed : (caller.resumed s.run change).furthest =
            (caller.reach s.run.furthest).furthest := rfl
        rw [furthest_of_runs hruns, outermost_furthest hresumed, State.furthest, hcallers]
        rfl
      | cons parent below =>
        obtain ⟨f, -, hruns⟩ := folds_of_next hf hc hstep
        rw [furthest_of_runs hruns, outermost_furthest (withFrames_furthest _ _)]
        rfl

theorem history_of_next (hstep : step env s = .next t) (n : Nat) :
    history env (n + 1) s = s.tries env ++ history env n t := by
  have hl := mayStep_of_next hstep
  rw [history, if_neg hl, hstep]

/-- At every state of a run the mark is the furthest cursor of the history. -/
theorem furthest_of_steps (hr : SoundRules env.family known allowed)
    (hcustom : ∀ host, ¬allowed (.custom host)) (hsafe : Safe env known allowed s) {n : Nat}
    (h : Steps env n s t) : t.furthest = (history env n s).foldl max s.furthest := by
  induction h with
  | refl s => rfl
  | head hstep _ ih =>
    rw [ih (hsafe.steps hr hcustom (.single hstep)), furthest_of_step hsafe hcustom hstep,
      history_of_next hstep, List.foldl_append]

theorem offset?_furthest {input : Input} {r : Run} {position : Int × Int}
    (h : r.position? input = some position) : input.offset? r.furthest = some position.2 := by
  unfold Run.position? at h
  split at h
  · next hfurthest =>
    cases h
    exact hfurthest
  · cases h

/-- A payload ends all runs, and the outermost one reports its mark. -/
theorem raise?_furthest {input : Input} {payload : Payload} {r run : Run} {callers : List Run}
    {f : Failure} (h : raise? input payload r callers = some (f, run)) :
    input.offset? (outermost r callers).furthest = some f.furthest := by
  induction callers generalizing r with
  | nil =>
    obtain ⟨position, hp, hf⟩ := Option.map_eq_some_iff.1 h
    cases hf
    exact offset?_furthest hp
  | cons caller callers ih =>
    simp only [raise?] at h
    split at h
    · cases h
    · exact ih h

/-- A failure reports the mark, and the step that ends with it makes no attempt. -/
theorem failure_furthest {f : Failure} {c : Int} (hsafe : Safe env known allowed s)
    (hcustom : ∀ host, ¬allowed (.custom host))
    (hstop : step env s = .stop t (.error (.failure f) c)) :
    s.tries env = [] ∧ env.input.offset? s.furthest = some f.furthest := by
  obtain ⟨top, below, hf⟩ := List.exists_cons_of_ne_nil hsafe.run.nonempty
  have hl : s.MayStep := by
    intro hl
    rw [step, if_pos hl] at hstop
    cases hstop
  simp only [State.tries, hf]
  cases hc : top.isComplete env.input.size with
  | true =>
    refine ⟨rfl, ?_⟩
    obtain ⟨hcallers, position, hp, rfl⟩ := mismatch_of_complete hl hf hc hstop
    rw [State.furthest, hcallers]
    exact offset?_furthest hp
  | false =>
    have hperforms := step_performs hl hf hc
    have htries : (top.effect env s.run.grammar).Tries (top.tries env.input) := effect_tries
    have hcall := hsafe.effect_ne_call hcustom hf s.run.grammar
    rw [hstop] at hperforms
    cases heffect : top.effect env s.run.grammar with
    | become | enter =>
      rw [heffect] at hperforms
      obtain ⟨u, hu, -⟩ := hperforms
      cases hu
    | embed id main g =>
      rw [heffect] at hperforms
      cases fault_of_embed_stop hperforms
    | call host top' => exact absurd heffect (hcall host top')
    | raise payload top' =>
      rw [heffect] at hperforms htries
      obtain ⟨u, hrun, hcallers, hraise⟩ := hperforms
      refine ⟨htries, ?_⟩
      rw [State.furthest, ← outermost_furthest (withFrames_furthest _ (top' :: below)), ← hrun,
        ← hcallers]
      unfold raise at hraise
      split at hraise
      · cases hraise
      · next hraised =>
        cases hraise
        exact raise?_furthest hraised
    | abort e =>
      rw [heffect] at hperforms
      obtain ⟨u, hu⟩ := hperforms
      cases hu
      cases isDefect_of_effect heffect
    | fault =>
      rw [heffect] at hperforms
      obtain ⟨u, hu⟩ := hperforms
      cases hu

/-- A run that ends in a failure reports the furthest cursor of its history. -/
theorem furthest_of_run (hr : SoundRules env.family known allowed)
    (hcustom : ∀ host, ¬allowed (.custom host)) (hsafe : Safe env known allowed s) {fuel : Nat}
    {f : Failure} {c : Int} (h : run env fuel s = some (t, .error (.failure f) c)) :
    env.input.offset? ((history env fuel s).foldl max s.furthest) = some f.furthest := by
  induction fuel generalizing s with
  | zero => cases h
  | succ fuel ih =>
    rw [run] at h
    cases hstep : step env s with
    | next u =>
      rw [hstep] at h
      have hrest := ih (hsafe.steps hr hcustom (.single hstep)) h
      rwa [history_of_next hstep, List.foldl_append, ← furthest_of_step hsafe hcustom hstep]
    | stop u ending =>
      rw [hstep] at h
      cases h
      obtain ⟨htries, hoffset⟩ := failure_furthest hsafe hcustom hstep
      have hnone : history env (fuel + 1) s = [] := by
        rw [history, hstep, htries]
        exact ite_self []
      rwa [hnone]

end

/-- The furthest cursor that a run of a checked grammar knows of is the furthest one of its history
at every moment, from whichever cursor of the input it starts. A failure reports the offset of it,
whatever has become of the alternatives, lookaheads and embedded runs that made the attempts. -/
theorem furthest_of_history (family : Family) (host : Host) (config : Config) (id : Nat)
    (input : Input) (cursor : Int) (hdefined : ∀ g ∈ family, g.Defined) (hclosed : family.Closed)
    (hcheck : family.check id = none) (hfree : family.CustomFree id) (h0 : 0 ≤ cursor)
    (hle : cursor ≤ input.size) :
    (∀ n s, Steps (environment family host input) n
        { run := Run.start id config.main config.exact config.terms cursor } s →
      s.furthest = (history (environment family host input) n
        { run := Run.start id config.main config.exact config.terms cursor }).foldl max cursor) ∧
    ∀ fuel t f c, run (environment family host input) fuel
        { run := Run.start id config.main config.exact config.terms cursor } =
        some (t, .error (.failure f) c) →
      input.offset? ((history (environment family host input) fuel
        { run := Run.start id config.main config.exact config.terms cursor }).foldl max cursor) =
        some f.furthest := by
  cases hmain : (family.grammarAt id).rule? config.main with
  | none =>
    have hmain : ((environment family host input).family.grammarAt id).rule? config.main =
        none := hmain
    constructor
    · intro n s hsteps
      obtain ⟨rfl, rfl⟩ := stays_of_undefined hmain hsteps
      rfl
    · intro fuel t f c hrun
      exact absurd hrun (no_failure_of_undefined hmain)
  | some body =>
    have hmain := Option.isSome_of_eq_some hmain
    have hr := soundRules_of_check hdefined hclosed hcheck hmain (action_ne_custom hfree)
    have hcustom (host : Option Nat) : ¬∀ host', Action.custom host ≠ .custom host' :=
      fun h => h host rfl
    have hstart : Safe (environment family host input) (family.Embeds id)
        (fun a => ∀ host, a ≠ .custom host)
        { run := Run.start id config.main config.exact config.terms cursor } :=
      ⟨.start .refl (settled_terms config) hmain h0 hle, by simp⟩
    exact ⟨fun n s hsteps => furthest_of_steps hr hcustom hstart hsteps,
      fun fuel t f c hrun => furthest_of_run hr hcustom hstart hrun⟩

/-- The word was the furthest match, in an embedded run and in an alternative that was given up. -/
theorem furthest_of_history_nested : (∀ g ∈ nested, g.Defined) ∧ nested.Closed ∧
    nested.check 0 = none ∧ nested.CustomFree 0 ∧
    ∃ t f c, run (environment nested Host.idle
        (.tokens "" [⟨"[", "[", ⟨7, 8⟩⟩, ⟨"w", "w", ⟨12, 13⟩⟩])) 60 (initial {} 0) =
        some (t, .error (.failure f) c) ∧
      history (environment nested Host.idle
        (.tokens "" [⟨"[", "[", ⟨7, 8⟩⟩, ⟨"w", "w", ⟨12, 13⟩⟩])) 60 (initial {} 0) =
        [0, 1, 1, 1, 2, 2, 0] ∧
      f.offset = 7 ∧ f.furthest = 13 := by
  have hcheck : nested.check 0 = none := rfl
  have hends : ∃ t f c, run (environment nested Host.idle
      (.tokens "" [⟨"[", "[", ⟨7, 8⟩⟩, ⟨"w", "w", ⟨12, 13⟩⟩])) 60 (initial {} 0) =
      some (t, .error (.failure f) c) ∧ f.offset = 7 := ⟨_, _, _, rfl, rfl⟩
  obtain ⟨t, f, c, hrun, hoffset⟩ := hends
  have hfurthest := (furthest_of_history nested Host.idle {} 0
    (.tokens "" [⟨"[", "[", ⟨7, 8⟩⟩, ⟨"w", "w", ⟨12, 13⟩⟩]) 0 defined_nested closed_nested hcheck
    customFree_nested (by decide) (by decide)).2 60 t f c hrun
  exact ⟨defined_nested, closed_nested, hcheck, customFree_nested, t, f, c, hrun, rfl, hoffset,
    (Option.some.inj hfurthest).symm⟩

end Machine

end PegMachine
