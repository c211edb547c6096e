import Mathlib.Data.List.Forall2
import PegMachine.Proofs.Evaluator.Agreement
import PegMachine.Proofs.Machine.Pending
import PegMachine.Proofs.Machine.Safety

namespace PegMachine.Machine

/-- Settled terms that differ in the limit alone: the first have none, the others have the given
one. -/
structure Terms.Agree (limit : Int) (t t' : Terms) : Prop where
  left : t.Unlimited
  right : t'.Settled
  limit_eq : t'.limit = limit
  debug_eq : t'.debug = t.debug
  colors_eq : t'.colors = t.colors

theorem Terms.Agree.inside {limit : Int} {t t' : Terms} (h : t.Agree limit t') (main : Bytes) :
    (t.inside main).Agree limit (t'.inside main) where
  left := h.left.inside main
  right := h.right.inside main
  limit_eq := h.limit_eq
  debug_eq := h.debug_eq
  colors_eq := by simp only [Terms.inside, h.debug_eq, h.colors_eq]

/-- Runs that differ in nothing but the limit. -/
def Run.Agree (limit : Int) (r r' : Run) : Prop :=
  ∃ t', r' = { r with terms := t' } ∧ r.terms.Agree limit t'

def State.Agree (limit : Int) (s s' : State) : Prop :=
  ∃ t' callers', s' = { s with run := { s.run with terms := t' }, callers := callers' } ∧
    s.run.terms.Agree limit t' ∧ List.Forall₂ (Run.Agree limit) s.callers callers'

/-- States in which the machine stopped that are told apart only by what no report shows. -/
def State.Reported (s s' : State) : Prop :=
  s'.steps = s.steps ∧ s'.run.furthest = s.run.furthest ∧ s'.log = s.log ∧
    s'.snapshots = s.snapshots

def Progress.Agree (limit : Int) : Progress → Progress → Prop
  | .next s, .next s' => s.Agree limit s'
  | .stop s ending, .stop s' ending' => s.Reported s' ∧ ending' = ending
  | _, _ => False

/-- A host that neither looks at the settings nor changes them. -/
def Host.Blind (host : Host) : Prop :=
  ∀ id view settings, host id { view with settings := settings } =
    { host id view with settings := settings }

theorem blind_idle : Host.idle.Blind := fun _ _ _ => rfl

section

variable {env : Env} {limit : Int} {s s' : State}

namespace State.Agree

theorem reported (h : s.Agree limit s') : s.Reported s' := by
  obtain ⟨t', callers', rfl, -, -⟩ := h
  exact ⟨rfl, rfl, rfl, rfl⟩

theorem withFrames (h : s.Agree limit s') (frames : List Frame) :
    (s.withFrames frames).Agree limit (s'.withFrames frames) := by
  obtain ⟨t', callers', rfl, ht, hc⟩ := h
  exact ⟨t', callers', rfl, ht, hc⟩

theorem reach (h : s.Agree limit s') (cursor : Int) :
    { s with run := s.run.reach cursor }.Agree limit { s' with run := s'.run.reach cursor } := by
  obtain ⟨t', callers', rfl, ht, hc⟩ := h
  exact ⟨t', callers', rfl, ht, hc⟩

theorem counted (h : s.Agree limit s') :
    { s with steps := s.steps + 1 }.Agree limit { s' with steps := s'.steps + 1 } := by
  obtain ⟨t', callers', rfl, ht, hc⟩ := h
  exact ⟨t', callers', rfl, ht, hc⟩

/-- Both runs are traced, or none of them is. -/
theorem trace (h : s.Agree limit s') (e : Event) : (s.trace e).Agree limit (s'.trace e) := by
  obtain ⟨t', callers', rfl, ht, hc⟩ := h
  unfold State.trace
  simp only [ht.debug_eq, ht.colors_eq]
  split
  · exact ⟨t', callers', rfl, ht, hc⟩
  · exact ⟨t', callers', rfl, ht, hc⟩

end State.Agree

/-- The outermost runs of two states agree if the innermost ones and all that wait do. -/
theorem outermost_limited {r r' : Run} {callers callers' : List Run} (h : r.Agree limit r')
    (hc : List.Forall₂ (Run.Agree limit) callers callers') :
    (outermost r callers).Agree limit (outermost r' callers') := by
  induction hc generalizing r r' with
  | nil => exact h
  | cons hcaller _ ih =>
    obtain ⟨t', rfl, -⟩ := h
    obtain ⟨u', rfl, hu⟩ := hcaller
    exact ih ⟨u', rfl, hu⟩

theorem abort_limited (h : s.Agree limit s') (e : Error) :
    (abort s e).Agree limit (abort s' e) := by
  obtain ⟨t', callers', rfl, ht, hc⟩ := h
  obtain ⟨u', hu, -⟩ := outermost_limited ⟨t', rfl, ht⟩ hc
  simp only [abort, hu]
  exact ⟨⟨rfl, rfl, rfl, rfl⟩, rfl⟩

private theorem raise?_limited (input : Input) (payload : Payload) {r r' : Run}
    {callers callers' : List Run} (h : r.Agree limit r')
    (hc : List.Forall₂ (Run.Agree limit) callers callers') :
    raise? input payload r callers = none ∧ raise? input payload r' callers' = none ∨
      ∃ f u u', raise? input payload r callers = some (f, u) ∧
        raise? input payload r' callers' = some (f, u') ∧ u.Agree limit u' := by
  induction hc generalizing r r' with
  | nil =>
    obtain ⟨t', rfl, ht⟩ := h
    have hsame : Run.position? input { r with terms := t' } = r.position? input := rfl
    simp only [raise?, hsame]
    cases r.position? input with
    | none => exact .inl ⟨rfl, rfl⟩
    | some position => exact .inr ⟨_, _, _, rfl, rfl, t', rfl, ht⟩
  | cons hcaller _ ih =>
    obtain ⟨t', rfl, -⟩ := h
    obtain ⟨u', rfl, hu⟩ := hcaller
    have hsame : Run.position? input { r with terms := t' } = r.position? input := rfl
    simp only [raise?, hsame]
    cases r.position? input with
    | none => exact .inl ⟨rfl, rfl⟩
    | some position => exact ih ⟨u', rfl, hu⟩

theorem raise_limited (h : s.Agree limit s') (payload : Payload) :
    (raise env s payload).Agree limit (raise env s' payload) := by
  have hreported := h.reported
  obtain ⟨t', callers', rfl, ht, hc⟩ := h
  unfold raise
  obtain ⟨hnone, hnone'⟩ | ⟨f, u, u', hsome, hsome', v, rfl, -⟩ :=
    raise?_limited env.input payload ⟨t', rfl, ht⟩ hc
  · simp only [hnone, hnone']
    exact ⟨hreported, rfl⟩
  · simp only [hsome, hsome']
    exact ⟨⟨rfl, rfl, rfl, rfl⟩, rfl⟩

private theorem resume_limited
    (h : s.Agree limit s') {caller caller' : Run} {callers callers' : List Run}
    (hcaller : caller.Agree limit caller') (hc : List.Forall₂ (Run.Agree limit) callers callers')
    (change : Frame → Frame) :
    (resume s caller callers change).Agree limit (resume s' caller' callers' change) := by
  obtain ⟨t', outer', rfl, -, -⟩ := h
  obtain ⟨u', rfl, hu⟩ := hcaller
  exact ⟨u', callers', rfl, hu, hc⟩

private theorem finish_limited (h : s.Agree limit s') (root : Frame) :
    (finish env s root).Agree limit (finish env s' root) := by
  have htrace := h.trace (.finish (!root.failed) root.cursor)
  unfold finish
  simp only
  generalize s.trace (.finish (!root.failed) root.cursor) = u at htrace
  generalize s'.trace (.finish (!root.failed) root.cursor) = u' at htrace
  have hall := htrace
  obtain ⟨t', callers', rfl, ht, hc⟩ := htrace
  have hposition : Run.position? env.input { u.run with terms := t' } =
      u.run.position? env.input := rfl
  simp only [hposition]
  generalize hcallers : u.callers = callers at hc
  split
  · cases u.run.position? env.input with
    | none => exact ⟨hall.reported, rfl⟩
    | some position =>
      cases hc with
      | nil => exact ⟨hall.reported, rfl⟩
      | cons hcaller hc => exact resume_limited hall hcaller hc _
  · cases hc with
    | nil => exact ⟨hall.reported, rfl⟩
    | cons hcaller hc => exact resume_limited hall hcaller hc _

private theorem fold_limited (h : s.Agree limit s') (child parent : Frame) (below : List Frame) :
    (fold env s child parent below).Agree limit (fold env s' child parent below) := by
  unfold fold
  cases Frame.fold? env.input child parent with
  | none => exact ⟨h.reported, rfl⟩
  | some f => exact (h.withFrames _).trace _

private theorem leaf_limited (h : s.Agree limit s') (top : Frame) (below : List Frame) (e : Expr)
    (attempt : Attempt) : (leaf s top below e attempt).Agree limit (leaf s' top below e attempt) := by
  cases attempt with
  | fault => exact ⟨h.reported, rfl⟩
  | mismatch => exact ((h.reach _).trace _).withFrames _
  | success value next => exact (((h.reach _).trace _).reach _).withFrames _

private theorem enter_limited
    (h : s.Agree limit s') (top : Frame) (below : List Frame) (kind : Kind)
    (items : List Expr) : (enter s top below kind items).Agree limit (enter s' top below kind items) :=
  (h.withFrames _).trace _

private theorem embed_limited
    (h : s.Agree limit s') (top : Frame) (id : Option Nat) (main : Bytes) :
    (embed env s top id main).Agree limit (embed env s' top id main) := by
  have htrace := h.trace (.embed main)
  have hsettled : s.run.terms.Settled ∧ s'.run.terms.Settled := by
    obtain ⟨t', callers', rfl, ht, -⟩ := h
    exact ⟨ht.left.settled, ht.right⟩
  have hterms : (s.run.terms.inside main).Agree limit (s'.run.terms.inside main) := by
    obtain ⟨t', callers', rfl, ht, -⟩ := h
    exact ht.inside main
  simp only [embed, inside?_eq hsettled.1, inside?_eq hsettled.2]
  split
  · split
    · exact abort_limited h _
    · obtain ⟨t', callers', hsame, ht, hc⟩ := htrace
      rw [hsame]
      exact ⟨s'.run.terms.inside main, _, rfl, hterms, .cons ⟨t', rfl, ht⟩ hc⟩
  · exact ⟨h.reported, rfl⟩

/-- The host does the same in both states, and leaves the settings of each as they are. -/
theorem custom_limited (hhost : env.host.Blind) (h : s.Agree limit s') (host : Nat) :
    (custom env s host).Agree limit (custom env s' host) := by
  obtain ⟨t', callers', rfl, ht, hc⟩ := h
  have hreply : env.host host (s.view env) =
      { env.host host (s.view env) with settings := s.run.terms.settings } :=
    hhost host (s.view env) s.run.terms.settings
  have hreply' : env.host host { s.view env with settings := t'.settings } =
      { env.host host (s.view env) with settings := t'.settings } :=
    hhost host (s.view env) t'.settings
  have hview : State.view env
      { s with run := { s.run with terms := t' }, callers := callers' } =
        { s.view env with settings := t'.settings } := rfl
  unfold custom
  simp only [hview, hreply']
  rw [hreply]
  generalize env.host host (s.view env) = reply
  have hnext : State.Agree limit
      { s with
        run := { s.run with
          stack := reply.stack
          terms := { s.run.terms with settings := s.run.terms.settings } }
        snapshots := reply.snapshots.reverse ++ s.snapshots }
      { s with
        run := { s.run with
          terms := { t' with settings := t'.settings }
          stack := reply.stack }
        callers := callers'
        snapshots := reply.snapshots.reverse ++ s.snapshots } := ⟨t', callers', rfl, ht, hc⟩
  cases reply.verdict with
  | done => exact hnext
  | failed message => exact raise_limited hnext _
  | fault => exact ⟨hnext.reported, rfl⟩

private theorem act_limited
    (hhost : env.host.Blind) (h : s.Agree limit s') (top : Frame) (below : List Frame)
    (a : Action) : (act env s top below a).Agree limit (act env s' top below a) := by
  have htrace := h.trace (.action a.render)
  unfold act
  simp only
  cases a with
  | insert values => exact htrace.withFrames _
  | insertText text =>
    simp only
    split
    · exact ⟨htrace.reported, rfl⟩
    · exact htrace.withFrames _
  | convert f =>
    cases f with
    | none => exact ⟨htrace.reported, rfl⟩
    | some f =>
      simp only
      split
      · exact raise_limited (htrace.withFrames _) _
      · exact htrace.withFrames _
  | modify f =>
    simp only
    split
    · exact htrace
    · exact ⟨htrace.reported, rfl⟩
    · split
      · exact raise_limited htrace _
      · exact htrace.withFrames _
  | note key datum =>
    simp only
    split
    · exact htrace
    · exact htrace.withFrames _
  | clear => exact htrace.withFrames _
  | custom host =>
    cases host with
    | none => exact ⟨htrace.reported, rfl⟩
    | some host => exact custom_limited hhost htrace host
  | throw datum => exact raise_limited htrace datum
  | log args =>
    obtain ⟨t', callers', hsame, ht, hc⟩ := htrace
    rw [hsame]
    exact ⟨t', callers', rfl, ht, hc⟩
  | unknown => exact abort_limited htrace _

private theorem evaluate_limited (hhost : env.host.Blind) (h : s.Agree limit s') (top : Frame)
    (below : List Frame) : (evaluate env s top below).Agree limit (evaluate env s' top below) := by
  have hgrammar : s'.grammar env = s.grammar env := by
    obtain ⟨t', callers', rfl, -, -⟩ := h
    rfl
  unfold evaluate
  cases top.pending with
  | nil => exact ⟨h.reported, rfl⟩
  | cons e rest =>
    cases e with
    | rule name =>
      simp only [hgrammar]
      split
      · exact abort_limited h _
      · exact (h.trace _).withFrames _
    | missing => exact abort_limited (h.withFrames _) _
    | literal | pattern => exact leaf_limited (h.withFrames _) _ _ _ _
    | sequence | choice | wrap | hide | iterate => exact enter_limited (h.withFrames _) _ _ _ _
    | action a => exact act_limited hhost (h.withFrames _) _ _ a
    | embed id main => exact embed_limited (h.withFrames _) _ id main

theorem State.Agree.mayStep (h : s.Agree limit s') : s.MayStep := by
  obtain ⟨t', callers', rfl, ht, -⟩ := h
  exact mayStep_of_nonpos ht.left.limit

theorem State.Agree.limit_eq (h : s.Agree limit s') : s'.run.terms.limit = limit := by
  obtain ⟨t', callers', rfl, ht, hc⟩ := h
  exact ht.limit_eq

/-- A limit decides whether a step is taken and never what the step does. -/
theorem step_limited (hhost : env.host.Blind) (h : s.Agree limit s') (hl' : s'.MayStep) :
    (step env s).Agree limit (step env s') := by
  have hcounted := h.counted
  have hframes : s'.run.stack.frames = s.run.stack.frames := by
    obtain ⟨t', callers', rfl, -, -⟩ := h
    rfl
  unfold step
  rw [if_neg h.mayStep, if_neg hl']
  simp only [hframes]
  split
  · exact abort_limited hcounted _
  · split
    · split
      · exact finish_limited hcounted _
      · exact fold_limited hcounted _ _ _
    · exact evaluate_limited hhost (hcounted.withFrames _) _ _

end

/-- What is reported of a run that ended. -/
def Report.ofRun : State × Ending → Report
  | (s, ending) =>
    { ending := ending
      steps := s.steps
      furthest := s.run.furthest
      log := s.log.reverse
      snapshots := s.snapshots.reverse }

theorem ofRun_eq {s s' : State} {ending : Ending} (h : s.Reported s') :
    Report.ofRun (s', ending) = Report.ofRun (s, ending) := by
  obtain ⟨hsteps, hfurthest, hlog, hsnapshots⟩ := h
  simp only [Report.ofRun, hsteps, hfurthest, hlog, hsnapshots]

section

variable {env : Env} {limit : Int} {s s' t : State} {ending : Ending} {fuel : Nat}

/-- A step is counted, or the machine stops short of it. -/
theorem steps_le_step (env : Env) (s : State) : s.steps ≤ (step env s).state.steps := by
  by_cases hl : s.MayStep
  · rw [step_steps hl]
    omega
  · rw [step, if_pos (Decidable.not_not.1 hl)]
    exact Nat.le_refl _

private theorem steps_le_of_run (h : run env fuel s = some (t, ending)) : s.steps ≤ t.steps := by
  obtain ⟨n, u, hsteps, hstop⟩ := steps_of_run h
  have hlast := steps_le_step env u
  rw [hstop, state_stop] at hlast
  have := hsteps.steps_eq
  omega

/-- A run that ends before the limit is reached does not notice it. -/
theorem run_within_limit (hhost : env.host.Blind) (h : s.Agree limit s')
    (hrun : run env fuel s = some (t, ending)) (hle : 0 < limit → (t.steps : Int) ≤ limit) :
    ∃ t', run env fuel s' = some (t', ending) ∧ t.Reported t' := by
  induction fuel generalizing s s' with
  | zero => cases hrun
  | succ fuel ih =>
    have hcount : (step env s).state.steps = s.steps + 1 := step_steps h.mayStep
    rw [run] at hrun
    have hlast : (step env s).state.steps ≤ t.steps := by
      cases hstep : step env s with
      | next u =>
        rw [hstep] at hrun
        exact steps_le_of_run hrun
      | stop u ending' =>
        rw [hstep] at hrun
        cases hrun
        exact Nat.le_refl _
    have hl' : s'.MayStep := by
      rintro ⟨hpos, hreached⟩
      rw [h.limit_eq] at hpos hreached
      rw [h.reported.1] at hreached
      have := hle hpos
      omega
    have hagrees := step_limited hhost h hl'
    rw [run]
    cases hstep : step env s with
    | next u =>
      cases hstep' : step env s' with
      | next u' =>
        rw [hstep, hstep'] at hagrees
        rw [hstep] at hrun
        exact ih hagrees hrun
      | stop u' ending' =>
        rw [hstep, hstep'] at hagrees
        exact hagrees.elim
    | stop u ending =>
      cases hstep' : step env s' with
      | next u' =>
        rw [hstep, hstep'] at hagrees
        exact hagrees.elim
      | stop u' ending' =>
        rw [hstep, hstep'] at hagrees
        rw [hstep] at hrun
        cases hrun
        obtain ⟨hreported, rfl⟩ := hagrees
        exact ⟨u', rfl, hreported⟩

/-- A run that is not cut off ends just so without a limit. -/
theorem run_uncut (hhost : env.host.Blind) (h : s.Agree limit s')
    (hrun : run env fuel s' = some (t, ending))
    (he : ∀ cursor, ending ≠ .error (.limit limit) cursor) :
    ∃ u, run env fuel s = some (u, ending) ∧ u.Reported t := by
  induction fuel generalizing s s' with
  | zero => cases hrun
  | succ fuel ih =>
    rw [run] at hrun
    by_cases hl' : s'.MayStep
    · have hagrees := step_limited hhost h hl'
      rw [run]
      cases hstep : step env s with
      | next u =>
        cases hstep' : step env s' with
        | next u' =>
          rw [hstep, hstep'] at hagrees
          rw [hstep'] at hrun
          exact ih hagrees hrun
        | stop u' ending' =>
          rw [hstep, hstep'] at hagrees
          exact hagrees.elim
      | stop u ending =>
        cases hstep' : step env s' with
        | next u' =>
          rw [hstep, hstep'] at hagrees
          exact hagrees.elim
        | stop u' ending' =>
          rw [hstep, hstep'] at hagrees
          rw [hstep'] at hrun
          cases hrun
          obtain ⟨hreported, rfl⟩ := hagrees
          exact ⟨u, rfl, hreported⟩
    · rw [step, if_pos (Decidable.not_not.1 hl'), h.limit_eq] at hrun
      cases hrun
      exact absurd rfl (he _)

/-- A run that would take more steps than the limit is cut off when it has taken that many. -/
theorem run_past_limit (hhost : env.host.Blind) (h : s.Agree limit s')
    (hrun : run env fuel s = some (t, ending)) (hpos : 0 < limit) (hs : (s.steps : Int) ≤ limit)
    (hlt : limit < t.steps) :
    ∃ u cursor, run env fuel s' = some (u, .error (.limit limit) cursor) ∧
      (u.steps : Int) = limit := by
  induction fuel generalizing s s' with
  | zero => cases hrun
  | succ fuel ih =>
    have hcount : (step env s).state.steps = s.steps + 1 := step_steps h.mayStep
    have hsteps := h.reported.1
    rw [run] at hrun
    rw [run]
    by_cases hl' : s'.MayStep
    · have hagrees := step_limited hhost h hl'
      have hbefore : (s.steps : Int) < limit := by
        rw [State.MayStep, h.limit_eq, hsteps] at hl'
        omega
      cases hstep : step env s with
      | next u =>
        rw [hstep, state_next] at hcount
        cases hstep' : step env s' with
        | next u' =>
          rw [hstep, hstep'] at hagrees
          rw [hstep] at hrun
          exact ih hagrees hrun (by omega)
        | stop u' ending' =>
          rw [hstep, hstep'] at hagrees
          exact hagrees.elim
      | stop u ending =>
        rw [hstep] at hrun hcount
        cases hrun
        rw [state_stop] at hcount
        omega
    · have hreached := Decidable.not_not.1 hl'
      rw [step, if_pos hreached, h.limit_eq]
      rw [h.limit_eq, hsteps] at hreached
      refine ⟨_, _, rfl, ?_⟩
      simp only [hsteps]
      omega

end

section

variable (family : Family) (host : Host) (config : Config) (id : Nat) (input : Input)

/-- A match is turned down before its first step, or it is a run of the machine. -/
theorem matchInput_cases :
    (∃ e, ∀ limit fuel, matchInput fuel family host { config with limit := limit } id input =
      some { ending := .error e 0 }) ∨
    ∀ limit fuel, matchInput fuel family host { config with limit := limit } id input =
      (run (environment family host input) fuel
        (initial { config with limit := limit } id)).map Report.ofRun := by
  cases hcheck : family.check id with
  | some e => exact .inl ⟨e, fun _ _ => by simp only [matchInput, hcheck]⟩
  | none =>
    cases hmain : ((family[id]?).getD {}).rule? config.main with
    | none =>
      exact .inl ⟨.undefined (((family[id]?).getD {}).undefined config.main []),
        fun _ _ => by simp only [matchInput, hcheck, hmain]⟩
    | some body =>
      refine .inr fun _ _ => ?_
      simp only [matchInput, hcheck, hmain]
      rfl

variable {family id} in
/-- A match of a grammar without custom actions does not depend on the host. -/
theorem matchInput_host_eq (hfree : family.CustomFree id) (host' : Host) (fuel : Nat) :
    matchInput fuel family host config id input = matchInput fuel family host' config id input := by
  simp only [matchInput, Evaluator.run_initial_host_eq hfree host host' config input fuel]

theorem initial_limited {limit limit' : Int} (hl : limit ≤ 0) :
    (initial { config with limit := limit } id).Agree limit'
      (initial { config with limit := limit' } id) :=
  ⟨_, [], rfl, ⟨⟨settled_terms _, hl⟩, settled_terms _, rfl, rfl, rfl⟩, .nil⟩

variable {family id} in
/-- So a match that is not cut off ends just so without a limit. -/
theorem matchInput_uncut (hfree : family.CustomFree id) {fuel : Nat} {report : Report}
    (h : matchInput fuel family host config id input = some report)
    (he : ∀ cursor, report.ending ≠ .error (.limit config.limit) cursor) :
    matchInput fuel family host { config with limit := 0 } id input = some report := by
  rw [matchInput_host_eq host _ input hfree Host.idle] at h ⊢
  obtain ⟨e, hturned⟩ | hrun := matchInput_cases family Host.idle config id input
  · obtain rfl := Option.some.inj ((hturned config.limit fuel).symm.trans h)
    exact hturned 0 fuel
  · obtain ⟨⟨t, ending⟩, ht, rfl⟩ := Option.map_eq_some_iff.1 ((hrun config.limit fuel).symm.trans h)
    obtain ⟨u, hu, hreported⟩ :=
      run_uncut blind_idle (initial_limited config id (Int.le_refl 0)) ht he
    rw [hrun, hu, Option.map_some, ofRun_eq hreported]

/-- Limits that are not positive are the same as none. -/
theorem run_of_limit_nonpos (hhost : host.Blind) {limit limit' : Int} (hl : limit ≤ 0)
    (hl' : limit' ≤ 0) {fuel : Nat} {r : Report}
    (h : (run (environment family host input) fuel
      (initial { config with limit := limit } id)).map Report.ofRun = some r) :
    (run (environment family host input) fuel
      (initial { config with limit := limit' } id)).map Report.ofRun = some r := by
  obtain ⟨⟨t, ending⟩, hrun, rfl⟩ := Option.map_eq_some_iff.1 h
  obtain ⟨t', hrun', hreported⟩ :=
    run_within_limit hhost (initial_limited config id hl) hrun
      fun hpos => absurd hpos (Int.not_lt.2 hl')
  rw [hrun', Option.map_some, ofRun_eq hreported]

/-- Under a host that leaves the settings alone the limit is a sharp threshold. -/
theorem limited_of_blind (hhost : host.Blind) :
    (∀ limit ≤ 0, ∀ fuel, matchInput fuel family host { config with limit := limit } id input =
      matchInput fuel family host { config with limit := 0 } id input) ∧
    ∀ fuel report, matchInput fuel family host { config with limit := 0 } id input = some report →
      (∀ limit : Int, report.steps ≤ limit →
        matchInput fuel family host { config with limit := limit } id input = some report) ∧
      ∀ limit : Int, 0 < limit → limit < report.steps →
        ∃ cut cursor, matchInput fuel family host { config with limit := limit } id input = some cut ∧
          cut.ending = .error (.limit limit) cursor ∧ (cut.steps : Int) = limit := by
  obtain ⟨e, he⟩ | hrun := matchInput_cases family host config id input
  · refine ⟨fun limit _ fuel => (he limit fuel).trans (he 0 fuel).symm, fun fuel report h => ?_⟩
    obtain rfl := Option.some.inj ((he 0 fuel).symm.trans h)
    refine ⟨fun limit _ => he limit fuel, fun limit hpos hlt => ?_⟩
    simp only at hlt
    omega
  simp only [hrun]
  constructor
  · intro limit hl fuel
    ext r
    exact ⟨run_of_limit_nonpos family host config id input hhost hl (Int.le_refl 0),
      run_of_limit_nonpos family host config id input hhost (Int.le_refl 0) hl⟩
  · intro fuel report h
    obtain ⟨⟨t, ending⟩, ht, rfl⟩ := Option.map_eq_some_iff.1 h
    have hagree (limit : Int) : (initial { config with limit := 0 } id).Agree limit
        (initial { config with limit := limit } id) := initial_limited config id (Int.le_refl 0)
    refine ⟨fun limit hle => ?_, fun limit hpos hlt => ?_⟩
    · obtain ⟨t', ht', hreported⟩ := run_within_limit hhost (hagree limit) ht fun _ => hle
      rw [ht', Option.map_some, ofRun_eq hreported]
    · obtain ⟨u, cursor, hu, hcount⟩ :=
        run_past_limit hhost (hagree limit) ht hpos (Int.le_of_lt hpos) hlt
      exact ⟨_, cursor, by rw [hu]; rfl, rfl, hcount⟩

/-- The limit is a sharp threshold, if there are no custom actions or the host leaves the settings
alone. A match that ends after a number of steps without a limit ends just so under every limit from
that number on, and every smaller limit stops it there. A limit that is not positive is none. -/
theorem match_limited (hhost : family.CustomFree id ∨ host.Blind) :
    (∀ limit ≤ 0, ∀ fuel, matchInput fuel family host { config with limit := limit } id input =
      matchInput fuel family host { config with limit := 0 } id input) ∧
    ∀ fuel report, matchInput fuel family host { config with limit := 0 } id input = some report →
      (∀ limit : Int, report.steps ≤ limit →
        matchInput fuel family host { config with limit := limit } id input = some report) ∧
      ∀ limit : Int, 0 < limit → limit < report.steps →
        ∃ cut cursor, matchInput fuel family host { config with limit := limit } id input = some cut ∧
          cut.ending = .error (.limit limit) cursor ∧ (cut.steps : Int) = limit := by
  rcases hhost with hfree | hblind
  · simp only [matchInput_host_eq host _ input hfree Host.idle]
    exact limited_of_blind family Host.idle config id input blind_idle
  · exact limited_of_blind family host config id input hblind

end

/-- The list takes 67 steps, and the fortieth is one of a run that is embedded in another
embedded one. -/
theorem match_limited_nested :
    (nested.CustomFree 0 ∨ Host.idle.Blind) ∧
    ∃ report, matchInput 70 nested Host.idle { limit := 0 } 0 (.text "[w[w]]") = some report ∧
      matchInput 70 nested Host.idle { limit := 67 } 0 (.text "[w[w]]") = some report ∧
      ∃ cut cursor, matchInput 70 nested Host.idle { limit := 40 } 0 (.text "[w[w]]") = some cut ∧
        cut.ending = .error (.limit 40) cursor := by
  have hends : (matchInput 70 nested Host.idle { limit := 0 } 0
      (.text "[w[w]]")).map (·.steps) = some 67 := by decide +kernel
  obtain ⟨report, hreport, hsteps⟩ := Option.map_eq_some_iff.1 hends
  have hfree : nested.CustomFree 0 ∨ Host.idle.Blind := .inl customFree_nested
  obtain ⟨hwithin, hpast⟩ := (match_limited nested Host.idle {} 0 (.text "[w[w]]") hfree).2 70
    report hreport
  obtain ⟨cut, cursor, hcut, hending, -⟩ := hpast 40 (by omega) (by omega)
  exact ⟨hfree, report, hreport, hwithin 67 (by omega), cut, cursor, hcut, hending⟩

end PegMachine.Machine
