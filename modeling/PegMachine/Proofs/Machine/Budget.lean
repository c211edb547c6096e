import PegMachine.Proofs.Machine.Nesting
import PegMachine.Proofs.Machine.Safety

namespace PegMachine

open Settings

/-- Settings with no limit but a positive one of at most `bound`. -/
def Settings.Within (settings : Settings) (bound : Int) : Prop :=
  ∀ limit, settings.getInt limitKey = .ok limit → 0 < limit ∧ limit ≤ bound

namespace Machine

/-- The functions of the host may lower the limit, but none of them lifts it above `bound` or takes
it away. -/
def Host.KeepsLimit (host : Host) (bound : Int) : Prop :=
  ∀ id view, view.settings.Within bound → (host id view).settings.Within bound

theorem keepsLimit_idle (bound : Int) : Host.idle.KeepsLimit bound := fun _ _ h => h

/-- A run has to end within `bound` steps, and so do those that it embeds. -/
structure Terms.Within (t : Terms) (bound : Int) : Prop where
  pos : 0 < t.limit
  le : t.limit ≤ bound
  settings : t.settings.Within bound

/-- All runs of a state have to end within `bound` steps. -/
def State.Within (s : State) (bound : Int) : Prop :=
  ∀ r ∈ s.run :: s.callers, r.terms.Within bound

theorem Terms.Within.inside? {t u : Terms} {bound : Int} {main : Bytes} (h : t.Within bound)
    (hu : t.inside? main = .ok u) : u.Within bound := by
  obtain ⟨hlimit, hkept⟩ := limit_of_inside? hu
  obtain ⟨hpos, hle⟩ := h.settings u.limit hlimit
  exact ⟨hpos, hle, fun limit hl => h.settings limit (hkept ▸ hl)⟩

theorem within_initial {config : Config} {id : Nat} (h : 0 < config.limit) :
    (initial config id).Within config.limit := by
  intro r hr
  obtain rfl := List.mem_singleton.1 hr
  refine ⟨h, Int.le_refl _, fun limit hl => ?_⟩
  have hsame : config.settings.getInt limitKey = .ok config.limit :=
    getInt_eq (settled_terms config).limit
  obtain rfl := Except.ok.inj (hsame.symm.trans hl)
  exact ⟨h, Int.le_refl _⟩

section

variable {env : Env} {s t : State} {bound : Int} {fuel : Nat}

/-- Only the host changes the settings of a run, and only the settings decide about the limit of
the runs inside of it. -/
theorem within_of_next (hhost : env.host.KeepsLimit bound) (h : s.Within bound)
    (hstep : step env s = .next t) : t.Within bound := by
  intro r hr
  have hrun := h s.run (by simp)
  obtain ⟨r', hr', heq⟩ | hnew := terms_of_next hstep hr
  · exact heq ▸ h r' hr'
  · generalize r.terms = u at hnew
    cases hnew with
    | embed main hterms => exact hrun.inside? hterms
    | call host view hview hterms =>
      rw [hterms]
      exact ⟨hrun.pos, hrun.le, hhost host view (hview ▸ hrun.settings)⟩

/-- The bound holds for the steps of the runs that a limit lets go on and of those that it stops. -/
theorem steps_le_bound (env : Env) (h : s.Within bound) (hs : (s.steps : Int) ≤ bound) :
    ((step env s).state.steps : Int) ≤ bound := by
  by_cases hl : s.MayStep
  · have hcount : (step env s).state.steps = s.steps + 1 := step_steps hl
    have hrun := h s.run (by simp)
    have hpos := hrun.pos
    have hle := hrun.le
    unfold State.MayStep at hl
    omega
  · rw [step, if_pos (Decidable.not_not.1 hl)]
    exact hs

theorem Steps.within {n : Nat} (hhost : env.host.KeepsLimit bound) (h : Steps env n s t)
    (hw : s.Within bound) (hs : (s.steps : Int) ≤ bound) :
    t.Within bound ∧ (t.steps : Int) ≤ bound := by
  induction h with
  | refl s => exact ⟨hw, hs⟩
  | head hstep _ ih =>
    have hnext := steps_le_bound env hw hs
    rw [hstep] at hnext
    exact ih (within_of_next hhost hw hstep) hnext

/-- A machine whose runs are all bounded stops within that many steps. -/
theorem run_ends (hhost : env.host.KeepsLimit bound) (hw : s.Within bound)
    (hle : bound ≤ s.steps + fuel) : (run env (fuel + 1) s).isSome := by
  induction fuel generalizing s with
  | zero =>
    have hrun := hw s.run (by simp)
    have hbound := hrun.le
    have hreached : 0 < s.run.terms.limit ∧ s.run.terms.limit ≤ s.steps := ⟨hrun.pos, by omega⟩
    rw [run, step, if_pos hreached]
    rfl
  | succ fuel ih =>
    rw [run]
    cases hstep : step env s with
    | next t =>
      have hcount : (step env s).state.steps = s.steps + 1 := step_steps (mayStep_of_next hstep)
      rw [hstep, state_next] at hcount
      exact ih (within_of_next hhost hw hstep) (by omega)
    | stop t ending => rfl

/-- So a match with a limit ends. -/
theorem run_initial_isSome (family : Family) {host : Host} {config : Config} (id : Nat)
    (input : Input) (hlimit : 0 < config.limit) (hhost : host.KeepsLimit config.limit) :
    (run (environment family host input) (config.limit.toNat + 1) (initial config id)).isSome := by
  have hdone : config.limit ≤ (initial config id).steps + config.limit.toNat := by
    simp only [initial]
    omega
  exact run_ends hhost (within_initial hlimit) hdone

/-- The next step calls a function of the host. -/
def State.CallsHost (env : Env) (s : State) : Prop :=
  s.MayStep ∧ ∃ top below host rest, s.run.stack.frames = top :: below ∧
    top.isComplete env.input.size = false ∧
    top.restart.pending = .action (.custom (some host)) :: rest

/-- Sound rules lead to a fault only by way of the host. -/
theorem callsHost_of_fault {known : Nat → Prop} {allowed : Action → Prop}
    (hr : SoundRules env.family known allowed) (h : Safe env known allowed s)
    (hfault : run env fuel s = some (t, .fault)) : ∃ n u, Steps env n s u ∧ u.CallsHost env := by
  induction fuel generalizing s with
  | zero => cases hfault
  | succ fuel ih =>
    by_cases hcalls : s.CallsHost env
    · exact ⟨0, s, .refl s, hcalls⟩
    rw [run] at hfault
    by_cases hl : s.MayStep
    · have hk : Keeps env known allowed (step env s) := by
        refine step_keeps_of_pending hr h ?_
        intro top below hf hc host rest hp
        cases host with
        | some host => exact hcalls ⟨hl, top, below, host, rest, hf, hc, hp⟩
        | none =>
          have hsound := (h.run.frames top (by simp [hf])).restart.pending (.action (.custom none))
            (by simp [hp])
          exact absurd hsound.flawless.flaws_eq (by simp [Expr.flaws, Expr.actionFlaws])
      cases hstep : step env s with
      | next u =>
        rw [hstep] at hk hfault
        obtain ⟨n, v, hsteps, hv⟩ := ih hk hfault
        exact ⟨n + 1, v, .head hstep hsteps, hv⟩
      | stop u ending =>
        rw [hstep] at hk hfault
        cases hfault
        exact hk.1.elim
    · rw [step, if_pos (Decidable.not_not.1 hl)] at hfault
      cases hfault

/-- A machine that never leaves the states in which it goes on does not stop. -/
theorem run_eq_none {holds : State → Prop}
    (hnext : ∀ s, holds s → ∃ t, step env s = .next t ∧ holds t) (fuel : Nat) (hs : holds s) :
    run env fuel s = none := by
  induction fuel generalizing s with
  | zero => rfl
  | succ fuel ih =>
    obtain ⟨t, hstep, ht⟩ := hnext s hs
    rw [run, hstep]
    exact ih ht

end

/-- Every match with a limit ends, if the host leaves the limit alone or lowers it: all its runs
together take no more steps than the limit allows, each of them counted once. A checked grammar
leads to a fault only by way of a function of the host. -/
theorem match_ends (family : Family) (host : Host) (config : Config) (id : Nat) (input : Input)
    (hdefined : ∀ g ∈ family, g.Defined) (hclosed : family.Closed)
    (hcheck : family.check id = none) (hlimit : 0 < config.limit)
    (hhost : host.KeepsLimit config.limit) :
    (∀ n s, Steps (environment family host input) n (initial config id) s →
      s.steps = n ∧ (n : Int) ≤ config.limit) ∧
    ∃ report, matchInput (config.limit.toNat + 1) family host config id input = some report ∧
      (report.steps : Int) ≤ config.limit ∧
      (report.ending = .fault → ∃ n s,
        Steps (environment family host input) n (initial config id) s ∧
          s.CallsHost (environment family host input)) := by
  have hwithin : (initial config id).Within config.limit := within_initial hlimit
  have hstart : ((initial config id).steps : Int) ≤ config.limit := Int.le_of_lt hlimit
  constructor
  · intro n s h
    have hcount : s.steps = n := by simpa [initial] using h.steps_eq
    exact ⟨hcount, hcount ▸ (h.within hhost hwithin hstart).2⟩
  cases hmain : (family.grammarAt id).rule? config.main with
  | none =>
    have hmain' : ((family[id]?).getD {}).rule? config.main = none := hmain
    exact ⟨{ ending := .error (.undefined (((family[id]?).getD {}).undefined config.main [])) 0 },
      by simp only [matchInput, hcheck, hmain'], Int.le_of_lt hlimit, by simp⟩
  | some body =>
    have hmain' : ((family[id]?).getD {}).rule? config.main = some body := hmain
    obtain ⟨⟨t, ending⟩, hrun⟩ :=
      Option.isSome_iff_exists.1 (run_initial_isSome family id input hlimit hhost)
    refine ⟨_, by simp only [matchInput, hcheck, hmain', hrun, Option.map_some]; rfl, ?_, ?_⟩
    · obtain ⟨n, u, hsteps, hstop⟩ := steps_of_run hrun
      obtain ⟨hu, hcount⟩ := hsteps.within hhost hwithin hstart
      have hlast := steps_le_bound (environment family host input) hu hcount
      rw [hstop] at hlast
      exact hlast
    · intro hfault
      obtain rfl : ending = .fault := hfault
      have hmain := Option.isSome_of_eq_some hmain
      have hr : SoundRules family (family.Embeds id) fun _ => True :=
        soundRules_of_check hdefined hclosed hcheck hmain fun _ _ _ _ _ _ => trivial
      have hsafe : Safe (environment family host input) (family.Embeds id) (fun _ => True)
          (initial config id) :=
        ⟨.start .refl (settled_terms config) hmain (Int.le_refl 0) input.size_nonneg,
          by simp [initial]⟩
      exact callsHost_of_fault hr hsafe hrun

/-- A grammar that calls the host and then embeds a rule that leads to nothing but itself. -/
def spinning : Family :=
  [.ofRules [("main", .sequence [.action (.custom (some 0)), .embed (some 0) "again"]),
    ("again", .rule "again")]]

private theorem defined_spinning : ∀ g ∈ spinning, g.Defined := Grammar.defined_map [_]

private theorem closed_spinning : spinning.Closed := by decide

/-- Only the limit ends this match. -/
theorem match_ends_spinning : (∀ g ∈ spinning, g.Defined) ∧ spinning.Closed ∧
    spinning.check 0 = none ∧ Host.idle.KeepsLimit 10 ∧
    ∃ report, matchInput 11 spinning Host.idle { limit := 10 } 0 (.text "") = some report ∧
      report.steps ≤ 10 := by
  have hcheck : spinning.check 0 = none := rfl
  have hhost : Host.idle.KeepsLimit 10 := keepsLimit_idle 10
  obtain ⟨report, hreport, hsteps, -⟩ := (match_ends spinning Host.idle { limit := 10 } 0
    (.text "") defined_spinning closed_spinning hcheck (by decide) hhost).2
  exact ⟨defined_spinning, closed_spinning, hcheck, hhost, report, hreport, Int.ofNat_le.1 hsteps⟩

/-- A host that takes the limit away. -/
def unbounding : Host := fun _ view =>
  ⟨view.stack, put limitKey (.int 0) view.settings, [], .done⟩

/-- The run has nothing but the rule that leads to itself before it, and no limit. -/
def State.Spins (s : State) : Prop :=
  ∃ terms, terms.limit = 0 ∧ s.run = Run.start 0 "again" false terms 0

private theorem spins_next {s : State} (h : s.Spins) :
    ∃ t, step (environment spinning unbounding (.text "")) s = .next t ∧ t.Spins := by
  obtain ⟨terms, hlimit, hrun⟩ := h
  have hl : s.MayStep := by
    rw [State.MayStep, hrun, Run.start, hlimit]
    simp
  have hframes : s.run.stack.frames = [Frame.enter .root 0 [.rule "again"]] := by
    rw [hrun]
    rfl
  have hgrammar : s.run.grammar = 0 := by
    rw [hrun]
    rfl
  -- the rule is replaced by its expression, which is that very rule
  have heffect : (Frame.enter .root 0 [.rule "again"]).effect
      (environment spinning unbounding (.text "")) s.run.grammar =
        .become (Frame.enter .root 0 [.rule "again"]) [] := by
    rw [hgrammar]
    rfl
  obtain ⟨t, hstep, hruns⟩ := heffect ▸ step_performs hl hframes rfl
  obtain ⟨hsame, -⟩ := List.cons.inj hruns
  exact ⟨t, hstep, terms, hlimit, hsame.trans ((withFrames_self _ _ hframes).trans hrun)⟩

/-- The host is called before the machine embeds a rule. The embedded run reads its limit from the
settings as the host left them, so it has none, and the limit of the outer run is not looked at
again: the match never ends. -/
theorem match_goes_on_unbounded : (∀ g ∈ spinning, g.Defined) ∧ spinning.Closed ∧
    spinning.check 0 = none ∧
    ∀ fuel, matchInput fuel spinning unbounding { limit := 10 } 0 (.text "") = none := by
  refine ⟨defined_spinning, closed_spinning, rfl, fun fuel => ?_⟩
  have hstart : ∃ s, Steps (environment spinning unbounding (.text "")) 4
      (initial { limit := 10 } 0) s ∧ s.Spins :=
    ⟨_, .head rfl (.head rfl (.head rfl (.single rfl))), _, rfl, rfl⟩
  obtain ⟨s, hsteps, hs⟩ := hstart
  have hrun : run (environment spinning unbounding (.text "")) fuel (initial { limit := 10 } 0) =
      none := by
    cases hr : run (environment spinning unbounding (.text "")) fuel (initial { limit := 10 } 0) with
    | none => rfl
    | some r =>
      have hmore := run_mono hr (Nat.le_add_left fuel 4)
      rw [hsteps.run_add, run_eq_none (fun _ => spins_next) fuel hs] at hmore
      cases hmore
  exact congrArg (Option.map _) hrun

end Machine

end PegMachine
