import PegMachine.Proofs.Evaluator.Matches
import PegMachine.Proofs.Machine.Cursors
import PegMachine.Proofs.Machine.Nesting

namespace PegMachine

/-- An action gives up with a payload on an output, the last value of which comes first: it throws
the payload, or its function answers with an error. -/
inductive Action.GivesUp (output : List Value) : Action → Payload → Prop
  | throw (datum : Payload) : GivesUp output (.throw datum) datum
  | convert {f : Option Value → Except Bytes (Option Value)} {message : Bytes}
      (h : f output.head? = .error message) : GivesUp output (.convert (some f)) (.error message)
  | modify {f : Value → Except Bytes Value} {last : Value} {before : List Value} {message : Bytes}
      (ho : output = last :: before) (h : f last = .error message) :
      GivesUp output (.modify (some f)) (.error message)

namespace Machine

/-- The expression that the next step evaluates is an action that gives up with a payload. -/
def State.GivesUp (env : Env) (s : State) (payload : Payload) : Prop :=
  ∃ a top rest below, s.run.stack.frames = top :: below ∧
    top.isComplete env.input.size = false ∧ top.restart.pending = .action a :: rest ∧
    a.GivesUp top.output payload

section

variable {env : Env} {grammar : Nat} {f top : Frame} {a : Action} {payload : Payload}

@[simp] theorem restart_output : f.restart.output = f.output := by
  unfold Frame.restart
  split <;> rfl

/-- An action raises a payload exactly when it gives up with it. -/
theorem action_effect_raises (input : Input) :
    (∃ g, Action.effect input top a = .raise payload g) ↔ a.GivesUp top.output payload := by
  constructor
  · rintro ⟨g, h⟩
    cases a with
    | throw datum =>
      cases h
      exact .throw _
    | convert f =>
      cases f with
      | none => cases h
      | some f =>
        simp only [Action.effect] at h
        split at h
        · next message hf =>
          cases h
          exact .convert hf
        · cases h
    | modify f =>
      simp only [Action.effect] at h
      split at h
      · cases h
      · cases h
      · next last before f ho =>
        split at h
        · next message hf =>
          cases h
          exact .modify ho hf
        · cases h
    | insert | clear | log | unknown => cases h
    | insertText text =>
      simp only [Action.effect] at h
      split at h <;> cases h
    | note key datum =>
      simp only [Action.effect] at h
      split at h <;> cases h
    | custom host => cases host <;> cases h
  · intro h
    cases h with
    | throw => exact ⟨_, rfl⟩
    | convert hf =>
      refine ⟨{ top with output := top.output.tail }, ?_⟩
      simp only [Action.effect, hf]
    | modify ho hf =>
      refine ⟨top, ?_⟩
      simp only [Action.effect, ho, hf]

theorem effect_of_action {rest : List Expr} (hp : f.restart.pending = .action a :: rest) :
    f.effect env grammar = Action.effect env.input { f.restart with pending := rest } a := by
  simp only [Frame.effect, hp]

/-- A frame raises a payload only where the item it evaluates is an action that gives up. -/
theorem givesUp_of_effect {g : Frame} (h : f.effect env grammar = .raise payload g) :
    ∃ a rest, f.restart.pending = .action a :: rest ∧ a.GivesUp f.output payload := by
  have hitem : f.effect env grammar = .raise payload g →
      ∃ a rest, f.restart.pending = .action a :: rest := by
    refine effect_elim
      (motive := fun e => e = .raise payload g → ∃ a rest, f.restart.pending = .action a :: rest)
      ?expand ?mismatch ?success ?emit ?enter ?embed ?call ?raise ?abort ?fault
    case raise =>
      intro a _ rest _ hp _
      exact ⟨a, rest, hp⟩
    all_goals
      intros
      contradiction
  obtain ⟨a, rest, hp⟩ := hitem h
  have hraise : a.GivesUp { f.restart with pending := rest }.output payload :=
    (action_effect_raises env.input).1 ⟨g, effect_of_action hp ▸ h⟩
  rw [restart_output] at hraise
  exact ⟨a, rest, hp, hraise⟩

/-- A frame calls the host only where the item it evaluates is a custom action. -/
theorem isDefect_of_effect {e : Error} (h : f.effect env grammar = .abort e) : e.IsDefect := by
  revert h
  refine effect_elim (motive := fun effect => effect = .abort e → e.IsDefect)
    ?expand ?mismatch ?success ?emit ?enter ?embed ?call ?raise ?abort ?fault
  case abort =>
    intro e' hdefect heq
    cases heq
    exact hdefect
  all_goals
    intros
    contradiction

private theorem raise?_payload
    {input : Input} {r run : Run} {callers : List Run} {failure : Failure}
    (h : raise? input payload r callers = some (failure, run)) :
    failure.kind = .payload ∧ failure.payload = payload := by
  induction callers generalizing r with
  | nil =>
    obtain ⟨position, -, hfailure⟩ := Option.map_eq_some_iff.1 h
    cases hfailure
    exact ⟨rfl, rfl⟩
  | cons caller callers ih =>
    simp only [raise?] at h
    split at h
    · cases h
    · exact ih h

/-- All that raising a payload can end with is the failure that tells of it. -/
theorem raise_eq_stop {s t : State} {ending : Ending}
    (h : raise env s payload = .stop t ending) :
    ending = .fault ∨ ∃ failure cursor, ending = .error (.failure failure) cursor ∧
      failure.kind = .payload ∧ failure.payload = payload := by
  unfold raise at h
  split at h
  · cases h
    exact .inl rfl
  · next failure run hraise =>
    cases h
    exact .inr ⟨failure, _, rfl, raise?_payload hraise⟩

end

section

variable {env : Env} {s t : State} {payload : Payload}

/-- The step that evaluates an action which gives up raises the payload. -/
theorem State.GivesUp.step_eq (h : s.GivesUp env payload) (hl : s.MayStep) :
    ∃ u, step env s = raise env u payload := by
  obtain ⟨a, top, rest, below, hf, hc, hp, hgives⟩ := h
  have hperforms := step_performs hl hf hc
  have hgives' : a.GivesUp { top.restart with pending := rest }.output payload := by
    simpa using hgives
  obtain ⟨g, hraise⟩ := (action_effect_raises env.input).2 hgives'
  rw [effect_of_action hp, hraise] at hperforms
  obtain ⟨u, -, -, hu⟩ := hperforms
  exact ⟨u, hu⟩

/-- Where the frame on top is complete, no failure but a mismatch of the outermost run can come of
it. -/
theorem mismatch_of_complete {top : Frame} {below : List Frame} {failure : Failure} {cursor : Int}
    (hl : s.MayStep) (hf : s.run.stack.frames = top :: below)
    (hc : top.isComplete env.input.size = true)
    (hstop : step env s = .stop t (.error (.failure failure) cursor)) :
    s.callers = [] ∧ ∃ position, s.run.position? env.input = some position ∧
      failure = failureAt env.input .mismatch .nil position := by
  unfold step at hstop
  rw [if_neg hl] at hstop
  simp only [hf, hc, if_true] at hstop
  cases below with
  | nil =>
    simp only [finish, resume, trace_run, trace_callers] at hstop
    repeat' split at hstop
    all_goals cases hstop
    next hp _ hcallers => exact ⟨hcallers, _, hp, rfl⟩
  | cons parent below =>
    simp only [fold] at hstop
    split at hstop <;> cases hstop

/-- A step that ends with a payload evaluates an action that gives up with it. -/
theorem givesUp_of_stop {failure : Failure} {cursor : Int} (hne : s.run.stack.frames ≠ [])
    (hcustom : ∀ top below host rest, s.run.stack.frames = top :: below →
      top.restart.pending ≠ .action (.custom host) :: rest)
    (hstop : step env s = .stop t (.error (.failure failure) cursor))
    (hkind : failure.kind = .payload) : s.GivesUp env failure.payload := by
  have hl : s.MayStep := by
    intro hl
    rw [step, if_pos hl] at hstop
    cases hstop
  obtain ⟨top, below, hf⟩ := List.exists_cons_of_ne_nil hne
  have hc : top.isComplete env.input.size = false := by
    cases hc : top.isComplete env.input.size with
    | false => rfl
    | true =>
      obtain ⟨-, position, -, rfl⟩ := mismatch_of_complete hl hf hc hstop
      cases hkind
  have hperforms := step_performs hl hf hc
  rw [hstop] at hperforms
  cases heffect : top.effect env s.run.grammar with
  | become | enter =>
    rw [heffect] at hperforms
    obtain ⟨u, hu, -⟩ := hperforms
    cases hu
  | embed id main g =>
    rw [heffect] at hperforms
    cases fault_of_embed_stop hperforms
  | call host g =>
    obtain ⟨rest, hp⟩ := custom_of_effect heffect
    exact absurd hp (hcustom top below (some host) rest hf)
  | raise payload g =>
    rw [heffect] at hperforms
    obtain ⟨u, -, -, hraise⟩ := hperforms
    obtain hfault | ⟨failure', cursor', heq, -, hpayload⟩ := raise_eq_stop hraise.symm
    · cases hfault
    · cases heq
      obtain ⟨a, rest, hp, hgives⟩ := givesUp_of_effect heffect
      exact ⟨a, top, rest, below, hf, hc, hp, hpayload ▸ hgives⟩
  | abort e =>
    rw [heffect] at hperforms
    obtain ⟨u, hu⟩ := hperforms
    cases hu
    cases isDefect_of_effect heffect
  | fault =>
    rw [heffect] at hperforms
    obtain ⟨u, hu⟩ := hperforms
    cases hu

end

section

variable {family : Family} {host : Host} {config : Config} {id : Nat} {input : Input}

/-- A run without its main rule comes to no action at all. -/
theorem main_of_givesUp {n : Nat} {s : State} {payload : Payload}
    (h : Steps (environment family host input) n (initial config id) s)
    (hgives : s.GivesUp (environment family host input) payload) :
    ((family.grammarAt id).rule? config.main).isSome := by
  cases hmain : (family.grammarAt id).rule? config.main with
  | some body => rfl
  | none =>
    have hmain : ((environment family host input).family.grammarAt id).rule? config.main =
        none := hmain
    obtain ⟨u, e, c, hstop, -⟩ := step_undefined config.exact config.terms 0 hmain
    cases h with
    | refl =>
      obtain ⟨a, top, rest, below, hf, -, hp, -⟩ := hgives
      cases hf
      cases hp
    | head hstep _ => cases hstop.symm.trans hstep

/-- A match that comes to an action which gives up ends there, and fails with its payload. -/
theorem raises_of_givesUp (hdefined : ∀ g ∈ family, g.Defined) (hclosed : family.Closed)
    (hcheck : family.check id = none) (hfree : family.CustomFree id) (hl : config.limit ≤ 0)
    {n : Nat} {s : State} {payload : Payload}
    (h : Steps (environment family host input) n (initial config id) s)
    (hgives : s.GivesUp (environment family host input) payload) :
    ∃ t failure cursor, step (environment family host input) s =
        .stop t (.error (.failure failure) cursor) ∧
      failure.kind = .payload ∧ failure.payload = payload ∧
      MatchEnds family host config id input (.error (.failure failure) cursor) := by
  have hmain := main_of_givesUp h hgives
  have hlike := Evaluator.like_of_match hfree h s.run (by simp)
  have hmay : s.MayStep := mayStep_of_nonpos (hlike.limit_eq ▸ hl)
  obtain ⟨u, hraise⟩ := hgives.step_eq hmay
  cases hstop : step (environment family host input) s with
  | next t =>
    rw [hraise] at hstop
    unfold raise at hstop
    split at hstop <;> cases hstop
  | stop t ending =>
    have hrun : run (environment family host input) (n + 1) (initial config id) =
        some (t, ending) := by
      rw [h.run_add, run, hstop]
    have hends := (matchEnds_iff_run hcheck hmain).2 ⟨n + 1, t, hrun⟩
    have hwithin := hends.within hdefined hclosed hcheck hfree
    obtain rfl | ⟨failure, cursor, rfl, hkind, hpayload⟩ := raise_eq_stop (hraise ▸ hstop)
    · exact hwithin.elim
    · exact ⟨t, failure, cursor, rfl, hkind, hpayload, hends⟩

/-- A match that fails with a payload came to an action which gives up with it. -/
theorem givesUp_of_matchEnds (hdefined : ∀ g ∈ family, g.Defined) (hclosed : family.Closed)
    (hcheck : family.check id = none) (hfree : family.CustomFree id) {failure : Failure}
    {cursor : Int}
    (h : MatchEnds family host config id input (.error (.failure failure) cursor))
    (hkind : failure.kind = .payload) :
    ∃ n s, Steps (environment family host input) n (initial config id) s ∧
      s.GivesUp (environment family host input) failure.payload := by
  cases hmain : (family.grammarAt id).rule? config.main with
  | none => cases (matchEnds_undefined hcheck hmain).unique h
  | some body =>
    have hmain := Option.isSome_of_eq_some hmain
    obtain ⟨fuel, t, hrun⟩ := (matchEnds_iff_run hcheck hmain).1 h
    obtain ⟨n, s, hsteps, hstop⟩ := steps_of_run hrun
    have hr := soundRules_of_check hdefined hclosed hcheck hmain (action_ne_custom hfree)
    have hcustom (host : Option Nat) : ¬∀ host', Action.custom host ≠ .custom host' :=
      fun h => h host rfl
    have hsafe := safe_of_steps hr hcustom hmain hsteps
    refine ⟨n, s, hsteps, givesUp_of_stop hsafe.run.nonempty ?_ hstop hkind⟩
    intro top below host rest hf
    exact hsafe.pending_ne_action (hcustom host) hf rest

end

/-- A payload is never retried and never made up. Where a match comes to an action that gives up,
its step is the last one, and the match fails with that payload; a match that fails with a payload
came to such an action, and one that ends otherwise came to none. -/
theorem match_raised (family : Family) (host : Host) (config : Config) (id : Nat) (input : Input)
    (hdefined : ∀ g ∈ family, g.Defined) (hclosed : family.Closed)
    (hcheck : family.check id = none) (hfree : family.CustomFree id) (hl : config.limit ≤ 0) :
    (∀ n s payload, Steps (environment family host input) n (initial config id) s →
      s.GivesUp (environment family host input) payload →
        ∃ t failure cursor, step (environment family host input) s =
            .stop t (.error (.failure failure) cursor) ∧
          failure.kind = .payload ∧ failure.payload = payload ∧
          MatchEnds family host config id input (.error (.failure failure) cursor)) ∧
      (∀ failure cursor, MatchEnds family host config id input (.error (.failure failure) cursor) →
        failure.kind = .payload →
        ∃ n s, Steps (environment family host input) n (initial config id) s ∧
          s.GivesUp (environment family host input) failure.payload) ∧
      ∀ ending, MatchEnds family host config id input ending →
        (∀ failure cursor, ending = .error (.failure failure) cursor → failure.kind ≠ .payload) →
        ∀ n s payload, Steps (environment family host input) n (initial config id) s →
          ¬s.GivesUp (environment family host input) payload := by
  refine ⟨?_, ?_, ?_⟩
  · intro n s payload h hgives
    exact raises_of_givesUp hdefined hclosed hcheck hfree hl h hgives
  · intro failure cursor h hkind
    exact givesUp_of_matchEnds hdefined hclosed hcheck hfree h hkind
  · intro ending hends hother n s payload h hgives
    obtain ⟨-, failure, cursor, -, hkind, -, hraised⟩ :=
      raises_of_givesUp hdefined hclosed hcheck hfree hl h hgives
    exact hother failure cursor (hends.unique hraised) hkind

/-- Two letters, the second of them looked ahead for in an embedded grammar that turns it down. -/
def refusing : Family :=
  [.ofRules [("main", .sequence [.literal "a",
    .choice [.iterate .optional (.iterate .not (.embed (some 1) "main")), .literal "b"]])],
    .ofRules [("main", .sequence [.literal "b", .action (.convert (some fun _ => .error "no"))])]]

/-- Neither the lookahead, the optional item nor the choice recovers from it. -/
theorem match_raised_refusing : (∀ g ∈ refusing, g.Defined) ∧ refusing.Closed ∧
    refusing.check 0 = none ∧ refusing.CustomFree 0 ∧
    ∃ failure n s, MatchEnds refusing Host.idle {} 0 (.text "ab")
        (.error (.failure failure) 0) ∧ failure.payload = .error "no" ∧
      Steps (environment refusing Host.idle (.text "ab")) n
        (initial {} 0) s ∧
      s.GivesUp (environment refusing Host.idle (.text "ab"))
        (.error "no") := by
  have hdefined : ∀ g ∈ refusing, g.Defined := Grammar.defined_map [_, _]
  have hclosed : refusing.Closed := by decide
  have hcheck : refusing.check 0 = none := rfl
  have hfree : refusing.CustomFree 0 := Family.customFree_of_lacks rfl 0
  have hends : ∃ failure, MatchEnds refusing Host.idle {} 0
      (.text "ab") (.error (.failure failure) 0) ∧ failure.kind = .payload ∧
      failure.payload = .error "no" := ⟨_, ⟨40, _, rfl, rfl⟩, rfl, rfl⟩
  obtain ⟨failure, hfailure, hkind, hpayload⟩ := hends
  have hraised := match_raised refusing Host.idle {} 0 (.text "ab")
    hdefined hclosed hcheck hfree (Int.le_refl 0)
  obtain ⟨n, s, hsteps, hgives⟩ := hraised.2.1 failure 0 hfailure hkind
  exact ⟨hdefined, hclosed, hcheck, hfree, failure, n, s, hfailure, hpayload, hsteps,
    hpayload ▸ hgives⟩

end Machine

end PegMachine
