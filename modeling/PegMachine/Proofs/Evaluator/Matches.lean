import PegMachine.Notation.Reader
import PegMachine.Proofs.Evaluator.Agreement
import PegMachine.Proofs.Evaluator.Invariants
import PegMachine.Proofs.Machine.Limits

namespace PegMachine.Machine

variable {family : Family} {host : Host} {config : Config} {id : Nat} {input : Input}

/-- A match ends in this way, given enough steps. -/
def MatchEnds (family : Family) (host : Host) (config : Config) (id : Nat) (input : Input)
    (ending : Ending) : Prop :=
  ∃ fuel report, matchInput fuel family host config id input = some report ∧
    report.ending = ending

theorem matchInput_mono {fuel more : Nat} {report : Report}
    (h : matchInput fuel family host config id input = some report) (hle : fuel ≤ more) :
    matchInput more family host config id input = some report := by
  obtain ⟨e, he⟩ | hrun := matchInput_cases family host config id input
  · exact (he config.limit more).trans ((he config.limit fuel).symm.trans h)
  · have hfuel := hrun config.limit fuel
    obtain ⟨r, hr, rfl⟩ := Option.map_eq_some_iff.1 (hfuel.symm.trans h)
    exact (hrun config.limit more).trans (by rw [run_mono hr hle]; rfl)

theorem MatchEnds.unique {ending ending' : Ending}
    (h : MatchEnds family host config id input ending)
    (h' : MatchEnds family host config id input ending') : ending = ending' := by
  obtain ⟨n, report, hn, rfl⟩ := h
  obtain ⟨m, report', hm, rfl⟩ := h'
  have hmax := matchInput_mono hn (Nat.le_max_left n m)
  rw [matchInput_mono hm (Nat.le_max_right n m)] at hmax
  exact congrArg Report.ending (Option.some.inj hmax).symm

/-- A checked grammar without its main rule is turned down. -/
theorem matchEnds_undefined (hcheck : family.check id = none)
    (hmain : (family.grammarAt id).rule? config.main = none) :
    MatchEnds family host config id input
      (.error (.undefined ((family.grammarAt id).undefined config.main [])) 0) := by
  have hmain' : ((family[id]?).getD {}).rule? config.main = none := hmain
  have hreport : matchInput 0 family host config id input =
      some { ending := .error (.undefined ((family.grammarAt id).undefined config.main [])) 0 } := by
    simp only [matchInput, hcheck, hmain', Family.grammarAt]
  exact ⟨0, _, hreport, rfl⟩

/-- A match of a checked grammar with a main rule is a run of the machine. -/
theorem matchEnds_iff_run (hcheck : family.check id = none)
    (hmain : ((family.grammarAt id).rule? config.main).isSome) {ending : Ending} :
    MatchEnds family host config id input ending ↔
      ∃ fuel t, run (environment family host input) fuel (initial config id) =
        some (t, ending) := by
  obtain ⟨body, hbody⟩ := Option.isSome_iff_exists.1 hmain
  have hbody' : ((family[id]?).getD {}).rule? config.main = some body := hbody
  constructor
  · rintro ⟨fuel, report, h, rfl⟩
    simp only [matchInput, hcheck, hbody'] at h
    obtain ⟨⟨t, ending⟩, hrun, rfl⟩ := Option.map_eq_some_iff.1 h
    exact ⟨fuel, t, hrun⟩
  · rintro ⟨fuel, t, hrun⟩
    refine ⟨fuel, .ofRun (t, ending), ?_, rfl⟩
    simp only [matchInput, hcheck, hbody', hrun]
    rfl

/-- How a match ends is what evaluating answers from some number of steps on. -/
theorem MatchEnds.evaluate_eq {ending : Ending} (h : MatchEnds family host config id input ending) :
    ∃ enough, ∀ fuel, enough ≤ fuel →
      PegMachine.evaluate fuel family host config id input = some ending.answer := by
  obtain ⟨enough, report, hreport, rfl⟩ := h
  refine ⟨enough, ?_⟩
  intro fuel hle
  rw [PegMachine.evaluate, matchInput_mono hreport hle]
  rfl

/-- A match of a checked grammar ends within its input. -/
theorem MatchEnds.within (hdefined : ∀ g ∈ family, g.Defined) (hclosed : family.Closed)
    (hcheck : family.check id = none) (hfree : family.CustomFree id) {ending : Ending}
    (h : MatchEnds family host config id input ending) : ending.Within input := by
  cases hmain : (family.grammarAt id).rule? config.main with
  | none =>
    cases (matchEnds_undefined hcheck hmain).unique h
    trivial
  | some body =>
    have hmain := Option.isSome_of_eq_some hmain
    obtain ⟨fuel, t, hrun⟩ := (matchEnds_iff_run hcheck hmain).1 h
    obtain ⟨n, u, hsteps, hstop⟩ := steps_of_run hrun
    have hr := soundRules_of_check hdefined hclosed hcheck hmain (action_ne_custom hfree)
    have hsafe := safe_of_steps hr (fun host h => h host rfl) hmain hsteps
    have hk := step_keeps_of_pending hr hsafe fun _ _ hf _ host rest =>
      hsafe.pending_ne_action (fun h => h host rfl) hf rest
    rw [hstop] at hk
    exact hk.1

/-- A match of a checked grammar with plain actions ends as expected. -/
theorem MatchEnds.expected (hdefined : ∀ g ∈ family, g.Defined) (hclosed : family.Closed)
    (hcheck : family.check id = none) (hmain : ((family.grammarAt id).rule? config.main).isSome)
    (hactions : ∀ inner, family.Embeds id inner → ∀ rule ∈ (family.grammarAt inner).rules,
      ∀ a, .action a ∈ rule.2.parts → Plain a) {ending : Ending}
    (h : MatchEnds family host config id input ending) : ending.Expected := by
  have hr := soundRules_of_check hdefined hclosed hcheck hmain hactions
  obtain ⟨fuel, t, hrun⟩ := (matchEnds_iff_run hcheck hmain).1 h
  obtain ⟨n, u, hsteps, hstop⟩ := steps_of_run hrun
  exact expected_of_stop hr hmain hsteps hstop

end PegMachine.Machine

namespace PegMachine.Evaluator

open Machine

variable {family : Family} {host : Host} {config : Config} {id : Nat} {input : Input}

/-- The ending that tells of a result. -/
def Result.ending : Result → Ending
  | .values vs cursor _ => .values vs cursor
  | .error e cursor _ => .error e cursor
  | .fault => .fault

theorem ending_resultOf (s : State) (ending : Ending) : (resultOf s ending).ending = ending := by
  cases ending <;> rfl

/-- A run without a limit that has one item to evaluate ends as evaluating that item says. -/
theorem run_iff_of_stands (env : Env) {known : Nat → Prop} {terms : Terms}
    (hl : terms.Unlimited) (hr : ContainedRules env.family known) (hid : known id) {main : Bytes}
    {exact : Bool} {cursor : Int} {e : Expr} (he : Contained known e) {s : State}
    (hs : Stands (Run.start id main exact terms cursor) []
      [(Activation.start cursor).frame .root cursor [e]] cursor s) {ending : Ending} :
    (∃ fuel t, run env fuel s = some (t, ending)) ↔
      ∃ o, Evaluates env.family env.input id (.item e) (.start cursor) cursor o ∧
        (o.result env.input exact cursor).ending = ending := by
  constructor
  · rintro ⟨fuel, t, hrun⟩
    have hends : EndsWith env s (resultOf t ending) := ⟨fuel, t, ending, hrun, rfl⟩
    obtain ⟨n, o, ho⟩ := evalItem_of_stands env hl hr hid he hs (by rw [hrun]; rfl)
    have hresult := (endsWith_of_stands env hl hs ho).unique hends
    refine ⟨o, evaluates_iff.2 ⟨n, ho⟩, ?_⟩
    rw [hresult, ending_resultOf]
  · rintro ⟨o, ho, rfl⟩
    obtain ⟨n, hn⟩ := ho.answered
    obtain ⟨fuel, t, ending, hrun, hresult⟩ := endsWith_of_stands env hl hs hn
    exact ⟨fuel, t, by rw [hrun, ← hresult, ending_resultOf]⟩

/-- A run without a limit ends as evaluating its main rule says, wherever it starts. -/
theorem run_start_iff_evaluates (env : Env) {terms : Terms} (hl : terms.Unlimited)
    (hfree : env.family.CustomFree id) {main : Bytes} {exact : Bool} {cursor : Int}
    {ending : Ending} :
    (∃ fuel t, run env fuel { run := Run.start id main exact terms cursor } = some (t, ending)) ↔
      ∃ o, Evaluates env.family env.input id (.item (.rule main)) (.start cursor) cursor o ∧
        (o.result env.input exact cursor).ending = ending := by
  have hmain : Contained (env.family.Embeds id) (.rule main) :=
    ⟨by simp [Expr.parts, Expr.visit], by simp [Expr.parts, Expr.visit]⟩
  exact run_iff_of_stands env hl (containedRules_embeds env.family id hfree) .refl hmain ⟨rfl, rfl⟩

theorem run_iff_evaluates (hl : config.limit ≤ 0) (hfree : family.CustomFree id)
    {ending : Ending} :
    (∃ fuel t, run (environment family host input) fuel (initial config id) =
        some (t, ending)) ↔
      ∃ o, Evaluates family input id (.item (.rule config.main)) (.start 0) 0 o ∧
        (o.result input config.exact 0).ending = ending :=
  run_start_iff_evaluates (environment family host input) ⟨settled_terms config, hl⟩ hfree

/-- A failure tells of the places where the run stands and how far it got. -/
theorem ending_failureResult {kind : FailureKind} {payload : Payload} {cursor furthest : Int}
    {ending : Ending} (h : (failureResult input kind payload cursor furthest).ending = ending) :
    ending = .fault ∨ ∃ position, position? input cursor furthest = some position ∧
      ending = .error (.failure (failureAt input kind payload position)) cursor := by
  unfold failureResult at h
  cases hp : position? input cursor furthest with
  | none =>
    rw [hp] at h
    exact .inl h.symm
  | some position =>
    rw [hp] at h
    exact .inr ⟨position, rfl, h.symm⟩

/-- A result with values is that of an activation that did not fail. -/
theorem ending_eq_values {o : Outcome} {exact : Bool} {start : Int} {vs : List Value}
    {cursor : Int} (h : (o.result input exact start).ending = .values vs cursor) :
    ∃ b furthest, o = .done b furthest ∧ b.failed = false ∧ vs = b.output.reverse ∧
      cursor = b.cursor := by
  have never {kind : FailureKind} {payload : Payload} {place furthest : Int}
      (h : (failureResult input kind payload place furthest).ending = .values vs cursor) : False := by
    obtain hfault | ⟨position, -, hfailure⟩ := ending_failureResult h
    · cases hfault
    · cases hfailure
  cases o with
  | done b furthest =>
    simp only [Outcome.result] at h
    cases hb : b.failed || exact && decide (b.cursor < input.size) with
    | true =>
      rw [if_pos hb] at h
      exact (never h).elim
    | false =>
      rw [if_neg (by simp [hb])] at h
      cases h
      exact ⟨b, furthest, rfl, (Bool.or_eq_false_iff.1 hb).1, rfl, rfl⟩
  | raised payload furthest => exact (never h).elim
  | aborted | fault => cases h

/-- A result with an error is a failure, or evaluation came to that error. -/
theorem ending_eq_error {o : Outcome} {exact : Bool} {start : Int} {e : Error} {cursor : Int}
    (h : (o.result input exact start).ending = .error e cursor) :
    (∃ f, e = .failure f) ∨ ∃ furthest, o = .aborted e furthest := by
  have fails {kind : FailureKind} {payload : Payload} {place furthest : Int}
      (h : (failureResult input kind payload place furthest).ending = .error e cursor) :
      ∃ f, e = .failure f := by
    obtain hfault | ⟨position, -, hfailure⟩ := ending_failureResult h
    · cases hfault
    · cases hfailure
      exact ⟨_, rfl⟩
  cases o with
  | done b furthest =>
    simp only [Outcome.result] at h
    split at h
    · exact .inl (fails h)
    · cases h
  | raised payload furthest => exact .inl (fails h)
  | aborted e furthest =>
    cases h
    exact .inr ⟨furthest, rfl⟩
  | fault => cases h

/-- A match that ends with values has evaluated its main rule to an activation with that output,
whatever its limit. -/
theorem evaluates_of_values (hfree : family.CustomFree id) {vs : List Value} {cursor : Int}
    (h : MatchEnds family host config id input (.values vs cursor)) :
    ∃ b furthest,
      Evaluates family input id (.item (.rule config.main)) (.start 0) 0 (.done b furthest) ∧
      b.failed = false ∧ vs = b.output.reverse ∧ cursor = b.cursor := by
  obtain ⟨fuel, report, hreport, hending⟩ := h
  have huncut : matchInput fuel family host { config with limit := 0 } id input = some report :=
    matchInput_uncut host config input hfree hreport fun cursor' he => nomatch hending.symm.trans he
  obtain ⟨e, he⟩ | hrun := matchInput_cases family host config id input
  · cases (he 0 fuel).symm.trans huncut
    cases hending
  obtain ⟨⟨t, ending⟩, ht, rfl⟩ := Option.map_eq_some_iff.1 ((hrun 0 fuel).symm.trans huncut)
  obtain rfl : ending = .values vs cursor := hending
  have hends : ∃ fuel t, run (environment family host input) fuel
      (initial { config with limit := 0 } id) = some (t, .values vs cursor) := ⟨fuel, t, ht⟩
  obtain ⟨o, ho, hresult⟩ := (run_iff_evaluates (Int.le_refl 0) hfree).1 hends
  obtain ⟨b, furthest, rfl, hb⟩ := ending_eq_values hresult
  exact ⟨b, furthest, ho, hb⟩

end PegMachine.Evaluator
