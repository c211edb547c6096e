import PegMachine.Proofs.Machine.Bytewise
import PegMachine.Proofs.Shifting.Frames

namespace PegMachine.Machine

/-- The machine of the second state is `d` bytes further on than that of the first. Their logs tell
of cursors, too, and are left aside. -/
structure Shifted (d : Int) (s t : State) : Prop where
  run : t.run = s.run.shift d
  callers : t.callers = s.callers.map (Run.shift d)
  steps : t.steps = s.steps

/-- Steps that lead to states a distance apart, or end both in the same way. -/
inductive Follows (source : Bytes) (d : Int) : Progress → Progress → Prop where
  | next {s t : State} (h : Shifted d s t) : Follows source d (.next s) (.next t)
  | stop {s t : State} (ending : Ending) (h : t.steps = s.steps) :
    Follows source d (.stop s ending) (.stop t (ending.shift source d))

namespace Shifted

variable {d : Int} {s t : State}

theorem trace (h : Shifted d s t) (e e' : Event) : Shifted d (s.trace e) (t.trace e') := by
  obtain ⟨hrun, hcallers, hsteps⟩ := h
  constructor <;> simpa

theorem withFrames (h : Shifted d s t) (frames : List Frame) :
    Shifted d (s.withFrames frames) (t.withFrames (frames.map (Frame.shift d))) := by
  refine ⟨?_, h.callers, h.steps⟩
  rw [state_withFrames_run, h.run]
  rfl

theorem reach (h : Shifted d s t) (cursor : Int) :
    Shifted d { s with run := s.run.reach cursor } { t with run := t.run.reach (cursor + d) } := by
  refine ⟨?_, h.callers, h.steps⟩
  show t.run.reach (cursor + d) = _
  rw [h.run, shift_reach]

theorem counted (h : Shifted d s t) :
    Shifted d { s with steps := s.steps + 1 } { t with steps := t.steps + 1 } :=
  ⟨h.run, h.callers, congrArg (· + 1) h.steps⟩

end Shifted

section

variable {env : Env} {source : Bytes} {c : Nat} {known : Nat → Prop} {allowed : Action → Prop}
  {s t : State} {top : Frame} {below : List Frame}

theorem Nonempty.withTop (h : Nonempty (s.run :: s.callers)) (top : Frame) (below : List Frame) :
    Nonempty ((s.withFrames (top :: below)).run :: (s.withFrames (top :: below)).callers) :=
  List.forall_mem_cons.2 ⟨List.cons_ne_nil _ _, (List.forall_mem_cons.1 h).2⟩

theorem abort_follows (h : Shifted c s t)
    (hne : Nonempty (s.run :: s.callers)) {e : Error}
    (he : e.shift source c = e) : Follows source c (abort s e) (abort t e) := by
  have hroot := shift_rootCursor (d := c) hne.outermost
  have hending : Ending.error e (outermost t.run t.callers).stack.rootCursor =
      (Ending.error e (outermost s.run s.callers).stack.rootCursor).shift source c := by
    rw [h.run, h.callers, shift_outermost, hroot, Ending.shift, he]
  unfold abort
  simp only [hending]
  exact .stop _ h.steps

private theorem raise_follows (h : Shifted c s t) (hne : Nonempty (s.run :: s.callers))
    (payload : Payload) : Follows source c (raise (env.on (.text (source.drop c))) s payload)
      (raise (env.on (.text source)) t payload) := by
  have hraise := shift_raise? (d := c) source (source.drop c) payload hne
  rw [← h.run, ← h.callers] at hraise
  simp only [raise, on_input, hraise]
  cases hfound : raise? (.text (source.drop c)) payload s.run s.callers with
  | none => exact .stop .fault h.steps
  | some found =>
    obtain ⟨f, run⟩ := found
    have hroot := shift_rootCursor (d := c) (hne.raise? hfound)
    simp only [Option.map_some, hroot]
    exact .stop (.error (.failure f) run.stack.rootCursor) h.steps

private theorem resume_follows (h : Shifted c s t) (caller : Run) (callers : List Run)
    {change change' : Frame → Frame} (hchange : ∀ f, change' (f.shift c) = (change f).shift c) :
    Follows source c (resume s caller callers change)
      (resume t (caller.shift c) (callers.map (Run.shift c)) change') := by
  refine .next ⟨?_, rfl, h.steps⟩
  show { (caller.shift c).reach t.run.furthest with
    stack := ((caller.shift c).reach t.run.furthest).stack.updateTop change' } = _
  rw [h.run, shift_reach_furthest]
  cases hf : caller.stack.frames with
  | nil => simp [Stack.updateTop, Run.shift, hf]
  | cons f frames => simp [Stack.updateTop, Run.shift, hf, hchange]

private theorem finish_follows (hc : c ≤ source.length) (h : Shifted c s t)
    (hne : s.run.stack.frames ≠ []) (root : Frame) :
    Follows source c (finish (env.on (.text (source.drop c))) s root)
      (finish (env.on (.text source)) t (root.shift c)) := by
  have hnext := h.trace
    (.finish (!root.failed) root.cursor) (.finish (!(root.shift c).failed) (root.shift c).cursor)
  have hrun : (s.trace (.finish (!root.failed) root.cursor)).run = s.run := trace_run _ _
  unfold finish
  simp only
  generalize s.trace _ = s' at hnext hrun ⊢
  generalize t.trace _ = t' at hnext ⊢
  rw [← hrun] at hne
  have hover : (t'.run.exact && decide ((root.shift c).cursor < (env.on (.text source)).input.size)) =
      (s'.run.exact &&
        decide (root.cursor < (env.on (.text (source.drop c))).input.size)) := by
    have hless : root.cursor + c < (Input.text source).size ↔
        root.cursor < (Input.text (source.drop c)).size := by
      rw [Input.size_drop hc]
      omega
    have hexact : t'.run.exact = s'.run.exact := by
      rw [hnext.run]
      rfl
    rw [hexact]
    exact congrArg (s'.run.exact && ·) (decide_eq_decide.2 hless)
  have hfailed : (root.shift c).failed = root.failed := rfl
  rw [hover, hfailed, hnext.run, hnext.callers]
  split
  · have hposition := shift_position? (d := c) source (source.drop c) hne
    simp only [on_input, hposition]
    cases s'.run.position? (.text (source.drop c)) with
    | none => exact .stop .fault hnext.steps
    | some position =>
      simp only [Option.map_some]
      cases s'.callers with
      | nil =>
        exact .stop (.error (.failure
          (failureAt (.text (source.drop c)) .mismatch .nil position)) root.cursor) hnext.steps
      | cons caller callers => exact resume_follows hnext caller callers fun f => rfl
  · cases s'.callers with
    | nil =>
      have hvalues : (root.shift c).output.reverse = root.output.reverse.map (Value.shift c) :=
        List.map_reverse.symm
      simp only [List.map_nil, hvalues]
      exact .stop (.values root.output.reverse root.cursor) hnext.steps
    | cons caller callers =>
      exact resume_follows hnext caller callers fun f => shift_succeed _ _

private theorem fold_follows (h : Shifted c s t) (child parent : Frame) :
    Follows source c (fold (env.on (.text (source.drop c))) s child parent below)
      (fold (env.on (.text source)) t (child.shift c) (parent.shift c)
        (below.map (Frame.shift c))) := by
  have hfold := shift_fold? (d := c) source (source.drop c) child parent
  simp only [fold, on_input, hfold]
  cases Frame.fold? (.text (source.drop c)) child parent with
  | none => exact .stop .fault h.steps
  | some f => exact .next ((h.withFrames (f :: below)).trace _ _)

private theorem leaf_follows (h : Shifted c s t) (e : Expr) (attempt : Attempt) :
    Follows source c (leaf s top below e attempt)
      (leaf t (top.shift c) (below.map (Frame.shift c)) e
        (attempt.shift c)) := by
  have htried := h.reach top.cursor
  cases attempt with
  | fault => exact .stop .fault h.steps
  | mismatch =>
    have hnext := htried.trace (.attempt false e.render) (.attempt false e.render)
    exact .next (hnext.withFrames (top.fail :: below))
  | success value next =>
    have hnext := (htried.trace (.attempt true e.render) (.attempt true e.render)).reach next
    have hframes := hnext.withFrames (top.succeed next [value] :: below)
    rw [List.map_cons, ← shift_succeed] at hframes
    exact .next hframes

private theorem enter_follows (h : Shifted c s t) (kind : Kind) (items : List Expr) :
    Follows source c (enter s top below kind items)
      (enter t (top.shift c) (below.map (Frame.shift c))
        (kind.shift c) items) := by
  have hnext := h.withFrames (Frame.enter kind top.cursor items :: top :: below)
  exact .next (hnext.trace _ _)

private theorem embed_follows (h : Shifted c s t)
    (hne : Nonempty (s.run :: s.callers)) (id : Option Nat) (main : Bytes) :
    Follows source c (embed (env.on (.text (source.drop c))) s top id main)
      (embed (env.on (.text source)) t (top.shift c) id main) := by
  have hgrammar : (env.on (.text source)).family.grammar? id =
      (env.on (.text (source.drop c))).family.grammar? id := rfl
  unfold embed
  rw [hgrammar]
  cases id with
  | none => exact .stop .fault h.steps
  | some id =>
    cases (env.on (.text (source.drop c))).family.grammar? (some id) with
    | none => exact .stop .fault h.steps
    | some g =>
      simp only
      cases g.rule? main with
      | none => exact abort_follows h hne rfl
      | some body =>
        have hnext := h.trace (.embed main) (.embed main)
        have hterms : t.run.terms = s.run.terms := by
          rw [h.run]
          rfl
        simp only [hterms]
        cases s.run.terms.inside? main with
        | error e => exact .stop .fault h.steps
        | ok terms =>
          refine .next ⟨rfl, ?_, hnext.steps⟩
          rw [List.map_cons, ← hnext.run, ← hnext.callers, trace_run, trace_callers]

private theorem act_follows (h : Shifted c s t) (hne : Nonempty (s.run :: s.callers))
    {a : Action} (ha : a.IgnoresPlaces) :
    Follows source c (act (env.on (.text (source.drop c))) s top below a)
      (act (env.on (.text source)) t (top.shift c) (below.map (Frame.shift c)) a) := by
  have hnext := h.trace
    (.action a.render) (.action a.render)
  have hruns : Nonempty ((s.trace (.action a.render)).run ::
      (s.trace (.action a.render)).callers) := by simpa using hne
  unfold act
  simp only
  generalize s.trace _ = s' at hnext hruns ⊢
  generalize t.trace _ = t' at hnext ⊢
  cases a with
  | insert | convert | modify | custom => exact ha.elim
  | insertText text =>
    exact .next (hnext.withFrames
      (top.capture [Value.ofText text ⟨top.cursor, top.cursor⟩] :: below))
  | note key datum =>
    cases ho : top.output with
    | nil =>
      have ho' : (top.shift c).output = [] := by simp [Frame.shift, ho]
      rw [ho']
      exact .next hnext
    | cons last output =>
      have ho' : (top.shift c).output = last.shift c :: output.map (Value.shift c) := by
        simp [Frame.shift, ho]
      have hframes := hnext.withFrames
        ({ top with output := last.annotate key datum :: output } :: below)
      rw [ho']
      simp only [← Value.shift_annotate]
      exact .next hframes
  | clear => exact .next (hnext.withFrames ({ top with output := [] } :: below))
  | throw datum => exact raise_follows hnext hruns datum
  | log args => exact .next ⟨hnext.run, hnext.callers, hnext.steps⟩
  | unknown => exact abort_follows hnext hruns rfl

private theorem evaluate_follows (hc : c ≤ source.length) (h : Shifted c s t)
    (hne : Nonempty (s.run :: s.callers)) (h0 : 0 ≤ top.cursor)
    (ha : ∀ a rest, top.pending = .action a :: rest → a.IgnoresPlaces) :
    Follows source c (evaluate (env.on (.text (source.drop c))) s top below)
      (evaluate (env.on (.text source)) t (top.shift c) (below.map (Frame.shift c))) := by
  have hgrammar : t.grammar (env.on (.text source)) =
      s.grammar (env.on (.text (source.drop c))) := by
    rw [State.grammar, h.run]
    rfl
  have hpending : (top.shift c).pending = top.pending := rfl
  unfold evaluate
  rw [hpending, hgrammar]
  cases hp : top.pending with
  | nil => exact .stop .fault h.steps
  | cons e rest =>
    -- in all cases but a reference the item leaves the frame
    have hleft := h.withFrames ({ top with pending := rest } :: below)
    have hruns := hne.withTop { top with pending := rest } below
    cases e with
    | rule name =>
      simp only
      cases (s.grammar (env.on (.text (source.drop c)))).rule? name with
      | none => exact abort_follows h hne rfl
      | some body =>
        have hnext := h.trace (.rule name) (.rule name)
        exact .next (hnext.withFrames ({ top with pending := body :: rest } :: below))
    | missing => exact abort_follows hleft hruns rfl
    | literal text =>
      have hattempt := Input.tryLiteral_drop hc h0 text
      have hleaf := @leaf_follows source c _ _ { top with pending := rest } below hleft
        (.literal text) ((Input.text (source.drop c)).tryLiteral top.cursor text)
      rw [← hattempt] at hleaf
      exact hleaf
    | pattern p =>
      have hattempt := Input.tryPattern_drop hc h0 p
      have hleaf := @leaf_follows source c _ _ { top with pending := rest } below hleft
        (.pattern p) ((Input.text (source.drop c)).tryPattern top.cursor p)
      rw [← hattempt] at hleaf
      exact hleaf
    | sequence items => exact enter_follows hleft .sequence items
    | choice items => exact enter_follows hleft .choice items
    | wrap name items => exact enter_follows hleft (.wrap name) items
    | hide items => exact enter_follows hleft .hide items
    | iterate kind item =>
      have henter := @enter_follows source c _ _ { top with pending := rest } below hleft
        (Kind.ofRepetition kind item top.cursor) [item]
      rw [← shift_ofRepetition] at henter
      exact henter
    | action a => exact act_follows hleft hruns (ha a rest hp)
    | embed id main => exact embed_follows hleft hruns id main

/-- A state from which a step does not depend on what is before its cursors. -/
structure State.Steady (s : State) : Prop where
  nonempty : Nonempty (s.run :: s.callers)
  cursor_nonneg : ∀ f ∈ s.run.stack.frames, 0 ≤ f.cursor
  action : ∀ f ∈ s.run.stack.frames, ∀ a rest, f.restart.pending = .action a :: rest →
    a.IgnoresPlaces

private theorem Safe.steady
    (h : Safe env known allowed s) (hallowed : ∀ a, allowed a → a.IgnoresPlaces) :
    s.Steady where
  nonempty r hr := (h.inBounds r hr).1
  cursor_nonneg f hf := (h.run.frames f hf).cursor_nonneg
  action f hf a rest hp := by
    have hsound := (h.run.frames f hf).restart.pending (.action a) (by simp [hp])
    exact hallowed a (hsound.action a (Expr.mem_parts_self _ rfl))

private theorem steady_start {id : Nat} {main : Bytes} {exact : Bool} {terms : Terms} :
    State.Steady { run := Run.start id main exact terms 0 } where
  nonempty r hr := by
    obtain rfl := List.mem_singleton.1 hr
    exact List.cons_ne_nil _ _
  cursor_nonneg f hf := by
    obtain rfl := List.mem_singleton.1 hf
    exact Int.le_refl 0
  action f hf a rest hp := by
    obtain rfl := List.mem_singleton.1 hf
    cases hp

/-- Machines a distance apart take the same step. -/
theorem step_follows (hc : c ≤ source.length) (h : Shifted c s t) (hs : s.Steady) :
    Follows source c (step (env.on (.text (source.drop c))) s)
      (step (env.on (.text source)) t) := by
  have hterms : t.run.terms = s.run.terms := by
    rw [h.run]
    rfl
  unfold step
  simp only [hterms, h.steps]
  split
  · exact abort_follows h hs.nonempty rfl
  have hnext := h.counted
  rw [h.steps] at hnext
  have hnonempty := hs.nonempty s.run (.head _)
  obtain ⟨top, below, hf⟩ := List.exists_cons_of_ne_nil hnonempty
  have hf' : t.run.stack.frames = top.shift c :: below.map (Frame.shift c) := by
    rw [h.run]
    simp [Run.shift, hf]
  have hcomplete : (top.shift c).isComplete (env.on (.text source)).input.size =
      top.isComplete (env.on (.text (source.drop c))).input.size := by
    have hsize : (env.on (.text source)).input.size =
        (env.on (.text (source.drop c))).input.size + c := Input.size_drop hc
    rw [hsize]
    exact shift_isComplete _
  simp only [hf, hf', hcomplete]
  by_cases hcompleted : top.isComplete (env.on (.text (source.drop c))).input.size = true
  · rw [if_pos hcompleted, if_pos hcompleted]
    cases below with
    | nil => exact finish_follows hc hnext hnonempty top
    | cons parent below => exact fold_follows hnext top parent
  · rw [if_neg hcompleted, if_neg hcompleted]
    have htop : top ∈ s.run.stack.frames := by simp [hf]
    have hframes := hnext.withFrames (top.restart :: below)
    have hruns := hs.nonempty.withTop top.restart below
    have hcursor : 0 ≤ top.restart.cursor := by
      rw [restart_cursor]
      exact hs.cursor_nonneg top htop
    rw [shift_restart]
    exact evaluate_follows hc hframes hruns hcursor (hs.action top htop)

/-- Runs a distance apart take the same steps and end alike. -/
theorem run_follows (hc : c ≤ source.length)
    (hr : SoundRules (env.on (.text (source.drop c))).family known allowed)
    (hallowed : ∀ a, allowed a → a.IgnoresPlaces) (fuel : Nat) (h : Shifted c s t)
    (hsafe : Safe (env.on (.text (source.drop c))) known allowed s) :
    (run (env.on (.text source)) fuel t).map (fun r => (r.2, r.1.steps)) =
      (run (env.on (.text (source.drop c))) fuel s).map
        fun r => (r.2.shift source c, r.1.steps) := by
  have hcustom (host : Option Nat) : ¬allowed (.custom host) := fun ha => hallowed _ ha
  induction fuel generalizing s t with
  | zero => rfl
  | succ fuel ih =>
    have hstep := @step_follows env _ _ _ _ hc h (hsafe.steady hallowed)
    have hkeeps := step_keeps hr hcustom hsafe
    rw [run, run]
    generalize step (env.on (.text (source.drop c))) s = p at hstep hkeeps ⊢
    generalize step (env.on (.text source)) t = p' at hstep ⊢
    cases hstep with
    | next hnext => exact ih hnext hkeeps
    | stop ending hsteps => simp only [Option.map_some, hsteps]

end

/-- A run depends only on the text at its cursor and after it. Started further on in a text, it
takes the steps that it takes on what is left of the text from there, and comes to the same values
or to the same error, all places apart by that distance. -/
theorem run_shift (family : Family) (host : Host) (config : Config) (id : Nat) (source : Bytes)
    (c : Nat) (hdefined : ∀ g ∈ family, g.Defined) (hclosed : family.Closed)
    (hcheck : family.check id = none)
    (hactions : ∀ inner, family.Embeds id inner → ∀ rule ∈ (family.grammarAt inner).rules,
      ∀ a, .action a ∈ rule.2.parts → a.IgnoresPlaces) (hc : c ≤ source.length) (fuel : Nat) :
    (run (environment family host (.text source)) fuel
        { run := Run.start id config.main config.exact config.terms c }).map (fun r => (r.2, r.1.steps)) =
      (run (environment family host (.text (source.drop c))) fuel (initial config id)).map
        (fun r => (r.2.shift source c, r.1.steps)) ∧
    ∀ t, run (environment family host (.text (source.drop c))) fuel (initial config id) ≠
      some (t, .fault) := by
  have hstart : Shifted c (initial config id)
      { run := Run.start id config.main config.exact config.terms c } := by
    refine ⟨?_, rfl, rfl⟩
    have hzero : (c : Int) = 0 + c := (Int.zero_add _).symm
    rw [hzero]
    simp [initial, Run.start, Run.shift, Frame.shift, Frame.enter, Kind.shift]
  cases hmain : (family.grammarAt id).rule? config.main with
  | none =>
    have hmain : ((environment family host (.text (source.drop c))).family.grammarAt
        id).rule? config.main = none := hmain
    obtain ⟨u, e, cursor, hstop, -⟩ := step_undefined config.exact config.terms 0 hmain
    have hstep : Follows source c
        (step (environment family host (.text (source.drop c))) (initial config id))
        (step (environment family host (.text source))
          { run := Run.start id config.main config.exact config.terms c }) :=
      @step_follows (environment family host (.text source)) _ _ _ _ hc hstart steady_start
    rw [initial] at hstep ⊢
    rw [hstop] at hstep
    cases fuel with
    | zero =>
      refine ⟨rfl, ?_⟩
      intro t hrun
      cases hrun
    | succ fuel =>
      simp only [run, hstop]
      generalize step _ { run := Run.start id config.main config.exact config.terms c } = p at hstep ⊢
      cases hstep with
      | stop ending hsteps =>
        refine ⟨by simp only [Option.map_some, hsteps], ?_⟩
        intro t hrun
        cases hrun
  | some body =>
    have hmain := Option.isSome_of_eq_some hmain
    have hr := soundRules_of_check hdefined hclosed hcheck hmain hactions
    have hcustom (host : Option Nat) : ¬(Action.custom host).IgnoresPlaces := fun h => h
    have hsafe : Safe (environment family host (.text (source.drop c)))
        (family.Embeds id) Action.IgnoresPlaces (initial config id) :=
      safe_of_steps hr hcustom hmain (.refl _)
    constructor
    · exact @run_follows (environment family host (.text source)) _ _ _ _ _ _ hc hr
        (fun _ ha => ha) fuel hstart hsafe
    · intro t hrun
      obtain ⟨n, u, hsteps, hstop⟩ := steps_of_run hrun
      have hlast := safe_of_steps hr hcustom hmain hsteps
      have hk := step_keeps_of_pending hr hlast fun _ _ hf _ host rest =>
        hlast.pending_ne_action (hcustom host) hf rest
      rw [hstop] at hk
      exact hk.1

private theorem ignoresPlaces_nested (inner : Nat) : ∀ rule ∈ (nested.grammarAt inner).rules, ∀ a,
    .action a ∈ rule.2.parts → a.IgnoresPlaces := by
  intro rule hr a hm
  match inner with
  | 0 =>
    obtain rfl := List.mem_singleton.1 hr
    obtain rfl : a = .note "seen" .nil := by
      simpa [Expr.parts, Expr.visit, Expr.visitAll] using hm
    trivial
  | inner + 1 => cases hr

/-- A list on the second line, whose runs within it are in the middle of the text. -/
theorem run_shift_nested :
    (∀ g ∈ nested, g.Defined) ∧ nested.Closed ∧ nested.check 0 = none ∧
    (∀ inner, ∀ rule ∈ (nested.grammarAt inner).rules, ∀ a,
      .action a ∈ rule.2.parts → a.IgnoresPlaces) ∧ 2 ≤ (Bytes.ofString "x\n[w]").length ∧
    ∃ s ending t, run (environment nested Host.idle
        (.text "[w]")) 60 (initial {} 0) = some (s, ending) ∧
      run (environment nested Host.idle (.text "x\n[w]")) 60
        { run := Run.start 0 "main" true (Config.terms {}) 2 } = some (t, ending.shift "x\n[w]" 2) ∧
      t.steps = s.steps := by
  have hcheck : nested.check 0 = none := rfl
  have hlength : 2 ≤ (Bytes.ofString "x\n[w]").length := by decide
  have hends : ∃ s ending, run (environment nested Host.idle
      (.text "[w]")) 60 (initial {} 0) = some (s, ending) := ⟨_, _, rfl⟩
  obtain ⟨s, ending, hrun⟩ := hends
  have hshift := (run_shift nested Host.idle {} 0 "x\n[w]" 2
    defined_nested closed_nested hcheck (fun inner _ => ignoresPlaces_nested inner) hlength 60).1
  have hdrop : (Bytes.ofString "x\n[w]").drop 2 = Bytes.ofString "[w]" := rfl
  rw [hdrop, hrun] at hshift
  obtain ⟨⟨t, ending'⟩, hrun', halike⟩ := Option.map_eq_some_iff.1 hshift
  simp only [Prod.mk.injEq] at halike
  obtain ⟨hending, hsteps⟩ := halike
  subst hending
  exact ⟨defined_nested, closed_nested, hcheck, ignoresPlaces_nested, hlength, s, ending, t, hrun,
    hrun', hsteps⟩

end PegMachine.Machine
