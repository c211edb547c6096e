import PegMachine.Proofs.Inlining.Lockstep
import PegMachine.Proofs.Unrolling.Frames

namespace PegMachine.Machine

/-- The same machine with other grammars. -/
def Env.over (env : Env) (family : Family) : Env := { env with family := family }

section

variable (env : Env) (family : Family)

@[simp] theorem over_family : (env.over family).family = family := rfl
@[simp] theorem over_input : (env.over family).input = env.input := rfl

end

/-- States whose runs are the same but for their frames. Their logs tell of frames, too, and are left
aside. -/
structure State.Unrolled (R : Nat → Expr → Expr → Prop) (s t : State) : Prop where
  run : s.run.Unrolled R t.run
  callers : List.Forall₂ (Run.Unrolled R) s.callers t.callers
  steps : t.steps = s.steps

/-- Steps that lead to states that correspond, or end both in the same way. -/
inductive Progress.InStep (R : Nat → Expr → Expr → Prop) : Progress → Progress → Prop where
  | next {s t : State} (h : s.Unrolled R t) : InStep R (.next s) (.next t)
  | stop {s t : State} (ending : Ending) (hsteps : t.steps = s.steps)
    (hfurthest : t.run.furthest = s.run.furthest) : InStep R (.stop s ending) (.stop t ending)

namespace State.Unrolled

variable {R : Nat → Expr → Expr → Prop} {s t : State}

theorem trace (h : s.Unrolled R t) (e e' : Event) :
    (s.trace e).Unrolled R (t.trace e') := by
  obtain ⟨hrun, hcallers, hsteps⟩ := h
  constructor <;> simpa

theorem withFrames (h : s.Unrolled R t) {frames frames' : List Frame}
    (hf : List.Forall₂ (Frame.Unrolled (R s.run.grammar)) frames frames') :
    (s.withFrames frames).Unrolled R (t.withFrames frames') :=
  ⟨h.run.withFrames hf, h.callers, h.steps⟩

theorem reach (h : s.Unrolled R t) (cursor : Int) :
    State.Unrolled R { s with run := s.run.reach cursor } { t with run := t.run.reach cursor } :=
  ⟨h.run.reach cursor, h.callers, h.steps⟩

theorem counted (h : s.Unrolled R t) :
    State.Unrolled R { s with steps := s.steps + 1 } { t with steps := t.steps + 1 } :=
  ⟨h.run, h.callers, congrArg (· + 1) h.steps⟩

end State.Unrolled

section

variable {R : Nat → Expr → Expr → Prop} {env : Env} {family : Family} {s t : State}
  {top top' : Frame} {below below' : List Frame}

theorem fault_inStep (h : s.Unrolled R t) : (Progress.stop s .fault).InStep R (.stop t .fault) :=
  .stop .fault h.steps h.run.furthest_eq

theorem abort_inStep (h : s.Unrolled R t) (e : Error) : (abort s e).InStep R (abort t e) := by
  have houtermost := h.run.outermost h.callers
  simp only [abort, houtermost.rootCursor_eq]
  exact .stop _ h.steps houtermost.furthest_eq

private theorem raise_inStep (h : s.Unrolled R t) (payload : Payload) :
    (raise env s payload).InStep R (raise (env.over family) t payload) := by
  have hraise := h.run.raise? h.callers env.input payload
  unfold raise
  rw [over_input]
  generalize raise? env.input payload s.run s.callers = raised at hraise ⊢
  generalize raise? env.input payload t.run t.callers = raised' at hraise ⊢
  cases hraise with
  | none => exact fault_inStep h
  | @some x y hxy =>
    obtain ⟨f, run⟩ := x
    obtain ⟨f', run'⟩ := y
    obtain ⟨rfl, hrun⟩ := hxy
    simp only [hrun.rootCursor_eq]
    exact .stop _ h.steps hrun.furthest_eq

private theorem resume_inStep
    (h : s.Unrolled R t) {caller caller' : Run} {callers callers' : List Run}
    (hcaller : caller.Unrolled R caller') (hcallers : List.Forall₂ (Run.Unrolled R) callers callers')
    {change change' : Frame → Frame}
    (hchange : ∀ f g, f.Unrolled (R caller.grammar) g →
      (change f).Unrolled (R caller.grammar) (change' g)) :
    (resume s caller callers change).InStep R (resume t caller' callers' change') := by
  refine .next ⟨?_, hcallers, h.steps⟩
  rw [h.run.furthest_eq]
  exact (hcaller.reach s.run.furthest).updateTop hchange

private theorem finish_inStep (h : s.Unrolled R t) (htop : top.Unrolled (R s.run.grammar) top') :
    (finish env s top).InStep R (finish (env.over family) t top') := by
  have hnext := h.trace (.finish (!top.failed) top.cursor) (.finish (!top'.failed) top'.cursor)
  unfold finish
  simp only
  generalize s.trace _ = s' at hnext ⊢
  generalize t.trace _ = t' at hnext ⊢
  rw [over_input, htop.failed_eq, htop.cursor_eq, htop.output_eq, hnext.run.exact_eq,
    hnext.run.position?_eq]
  have hcallers := hnext.callers
  generalize s'.callers = callers at hcallers ⊢
  generalize t'.callers = callers' at hcallers ⊢
  split
  · cases s'.run.position? env.input with
    | none => exact fault_inStep hnext
    | some position =>
      cases hcallers with
      | nil => exact .stop _ hnext.steps hnext.run.furthest_eq
      | cons hcaller hcallers =>
        exact resume_inStep hnext hcaller hcallers fun f g hf =>
          hf.change Frame.fail rfl rfl fun _ _ => rfl
  · cases hcallers with
    | nil => exact .stop _ hnext.steps hnext.run.furthest_eq
    | cons hcaller hcallers =>
      exact resume_inStep hnext hcaller hcallers fun f g hf =>
        hf.change (·.succeed top.cursor top.output) rfl rfl fun _ _ => rfl

/-- States that correspond, with a frame on top of each and others below. -/
structure State.Facing (R : Nat → Expr → Expr → Prop) (s t : State) (top top' : Frame)
    (below below' : List Frame) : Prop where
  state : s.Unrolled R t
  top : top.Unrolled (R s.run.grammar) top'
  below : List.Forall₂ (Frame.Unrolled (R s.run.grammar)) below below'

namespace State.Facing

theorem trace (h : State.Facing R s t top top' below below') (e e' : Event) :
    State.Facing R (s.trace e) (t.trace e') top top' below below' :=
  ⟨h.state.trace e e', by simpa using h.top, by simpa using h.below⟩

theorem reach (h : State.Facing R s t top top' below below') (cursor : Int) :
    State.Facing R { s with run := s.run.reach cursor } { t with run := t.run.reach cursor }
      top top' below below' :=
  ⟨h.state.reach cursor, h.top, h.below⟩

/-- The frames on top change alike. -/
theorem withTop (h : State.Facing R s t top top' below below') {f g : Frame}
    (hf : f.Unrolled (R s.run.grammar) g) :
    State.Facing R (s.withFrames (f :: below)) (t.withFrames (g :: below')) f g below below' :=
  ⟨h.state.withFrames (.cons hf h.below), hf, h.below⟩

theorem changed (h : State.Facing R s t top top' below below') (c : Frame → Frame)
    (hkind : (c top).kind = top.kind) (hpending : (c top).pending = top.pending)
    (hc : ∀ kind items, c (top.recast kind items) = (c top).recast kind items) :
    (s.withFrames (c top :: below)).Unrolled R (t.withFrames (c top' :: below')) :=
  (h.withTop (h.top.change c hkind hpending hc)).state

end State.Facing

private theorem fold_inStep (h : State.Facing R s t top top' below below') {child child' : Frame}
    (hchild : child.Unrolled (R s.run.grammar) child') :
    (fold env s child top below).InStep R (fold (env.over family) t child' top' below') := by
  have hfold := hchild.fold h.top env.input
  unfold fold
  rw [over_input]
  generalize Frame.fold? env.input child top = folded at hfold ⊢
  generalize Frame.fold? env.input child' top' = folded' at hfold ⊢
  cases hfold with
  | none => exact fault_inStep h.state
  | some hf => exact .next ((h.withTop hf).state.trace _ _)

private theorem leaf_inStep (h : State.Facing R s t top top' below below') (e : Expr)
    {attempt attempt' : Attempt} (heq : attempt' = attempt) :
    (leaf s top below e attempt).InStep R (leaf t top' below' e attempt') := by
  subst heq
  have htried := h.reach top.cursor
  unfold leaf
  rw [h.top.cursor_eq]
  cases attempt' with
  | fault => exact fault_inStep h.state
  | mismatch =>
    have hnext := htried.trace (.attempt false e.render) (.attempt false e.render)
    exact .next (hnext.changed Frame.fail rfl rfl fun _ _ => rfl)
  | success value next =>
    have hnext := (htried.trace (.attempt true e.render) (.attempt true e.render)).reach next
    exact .next (hnext.changed (·.succeed next [value]) rfl rfl fun _ _ => rfl)

private theorem enter_inStep (h : State.Facing R s t top top' below below') {kind kind' : Kind}
    (hk : kind.Unrolled (R s.run.grammar) kind') {items items' : List Expr}
    (hi : List.Forall₂ (R s.run.grammar) items items') :
    (enter s top below kind items).InStep R (enter t top' below' kind' items') := by
  have hnew := Frame.Unrolled.enter hk hi top.cursor
  unfold enter
  rw [h.top.cursor_eq]
  exact .next ((h.state.withFrames (.cons hnew (.cons h.top h.below))).trace _ _)

/-- An embedded run begins with its main rule. -/
theorem embed_inStep (h : State.Facing R s t top top' below below') {inner : Nat} {main : Bytes}
    {g g' : Grammar} (hg : env.family[inner]? = some g) (hm : (g.rule? main).isSome)
    (hg' : family[inner]? = some g') (hm' : (g'.rule? main).isSome)
    (hmain : R inner (.rule main) (.rule main)) :
    (embed env s top (some inner) main).InStep R
      (embed (env.over family) t top' (some inner) main) := by
  obtain ⟨body, hbody⟩ := Option.isSome_iff_exists.1 hm
  obtain ⟨body', hbody'⟩ := Option.isSome_iff_exists.1 hm'
  have hterms : t.run.terms = s.run.terms := h.state.run.terms_eq
  simp only [embed, Family.grammar?, Option.bind_some, over_family, hg, hg', hbody, hbody',
    h.top.cursor_eq, hterms]
  cases s.run.terms.inside? main with
  | error e => exact fault_inStep h.state
  | ok terms =>
    have hnext := h.state.trace (.embed main) (.embed main)
    exact .next ⟨.start hmain, .cons hnext.run hnext.callers, hnext.steps⟩

/-- Actions work on what related frames have in common. -/
theorem act_inStep (h : State.Facing R s t top top' below below') {a : Action}
    (hcustom : ∀ host, a ≠ .custom host) :
    (act env s top below a).InStep R (act (env.over family) t top' below' a) := by
  have hnext := h.trace (.action a.render) (.action a.render)
  unfold act
  simp only
  generalize s.trace _ = s' at hnext ⊢
  generalize t.trace _ = t' at hnext ⊢
  have emitted (output : List Value) :
      (s'.withFrames ({ top with output := output } :: below)).Unrolled R
        (t'.withFrames ({ top' with output := output } :: below')) :=
    hnext.changed (fun f => { f with output := output }) rfl rfl fun _ _ => rfl
  cases a with
  | insert values => exact .next (hnext.changed (·.capture values.reverse) rfl rfl fun _ _ => rfl)
  | insertText text =>
    simp only [over_input, h.top.cursor_eq]
    cases env.input.span? top.cursor top.cursor with
    | none => exact fault_inStep hnext.state
    | some span =>
      exact .next (hnext.changed (·.capture [Value.ofText text span]) rfl rfl fun _ _ => rfl)
  | convert f =>
    cases f with
    | none => exact fault_inStep hnext.state
    | some f =>
      simp only [h.top.output_eq]
      cases f top.output.head? with
      | error message => exact raise_inStep (emitted _) _
      | ok result => exact .next (emitted _)
  | modify f =>
    simp only [h.top.output_eq]
    cases top.output with
    | nil => exact .next hnext.state
    | cons last output =>
      cases f with
      | none => exact fault_inStep hnext.state
      | some f =>
        simp only
        cases f last with
        | error message => exact raise_inStep hnext.state _
        | ok last => exact .next (emitted _)
  | note key datum =>
    simp only [h.top.output_eq]
    cases top.output with
    | nil => exact .next hnext.state
    | cons last output => exact .next (emitted _)
  | clear => exact .next (emitted [])
  | custom host => exact absurd rfl (hcustom host)
  | throw datum => exact raise_inStep hnext.state datum
  | log args => exact .next ⟨hnext.state.run, hnext.state.callers, hnext.state.steps⟩
  | unknown => exact abort_inStep hnext.state _

end

/-- The grammars of the second machine are those of the first one, after some calls of the host
were replaced, and the host pushes what they were replaced by. -/
structure Unrolls (items : Nat → List Expr) (env : Env) (family : Family) : Prop where
  resolves : ∀ id host, env.family.Calls items id host →
    ∀ item ∈ items host, env.family.Resolves id item
  pushes : ∀ id host, env.family.Calls items id host → Pushes env.host host (items host)
  namesakes : env.family.Namesakes family
  rule : ∀ id name, Option.Rel (env.family.Unrolled items id)
    ((env.family.grammarAt id).rule? name) ((family.grammarAt id).rule? name)

section

variable {items : Nat → List Expr} {env : Env} {family : Family} {s t : State}
  {top top' : Frame} {below below' : List Frame}

/-- The step of a call leaves the frame that the host pushes on top of the one with the call. -/
theorem act_pushes {host : Nat} {es : List Expr} (hp : Pushes env.host host es)
    (hf : s.run.stack.frames = top :: below) :
    ∃ u, act env s top below (.custom (some host)) = .next u ∧ u.callers = s.callers ∧
      u.steps = s.steps ∧
      u.run = s.run.withFrames (Frame.enter .root top.cursor es :: top :: below) := by
  obtain ⟨hstack, hsettings, hverdict⟩ := hp
    ((s.trace (.action (Action.custom (some host)).render)).view env) top below
    (by simpa [State.view] using hf)
  simp only [act, custom, hverdict]
  refine ⟨_, rfl, by simp, by simp, ?_⟩
  rw [hstack, hsettings]
  simp [State.view, Stack.push, Run.withFrames, hf]

variable (hu : Unrolls items env family)
include hu

/-- A call of the host keeps pace with another one, and with the sequence in its place. -/
theorem call_inStep (h : State.Facing (env.family.Unrolled items) s t top top' below below')
    (hf : s.run.stack.frames = top :: below) (hf' : t.run.stack.frames = top' :: below')
    {host : Nat} (hcalls : env.family.Calls items s.run.grammar host) :
    (act env s top below (.custom (some host))).InStep (env.family.Unrolled items)
        (act (env.over family) t top' below' (.custom (some host))) ∧
      ∀ items', List.Forall₂ (env.family.Unrolled items s.run.grammar) (items host) items' →
        (act env s top below (.custom (some host))).InStep (env.family.Unrolled items)
          (enter t top' below' .sequence items') := by
  have hpushes := hu.pushes _ _ hcalls
  obtain ⟨u, hact, hcallers, hsteps, hrun⟩ := act_pushes hpushes hf
  -- whatever the second machine pushes, it goes on from the frame on top of it
  have pushed {kind : Kind} {items' : List Expr} {u' : State}
      (hkind : Kind.Unrolled (env.family.Unrolled items s.run.grammar) .root kind)
      (hitems : List.Forall₂ (env.family.Unrolled items s.run.grammar) (items host) items')
      (hcallers' : u'.callers = t.callers) (hsteps' : u'.steps = t.steps)
      (hrun' : u'.run =
        t.run.withFrames (Frame.enter kind top'.cursor items' :: top' :: below')) :
      u.Unrolled (env.family.Unrolled items) u' := by
    rw [h.top.cursor_eq] at hrun'
    refine ⟨?_, ?_, hsteps'.trans (h.state.steps.trans hsteps.symm)⟩
    · rw [hrun, hrun']
      exact h.state.run.withFrames (.cons (.enter hkind hitems _) (.cons h.top h.below))
    · rw [hcallers, hcallers']
      exact h.state.callers
  rw [hact]
  constructor
  · have hpushes' : Pushes (env.over family).host host (items host) := hpushes
    obtain ⟨u', hact', hcallers', hsteps', hrun'⟩ := act_pushes hpushes' hf'
    rw [hact']
    exact .next (pushed (.same .root nofun)
      (Family.unrolled_self (Family.fine_items hu.resolves hcalls)) hcallers' hsteps' hrun')
  · exact fun items' hitems => .next (pushed .root hitems (by simp) (by simp) (by simp))

/-- Leaves are evaluated alike, be they calls or not. -/
theorem evaluate_leaf_inStep {e : Expr} {rest rest' : List Expr}
    (h : State.Facing (env.family.Unrolled items) s t top top' below below')
    (hp : top.pending = e :: rest) (hp' : top'.pending = e :: rest')
    (hrest : List.Forall₂ (env.family.Unrolled items s.run.grammar) rest rest')
    (hfine : env.family.Fine items s.run.grammar e) (hleaf : e.isLeaf = true) :
    (evaluate env s top below).InStep (env.family.Unrolled items)
      (evaluate (env.over family) t top' below') := by
  have hgrammar : t.grammar (env.over family) = family.grammarAt s.run.grammar := by
    rw [State.grammar, h.state.run.grammar_eq]
    rfl
  have hadmits := hfine.admits hleaf
  -- in all cases but a reference the item has left the frame
  have hleft := h.withTop (h.top.await hrest)
  unfold evaluate
  rw [hp, hp', hgrammar]
  cases e with
  | missing => exact absurd hfine.1.present (by simp [Expr.isMissing])
  | literal text =>
    have hattempt : (env.over family).input.tryLiteral top'.cursor text =
        env.input.tryLiteral top.cursor text := by rw [over_input, h.top.cursor_eq]
    exact leaf_inStep hleft _ hattempt
  | pattern p =>
    have hattempt : (env.over family).input.tryPattern top'.cursor p =
        env.input.tryPattern top.cursor p := by rw [over_input, h.top.cursor_eq]
    exact leaf_inStep hleft _ hattempt
  | rule name =>
    have hbodies := hu.rule s.run.grammar name
    obtain ⟨body, hbody⟩ := Option.isSome_iff_exists.1 hadmits
    have hfound : (s.grammar env).rule? name = some body := hbody
    rw [hbody] at hbodies
    simp only [hfound]
    generalize (family.grammarAt s.run.grammar).rule? name = replaced at hbodies ⊢
    cases hbodies with
    | @some _ body' hunrolled =>
      have hnext := h.trace (.rule name) (.rule name)
      have hbodies : List.Forall₂ (env.family.Unrolled items (s.trace (.rule name)).run.grammar)
          (body :: rest) (body' :: rest') := by
        rw [trace_run]
        exact .cons hunrolled hrest
      exact .next (hnext.withTop (hnext.top.await hbodies)).state
  | embed grammar main =>
    cases grammar with
    | none => exact absurd hfine.1.flaws_eq (by simp [Expr.flaws])
    | some inner =>
      obtain ⟨g, hg, hmain⟩ := hadmits
      obtain ⟨g', hg', hnames⟩ := hu.namesakes.getElem? hg
      have hmain' := Option.isSome_iff_exists.2 (Grammar.exists_rule?_of_names hnames hmain)
      have hinner : ((env.family.grammarAt inner).rule? main).isSome := by
        rwa [Family.grammarAt_eq hg]
      exact embed_inStep hleft hg hmain hg' hmain' (Family.fine_rule hinner).unrolled
  | action a =>
    cases a with
    | custom host =>
      cases host with
      | none => exact absurd hfine.1.flaws_eq (by simp [Expr.flaws, Expr.actionFlaws])
      | some host => exact (call_inStep hu hleft rfl rfl hadmits).1
    | insert | insertText | convert | modify | note | clear | throw | log | unknown =>
      exact act_inStep hleft (by simp)
  | sequence | choice | iterate | wrap | hide => cases hleaf

/-- Items are evaluated alike, wherever calls in them were replaced. -/
theorem evaluate_inStep (h : State.Facing (env.family.Unrolled items) s t top top' below below') :
    (evaluate env s top below).InStep (env.family.Unrolled items)
      (evaluate (env.over family) t top' below') := by
  have hpending := h.top.pending
  cases hp : top.pending with
  | nil =>
    rw [hp, List.forall₂_nil_left_iff] at hpending
    simp only [evaluate, hp, hpending]
    exact fault_inStep h.state
  | cons e rest =>
    rw [hp, List.forall₂_cons_left_iff] at hpending
    obtain ⟨e', rest', he, hrest, hp'⟩ := hpending
    have hleft := h.withTop (h.top.await hrest)
    rcases he.cases hu.resolves with hlift | ⟨host, items', rfl, hcalls, rfl, hitems⟩
    · cases hlift with
      | leaf hleaf => exact evaluate_leaf_inStep hu h hp hp' hrest he.1 hleaf
      | sequence hitems =>
        simp only [evaluate, hp, hp']
        exact enter_inStep hleft (.same .sequence nofun) hitems
      | choice hitems =>
        simp only [evaluate, hp, hp']
        exact enter_inStep hleft (.same .choice nofun) hitems
      | @wrap name _ _ hitems =>
        simp only [evaluate, hp, hp']
        exact enter_inStep hleft (.same (.wrap name) nofun) hitems
      | hide hitems =>
        simp only [evaluate, hp, hp']
        exact enter_inStep hleft (.same .hide nofun) hitems
      | @iterate kind item item' hitem =>
        simp only [evaluate, hp, hp']
        have hkind : Kind.Unrolled (env.family.Unrolled items s.run.grammar)
            (Kind.ofRepetition kind item top.cursor) (Kind.ofRepetition kind item' top'.cursor) := by
          rw [h.top.cursor_eq]
          exact .ofRepetition hitem kind _
        exact enter_inStep hleft hkind (.cons hitem .nil)
    · simp only [evaluate, hp, hp']
      exact (call_inStep hu hleft rfl rfl hcalls).2 items' hitems

private theorem step_inStep (h : s.Unrolled (env.family.Unrolled items) t) :
    (step env s).InStep (env.family.Unrolled items) (step (env.over family) t) := by
  have hcounted := h.counted
  have hframes := h.run.frames
  have hterms : t.run.terms = s.run.terms := h.run.terms_eq
  unfold step
  simp only [over_input, hterms, h.steps]
  rw [h.steps] at hcounted
  split
  · exact abort_inStep h _
  · generalize hf : s.run.stack.frames = frames at hframes
    generalize hf' : t.run.stack.frames = frames' at hframes
    cases hframes with
    | nil => exact abort_inStep hcounted _
    | @cons top top' below below' htop hbelow =>
      simp only [htop.isComplete_eq]
      split
      · cases hbelow with
        | nil => exact finish_inStep hcounted htop
        | cons hparent hbelow => exact fold_inStep ⟨hcounted, hparent, hbelow⟩ htop
      · have hfacing : State.Facing (env.family.Unrolled items)
            { s with steps := s.steps + 1 } { t with steps := s.steps + 1 } top top' below below' :=
          ⟨hcounted, htop, hbelow⟩
        exact evaluate_inStep hu (hfacing.withTop htop.restart)

/-- States that correspond lead to the same ending, after the same number of steps. -/
theorem run_inStep (fuel : Nat) (h : s.Unrolled (env.family.Unrolled items) t) :
    (run (env.over family) fuel t).map (fun r => (r.2, r.1.steps, r.1.run.furthest)) =
      (run env fuel s).map fun r => (r.2, r.1.steps, r.1.run.furthest) := by
  induction fuel generalizing s t with
  | zero => rfl
  | succ fuel ih =>
    have hstep := step_inStep hu h
    rw [run, run]
    generalize step env s = progress at hstep ⊢
    generalize step (env.over family) t = progress' at hstep ⊢
    cases hstep with
    | next h' => exact ih h'
    | stop ending hsteps hfurthest => simp [hsteps, hfurthest]

end

/-- A frame that the host pushes behaves as a sequence. Where all calls in the grammars of a family
push frames, and do nothing else, matching ends in the same way, after the same number of steps,
when any of the calls are replaced by sequences of what they push. So it does when all are. -/
theorem match_unrolled (family : Family) (items : Nat → List Expr) (host : Host) (config : Config)
    (id fuel : Nat) (input : Input) (hdefined : ∀ g ∈ family, g.Defined) (hclosed : family.Closed)
    (hcheck : ∀ id, family.check id = none)
    (hpushes : ∀ id call, family.Calls items id call → Pushes host call (items call))
    (hitems : ∀ id call, family.Calls items id call →
      ∀ item ∈ items call, family.Resolves id item) :
    (∀ family', family.Rewritten (fun _ => Expr.Unrolls items) family' →
      (matchInput fuel family' host config id input).map Report.outcome =
        (matchInput fuel family host config id input).map Report.outcome) ∧
    (matchInput fuel (family.map (Grammar.unroll items)) host config id input).map Report.outcome =
      (matchInput fuel family host config id input).map Report.outcome := by
  have hclean := Family.clean_of_checks hcheck hclosed
  have hproper (id : Nat) : Grammar.Proper (family.grammarAt id).rules :=
    (Family.defined_grammarAt hdefined id).proper (hclean id).errors_eq
  have hfine (id : Nat) : ∀ rule ∈ (family.grammarAt id).rules, family.Fine items id rule.2 := by
    intro rule hr
    have hresolves : family.Resolves id rule.2 :=
      ⟨(hproper id).flawless rule hr, (hclean id).rule rule hr, (hclean id).embed rule hr⟩
    exact hresolves.fine fun call hcall => .rule hr hcall
  have hall (family' : Family) (hfamily : family.Rewritten (fun _ => Expr.Unrolls items) family') :
      (matchInput fuel family' host config id input).map Report.outcome =
        (matchInput fuel family host config id input).map Report.outcome := by
    have hn := Family.namesakes_unrolled hitems hfine hproper hfamily
    have hcheck' := Family.check_of_clean (Family.clean_unrolled hitems hfine hproper hfamily) id
    have hu : Unrolls items (environment family host input) family' :=
      { resolves := hitems
        pushes := hpushes
        namesakes := hn
        rule := fun id => Family.rule?_unrolled (hfine id)
          (Family.rules_unrolled hitems hfine hproper hfamily id).2 }
    have hnames : ((family'[id]?).getD {}).names = ((family[id]?).getD {}).names := hn.names_eq id
    simp only [matchInput, hcheck id, hcheck']
    cases hmain : ((family[id]?).getD {}).rule? config.main with
    | none =>
      rw [Grammar.rule?_eq_none_of_names hnames hmain, Grammar.undefined_eq_of_names hnames]
    | some body =>
      obtain ⟨body', hmain'⟩ :=
        Grammar.exists_rule?_of_names hnames (Option.isSome_of_eq_some hmain)
      simp only [hmain', Option.map_map]
      have hstart : ((family.grammarAt id).rule? config.main).isSome :=
        Option.isSome_of_eq_some hmain
      exact run_inStep hu fuel ⟨.start (Family.fine_rule hstart).unrolled, .nil, rfl⟩
  exact ⟨hall, hall _ (family.rewritten_unroll items)⟩

/-- A host that pushes the items of each call. -/
def pushing (items : Nat → List Expr) : Host := fun call view =>
  match view.stack.frames with
  | [] => ⟨view.stack, view.settings, [], .done⟩
  | top :: _ =>
    ⟨view.stack.push (Frame.enter .root top.cursor (items call)), view.settings, [], .done⟩

private theorem pushes_pushing (items : Nat → List Expr) (call : Nat) :
    Pushes (pushing items) call (items call) := by
  intro view top below hf
  simp [pushing, hf]

/-- Letters with commas, read by calls under a predicate, among alternatives and in a run inside of
another one. -/
def calling : Family :=
  [.ofRules [("main", .wrap "list" [.iterate .not (.action (.custom (some 1))),
      .iterate .zeroOrMore (.choice [.action (.custom (some 0)), .literal "b"]),
      .embed (some 1) "main"]), ("item", .literal "a")],
    .ofRules [("main", .iterate .optional (.action (.custom (some 2)))), ("item", .literal ".")]]

/-- What the calls push: items that call the host again, and use rules. -/
def called : Nat → List Expr
  | 0 => [.rule "item", .action (.custom (some 1))]
  | 1 => [.literal ","]
  | _ => [.embed (some 0) "item", .rule "item"]

private theorem grammarAt_calling {id : Nat} (h : 2 ≤ id) : calling.grammarAt id = {} := by
  obtain ⟨n, rfl⟩ := Nat.exists_eq_add_of_le' h
  rfl

private theorem closed_calling : calling.Closed := by decide

private theorem id_of_calls {id call : Nat} (h : calling.Calls called id call) : id < 2 := by
  induction h with
  | rule hr =>
    by_contra hid
    rw [grammarAt_calling (Nat.le_of_not_lt hid)] at hr
    cases hr
  | item _ _ _ ih => exact ih

private theorem resolves_called {id : Nat} (hid : id < 2) (call : Nat) :
    ∀ item ∈ called call, calling.Resolves id item := by
  have hitem : ((calling.grammarAt id).rule? "item").isSome := by
    obtain rfl | rfl : id = 0 ∨ id = 1 := by omega
    · rfl
    · rfl
  have hrule : calling.Resolves id (.rule "item") := by
    refine ⟨⟨rfl, rfl⟩, fun name hm => ?_, fun inner main hm => ?_⟩
    · simp only [Expr.parts, Expr.visit, List.mem_singleton, Expr.rule.injEq] at hm
      rwa [hm]
    · simp [Expr.parts, Expr.visit] at hm
  have hembed : calling.Resolves id (.embed (some 0) "item") := by
    refine ⟨⟨rfl, rfl⟩, fun name hm => ?_, fun inner main hm => ?_⟩
    · simp [Expr.parts, Expr.visit] at hm
    · simp only [Expr.parts, Expr.visit, List.mem_singleton, Expr.embed.injEq, Option.some.injEq] at hm
      rw [hm.1, hm.2]
      exact ⟨_, rfl, rfl⟩
  have hplain {e : Expr} (he : e = .literal "," ∨ e = .action (.custom (some 1))) :
      calling.Resolves id e := by
    rcases he with rfl | rfl <;>
      exact ⟨⟨rfl, rfl⟩, by simp [Expr.parts, Expr.visit], by simp [Expr.parts, Expr.visit]⟩
  rcases call with _ | _ | call
  · simpa [called] using ⟨hrule, hplain (.inr rfl)⟩
  · simpa [called] using hplain (.inl rfl)
  · simpa [called] using ⟨hembed, hrule⟩

/-- A call that matches and one that does not, and one inside of another grammar. -/
theorem match_unrolled_calling : (∀ g ∈ calling, g.Defined) ∧ calling.Closed ∧
    (∀ id, calling.check id = none) ∧
    (matchInput 200 calling (pushing called) {} 0 (.text "a,ba.")).isSome ∧
    (matchInput 200 (calling.map (Grammar.unroll called)) (pushing called) {} 0
        (.text "a,ba.")).map Report.outcome =
      (matchInput 200 calling (pushing called) {} 0 (.text "a,ba.")).map Report.outcome := by
  have hdefined : ∀ g ∈ calling, g.Defined := Grammar.defined_map [_, _]
  have hcheck (id : Nat) : calling.check id = none := by
    match id with
    | 0 => rfl
    | 1 => rfl
    | id + 2 => rfl
  have hunrolled := match_unrolled calling called (pushing called) {} 0 200 (.text "a,ba.") hdefined
    closed_calling hcheck (fun _ call _ => pushes_pushing called call)
    fun _ call hcalls => resolves_called (id_of_calls hcalls) call
  exact ⟨hdefined, closed_calling, hcheck, rfl, hunrolled.2⟩

end PegMachine.Machine
