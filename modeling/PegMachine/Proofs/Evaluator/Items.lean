import PegMachine.Proofs.Evaluator.Endings

namespace PegMachine.Evaluator

open Machine

/-- Frames of a kind are complete when `stops` says so or nothing is left to evaluate. -/
def StopsAs (size : Int) (kind : Kind) (stops : Activation → Bool) : Prop :=
  ∀ (a : Activation) (start : Int) (pending : List Expr),
    (a.frame kind start pending).isComplete size = (stops a || pending.isEmpty)

def AfterItem (r : Run) (callers : List Run) (kind : Kind) (start : Int) (rest : List Expr)
    (below : List Frame) (a : Activation) (furthest : Int) (s : State) : Prop :=
  Stands r callers (a.frame kind start rest :: below) furthest s

/-- The state in which a pushed frame is complete. -/
def AfterItems (size : Int) (r : Run) (callers : List Run) (kinds : Kind → Prop) (start : Int)
    (parent : Frame) (below : List Frame) (a : Activation) (furthest : Int) (s : State) : Prop :=
  ∃ kind pending, kinds kind ∧ (a.frame kind start pending).isComplete size = true ∧
    Stands r callers (a.frame kind start pending :: parent :: below) furthest s

section

variable {env : Env} {r : Run} {callers : List Run} {below : List Frame} {furthest : Int}
  {s : State} {a b : Activation} {kind : Kind} {start : Int} {e : Expr} {rest : List Expr}

theorem Stands.bottom_eq (h : Stands r callers (a.frame kind start rest :: below) furthest s) :
    s.run.stack.rootCursor = bottom a.cursor below := h.rootCursor

/-- A payload raised while the frame on top is `a` ends all runs. -/
theorem Stands.raise_ends (h : Stands r callers (a.frame kind start rest :: below) furthest s)
    {s₀ : State} {payload : Payload} (hs : step env s₀ = raise env s payload) :
    EndsWith env s₀ (raisedResult env.input payload (bottom a.cursor below) furthest callers) := by
  obtain ⟨t, ending, ht, hr⟩ := raise_stops env s payload
  rw [h.bottom_eq, h.furthest_eq, h.callers_eq] at hr
  exact .of_stop (hs.trans ht) hr

/-- An error while the frame on top is `a` ends all runs. -/
theorem Stands.abort_ends (h : Stands r callers (a.frame kind start rest :: below) furthest s)
    {s₀ : State} {error : Error} (hs : step env s₀ = abort s error) :
    EndsWith env s₀ (abortedResult error (bottom a.cursor below) furthest callers) := by
  obtain ⟨t, ending, ht, hr⟩ := abort_stops s error
  rw [h.bottom_eq, h.furthest_eq, h.callers_eq] at hr
  exact .of_stop (hs.trans ht) hr

theorem leaf_realizes (h : Stands r callers (a.frame kind start rest :: below) furthest s)
    {s₀ : State} (attempt : Attempt)
    (hs : step env s₀ = leaf s (a.frame kind start rest) below e attempt) :
    Realizes env 1 callers (bottom a.cursor below) (AfterItem r callers kind start rest below) s₀
      (a.takeLeaf furthest attempt) := by
  cases attempt with
  | fault => exact .of_stop hs rfl
  | mismatch =>
    exact ⟨1, _, Nat.le_refl 1, .single hs, ((h.reach a.cursor).trace _).withFrames _⟩
  | success value next =>
    exact ⟨1, _, Nat.le_refl 1, .single hs,
      ((((h.reach a.cursor).trace _).reach next).withFrames _)⟩

/-- Most actions end in one step that changes nothing but the frame on top. -/
private theorem realizes_of_next {s₀ t : State} {cursor : Int} (hn : step env s₀ = .next t)
    (ht : Stands r callers (a.frame kind start rest :: below) furthest t) :
    Realizes env 1 callers (bottom cursor below) (AfterItem r callers kind start rest below) s₀
      (.done a furthest) :=
  ⟨1, t, Nat.le_refl 1, .single hn, ht⟩

private theorem insertText_realizes
    (h : Stands r callers (a.frame kind start rest :: below) furthest s) {s₀ : State} {text : Bytes}
    {o : Outcome}
    (hs : step env s₀ = Machine.act env s (a.frame kind start rest) below (.insertText text))
    (ho : act env.input a furthest (.insertText text) = some o) :
    Realizes env 1 callers (bottom a.cursor below) (AfterItem r callers kind start rest below) s₀
      o := by
  have ht := h.trace (.action (Action.insertText text).render)
  simp only [Machine.act, frame_cursor] at hs
  simp only [act] at ho
  cases hspan : env.input.span? a.cursor a.cursor with
  | none =>
    rw [hspan] at hs ho
    cases ho
    exact .of_stop hs rfl
  | some span =>
    rw [hspan] at hs ho
    cases ho
    exact realizes_of_next hs (ht.withFrames _)

private theorem convert_realizes
    (h : Stands r callers (a.frame kind start rest :: below) furthest s) {s₀ : State}
    {f : Option Value → Except Bytes (Option Value)}
    {o : Outcome}
    (hs : step env s₀ = Machine.act env s (a.frame kind start rest) below (.convert (some f)))
    (ho : act env.input a furthest (.convert (some f)) = some o) :
    Realizes env 1 callers (bottom a.cursor below) (AfterItem r callers kind start rest below) s₀
      o := by
  have ht := h.trace (.action (Action.convert (some f)).render)
  simp only [Machine.act, frame_output] at hs
  simp only [act] at ho
  cases hf : f a.output.head? with
  | error message =>
    rw [hf] at hs ho
    cases ho
    have hw := ht.withFrames
      (({ a with output := a.output.tail } : Activation).frame kind start rest :: below)
    exact hw.raise_ends hs
  | ok result =>
    rw [hf] at hs ho
    cases ho
    exact realizes_of_next hs (ht.withFrames _)

private theorem modify_realizes
    (h : Stands r callers (a.frame kind start rest :: below) furthest s) {s₀ : State}
    {f : Option (Value → Except Bytes Value)}
    {o : Outcome}
    (hs : step env s₀ = Machine.act env s (a.frame kind start rest) below (.modify f))
    (ho : act env.input a furthest (.modify f) = some o) :
    Realizes env 1 callers (bottom a.cursor below) (AfterItem r callers kind start rest below) s₀
      o := by
  have ht := h.trace (.action (Action.modify f).render)
  simp only [Machine.act, frame_output] at hs
  simp only [act] at ho
  cases hout : a.output with
  | nil =>
    rw [hout] at hs ho
    cases ho
    exact realizes_of_next hs ht
  | cons last output =>
    rw [hout] at hs ho
    cases f with
    | none =>
      cases ho
      exact .of_stop hs rfl
    | some f =>
      cases hf : f last with
      | error message =>
        simp only [hf] at hs ho
        cases ho
        exact ht.raise_ends hs
      | ok last' =>
        simp only [hf] at hs ho
        cases ho
        exact realizes_of_next hs (ht.withFrames _)

private theorem note_realizes
    (h : Stands r callers (a.frame kind start rest :: below) furthest s) {s₀ : State} {key : Bytes} {datum : Payload}
    {o : Outcome}
    (hs : step env s₀ = Machine.act env s (a.frame kind start rest) below (.note key datum))
    (ho : act env.input a furthest (.note key datum) = some o) :
    Realizes env 1 callers (bottom a.cursor below) (AfterItem r callers kind start rest below) s₀
      o := by
  have ht := h.trace (.action (Action.note key datum).render)
  simp only [Machine.act, frame_output] at hs
  simp only [act] at ho
  cases hout : a.output with
  | nil =>
    rw [hout] at hs ho
    cases ho
    exact realizes_of_next hs ht
  | cons last output =>
    rw [hout] at hs ho
    cases ho
    exact realizes_of_next hs (ht.withFrames _)

/-- Actions on the output of the frame on top. -/
theorem act_realizes (h : Stands r callers (a.frame kind start rest :: below) furthest s)
    {s₀ : State} (effect : Action) {o : Outcome}
    (hs : step env s₀ = Machine.act env s (a.frame kind start rest) below effect)
    (ho : act env.input a furthest effect = some o) :
    Realizes env 1 callers (bottom a.cursor below) (AfterItem r callers kind start rest below) s₀
      o := by
  have ht := h.trace (.action effect.render)
  cases effect with
  | insert values =>
    cases ho
    exact realizes_of_next hs (ht.withFrames _)
  | insertText text => exact insertText_realizes h hs ho
  | convert f =>
    cases f with
    | none =>
      cases ho
      exact .of_stop hs rfl
    | some f => exact convert_realizes h hs ho
  | modify f => exact modify_realizes h hs ho
  | note key datum => exact note_realizes h hs ho
  | clear =>
    cases ho
    exact realizes_of_next hs (ht.withFrames _)
  | custom host =>
    cases host with
    | none =>
      cases ho
      exact .of_stop hs rfl
    | some host => cases ho
  | throw datum =>
    cases ho
    exact ht.raise_ends hs
  | log args =>
    cases ho
    exact realizes_of_next hs ⟨ht.run_eq, ht.callers_eq⟩
  | unknown =>
    cases ho
    exact ht.abort_ends hs

/-- The fold of a frame into its parent, kind by kind. -/
theorem fold?_sequence (input : Input) (c : Int) (pending : List Expr) :
    Frame.fold? input (b.frame .sequence c pending) (a.frame kind start rest) =
      some ((a.takeSequence b).frame kind start rest) := by
  cases hb : b.failed <;> simp [Frame.fold?, Activation.takeSequence, hb]

theorem fold?_root (input : Input) (c : Int) (pending : List Expr) :
    Frame.fold? input (b.frame .root c pending) (a.frame kind start rest) =
      some ((a.takeSequence b).frame kind start rest) := by
  cases hb : b.failed <;> simp [Frame.fold?, Activation.takeSequence, hb]

theorem fold?_choice (input : Input) (c : Int) (pending : List Expr) :
    Frame.fold? input (b.frame .choice c pending) (a.frame kind start rest) =
      some ((a.takeChoice b).frame kind start rest) := by
  by_cases hb : b.matched = 0 <;> simp [Frame.fold?, Activation.takeChoice, hb]

theorem fold?_loop (input : Input) (quota : Quota) (item : Expr) (mark c : Int)
    (pending : List Expr) :
    Frame.fold? input (b.frame (.loop quota item mark) c pending) (a.frame kind start rest) =
      some ((a.takeLoop quota b).frame kind start rest) := by
  cases hb : quota.admits b.matched <;> simp [Frame.fold?, Activation.takeLoop, hb]

theorem fold?_optional (input : Input) (pending : List Expr) :
    Frame.fold? input (b.frame .optional a.cursor pending) (a.frame kind start rest) =
      some ((a.takeOptional b).frame kind start rest) := by
  cases hb : b.failed <;> simp [Frame.fold?, Activation.takeOptional, hb]

theorem fold?_not (input : Input) (c : Int) (pending : List Expr) :
    Frame.fold? input (b.frame .not c pending) (a.frame kind start rest) =
      some ((a.takeNot b).frame kind start rest) := by
  cases hb : (b.failed || b.matched == 0)
  · simp [Frame.fold?, Activation.takeNot, hb]
  · simp [Frame.fold?, Activation.takeNot, hb]
    rfl

theorem fold?_hide (input : Input) (c : Int) (pending : List Expr) :
    Frame.fold? input (b.frame .hide c pending) (a.frame kind start rest) =
      some ((a.takeHide b).frame kind start rest) := by
  cases hb : b.failed <;> simp [Frame.fold?, Activation.takeHide, hb]

theorem fold?_wrap (input : Input) (name : Bytes) (pending : List Expr) :
    Frame.fold? input (b.frame (.wrap name) a.cursor pending) (a.frame kind start rest) =
      (a.takeWrap? input name b).map fun c => c.frame kind start rest := by
  cases hb : b.failed with
  | true => simp [Frame.fold?, Activation.takeWrap?, hb]
  | false =>
    cases hspan : input.span? a.cursor b.cursor <;>
      simp [Frame.fold?, Activation.takeWrap?, hb, hspan]

/-- Evaluating a combinator: its frame is pushed, its items are evaluated, and what they did is
folded into the frame that had the combinator as an item. -/
theorem enclose_realizes {kind' : Kind} {kinds : Kind → Prop} {items : List Expr} {s₀ : State}
    {o : Outcome} {take? : Activation → Option Activation} (hl : r.terms.Unlimited)
    (h : Stands r callers (a.frame kind start rest :: below) furthest s)
    (hs : step env s₀ = enter s (a.frame kind start rest) below kind' items)
    (hitems : ∀ t, Stands r callers ((Activation.start a.cursor).frame kind' a.cursor items ::
        a.frame kind start rest :: below) furthest t →
      Realizes env 0 callers (bottom a.cursor below)
        (AfterItems env.input.size r callers kinds a.cursor (a.frame kind start rest) below) t o)
    (hfold : ∀ k b pending, kinds k →
      Frame.fold? env.input (b.frame k a.cursor pending) (a.frame kind start rest) =
        (take? b).map fun c => c.frame kind start rest) :
    Realizes env 1 callers (bottom a.cursor below) (AfterItem r callers kind start rest below) s₀
      (o.into take?) := by
  have hpush := hitems _ ((h.withFrames _).trace (.push kind'.name))
  refine Realizes.of_next hs ?_
  cases o with
  | raised payload furthest => exact hpush
  | aborted e furthest => exact hpush
  | fault => exact hpush
  | done b furthest' =>
    obtain ⟨n, t, -, ht, k, pending, hk, hcomplete, hstands⟩ := hpush
    obtain ⟨u, hu, hstep⟩ := step_fold hl hstands hcomplete
    have hf := hfold k b pending hk
    simp only [Machine.fold, hf] at hstep
    simp only [Outcome.into]
    cases hb : take? b with
    | none =>
      rw [hb] at hstep
      exact EndsWith.of_steps ht (.of_stop hstep rfl)
    | some c =>
      rw [hb] at hstep
      exact ⟨n + 1, _, Nat.zero_le _, ht.trans (.single hstep),
        (hu.withFrames _).trace _⟩

/-- The run that waits while an embedded one goes on. -/
def waiting (r : Run) (a : Activation) (kind : Kind) (start : Int) (rest : List Expr)
    (below : List Frame) (furthest : Int) : Run :=
  { r with stack := { r.stack with frames := a.frame kind start rest :: below }, furthest := furthest }

/-- The state in which an embedded run starts. -/
theorem embed_starts {inner : Nat} {main : Bytes} {g : Grammar} {body : Expr} {s₀ : State}
    (h : Stands r callers (a.frame kind start rest :: below) furthest s)
    (hr : r.terms.Settled) (hg : env.family[inner]? = some g) (hm : g.rule? main = some body)
    (hs : step env s₀ = Machine.embed env s (a.frame kind start rest) (some inner) main) :
    ∃ t, step env s₀ = .next t ∧
      Stands (Run.start inner main false (r.terms.inside main) a.cursor)
        (waiting r a kind start rest below furthest :: callers)
        [(Activation.start a.cursor).frame .root a.cursor [.rule main]] a.cursor t := by
  have ht := h.trace (.embed main)
  have hterms : s.run.terms.inside? main = .ok (r.terms.inside main) := by
    rw [h.run_eq]
    exact inside?_eq hr main
  simp only [Machine.embed, Family.grammar?, Option.bind_some, hg, hm, hterms] at hs
  refine ⟨_, hs, rfl, ?_⟩
  simp only [ht.run_eq, ht.callers_eq, waiting]

/-- The run that waited goes on with a change to its top frame. -/
theorem resume_stands (r : Run) (callers : List Run) (below : List Frame) (furthest : Int)
    (s : State) (change : Frame → Frame) {c : Activation}
    (hc : change (a.frame kind start rest) = c.frame kind start rest) :
    ∃ t, resume s (waiting r a kind start rest below furthest) callers change = .next t ∧
      Stands r callers (c.frame kind start rest :: below) (max furthest s.run.furthest) t := by
  refine ⟨_, rfl, ?_, rfl⟩
  simp only [waiting, Run.reach, Stack.updateTop, hc]

/-- The end of an embedded run takes its outcome to the frame that waits for it. -/
theorem finish_realizes {inner : Nat} {main : Bytes} {b : Activation} {innermost : Int}
    (hl : r.terms.Unlimited)
    (h : Stands (Run.start inner main false (r.terms.inside main) a.cursor)
      (waiting r a kind start rest below furthest :: callers)
      [b.frame .root a.cursor []] innermost s) :
    Realizes env 1 callers (bottom a.cursor below) (AfterItem r callers kind start rest below) s
      (Outcome.intoCaller env.input a furthest (.done b innermost)) := by
  have hcomplete : (b.frame .root a.cursor []).isComplete env.input.size = true := by
    simp [Frame.isComplete]
  obtain ⟨t, ht, hstep⟩ := step_finish (hl.inside main) h hcomplete
  have hu := ht.trace (.finish (!b.failed) b.cursor)
  obtain ⟨u, hu'⟩ : ∃ u, t.trace (.finish (!b.failed) b.cursor) = u := ⟨_, rfl⟩
  rw [hu'] at hu
  simp only [Machine.finish, frame_failed, frame_cursor, frame_output, hu'] at hstep
  have hexact : u.run.exact = false := by
    rw [hu.run_eq]
    rfl
  have hpos : u.run.position? env.input = position? env.input b.cursor innermost := by
    rw [hu.run_eq]
    rfl
  simp only [hexact, Bool.false_and, Bool.or_false, hpos, hu.callers_eq] at hstep
  simp only [Outcome.intoCaller]
  cases hf : b.failed with
  | true =>
    simp only [hf, if_true] at hstep ⊢
    cases hp : position? env.input b.cursor innermost with
    | none =>
      rw [hp] at hstep
      exact .of_stop hstep rfl
    | some position =>
      rw [hp] at hstep
      obtain ⟨v, hv, hstands⟩ := resume_stands r callers below furthest u Frame.fail
        (frame_fail a kind start rest)
      rw [hu.furthest_eq] at hstands
      exact ⟨1, v, Nat.le_refl 1, .single (hstep.trans hv), hstands⟩
  | false =>
    simp only [hf, Bool.false_eq_true, if_false] at hstep ⊢
    obtain ⟨v, hv, hstands⟩ := resume_stands r callers below furthest u
      (·.succeed b.cursor b.output) (frame_succeed a kind start b.cursor rest b.output)
    rw [hu.furthest_eq] at hstands
    exact ⟨1, v, Nat.le_refl 1, .single (hstep.trans hv), hstands⟩

theorem embed_realizes {inner : Nat} {main : Bytes} {g : Grammar} {body : Expr} {s₀ : State}
    {o : Outcome} (hl : r.terms.Unlimited)
    (h : Stands r callers (a.frame kind start rest :: below) furthest s)
    (hg : env.family[inner]? = some g) (hm : g.rule? main = some body)
    (hs : step env s₀ = Machine.embed env s (a.frame kind start rest) (some inner) main)
    (hrun : ∀ callers t, Stands (Run.start inner main false (r.terms.inside main) a.cursor) callers
        [(Activation.start a.cursor).frame .root a.cursor [.rule main]] a.cursor t →
      Realizes env 1 callers a.cursor
        (AfterItem (Run.start inner main false (r.terms.inside main) a.cursor) callers .root
          a.cursor [] []) t o) :
    Realizes env 1 callers (bottom a.cursor below) (AfterItem r callers kind start rest below) s₀
      (o.intoCaller env.input a furthest) := by
  obtain ⟨t, ht, hstands⟩ := embed_starts h hl.settled hg hm hs
  have hinner := hrun _ t hstands
  have hroot : (waiting r a kind start rest below furthest).stack.rootCursor =
      bottom a.cursor below := rootCursor_eq below _ _
  cases o with
  | done b innermost =>
    obtain ⟨n, u, -, hu, hafter⟩ := hinner
    exact ((finish_realizes hl hafter).of_steps (.head ht hu)).weaken (by omega)
  | raised payload innermost =>
    simp only [Realizes, raisedResult, hroot] at hinner
    simp only [Outcome.intoCaller]
    cases hp : (position? env.input a.cursor innermost).isSome with
    | true =>
      simp only [hp, if_true] at hinner ⊢
      exact EndsWith.of_steps (.single ht) hinner
    | false =>
      simp only [hp, Bool.false_eq_true, if_false] at hinner ⊢
      exact EndsWith.of_steps (.single ht) hinner
  | aborted error innermost =>
    simp only [Realizes, abortedResult, hroot] at hinner
    exact EndsWith.of_steps (.single ht) hinner
  | fault => exact EndsWith.of_steps (.single ht) hinner

end

end PegMachine.Evaluator
