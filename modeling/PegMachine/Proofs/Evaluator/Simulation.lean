import PegMachine.Proofs.Evaluator.Items

namespace PegMachine.Evaluator

open Machine

/-- The kinds of frames that a loop goes through. -/
def IsLoop (quota : Quota) (item : Expr) (kind : Kind) : Prop :=
  ∃ mark, kind = .loop quota item mark

/-- What evaluating with some fuel says of the machine, for a single item, for the items of a pushed
frame and for the rounds of a loop. -/
structure Simulates (env : Env) (fuel : Nat) : Prop where
  item : ∀ {r : Run} {e : Expr} {a : Activation} {furthest : Int} {o : Outcome},
    r.terms.Unlimited → evalItem env.family env.input fuel r.grammar e a furthest = some o →
    ∀ {callers : List Run} {kind : Kind} {start : Int} {rest : List Expr} {below : List Frame}
      {s : State}, Stands r callers (a.frame kind start (e :: rest) :: below) furthest s →
    (a.frame kind start (e :: rest)).isComplete env.input.size = false →
    Realizes env 1 callers (bottom a.cursor below) (AfterItem r callers kind start rest below) s o
  items : ∀ {r : Run} {stops : Activation → Bool} {pending : List Expr} {a : Activation}
      {furthest : Int} {o : Outcome},
    r.terms.Unlimited →
    evalItems env.family env.input fuel r.grammar stops pending a furthest = some o →
    ∀ {callers : List Run} {kind : Kind} {start : Int} {parent : Frame} {below : List Frame}
      {s : State}, StopsAs env.input.size kind stops →
    Stands r callers (a.frame kind start pending :: parent :: below) furthest s →
    Realizes env 0 callers (bottom parent.cursor below)
      (AfterItems env.input.size r callers (· = kind) start parent below) s o
  loop : ∀ {r : Run} {item : Expr} {a : Activation} {furthest : Int} {o : Outcome},
    r.terms.Unlimited → evalLoop env.family env.input fuel r.grammar item a furthest = some o →
    ∀ {callers : List Run} {quota : Quota} {start : Int} {parent : Frame} {below : List Frame}
      {s : State}, a.failed = false →
    Stands r callers (a.frame (.loop quota item a.cursor) start [item] :: parent :: below)
      furthest s →
    Realizes env 1 callers (bottom parent.cursor below)
      (AfterItems env.input.size r callers (IsLoop quota item) start parent below) s o

section

variable {env : Env}

private theorem simulates_items
    {fuel : Nat} (ih : Simulates env fuel) {r : Run} (hl : r.terms.Unlimited)
    {stops : Activation → Bool} {pending : List Expr} {a : Activation} {furthest : Int}
    {o : Outcome}
    (h : evalItems env.family env.input (fuel + 1) r.grammar stops pending a furthest = some o)
    {callers : List Run} {kind : Kind} {start : Int} {parent : Frame} {below : List Frame}
    {s : State} (hk : StopsAs env.input.size kind stops)
    (hs : Stands r callers (a.frame kind start pending :: parent :: below) furthest s) :
    Realizes env 0 callers (bottom parent.cursor below)
      (AfterItems env.input.size r callers (· = kind) start parent below) s o := by
  -- the frame may be complete with items left, where it stops early
  have complete (left : List Expr) (hc : (stops a || left.isEmpty) = true)
      (hs : Stands r callers (a.frame kind start left :: parent :: below) furthest s) :
      Realizes env 0 callers (bottom parent.cursor below)
        (AfterItems env.input.size r callers (· = kind) start parent below) s
        (.done a furthest) :=
    ⟨0, s, Nat.le_refl 0, .refl s, kind, left, rfl, (hk a start left).trans hc, hs⟩
  cases pending with
  | nil =>
    cases h
    exact complete [] (by simp) hs
  | cons e pending =>
    rw [evalItems] at h
    cases hstop : stops a with
    | true =>
      simp only [hstop, if_true, Option.some.injEq] at h
      subst h
      exact complete (e :: pending) (by simp [hstop]) hs
    | false =>
      simp only [hstop, Bool.false_eq_true, if_false] at h
      cases he : evalItem env.family env.input fuel r.grammar e a furthest with
      | none => simp [he] at h
      | some o' =>
        simp only [he] at h
        have hc : (a.frame kind start (e :: pending)).isComplete env.input.size = false := by
          rw [hk, hstop]
          rfl
        refine (Realizes.andThen (ih.item hl he hs hc) h ?_).weaken (Nat.zero_le 1)
        intro b furthest' t _ ht hnext
        exact ih.items hl hnext hk ht

private theorem simulates_loop
    {fuel : Nat} (ih : Simulates env fuel) {r : Run} (hl : r.terms.Unlimited)
    {item : Expr} {a : Activation} {furthest : Int} {o : Outcome}
    (h : evalLoop env.family env.input (fuel + 1) r.grammar item a furthest = some o)
    {callers : List Run} {quota : Quota} {start : Int} {parent : Frame} {below : List Frame}
    {s : State} (hf : a.failed = false)
    (hs : Stands r callers (a.frame (.loop quota item a.cursor) start [item] :: parent :: below)
      furthest s) :
    Realizes env 1 callers (bottom parent.cursor below)
      (AfterItems env.input.size r callers (IsLoop quota item) start parent below) s o := by
  rw [evalLoop] at h
  cases he : evalItem env.family env.input fuel r.grammar item a furthest with
  | none => simp [he] at h
  | some o' =>
    simp only [he] at h
    have hc : (a.frame (.loop quota item a.cursor) start [item]).isComplete env.input.size =
        false := by
      simp [Frame.isComplete, hf]
    refine Realizes.andThen (ih.item hl he hs hc) h ?_
    intro b furthest' t _ ht hnext
    cases hstop : b.stopsLoop env.input.size a.cursor with
    | true =>
      simp only [hstop, if_true, Option.some.injEq] at hnext
      subst hnext
      exact ⟨0, t, Nat.le_refl 0, .refl t, _, [], ⟨a.cursor, rfl⟩, hstop, ht⟩
    | false =>
      simp only [hstop, Bool.false_eq_true, if_false] at hnext
      obtain ⟨u, hu, hstep⟩ := step_restart hl ht hstop
      have hb : b.failed = false := by
        cases hb : b.failed <;> simp [Activation.stopsLoop, hb] at hstop ⊢
      exact (Realizes.of_step_eq hstep (ih.loop hl hnext hb hu)).weaken (Nat.zero_le 1)

section

variable {fuel : Nat} {r : Run} {callers : List Run} {below : List Frame} {furthest : Int}
  {s t : State} {a : Activation} {kind : Kind} {start : Int} {rest : List Expr} {o : Outcome}

/-- A combinator: its items are evaluated by induction, and the fold is that of its frame. -/
theorem simulates_enclosed (ih : Simulates env fuel) (hl : r.terms.Unlimited) {kind' : Kind}
    {items : List Expr} {stops : Activation → Bool} {take? : Activation → Option Activation}
    (h : (evalItems env.family env.input fuel r.grammar stops items (.start a.cursor)
      furthest).map (·.into take?) = some o)
    (hk : StopsAs env.input.size kind' stops)
    (ht : Stands r callers (a.frame kind start rest :: below) furthest t)
    (hpush : step env s = enter t (a.frame kind start rest) below kind' items)
    (hfold : ∀ b pending, Frame.fold? env.input (b.frame kind' a.cursor pending)
      (a.frame kind start rest) = (take? b).map fun c => c.frame kind start rest) :
    Realizes env 1 callers (bottom a.cursor below) (AfterItem r callers kind start rest below) s
      o := by
  obtain ⟨o', ho', rfl⟩ := Option.map_eq_some_iff.1 h
  refine enclose_realizes hl ht hpush (fun u hu => ih.items hl ho' hk hu) ?_
  rintro k b pending rfl
  exact hfold b pending

private theorem simulates_repeated
    (ih : Simulates env fuel) (hl : r.terms.Unlimited) {quota : Quota}
    {item : Expr}
    (h : (evalLoop env.family env.input fuel r.grammar item (.start a.cursor)
      furthest).map (·.into fun b => some (a.takeLoop quota b)) = some o)
    (ht : Stands r callers (a.frame kind start rest :: below) furthest t)
    (hpush : step env s =
      enter t (a.frame kind start rest) below (.loop quota item a.cursor) [item]) :
    Realizes env 1 callers (bottom a.cursor below) (AfterItem r callers kind start rest below) s
      o := by
  obtain ⟨o', ho', rfl⟩ := Option.map_eq_some_iff.1 h
  refine enclose_realizes hl ht hpush
    (fun u hu => (ih.loop hl ho' rfl hu).weaken (Nat.zero_le 1)) ?_
  rintro k b pending ⟨mark, rfl⟩
  exact fold?_loop env.input quota item mark a.cursor pending

/-- A repetition is a loop, or its item is evaluated once, as a frame of its kind says. -/
theorem simulates_iterate (ih : Simulates env fuel) (hl : r.terms.Unlimited)
    {repetition : Repetition} {item : Expr}
    (h : evalItem env.family env.input (fuel + 1) r.grammar (.iterate repetition item) a furthest =
      some o)
    (ht : Stands r callers (a.frame kind start rest :: below) furthest t)
    (hpush : step env s = enter t (a.frame kind start rest) below
      (Kind.ofRepetition repetition item a.cursor) [item]) :
    Realizes env 1 callers (bottom a.cursor below) (AfterItem r callers kind start rest below) s
      o := by
  cases repetition with
  | zeroOrMore => exact simulates_repeated ih hl h ht hpush
  | oneOrMore => exact simulates_repeated ih hl h ht hpush
  | bounded min max => exact simulates_repeated ih hl h ht hpush
  | optional =>
    exact simulates_enclosed ih hl h (fun _ _ _ => rfl) ht hpush fun _ => fold?_optional env.input
  | not =>
    exact simulates_enclosed ih hl h (fun _ _ _ => rfl) ht hpush
      fun _ => fold?_not env.input a.cursor
  | unknown min max =>
    exact simulates_enclosed ih hl h (fun _ _ _ => rfl) ht hpush
      fun _ => fold?_root env.input a.cursor

/-- A reference gives way to the expression of its rule, which is evaluated by induction. -/
theorem simulates_rule (ih : Simulates env fuel) (hl : r.terms.Unlimited) {name : Bytes}
    (h : evalItem env.family env.input (fuel + 1) r.grammar (.rule name) a furthest = some o)
    (ht : Stands r callers (a.frame kind start (.rule name :: rest) :: below) furthest t)
    (hc : (a.frame kind start (.rule name :: rest)).isComplete env.input.size = false)
    (hstep : step env s = Machine.evaluate env t (a.frame kind start (.rule name :: rest)) below) :
    Realizes env 1 callers (bottom a.cursor below) (AfterItem r callers kind start rest below) s
      o := by
  simp only [Machine.evaluate, frame_pending, ht.grammar_eq] at hstep
  simp only [evalItem] at h
  cases hr : (env.family.grammarAt r.grammar).rule? name with
  | none =>
    rw [hr] at hstep h
    cases h
    exact ht.abort_ends hstep
  | some body =>
    rw [hr] at hstep h
    have hnext := (ht.trace (.rule name)).withFrames (a.frame kind start (body :: rest) :: below)
    have hopen : (a.frame kind start (body :: rest)).isComplete env.input.size = false := by
      rw [isComplete_cons _ _ _ _ _ body (.rule name), hc]
    exact (Realizes.of_next hstep (ih.item hl h hnext hopen)).weaken (by omega)

/-- An embedded grammar is run by induction, on the same terms. -/
theorem simulates_embed (ih : Simulates env fuel) (hl : r.terms.Unlimited) {grammar : Option Nat}
    {main : Bytes}
    (h : evalItem env.family env.input (fuel + 1) r.grammar (.embed grammar main) a furthest =
      some o)
    (ht : Stands r callers (a.frame kind start rest :: below) furthest t)
    (hstep : step env s = Machine.embed env t (a.frame kind start rest) grammar main) :
    Realizes env 1 callers (bottom a.cursor below) (AfterItem r callers kind start rest below) s
      o := by
  simp only [evalItem] at h
  cases grammar with
  | none =>
    cases h
    exact .of_stop hstep rfl
  | some inner =>
    simp only [Family.grammar?, Option.bind_some] at h
    cases hg : env.family[inner]? with
    | none =>
      rw [hg] at h
      cases h
      simp only [Machine.embed, Family.grammar?, Option.bind_some, hg] at hstep
      exact .of_stop hstep rfl
    | some g =>
      rw [hg] at h
      simp only at h
      cases hm : g.rule? main with
      | none =>
        rw [hm] at h
        cases h
        simp only [Machine.embed, Family.grammar?, Option.bind_some, hg, hm] at hstep
        exact ht.abort_ends hstep
      | some body =>
        rw [hm] at h
        obtain ⟨o', ho', rfl⟩ := Option.map_eq_some_iff.1 h
        refine embed_realizes hl ht hg hm hstep ?_
        intro callers u hu
        exact ih.item (r := Run.start inner main false (r.terms.inside main) a.cursor)
          (hl.inside main) ho' hu rfl

/-- The step that evaluates an item other than a reference takes it out of the frame first. -/
theorem simulates_item (ih : Simulates env fuel) (hl : r.terms.Unlimited) {e : Expr}
    (h : evalItem env.family env.input (fuel + 1) r.grammar e a furthest = some o)
    (hs : Stands r callers (a.frame kind start (e :: rest) :: below) furthest s)
    (hc : (a.frame kind start (e :: rest)).isComplete env.input.size = false) :
    Realizes env 1 callers (bottom a.cursor below) (AfterItem r callers kind start rest below) s
      o := by
  obtain ⟨t, ht, hstep⟩ := step_evaluate hl hs hc
  have htop := ht.withFrames (a.frame kind start rest :: below)
  cases e with
  | missing =>
    cases h
    exact htop.abort_ends hstep
  | literal text =>
    cases h
    exact leaf_realizes htop _ hstep
  | pattern p =>
    cases h
    exact leaf_realizes htop _ hstep
  | rule name => exact simulates_rule ih hl h ht hc hstep
  | sequence items =>
    exact simulates_enclosed ih hl h (fun _ _ _ => rfl) htop hstep
      fun _ => fold?_sequence env.input a.cursor
  | choice items =>
    exact simulates_enclosed ih hl h (fun _ _ _ => rfl) htop hstep
      fun _ => fold?_choice env.input a.cursor
  | wrap name items =>
    exact simulates_enclosed ih hl h (fun _ _ _ => rfl) htop hstep
      fun _ => fold?_wrap env.input name
  | hide items =>
    exact simulates_enclosed ih hl h (fun _ _ _ => rfl) htop hstep
      fun _ => fold?_hide env.input a.cursor
  | iterate repetition item => exact simulates_iterate ih hl h htop hstep
  | action effect => exact act_realizes htop effect hstep h
  | embed grammar main => exact simulates_embed ih hl h htop hstep

end

variable (env) in
/-- The machine does what the evaluator says, whatever the fuel. -/
theorem simulates (fuel : Nat) : Simulates env fuel := by
  induction fuel with
  | zero =>
    refine ⟨?_, ?_, ?_⟩
    · intro r e a furthest o _ h
      simp [evalItem] at h
    · intro r stops pending a furthest o _ h
      simp [evalItems] at h
    · intro r item a furthest o _ h
      simp [evalLoop] at h
  | succ fuel ih =>
    exact ⟨fun hl h _ _ _ _ _ _ hs hc => simulates_item ih hl h hs hc,
      fun hl h _ _ _ _ _ _ hk hs => simulates_items ih hl h hk hs,
      fun hl h _ _ _ _ _ _ hf hs => simulates_loop ih hl h hf hs⟩

end

end PegMachine.Evaluator
