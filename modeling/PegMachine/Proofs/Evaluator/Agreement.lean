import PegMachine.Proofs.Evaluator.Fuel
import PegMachine.Proofs.Evaluator.Simulation
import PegMachine.Proofs.Machine.Nesting

namespace PegMachine.Evaluator

open Machine

/-- An expression without custom actions that embeds only grammars out of `known`. -/
structure Contained (known : Nat → Prop) (e : Expr) : Prop where
  custom : ∀ host, .action (.custom host) ∉ e.parts
  embed : ∀ inner main, .embed (some inner) main ∈ e.parts → known inner

theorem Contained.child {known : Nat → Prop} {e child : Expr} (h : Contained known e)
    (hc : child ∈ e.children) : Contained known child where
  custom host hm := h.custom host (Expr.mem_parts_of_child e child _ hc hm)
  embed inner main hm := h.embed inner main (Expr.mem_parts_of_child e child _ hc hm)

/-- The grammars that `known` holds have only rules that stay inside of it. -/
def ContainedRules (family : Family) (known : Nat → Prop) : Prop :=
  ∀ id, known id → ∀ rule ∈ (family.grammarAt id).rules, Contained known rule.2

theorem containedRules_embeds (family : Family) (id : Nat) (h : family.CustomFree id) :
    ContainedRules family (family.Embeds id) := by
  intro inner hi rule hr
  exact ⟨h inner hi rule hr, fun _ _ hm => .step hi hr hm⟩

theorem inherited_contained {family : Family} {id : Nat} (h : family.CustomFree id) :
    Inherited family (family.Embeds id) (Contained (family.Embeds id)) where
  child h hc := h.child hc
  rule {inner} hinner rule hr := containedRules_embeds family id h inner hinner rule hr
  reference name := ⟨by simp [Expr.parts, Expr.visit], by simp [Expr.parts, Expr.visit]⟩
  embed h := h.embed _ _ (Expr.mem_parts_self _ rfl)
  custom host h := h.custom host (Expr.mem_parts_self _ rfl)

/-- A match of a grammar without custom actions has none before it. -/
theorem awaits_initial {family : Family} {id : Nat} (h : family.CustomFree id) (config : Config) :
    ∀ r ∈ (initial config id).run :: (initial config id).callers,
      r.Awaits (family.Embeds id) (Contained (family.Embeds id)) := by
  intro r hr
  obtain rfl := List.mem_singleton.1 hr
  exact .start (inherited_contained h) .refl

/-- So it does not depend on the host. -/
theorem run_initial_host_eq {family : Family} {id : Nat} (h : family.CustomFree id)
    (host host' : Host) (config : Config) (input : Input) (fuel : Nat) :
    run (environment family host input) fuel (initial config id) =
      run (environment family host' input) fuel (initial config id) := by
  have hi : Inherited (environment family host' input).family (family.Embeds id)
      (Contained (family.Embeds id)) := inherited_contained h
  exact run_host_eq host hi (awaits_initial h config) fuel

/-- All its runs are on the terms of the outermost one. -/
theorem like_of_match {family : Family} {host : Host} {config : Config} {id n : Nat} {input : Input}
    {s : State} (h : family.CustomFree id)
    (hsteps : Steps (environment family host input) n (initial config id) s) :
    ∀ r ∈ s.run :: s.callers, config.terms.Like r.terms := by
  have hi : Inherited (environment family host input).family (family.Embeds id)
      (Contained (family.Embeds id)) := inherited_contained h
  refine like_of_steps hi (awaits_initial h config) (fun r hr => ?_) hsteps
  obtain rfl := List.mem_singleton.1 hr
  exact (settled_terms config).like

/-- Where a run of fewer than `n` steps ends, the item that it is about to evaluate has an
outcome. -/
def Answered (env : Env) (known : Nat → Prop) (n : Nat) : Prop :=
  ∀ {r : Run} {callers : List Run} {a : Activation} {kind : Kind} {start : Int} {e : Expr}
    {rest : List Expr} {below : List Frame} {furthest : Int} {s : State} {m : Nat}, m < n →
    r.terms.Unlimited → known r.grammar → Contained known e →
    Stands r callers (a.frame kind start (e :: rest) :: below) furthest s →
    (a.frame kind start (e :: rest)).isComplete env.input.size = false →
    (run env m s).isSome →
    ∃ o, Yields env.family env.input r.grammar e a furthest o

section

variable {env : Env} {known : Nat → Prop} {r : Run} {callers : List Run} {a : Activation}
  {kind : Kind} {start furthest : Int} {parent : Frame} {below : List Frame}

/-- After an item that yields an activation the run goes on, and it is shorter. -/
theorem run_after_item (hl : r.terms.Unlimited) {b : Activation} {e : Expr} {rest : List Expr}
    {furthest' : Int} {s : State} {m : Nat}
    (hs : Stands r callers (a.frame kind start (e :: rest) :: below) furthest s)
    (hc : (a.frame kind start (e :: rest)).isComplete env.input.size = false)
    (hend : (run env m s).isSome)
    (hy : Yields env.family env.input r.grammar e a furthest (.done b furthest')) :
    ∃ k t, k < m ∧ Stands r callers (b.frame kind start rest :: below) furthest' t ∧
      (run env k t).isSome := by
  obtain ⟨fuel, hf⟩ := hy
  obtain ⟨n, t, hn, hsteps, ht⟩ := (simulates env fuel).item hl hf hs hc
  obtain ⟨k, hk, hrun⟩ := hsteps.run_split hend
  exact ⟨k, t, by omega, ht, hrun⟩

private theorem items_answered (hl : r.terms.Unlimited) {n : Nat} (ih : Answered env known n)
    (hg : known r.grammar) {stops : Activation → Bool} (hk : StopsAs env.input.size kind stops)
    {pending : List Expr} (hp : ∀ e ∈ pending, Contained known e) {s : State} {m : Nat}
    (hm : m < n) (hs : Stands r callers (a.frame kind start pending :: below) furthest s)
    (hend : (run env m s).isSome) :
    ∃ o, ItemsYield env.family env.input r.grammar stops pending a furthest o := by
  induction pending generalizing a furthest s m with
  | nil => exact ⟨_, .nil⟩
  | cons e pending ihp =>
    cases hstop : stops a with
    | true => exact ⟨_, .stopped hstop⟩
    | false =>
      have hc : (a.frame kind start (e :: pending)).isComplete env.input.size = false := by
        rw [hk, hstop]
        rfl
      obtain ⟨o, ho⟩ := ih hm hl hg (hp e (by simp)) hs hc hend
      cases o with
      | done b furthest' =>
        obtain ⟨k, t, hlt, ht, hrun⟩ := run_after_item hl hs hc hend ho
        obtain ⟨o', ho'⟩ := ihp (fun e he => hp e (by simp [he])) (by omega) ht hrun
        exact ⟨o', .cons hstop ho ho'⟩
      | raised | aborted | fault => exact ⟨_, .halted hstop ho rfl⟩

private theorem loop_answered (hl : r.terms.Unlimited) {n : Nat} (ih : Answered env known n)
    (hg : known r.grammar) {quota : Quota} {item : Expr} (hi : Contained known item) {m : Nat}
    {s : State} (hm : m < n) (hf : a.failed = false)
    (hs : Stands r callers (a.frame (.loop quota item a.cursor) start [item] :: below) furthest s)
    (hend : (run env m s).isSome) :
    ∃ o, LoopYields env.family env.input r.grammar item a furthest o := by
  induction m using Nat.strongRecOn generalizing a furthest s with
  | ind m ihm =>
    have hc : (a.frame (.loop quota item a.cursor) start [item]).isComplete env.input.size =
        false := by
      simp [Frame.isComplete, hf]
    obtain ⟨o, ho⟩ := ih hm hl hg hi hs hc hend
    cases o with
    | done b furthest' =>
      cases hstop : b.stopsLoop env.input.size a.cursor with
      | true => exact ⟨_, .stopped ho hstop⟩
      | false =>
        obtain ⟨k, t, hlt, ht, hrun⟩ := run_after_item hl hs hc hend ho
        obtain ⟨u, hu, hstep⟩ := step_restart hl ht hstop
        have hb : b.failed = false := by
          cases hb : b.failed <;> simp [Activation.stopsLoop, hb] at hstop ⊢
        rw [run_step_eq hstep] at hrun
        obtain ⟨o', ho'⟩ := ihm k hlt (by omega) hb hu hrun
        exact ⟨o', .again ho hstop ho'⟩
    | raised | aborted | fault => exact ⟨_, .halted ho rfl⟩

theorem run_next {s t : State} {m : Nat} (h : step env s = .next t) (hend : (run env m s).isSome) :
    ∃ k, k < m ∧ (run env k t).isSome := by
  obtain ⟨k, hk, hrun⟩ := (Steps.single h).run_split hend
  exact ⟨k, by omega, hrun⟩

theorem act_answered (input : Input) (a : Activation) (furthest : Int) (effect : Action)
    (h : ∀ host, effect ≠ .custom host) : ∃ o, act input a furthest effect = some o := by
  cases effect with
  | custom host => exact absurd rfl (h host)
  | insertText text =>
    simp only [act]
    split <;> exact ⟨_, rfl⟩
  | convert f =>
    cases f with
    | none => exact ⟨_, rfl⟩
    | some f =>
      simp only [act]
      split <;> exact ⟨_, rfl⟩
  | modify f =>
    simp only [act]
    split
    · exact ⟨_, rfl⟩
    · exact ⟨_, rfl⟩
    · split <;> exact ⟨_, rfl⟩
  | note key datum =>
    simp only [act]
    split <;> exact ⟨_, rfl⟩
  | insert | clear | throw | log | unknown => exact ⟨_, rfl⟩

/-- A run that ends has an outcome for the grammar it embeds. -/
theorem embed_answered
    (hl : r.terms.Unlimited) {n m : Nat} (ih : Answered env known n) {grammar : Option Nat}
    {main : Bytes} {rest : List Expr} {s t : State} (hm : m < n + 1)
    (he : Contained known (.embed grammar main))
    (ht : Stands r callers (a.frame kind start rest :: below) furthest t)
    (hstep : step env s = Machine.embed env t (a.frame kind start rest) grammar main)
    (hend : (run env m s).isSome) :
    ∃ o, Yields env.family env.input r.grammar (.embed grammar main) a furthest o := by
  cases grammar with
  | none => exact ⟨_, 1, rfl⟩
  | some inner =>
    cases hgr : env.family[inner]? with
    | none => exact ⟨.fault, 1, by simp only [evalItem, Family.grammar?, Option.bind_some, hgr]⟩
    | some g =>
      cases hmain : g.rule? main with
      | none =>
        refine ⟨.aborted (.undefined (g.undefined main [])) furthest, 1, ?_⟩
        simp only [evalItem, Family.grammar?, Option.bind_some, hgr, hmain]
      | some body =>
        obtain ⟨u, hu, hstands⟩ := embed_starts ht hl.settled hgr hmain hstep
        obtain ⟨k, hk, hrun⟩ := run_next hu hend
        have hinner : known inner := he.embed inner main (Expr.mem_parts_self _ rfl)
        have hrule : Contained known (.rule main) :=
          ⟨by simp [Expr.parts, Expr.visit], by simp [Expr.parts, Expr.visit]⟩
        obtain ⟨o, fuel, hf⟩ := ih (by omega) (hl.inside main) hinner hrule hstands rfl hrun
        refine ⟨o.intoCaller env.input a furthest, fuel + 1, ?_⟩
        simp only [evalItem, Family.grammar?, Option.bind_some, hgr, hmain]
        exact Option.map_eq_some_iff.2 ⟨o, hf, rfl⟩

/-- A run that ends has an outcome for the rule it comes to, which gives way to its expression. -/
private theorem rule_answered (hr : ContainedRules env.family known) (hl : r.terms.Unlimited)
    {n m : Nat} (ih : Answered env known n) (hg : known r.grammar) {name : Bytes}
    {rest : List Expr} {s t : State} (hm : m < n + 1)
    (hc : (a.frame kind start (.rule name :: rest)).isComplete env.input.size = false)
    (ht : Stands r callers (a.frame kind start (.rule name :: rest) :: below) furthest t)
    (hstep : step env s = Machine.evaluate env t (a.frame kind start (.rule name :: rest)) below)
    (hend : (run env m s).isSome) :
    ∃ o, Yields env.family env.input r.grammar (.rule name) a furthest o := by
  simp only [Machine.evaluate, frame_pending, ht.grammar_eq] at hstep
  cases hrule : (env.family.grammarAt r.grammar).rule? name with
  | none =>
    refine ⟨.aborted (.undefined ((env.family.grammarAt r.grammar).undefined name [])) furthest,
      1, ?_⟩
    simp only [evalItem, hrule]
  | some body =>
    rw [hrule] at hstep
    obtain ⟨k, hk, hrun⟩ := run_next hstep hend
    have hnext := (ht.trace (.rule name)).withFrames
      (a.frame kind start (body :: rest) :: below)
    have hopen : (a.frame kind start (body :: rest)).isComplete env.input.size = false := by
      rw [isComplete_cons _ _ _ _ _ body (.rule name), hc]
    have hbody := hr r.grammar hg _ (Grammar.mem_rules_of_rule? _ name body hrule)
    obtain ⟨o, ho⟩ := ih (by omega) hl hg hbody hnext hopen hrun
    exact ⟨o, ho.of_rule hrule⟩

/-- Pushing a frame takes a step, so what is left of the run after it is shorter. -/
private theorem run_entered {n m : Nat} {rest : List Expr} {s t : State} (hm : m < n + 1)
    (ht : Stands r callers (a.frame kind start rest :: below) furthest t) {kind' : Kind}
    {items : List Expr}
    (hpush : step env s = enter (t.withFrames (a.frame kind start rest :: below))
      (a.frame kind start rest) below kind' items)
    (hend : (run env m s).isSome) :
    ∃ k u, k < n ∧ (run env k u).isSome ∧
      Stands r callers ((Activation.start a.cursor).frame kind' a.cursor items ::
        a.frame kind start rest :: below) furthest u := by
  obtain ⟨k, hk, hrun⟩ := run_next hpush hend
  exact ⟨k, _, by omega, hrun, (ht.withFrames _).trace _⟩

/-- A run that ends has an outcome for each item it comes to. -/
theorem item_answered (hr : ContainedRules env.family known) {n : Nat}
    (ih : Answered env known n) : Answered env known (n + 1) := by
  intro r callers a kind start e rest below furthest s m hm hl hg he hs hc hend
  obtain ⟨t, ht, hstep⟩ := step_evaluate hl hs hc
  have htop := ht.withFrames (a.frame kind start rest :: below)
  -- a combinator goes on with its items, and a loop with its rounds
  have enclosed {kind' : Kind} (items : List Expr) (stops : Activation → Bool)
      (hk : StopsAs env.input.size kind' stops) (hchild : ∀ item ∈ items, item ∈ e.children)
      (hpush : step env s = enter (t.withFrames (a.frame kind start rest :: below))
        (a.frame kind start rest) below kind' items) :
      ∃ fuel o, evalItems env.family env.input fuel r.grammar stops items (.start a.cursor)
        furthest = some o := by
    obtain ⟨k, u, hlt, hrun, hu⟩ := run_entered hm htop hpush hend
    obtain ⟨o, fuel, hf⟩ :=
      items_answered hl ih hg hk (fun item hi => he.child (hchild item hi)) hlt hu hrun
    exact ⟨fuel, o, hf⟩
  have repeated {quota : Quota} {item : Expr} (hchild : item ∈ e.children)
      (hpush : step env s = enter (t.withFrames (a.frame kind start rest :: below))
        (a.frame kind start rest) below (.loop quota item a.cursor) [item]) :
      ∃ fuel o, evalLoop env.family env.input fuel r.grammar item (.start a.cursor) furthest =
        some o := by
    obtain ⟨k, u, hlt, hrun, hu⟩ := run_entered hm htop hpush hend
    obtain ⟨o, fuel, hf⟩ := loop_answered hl ih hg (he.child hchild) hlt rfl hu hrun
    exact ⟨fuel, o, hf⟩
  cases e with
  | missing => exact ⟨_, 1, rfl⟩
  | literal text => exact ⟨_, 1, rfl⟩
  | pattern p => exact ⟨_, 1, rfl⟩
  | rule name => exact rule_answered hr hl ih hg hm hc ht hstep hend
  | sequence items =>
    obtain ⟨fuel, o, hf⟩ :=
      enclosed items Activation.stopsSequence (fun _ _ _ => rfl) (fun _ h => h) hstep
    exact ⟨_, fuel + 1, Option.map_eq_some_iff.2 ⟨o, hf, rfl⟩⟩
  | choice items =>
    obtain ⟨fuel, o, hf⟩ :=
      enclosed items Activation.stopsChoice (fun _ _ _ => rfl) (fun _ h => h) hstep
    exact ⟨_, fuel + 1, Option.map_eq_some_iff.2 ⟨o, hf, rfl⟩⟩
  | wrap name items =>
    obtain ⟨fuel, o, hf⟩ :=
      enclosed items Activation.stopsSequence (fun _ _ _ => rfl) (fun _ h => h) hstep
    exact ⟨_, fuel + 1, Option.map_eq_some_iff.2 ⟨o, hf, rfl⟩⟩
  | hide items =>
    obtain ⟨fuel, o, hf⟩ :=
      enclosed items Activation.stopsSequence (fun _ _ _ => rfl) (fun _ h => h) hstep
    exact ⟨_, fuel + 1, Option.map_eq_some_iff.2 ⟨o, hf, rfl⟩⟩
  | iterate repetition item =>
    cases repetition with
    | zeroOrMore | oneOrMore | bounded =>
      obtain ⟨fuel, o, hf⟩ := repeated (List.mem_singleton.2 rfl) hstep
      exact ⟨_, fuel + 1, Option.map_eq_some_iff.2 ⟨o, hf, rfl⟩⟩
    | optional | unknown =>
      obtain ⟨fuel, o, hf⟩ :=
        enclosed [item] Activation.stopsSequence (fun _ _ _ => rfl) (fun _ h => h) hstep
      exact ⟨_, fuel + 1, Option.map_eq_some_iff.2 ⟨o, hf, rfl⟩⟩
    | not =>
      obtain ⟨fuel, o, hf⟩ :=
        enclosed [item] Activation.stopsNot (fun _ _ _ => rfl) (fun _ h => h) hstep
      exact ⟨_, fuel + 1, Option.map_eq_some_iff.2 ⟨o, hf, rfl⟩⟩
  | action effect =>
    have hcustom : ∀ host, effect ≠ .custom host := by
      rintro host rfl
      exact he.custom host (Expr.mem_parts_self _ rfl)
    obtain ⟨o, ho⟩ := act_answered env.input a furthest effect hcustom
    exact ⟨o, 1, ho⟩
  | embed grammar main => exact embed_answered hl ih hm he htop hstep hend

theorem answered (hr : ContainedRules env.family known) (n : Nat) :
    Answered env known n := by
  induction n with
  | zero =>
    intro r callers a kind start e rest below furthest s m hm
    omega
  | succ n ih => exact item_answered hr ih

/-- The outermost run ends when the items of its bottom frame are done. -/
theorem finish_ends {terms : Terms} (hl : terms.Unlimited) {id : Nat} {main : Bytes}
    {exact : Bool} {cursor : Int} {b : Activation} {s : State}
    (h : Stands (Run.start id main exact terms cursor) [] [b.frame .root cursor []] furthest s) :
    EndsWith env s (Outcome.result env.input exact cursor (.done b furthest)) := by
  have hcomplete : (b.frame .root cursor []).isComplete env.input.size = true := by
    simp [Frame.isComplete]
  obtain ⟨t, ht, hstep⟩ := step_finish hl h hcomplete
  have hu := ht.trace (.finish (!b.failed) b.cursor)
  obtain ⟨u, hu'⟩ : ∃ u, t.trace (.finish (!b.failed) b.cursor) = u := ⟨_, rfl⟩
  rw [hu'] at hu
  simp only [Machine.finish, frame_failed, frame_cursor, frame_output, hu'] at hstep
  have hexact : u.run.exact = exact := by
    rw [hu.run_eq]
    rfl
  have hpos : u.run.position? env.input = position? env.input b.cursor furthest := by
    rw [hu.run_eq]
    rfl
  simp only [hexact, hpos, hu.callers_eq] at hstep
  simp only [Outcome.result]
  split at hstep
  next hfail =>
    have hfail : (b.failed || (exact && decide (b.cursor < env.input.size))) = true := hfail
    rw [if_pos hfail]
    cases hp : position? env.input b.cursor furthest with
    | none =>
      rw [hp] at hstep
      exact .of_stop hstep (by simp [resultOf, failureResult, hp])
    | some position =>
      rw [hp] at hstep
      exact .of_stop hstep (by simp [resultOf, failureResult, hp, hu.furthest_eq])
  next hok =>
    have hok : ¬(b.failed || (exact && decide (b.cursor < env.input.size))) = true := hok
    rw [if_neg hok]
    exact .of_stop hstep (by simp [resultOf, hu.furthest_eq])

variable (env) in
/-- A run that has one item to evaluate ends as evaluating that item says. -/
theorem endsWith_of_stands {terms : Terms} (hl : terms.Unlimited) {fuel id : Nat}
    {main : Bytes} {exact : Bool} {cursor : Int} {e : Expr} {o : Outcome} {s : State}
    (hs : Stands (Run.start id main exact terms cursor) []
      [(Activation.start cursor).frame .root cursor [e]] cursor s)
    (h : evalItem env.family env.input fuel id e (.start cursor) cursor = some o) :
    EndsWith env s (o.result env.input exact cursor) := by
  have hr := (simulates env fuel).item (r := Run.start id main exact terms cursor) hl h hs rfl
  cases o with
  | done b furthest =>
    obtain ⟨n, t, -, hsteps, ht⟩ := hr
    exact .of_steps hsteps (finish_ends hl ht)
  | raised payload furthest => exact hr
  | aborted e furthest => exact hr
  | fault => exact hr

variable (env) in
/-- Where a run ends that has one item to evaluate, that item has an outcome. -/
theorem evalItem_of_stands {terms : Terms} (hl : terms.Unlimited)
    (hr : ContainedRules env.family known) {id : Nat} (hid : known id) {main : Bytes}
    {exact : Bool} {cursor : Int} {e : Expr} (he : Contained known e) {s : State}
    (hs : Stands (Run.start id main exact terms cursor) []
      [(Activation.start cursor).frame .root cursor [e]] cursor s)
    {fuel : Nat} (h : (run env fuel s).isSome) :
    ∃ fuel o, evalItem env.family env.input fuel id e (.start cursor) cursor = some o := by
  obtain ⟨o, fuel, hf⟩ := answered hr (fuel + 1) (Nat.lt_succ_self fuel) hl hid he hs rfl h
  exact ⟨fuel, o, hf⟩

end

section

variable {family : Family} {config : Config} {input : Input} {id : Nat}

/-- A match starts with nothing but its main rule to evaluate. -/
theorem initial_stands : Stands (Run.start id config.main config.exact config.terms 0) []
    [(Activation.start 0).frame .root 0 [.rule config.main]] 0 (initial config id) := ⟨rfl, rfl⟩

theorem endsWith_of_evaluate (host : Host) (hl : config.limit ≤ 0) {fuel : Nat} {result : Result}
    (h : evaluate fuel family input config id = some result) :
    EndsWith (environment family host input) (initial config id) result := by
  obtain ⟨o, ho, rfl⟩ := Option.map_eq_some_iff.1 h
  exact endsWith_of_stands (environment family host input)
    ⟨settled_terms config, hl⟩ initial_stands ho

private theorem evaluate_of_run (host : Host) (hl : config.limit ≤ 0) (hc : family.CustomFree id)
    {fuel : Nat}
    (h : (run (environment family host input) fuel (initial config id)).isSome) :
    ∃ fuel result, evaluate fuel family input config id = some result := by
  have hmain : Contained (family.Embeds id) (.rule config.main) :=
    ⟨by simp [Expr.parts, Expr.visit], by simp [Expr.parts, Expr.visit]⟩
  obtain ⟨fuel, o, hf⟩ := evalItem_of_stands (environment family host input)
    ⟨settled_terms config, hl⟩
    (containedRules_embeds family id hc) .refl hmain initial_stands h
  exact ⟨fuel, _, Option.map_eq_some_iff.2 ⟨o, hf, rfl⟩⟩

end

/-- The machine and the evaluator agree: a match without a limit, of a grammar without custom
actions, ends with a result exactly when evaluating its main rule does. -/
theorem endsWith_iff_evaluate (family : Family) (host : Host) (config : Config) (id : Nat)
    (input : Input) (result : Result) (hl : config.limit ≤ 0) (hc : family.CustomFree id) :
    EndsWith (environment family host input) (initial config id) result ↔
      ∃ fuel, evaluate fuel family input config id = some result := by
  constructor
  · intro h
    obtain ⟨n, hn⟩ := h.isSome
    obtain ⟨fuel, result', hf⟩ := evaluate_of_run host hl hc hn
    have hresult := h.unique (endsWith_of_evaluate host hl hf)
    exact ⟨fuel, hresult ▸ hf⟩
  · rintro ⟨fuel, hf⟩
    exact endsWith_of_evaluate host hl hf

/-- Two grammars that embed one another: words in which the letters `a` and `b` take turns. -/
def turns : Family :=
  [.ofRules [("main", .sequence [.literal "a", .iterate .optional (.embed (some 1) "main")])],
    .ofRules [("main", .sequence [.literal "b", .iterate .optional (.embed (some 0) "main")])]]

private theorem customFree_turns : turns.CustomFree 0 := Family.customFree_of_lacks rfl 0

/-- The two grammars hand over to one another until the text ends. -/
theorem endsWith_turns : turns.CustomFree 0 ∧
    EndsWith (environment turns Host.idle (.text "aba"))
      (initial {} 0)
      (.values [.ofText "a" ⟨0, 1⟩, .ofText "b" ⟨1, 2⟩, .ofText "a" ⟨2, 3⟩] 3 3) := by
  refine ⟨customFree_turns, ?_⟩
  have hagree := endsWith_iff_evaluate turns Host.idle {} 0
    (.text "aba") (.values [.ofText "a" ⟨0, 1⟩, .ofText "b" ⟨1, 2⟩, .ofText "a" ⟨2, 3⟩] 3 3)
    (Int.le_refl 0) customFree_turns
  exact hagree.2 ⟨30, rfl⟩

end PegMachine.Evaluator
