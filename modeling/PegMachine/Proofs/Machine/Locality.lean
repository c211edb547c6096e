import Mathlib.Data.List.Forall2
import PegMachine.Proofs.Evaluator.Agreement
import PegMachine.Proofs.Machine.Effects
import PegMachine.Proofs.Machine.Safety

namespace PegMachine.Machine

open Evaluator (Contained ContainedRules containedRules_embeds)

/-- What a frame has going on: the runs that are embedded in its own, innermost first, the frames
from the top of its run down to itself, and the cursors at which its run has tried something. -/
structure Activity where
  inner : List Run
  frames : List Frame
  tried : List Int

/-- The run `r` as it goes on inside of one on the terms `t`, so on terms that are like them. -/
def Run.Inside (t : Terms) (r r' : Run) : Prop :=
  ∃ u, t.Like u ∧ r' = { r with terms := u }

/-- An activity goes on in the run `base`, on the frames `below` and with `outer` waiting. -/
structure Activity.Over (a : Activity) (base : Run) (below : List Frame) (outer : List Run)
    (s : State) : Prop where
  settled : base.terms.Settled
  runs : ∃ inner, List.Forall₂ (Run.Inside base.terms) a.inner inner ∧ s.run :: s.callers =
    inner ++ (a.tried.foldl Run.reach base).withFrames (a.frames ++ below) :: outer

section

variable {base : Run} {below frames : List Frame} {outer inner : List Run} {tried : List Int}
  {s : State} {r : Run}

theorem over_own : (⟨[], frames, tried⟩ : Activity).Over base below outer s ↔
    base.terms.Settled ∧
      s.run = (tried.foldl Run.reach base).withFrames (frames ++ below) ∧ s.callers = outer := by
  constructor
  · rintro ⟨hset, inner, ⟨⟩, hruns⟩
    exact ⟨hset, List.cons.inj hruns⟩
  · rintro ⟨hset, hrun, hcallers⟩
    exact ⟨hset, [], .nil, by rw [hrun, hcallers]; rfl⟩

theorem over_inner : (⟨r :: inner, frames, tried⟩ : Activity).Over base below outer s ↔
    base.terms.Settled ∧ r.Inside base.terms s.run ∧
      ∃ waiting, List.Forall₂ (Run.Inside base.terms) inner waiting ∧ s.callers =
        waiting ++ (tried.foldl Run.reach base).withFrames (frames ++ below) :: outer := by
  constructor
  · rintro ⟨hset, all, hall, hruns⟩
    obtain ⟨r', waiting, hinside, hwaiting, rfl⟩ := List.forall₂_cons_left_iff.1 hall
    obtain ⟨rfl, hcallers⟩ := List.cons.inj hruns
    exact ⟨hset, hinside, waiting, hwaiting, hcallers⟩
  · rintro ⟨hset, hinside, waiting, hwaiting, hcallers⟩
    exact ⟨hset, _, .cons hinside hwaiting, by rw [hcallers]; rfl⟩

namespace Run.Inside

variable {t u : Terms} {r' : Run}

theorem grammar_eq (h : r.Inside t r') : r'.grammar = r.grammar := by
  obtain ⟨u, -, rfl⟩ := h
  rfl

theorem like (h : r.Inside t r') : t.Like r'.terms := by
  obtain ⟨u, hu, rfl⟩ := h
  exact hu

theorem trans (hu : t.Like u) (h : r.Inside u r') : r.Inside t r' := by
  obtain ⟨v, hv, rfl⟩ := h
  exact ⟨v, hu.trans hv, rfl⟩

theorem withFrames (h : r.Inside t r') (frames : List Frame) :
    (r.withFrames frames).Inside t (r'.withFrames frames) := by
  obtain ⟨u, hu, rfl⟩ := h
  exact ⟨u, hu, rfl⟩

theorem reach (h : r.Inside t r') (tried : List Int) :
    (tried.foldl Run.reach r).Inside t (tried.foldl Run.reach r') := by
  induction tried generalizing r r' with
  | nil => exact h
  | cons cursor tried ih =>
    obtain ⟨u, hu, rfl⟩ := h
    exact ih ⟨u, hu, rfl⟩

/-- Runs that only differ in their terms go on after an embedded run in the same way. -/
theorem resumed {inner inner' : Run} {v : Terms} (h : r.Inside t r') (hi : inner.Inside v inner')
    (change : Frame → Frame) : (r.resumed inner change).Inside t (r'.resumed inner' change) := by
  obtain ⟨u, hu, rfl⟩ := h
  obtain ⟨w, -, rfl⟩ := hi
  exact ⟨u, hu, rfl⟩

end Run.Inside

theorem Activity.Over.limit_eq {a : Activity} (h : a.Over base below outer s) :
    s.run.terms.limit = base.terms.limit := by
  obtain ⟨inner, frames, tried⟩ := a
  cases inner with
  | nil =>
    obtain ⟨-, hrun, -⟩ := over_own.1 h
    rw [hrun, withFrames_terms, foldl_reach_terms]
  | cons r inner =>
    obtain ⟨-, hinside, -⟩ := over_inner.1 h
    exact hinside.like.limit_eq

end

/-- A frame without custom actions, that embeds only grammars out of `known`. -/
structure ContainedFrame (known : Nat → Prop) (f : Frame) : Prop where
  pending : ∀ e ∈ f.pending, Contained known e
  loop : ∀ quota item mark, f.kind = .loop quota item mark → Contained known item
  kind : f.kind ≠ .unknown

structure ContainedRun (known : Nat → Prop) (r : Run) : Prop where
  grammar : known r.grammar
  frames : ∀ f ∈ r.stack.frames, ContainedFrame known f

/-- An activity of a grammar that never calls the host. -/
structure Activity.Quiet (known : Nat → Prop) (grammar : Nat) (a : Activity) : Prop where
  grammar : known grammar
  nonempty : a.frames ≠ []
  frames : ∀ f ∈ a.frames, ContainedFrame known f
  inner : ∀ r ∈ a.inner, ContainedRun known r

/-- What is contained in the frames of an effect. -/
def Effect.Quiet (known : Nat → Prop) : Effect → Prop
  | .become top _ => ContainedFrame known top
  | .enter child top => ContainedFrame known child ∧ ContainedFrame known top
  | .embed id _ top => known id ∧ ContainedFrame known top
  | .call .. => False
  | .raise .. | .abort .. | .fault => True

section

variable {env : Env} {known : Nat → Prop} {grammar : Nat} {f g : Frame}

theorem ContainedRun.start {main : Bytes} {exact : Bool} {terms : Terms} {cursor : Int}
    (hg : known grammar) : ContainedRun known (Run.start grammar main exact terms cursor) where
  grammar := hg
  frames f hf := by
    obtain rfl := List.mem_singleton.1 hf
    refine ⟨fun e he => ?_, nofun, nofun⟩
    obtain rfl := List.mem_singleton.1 he
    exact ⟨by simp [Expr.parts, Expr.visit], by simp [Expr.parts, Expr.visit]⟩

/-- An embedded run changes the frame that embeds it in what it may not evaluate. -/
theorem ContainedRun.resumed {r caller : Run} {change : Frame → Frame}
    (h : ContainedRun known caller)
    (hchange : ∀ f, ContainedFrame known f → ContainedFrame known (change f)) :
    ContainedRun known (caller.resumed r change) := by
  refine ⟨h.grammar, fun f hf => ?_⟩
  have hframes := h.frames
  cases hc : caller.stack.frames with
  | nil => simp [Run.resumed, Stack.updateTop, hc] at hf
  | cons top below =>
    rw [hc] at hframes
    have hf : f ∈ change top :: below := by simpa [Run.resumed, Stack.updateTop, hc] using hf
    rcases List.mem_cons.1 hf with rfl | hf
    · exact hchange top (hframes top (by simp))
    · exact hframes f (List.mem_cons_of_mem _ hf)

namespace ContainedFrame

/-- A frame stays contained when it only loses items. -/
theorem congr (h : ContainedFrame known f) (hk : g.kind = f.kind) (hp : g.pending ⊆ f.pending) :
    ContainedFrame known g :=
  ⟨fun e he => h.pending e (hp he), hk ▸ h.loop, hk ▸ h.kind⟩

theorem restart (h : ContainedFrame known f) : ContainedFrame known f.restart := by
  unfold Frame.restart
  split
  · next quota item mark hk hp =>
    have hitem := h.loop quota item mark hk
    refine ⟨?_, ?_, nofun⟩
    · intro e he
      exact List.mem_singleton.1 he ▸ hitem
    · rintro _ _ _ hk'
      cases hk'
      exact hitem
  · exact h

theorem fold (h : ContainedFrame known f) {input : Input} {child : Frame}
    (hfold : Frame.fold? input child f = some g) : ContainedFrame known g := by
  obtain ⟨hk, hp⟩ := fold?_keeps hfold
  exact h.congr hk (hp ▸ fun _ he => he)

/-- Without custom actions in it a frame has an effect that is contained too. -/
theorem effect (hr : ContainedRules env.family known) (hg : known grammar)
    (h : ContainedFrame known f) : (f.effect env grammar).Quiet known := by
  have hrestart := h.restart
  have left {e : Expr} {rest : List Expr} (hp : f.restart.pending = e :: rest) :
      ContainedFrame known { f.restart with pending := rest } :=
    hrestart.congr rfl (by simp [hp])
  have item {e : Expr} {rest : List Expr} (hp : f.restart.pending = e :: rest) :
      Contained known e := hrestart.pending e (by simp [hp])
  refine effect_elim ?expand ?mismatch ?success ?emit ?enter ?embed ?call ?raise ?abort ?fault
  case expand =>
    intro name body rest hp hbody
    have hrule := hr grammar hg _ (Grammar.mem_rules_of_rule? _ name body hbody)
    refine ⟨?_, hrestart.loop, hrestart.kind⟩
    intro e he
    rcases List.mem_cons.1 he with rfl | he
    · exact hrule
    · exact (left hp).pending e he
  case mismatch => exact fun e rest hp => (left hp).congr rfl fun _ he => he
  case success => exact fun e rest value next hp _ => (left hp).congr rfl fun _ he => he
  case emit => exact fun a rest output hp => (left hp).congr rfl fun _ he => he
  case enter =>
    intro e rest kind items hp hi hk hl
    refine ⟨⟨fun item' hm => (item hp).child (hi item' hm), ?_, hk⟩, left hp⟩
    exact fun quota item' mark hkind => (item hp).child (hi item' (hl quota item' mark hkind).1)
  case embed =>
    exact fun id main rest hp => ⟨(item hp).embed id main (Expr.mem_parts_self _ rfl), left hp⟩
  case call =>
    exact fun host rest hp => absurd (Expr.mem_parts_self _ rfl) ((item hp).custom (some host))
  case raise => exact fun _ _ _ _ _ => trivial
  case abort => exact fun _ _ => trivial
  case fault => trivial

end ContainedFrame

end

/-- Wherever the activity `a` goes on, one step leads to `b`. -/
def Activity.Leads (env : Env) (grammar : Nat) (a b : Activity) : Prop :=
  ∀ base below outer s, base.grammar = grammar → a.Over base below outer s → s.MayStep →
    ∃ t, step env s = .next t ∧ b.Over base below outer t

/-- Wherever the activity goes on, the next step ends all runs. -/
def Activity.Ends (env : Env) (grammar : Nat) (a : Activity) : Prop :=
  ∀ base below outer s, base.grammar = grammar → a.Over base below outer s → s.MayStep →
    (step env s).Stops

/-- What comes of an activity hangs on nothing else. -/
def Activity.Proceeds (env : Env) (known : Nat → Prop) (grammar : Nat) (a : Activity) : Prop :=
  (∃ b : Activity, b.Quiet known grammar ∧ a.Leads env grammar b) ∨ a.Ends env grammar

section

variable {env : Env} {known : Nat → Prop} {grammar : Nat} {s : State} {base : Run}
  {below : List Frame} {outer : List Run}

/-- The frame on top of an activity without embedded runs is evaluated. -/
theorem evaluates_own (hr : ContainedRules env.family known) {top : Frame} {above : List Frame}
    {tried : List Int} (h : (⟨[], top :: above, tried⟩ : Activity).Quiet known grammar)
    (hc : top.isComplete env.input.size = false) :
    (⟨[], top :: above, tried⟩ : Activity).Proceeds env known grammar := by
  obtain ⟨htop, habove⟩ := List.forall_mem_cons.1 h.frames
  have hquiet := htop.effect hr h.grammar
  have performs {base : Run} {below : List Frame} {outer : List Run} {s : State}
      (hg : base.grammar = grammar)
      (ho : (⟨[], top :: above, tried⟩ : Activity).Over base below outer s) (hl : s.MayStep) :
      (top.effect env grammar).Performs env s (above ++ below) (step env s) := by
    obtain ⟨-, hrun, -⟩ := over_own.1 ho
    have hsame : s.run.grammar = grammar := by
      rw [hrun, withFrames_grammar, foldl_reach_grammar, hg]
    exact hsame ▸ step_performs hl (by rw [hrun]; rfl) hc
  cases he : top.effect env grammar with
  | become g more =>
    rw [he] at hquiet
    refine .inl ⟨⟨[], g :: above, tried ++ more⟩, ⟨h.grammar, by simp, ?_, by simp⟩, ?_⟩
    · exact List.forall_mem_cons.2 ⟨hquiet, habove⟩
    · intro base below outer s hg ho hl
      obtain ⟨t, hstep, hruns⟩ := he ▸ performs hg ho hl
      obtain ⟨hset, hrun, hcallers⟩ := over_own.1 ho
      obtain ⟨hrun', hcallers'⟩ := List.cons.inj hruns
      refine ⟨t, hstep, over_own.2 ⟨hset, ?_, hcallers'.trans hcallers⟩⟩
      rw [hrun', hrun, foldl_reach_withFrames, List.foldl_append]
      rfl
  | enter child g =>
    rw [he] at hquiet
    refine .inl ⟨⟨[], child :: g :: above, tried⟩, ⟨h.grammar, by simp, ?_, by simp⟩, ?_⟩
    · exact List.forall_mem_cons.2 ⟨hquiet.1, List.forall_mem_cons.2 ⟨hquiet.2, habove⟩⟩
    · intro base below outer s hg ho hl
      obtain ⟨t, hstep, hruns⟩ := he ▸ performs hg ho hl
      obtain ⟨hset, hrun, hcallers⟩ := over_own.1 ho
      obtain ⟨hrun', hcallers'⟩ := List.cons.inj hruns
      exact ⟨t, hstep, over_own.2 ⟨hset, by rw [hrun', hrun]; rfl, hcallers'.trans hcallers⟩⟩
  | embed id main g =>
    rw [he] at hquiet
    refine .inl ⟨⟨[Run.start id main false {} g.cursor], g :: above, tried⟩,
      ⟨h.grammar, by simp, ?_, ?_⟩, ?_⟩
    · exact List.forall_mem_cons.2 ⟨hquiet.2, habove⟩
    · exact fun r hm => List.mem_singleton.1 hm ▸ ContainedRun.start hquiet.1
    · intro base below outer s hg ho hl
      obtain ⟨hset, hrun, hcallers⟩ := over_own.1 ho
      have hsame : s.run.terms = base.terms := by
        rw [hrun, withFrames_terms, foldl_reach_terms]
      have hperforms := he ▸ performs hg ho hl
      simp only [Effect.Performs, hsame, inside?_eq hset] at hperforms
      obtain ⟨t, hstep, hruns⟩ := hperforms
      obtain ⟨hrun', hcallers'⟩ := List.cons.inj hruns
      have hinside : (Run.start id main false {} g.cursor).Inside base.terms t.run :=
        ⟨base.terms.inside main, hset.like.inside main, hrun'⟩
      refine ⟨t, hstep, over_inner.2 ⟨hset, hinside, [], .nil, ?_⟩⟩
      rw [hcallers', hrun, hcallers]
      rfl
  | call host g =>
    rw [he] at hquiet
    exact hquiet.elim
  | raise | abort | fault =>
    exact .inr fun base below outer s hg ho hl => (he ▸ performs hg ho hl).stops trivial

/-- A complete frame of an activity without embedded runs is folded, unless it is the last. -/
theorem folds_own {child parent : Frame} {above : List Frame} {tried : List Int}
    (h : (⟨[], child :: parent :: above, tried⟩ : Activity).Quiet known grammar)
    (hc : child.isComplete env.input.size = true) :
    (⟨[], child :: parent :: above, tried⟩ : Activity).Proceeds env known grammar := by
  obtain ⟨hchild, hrest⟩ := List.forall_mem_cons.1 h.frames
  obtain ⟨hparent, habove⟩ := List.forall_mem_cons.1 hrest
  have stands {base : Run} {below : List Frame} {outer : List Run} {s : State}
      (ho : (⟨[], child :: parent :: above, tried⟩ : Activity).Over base below outer s) :
      s.run.stack.frames = child :: parent :: (above ++ below) := by
    rw [(over_own.1 ho).2.1]
    rfl
  cases hfold : Frame.fold? env.input child parent with
  | none => exact .inr fun base below outer s hg ho hl => step_fold_stops hl (stands ho) hc hfold
  | some f =>
    refine .inl ⟨⟨[], f :: above, tried⟩, ⟨h.grammar, by simp, ?_, by simp⟩, ?_⟩
    · exact List.forall_mem_cons.2 ⟨hparent.fold hfold, habove⟩
    · intro base below outer s hg ho hl
      obtain ⟨t, ht, hruns⟩ := step_folds hl (stands ho) hc hfold
      obtain ⟨hset, hrun, hcallers⟩ := over_own.1 ho
      obtain ⟨hrun', hcallers'⟩ := List.cons.inj hruns
      exact ⟨t, ht, over_own.2 ⟨hset, by rw [hrun', hrun]; rfl, hcallers'.trans hcallers⟩⟩

/-- An embedded run is an activity of its own, on an empty stack. -/
theorem proceeds_inner {r : Run} {inner : List Run} {frames : List Frame} {tried : List Int}
    (h : (⟨r :: inner, frames, tried⟩ : Activity).Quiet known grammar)
    (hown : (⟨[], r.stack.frames, []⟩ : Activity).Proceeds env known r.grammar) :
    (⟨r :: inner, frames, tried⟩ : Activity).Proceeds env known grammar := by
  have own {base : Run} {below : List Frame} {outer : List Run} {s : State}
      (ho : (⟨r :: inner, frames, tried⟩ : Activity).Over base below outer s) :
      (⟨[], r.stack.frames, []⟩ : Activity).Over s.run [] s.callers s := by
    obtain ⟨-, hinside, -⟩ := over_inner.1 ho
    refine over_own.2 ⟨hinside.like.settled, ?_, rfl⟩
    obtain ⟨u, -, hrun⟩ := hinside
    rw [List.append_nil, hrun]
    rfl
  obtain ⟨hrun, hinner⟩ := List.forall_mem_cons.1 h.inner
  rcases hown with ⟨b, hb, hleads⟩ | hends
  · refine .inl ⟨⟨b.inner ++ (b.tried.foldl Run.reach r).withFrames b.frames :: inner,
      frames, tried⟩, ⟨h.grammar, h.nonempty, h.frames, ?_⟩, ?_⟩
    · refine List.forall_mem_append.2 ⟨hb.inner, List.forall_mem_cons.2 ⟨⟨?_, hb.frames⟩, hinner⟩⟩
      rw [withFrames_grammar, foldl_reach_grammar]
      exact hrun.grammar
    · intro base below outer s _ ho hl
      obtain ⟨hset, hinside, waiting, hwaiting, hcallers⟩ := over_inner.1 ho
      obtain ⟨t, hstep, -, more, hmore, hruns⟩ :=
        hleads s.run [] s.callers s hinside.grammar_eq (own ho) hl
      refine ⟨t, hstep, hset, more ++
        (b.tried.foldl Run.reach s.run).withFrames (b.frames ++ []) :: waiting, ?_, ?_⟩
      · have hnested := hmore.imp fun _ _ => Run.Inside.trans hinside.like
        have hgoes := (hinside.reach b.tried).withFrames b.frames
        rw [List.append_nil]
        exact List.rel_append hnested (.cons hgoes hwaiting)
      · rw [hruns, hcallers]
        simp
  · refine .inr fun base below outer s _ ho hl => ?_
    obtain ⟨-, hinside, -⟩ := over_inner.1 ho
    exact hends s.run [] s.callers s hinside.grammar_eq (own ho) hl

/-- An embedded run that is complete goes back to the run that embeds it. -/
theorem returns_inner {r : Run} {inner : List Run} {frames : List Frame} {tried : List Int}
    {root : Frame} (h : (⟨r :: inner, frames, tried⟩ : Activity).Quiet known grammar)
    (hf : r.stack.frames = [root]) (hc : root.isComplete env.input.size = true) :
    (⟨r :: inner, frames, tried⟩ : Activity).Proceeds env known grammar := by
  obtain ⟨-, hinner⟩ := List.forall_mem_cons.1 h.inner
  have same {t : Terms} {r' : Run} (hr : r.Inside t r') : r'.stack.frames = [root] ∧
      r'.furthest = r.furthest ∧ r'.handOver? env.input root = r.handOver? env.input root := by
    obtain ⟨u, -, rfl⟩ := hr
    exact ⟨hf, rfl, rfl⟩
  cases hover : r.handOver? env.input root with
  | none =>
    refine .inr fun base below outer s _ ho hl => ?_
    obtain ⟨-, hinside, -⟩ := over_inner.1 ho
    obtain ⟨hframes, -, hsame⟩ := same hinside
    exact step_return_stops hl hframes hc (hsame.trans hover)
  | some change =>
    have hchange (f : Frame) (hf : ContainedFrame known f) : ContainedFrame known (change f) := by
      obtain rfl | rfl := handOver?_cases hover <;> exact hf.congr rfl fun _ he => he
    cases inner with
    | nil =>
      obtain ⟨f, above, rfl⟩ := List.exists_cons_of_ne_nil h.nonempty
      obtain ⟨htop, habove⟩ := List.forall_mem_cons.1 h.frames
      refine .inl ⟨⟨[], change f :: above, tried ++ [r.furthest]⟩,
        ⟨h.grammar, by simp, List.forall_mem_cons.2 ⟨hchange f htop, habove⟩, by simp⟩, ?_⟩
      intro base below outer s _ ho hl
      obtain ⟨hset, hinside, _, ⟨⟩, hcallers⟩ := over_inner.1 ho
      obtain ⟨hframes, hfurthest, hsame⟩ := same hinside
      obtain ⟨t, ht, hruns⟩ := step_returns hl hframes hc hcallers (hsame.trans hover)
      obtain ⟨hrun', hcallers'⟩ := List.cons.inj hruns
      refine ⟨t, ht, over_own.2 ⟨hset, ?_, hcallers'⟩⟩
      rw [hrun', List.foldl_append, ← hfurthest]
      rfl
    | cons caller inner =>
      obtain ⟨hcaller, hinner⟩ := List.forall_mem_cons.1 hinner
      refine .inl ⟨⟨caller.resumed r change :: inner, frames, tried⟩,
        ⟨h.grammar, h.nonempty, h.frames, ?_⟩, ?_⟩
      · exact List.forall_mem_cons.2 ⟨hcaller.resumed hchange, hinner⟩
      · intro base below outer s _ ho hl
        obtain ⟨hset, hinside, _, hwaits, hcallers⟩ := over_inner.1 ho
        obtain ⟨hframes, -, hsame⟩ := same hinside
        cases hwaits with
        | cons hwait hwaiting =>
          obtain ⟨t, ht, hruns⟩ := step_returns hl hframes hc hcallers (hsame.trans hover)
          obtain ⟨hrun', hcallers'⟩ := List.cons.inj hruns
          refine ⟨t, ht, over_inner.2 ⟨hset, ?_, _, hwaiting, hcallers'⟩⟩
          rw [hrun']
          exact hwait.resumed hinside change

/-- Until its last frame is popped, an activity leads to another one or ends all runs, the same on
every stack. -/
theorem Activity.Quiet.proceeds (hr : ContainedRules env.family known) {a : Activity}
    (h : a.Quiet known grammar)
    (hlast : ∀ f, a.inner = [] → a.frames = [f] → f.isComplete env.input.size = false) :
    a.Proceeds env known grammar := by
  obtain ⟨inner, frames, tried⟩ := a
  cases inner with
  | nil =>
    obtain ⟨top, above, rfl⟩ := List.exists_cons_of_ne_nil h.nonempty
    cases hc : top.isComplete env.input.size with
    | false => exact evaluates_own hr h hc
    | true =>
      cases above with
      | nil => exact absurd (hlast top rfl rfl) (by simp [hc])
      | cons parent above => exact folds_own h hc
  | cons r inner =>
    obtain ⟨hrun, -⟩ := List.forall_mem_cons.1 h.inner
    cases hf : r.stack.frames with
    | nil =>
      refine .inr fun base below outer s _ ho hl => ?_
      obtain ⟨-, ⟨u, -, hrun⟩, -⟩ := over_inner.1 ho
      exact step_empty hl (by rw [hrun]; exact hf)
    | cons top above =>
      have hown : (⟨[], top :: above, []⟩ : Activity).Quiet known r.grammar :=
        ⟨hrun.grammar, by simp, hf ▸ hrun.frames, by simp⟩
      cases hc : top.isComplete env.input.size with
      | false => exact proceeds_inner h (hf ▸ evaluates_own hr hown hc)
      | true =>
        cases above with
        | nil => exact returns_inner h hf hc
        | cons parent above => exact proceeds_inner h (hf ▸ folds_own hown hc)

end

/-- Above the lowest `height` frames of the run that `depth` runs wait for there is another one. -/
def State.Above (s : State) (depth height : Nat) : Prop :=
  depth < s.callers.length ∨ s.callers.length = depth ∧ height < s.run.stack.frames.length

section

variable {env : Env} {known : Nat → Prop} {grammar : Nat} {s t : State} {base : Run}
  {below : List Frame} {outer : List Run}

/-- The last frame of an activity is folded into the one below it. -/
theorem pops {child parent : Frame} {tried : List Int}
    (ho : (⟨[], [child], tried⟩ : Activity).Over base (parent :: below) outer s)
    (hc : child.isComplete env.input.size = true) (hstep : step env s = .next t) :
    ∃ f, Frame.fold? env.input child parent = some f ∧
      t.run :: t.callers = s.run.withFrames (f :: below) :: outer := by
  obtain ⟨-, hrun, rfl⟩ := over_own.1 ho
  have hf : s.run.stack.frames = child :: parent :: below := by
    rw [hrun]
    rfl
  exact folds_of_next hf hc hstep

/-- Then nothing of the activity is left. -/
theorem not_above_of_pop {child : Frame} {tried : List Int}
    (ho : (⟨[], [child], tried⟩ : Activity).Over base below outer s)
    (hc : child.isComplete env.input.size = true) (hstep : step env s = .next t) :
    ¬t.Above outer.length below.length := by
  cases below with
  | cons parent below =>
    obtain ⟨f, -, hruns⟩ := pops ho hc hstep
    obtain ⟨hrun, hcallers⟩ := List.cons.inj hruns
    simp [State.Above, hrun, hcallers]
  | nil =>
    obtain ⟨-, hrun, hcallers⟩ := over_own.1 ho
    have hf : s.run.stack.frames = [child] := by
      rw [hrun]
      rfl
    obtain ⟨caller, callers, change, houter, -, hruns⟩ := returns_of_next hf hc hstep
    obtain ⟨-, hcallers'⟩ := List.cons.inj hruns
    rw [← hcallers, houter]
    simp only [State.Above, hcallers', List.length_cons]
    omega

theorem Activity.Over.above {a : Activity} (ho : a.Over base below outer s) (hne : a.frames ≠ []) :
    s.Above outer.length below.length := by
  obtain ⟨inner, frames, tried⟩ := a
  cases inner with
  | nil =>
    obtain ⟨-, hrun, rfl⟩ := over_own.1 ho
    refine .inr ⟨rfl, ?_⟩
    have := List.length_pos_iff.2 hne
    simp [hrun]
    omega
  | cons r inner =>
    obtain ⟨-, -, waiting, -, hcallers⟩ := over_inner.1 ho
    refine .inl ?_
    simp [hcallers]
    omega

/-- Where the machine goes on, so does an activity, unless the step pops its last frame. -/
theorem Activity.Quiet.next (hr : ContainedRules env.family known) {a : Activity}
    (h : a.Quiet known grammar) (hg : base.grammar = grammar) (ho : a.Over base below outer s)
    (hstep : step env s = .next t) :
    (∃ f tried, a = ⟨[], [f], tried⟩ ∧ f.isComplete env.input.size = true) ∨
      ∃ b : Activity, b.Quiet known grammar ∧ a.Leads env grammar b ∧
        b.Over base below outer t := by
  by_cases hlast : ∃ f tried, a = ⟨[], [f], tried⟩ ∧ f.isComplete env.input.size = true
  · exact .inl hlast
  have hgoes := h.proceeds hr fun f hi hf => by
    cases hc : f.isComplete env.input.size with
    | false => rfl
    | true => exact absurd ⟨f, a.tried, by rw [← hi, ← hf], hc⟩ hlast
  rcases hgoes with ⟨b, hb, hleads⟩ | hends
  · obtain ⟨u, hu, hob⟩ := hleads base below outer s hg ho (mayStep_of_next hstep)
    rw [hstep] at hu
    cases hu
    exact .inr ⟨b, hb, hleads, hob⟩
  · exact absurd (hstep ▸ hends base below outer s hg ho (mayStep_of_next hstep)) not_stops_next

/-- An activity goes on in the same way on every stack for as long as its last frame is there. -/
theorem Activity.Quiet.steps (hr : ContainedRules env.family known) {a : Activity} {n : Nat}
    (h : a.Quiet known grammar) (hg : base.grammar = grammar) (ho : a.Over base below outer s)
    (hsteps : Steps env n s t)
    (hstay : ∀ k u, k ≤ n → Steps env k s u → u.Above outer.length below.length) :
    ∃ b : Activity, b.Quiet known grammar ∧ b.Over base below outer t ∧
      ∀ base' below' outer' s', base'.grammar = grammar → a.Over base' below' outer' s' →
        (0 < base'.terms.limit → (s'.steps + n : Int) ≤ base'.terms.limit) →
        ∃ t', Steps env n s' t' ∧ b.Over base' below' outer' t' := by
  induction hsteps generalizing a with
  | refl s => exact ⟨a, h, ho, fun _ _ _ s' _ ho' _ => ⟨s', .refl s', ho'⟩⟩
  | @head n s u t hstep rest ih =>
    obtain ⟨f, tried, rfl, hc⟩ | ⟨b, hb, hleads, hob⟩ := h.next hr hg ho hstep
    · exact absurd (hstay 1 u (by omega) (.single hstep)) (not_above_of_pop ho hc hstep)
    · obtain ⟨c, hc, hoc, hother⟩ := ih hb hob fun k v hk hv =>
        hstay (k + 1) v (by omega) (.head hstep hv)
      refine ⟨c, hc, hoc, fun base' below' outer' s' hg' ho' hlimit => ?_⟩
      have hl : s'.MayStep := by
        rw [State.MayStep, ho'.limit_eq]
        rintro ⟨hpos, hle⟩
        have := hlimit hpos
        omega
      obtain ⟨u', hstep', hob'⟩ := hleads base' below' outer' s' hg' ho' hl
      have hcount : (step env s').state.steps = s'.steps + 1 := step_steps hl
      rw [hstep', state_next] at hcount
      obtain ⟨t', ht', hoc'⟩ := hother base' below' outer' u' hg' hob' fun hpos => by
        have := hlimit hpos
        omega
      exact ⟨t', .head hstep' ht', hoc'⟩

/-- All that a quiet run comes to is quiet. It ends with its last frame. -/
theorem Activity.Quiet.reaches (hr : ContainedRules env.family known) {a : Activity} {n : Nat}
    (h : a.Quiet known grammar) (hg : base.grammar = grammar) (ho : a.Over base [] [] s)
    (hsteps : Steps env n s t) : ∃ b : Activity, b.Quiet known grammar ∧ b.Over base [] [] t := by
  induction hsteps generalizing a with
  | refl s => exact ⟨a, h, ho⟩
  | @head n s u t hstep rest ih =>
    obtain ⟨f, tried, rfl, hc⟩ | ⟨b, hb, -, hob⟩ := h.next hr hg ho hstep
    · obtain ⟨-, hrun, hcallers⟩ := over_own.1 ho
      have hstops := step_ends (mayStep_of_next hstep) (by rw [hrun]; rfl) hc hcallers
      exact absurd (hstep ▸ hstops) not_stops_next
    · exact ih hb hob

end

/-- The frame on top of a run of a grammar, and those that it stands on. -/
structure State.Tops (s : State) (grammar : Nat) (f : Frame) (below : List Frame) : Prop where
  grammar_eq : s.run.grammar = grammar
  frames_eq : s.run.stack.frames = f :: below

/-- For `n` steps the frame that stands on `below` is not popped. -/
def State.Holds (env : Env) (s : State) (below : List Frame) (n : Nat) : Prop :=
  ∀ k u, k ≤ n → Steps env k s u → u.Above s.callers.length below.length

section

variable {env : Env} {known : Nat → Prop} {grammar : Nat} {s t : State} {f : Frame}
  {below : List Frame}

theorem State.Tops.over (h : s.Tops grammar f below) (hset : s.run.terms.Settled) :
    (⟨[], [f], []⟩ : Activity).Over s.run below s.callers s :=
  over_own.2 ⟨hset, (withFrames_self _ _ h.frames_eq).symm, rfl⟩

/-- The frames that a match comes to are contained in what its grammar embeds. -/
theorem contained_of_steps {family : Family} {host : Host} {config : Config} {id n : Nat}
    {input : Input} (hfree : family.CustomFree id)
    (hsteps : Steps (environment family host input) n (initial config id) s)
    (h : s.Tops grammar f below) :
    family.Embeds id grammar ∧ ContainedFrame (family.Embeds id) f := by
  have hr : ContainedRules (environment family host input).family (family.Embeds id) :=
    containedRules_embeds family id hfree
  let first := Run.start id config.main config.exact config.terms 0
  have hstart : ContainedRun (family.Embeds id) first := .start .refl
  have hquiet : (⟨[], first.stack.frames, []⟩ : Activity).Quiet (family.Embeds id) id :=
    ⟨.refl, by simp [first, Run.start], hstart.frames, by simp⟩
  have hover : (⟨[], first.stack.frames, []⟩ : Activity).Over first [] [] (initial config id) :=
    over_own.2 ⟨settled_terms config, rfl, rfl⟩
  obtain ⟨a, ha, ho⟩ := hquiet.reaches hr rfl hover hsteps
  obtain ⟨inner, frames, tried⟩ := a
  have hgrammar := h.grammar_eq
  have hframes := h.frames_eq
  cases inner with
  | nil =>
    obtain ⟨-, hrun, -⟩ := over_own.1 ho
    rw [hrun, withFrames_grammar, foldl_reach_grammar] at hgrammar
    rw [hrun, withFrames_frames, List.append_nil] at hframes
    exact ⟨hgrammar ▸ .refl, ha.frames f (hframes ▸ List.mem_cons_self)⟩
  | cons r inner =>
    obtain ⟨-, ⟨u, -, hrun⟩, -⟩ := over_inner.1 ho
    rw [hrun] at hgrammar hframes
    have hcontained := ha.inner r (by simp)
    have hf : f ∈ r.stack.frames := by
      rw [hframes]
      exact List.mem_cons_self
    exact ⟨hgrammar ▸ hcontained.grammar, hcontained.frames f hf⟩

/-- What the step does that pops the last frame of an activity. -/
theorem Activity.Quiet.pop (hr : ContainedRules env.family known) {a : Activity}
    (h : a.Quiet known grammar) {base : Run} (hg : base.grammar = grammar) {parent : Frame}
    {rest : List Frame} {outer : List Run} (ho : a.Over base (parent :: rest) outer s)
    (hstep : step env s = .next t) (hgone : ¬t.Above outer.length (parent :: rest).length) :
    ∃ child parent', child.isComplete env.input.size = true ∧
      s.run.stack.frames = child :: parent :: rest ∧ s.callers = outer ∧
      Frame.fold? env.input child parent = some parent' ∧ child.kind ≠ .unknown ∧
      t.run = s.run.withFrames (parent' :: rest) ∧ t.callers = outer := by
  obtain ⟨child, tried, rfl, hc⟩ | ⟨b, hb, -, hob⟩ := h.next hr hg ho hstep
  · obtain ⟨parent', hfold, hruns⟩ := pops ho hc hstep
    obtain ⟨-, hrun, hcallers⟩ := over_own.1 ho
    obtain ⟨hrun', hcallers'⟩ := List.cons.inj hruns
    exact ⟨child, parent', hc, by rw [hrun]; rfl, hcallers, hfold, (h.frames child (by simp)).kind,
      hrun', hcallers'⟩
  · exact absurd (hob.above hb.nonempty) hgone

end

/-- Frames are local. Take a frame that a match comes to, and put it on any stack of a run that goes
on as its settings say. Until it is popped, the frames below it and the runs that wait are left as
they were, and what goes on above them is the same on every other stack. The step that pops it
changes nothing but the frame right below: that one counts one match more or, if what was popped did
not succeed, is marked as failed and otherwise as it was. -/
theorem frames_local (family : Family) (host : Host) (config : Config) (id : Nat) (input : Input)
    (hfree : family.CustomFree id) {n : Nat} {origin : State} {grammar : Nat} {f : Frame}
    {under : List Frame}
    (hrun : Steps (environment family host input) n (initial config id) origin)
    (horigin : origin.Tops grammar f under) {s t : State} {below : List Frame} {m : Nat}
    (hs : s.Tops grammar f below) (hset : s.run.terms.Settled)
    (ht : Steps (environment family host input) m s t)
    (hholds : s.Holds (environment family host input) below m) :
    (∃ a : Activity, a.frames ≠ [] ∧ a.Over s.run below s.callers t ∧
      ∀ s' below', s'.Tops grammar f below' → s'.run.terms.Settled →
        (0 < s'.run.terms.limit → (s'.steps + m : Int) ≤ s'.run.terms.limit) →
        ∃ t', Steps (environment family host input) m s' t' ∧
          a.Over s'.run below' s'.callers t') ∧
    ∀ parent rest u, below = parent :: rest →
      step (environment family host input) t = .next u →
      ¬u.Above s.callers.length below.length →
      ∃ child parent', t.run.stack.frames = child :: parent :: rest ∧ t.callers = s.callers ∧
        child.isComplete input.size = true ∧
        u.run = t.run.withFrames (parent' :: rest) ∧ u.callers = s.callers ∧
        parent'.kind = parent.kind ∧ parent'.pending = parent.pending ∧
        if child.succeeded then parent'.matched = Frame.oneMore parent.matched
        else parent' = parent.fail := by
  obtain ⟨hknown, hframe⟩ := contained_of_steps hfree hrun horigin
  have hr : ContainedRules (environment family host input).family (family.Embeds id) :=
    containedRules_embeds family id hfree
  have hquiet : (⟨[], [f], []⟩ : Activity).Quiet (family.Embeds id) grammar :=
    ⟨hknown, by simp, by simpa using hframe, by simp⟩
  obtain ⟨a, ha, hat, hother⟩ := hquiet.steps hr hs.grammar_eq (hs.over hset) ht hholds
  refine ⟨⟨a, ha.nonempty, hat, fun s' below' hs' hset' hlimit => ?_⟩, ?_⟩
  · exact hother s'.run below' s'.callers s' hs'.grammar_eq (hs'.over hset') hlimit
  · rintro parent rest u rfl hstep hgone
    obtain ⟨child, parent', hc, hframes, hcallers, hfold, hkind, hu, hucallers⟩ :=
      ha.pop hr hs.grammar_eq hat hstep hgone
    obtain ⟨hk, hp⟩ := fold?_keeps hfold
    refine ⟨child, parent', hframes, hcallers, hc, hu, hucallers, hk, hp, ?_⟩
    obtain ⟨hno, rfl⟩ | ⟨hyes, ⟨hunknown, -⟩ | rfl | ⟨cursor, output, -, rfl⟩⟩ := fold?_cases hfold
    · rw [hno]
      rfl
    · exact absurd hunknown hkind
    · rw [hyes]
      rfl
    · rw [hyes]
      rfl

/-- The machine for a single word, where a list of words could stand as well. -/
def wordEnv : Env := environment nested Host.idle (.text "w")

def wordState : Nat → State
  | 0 => initial {} 0
  | n + 1 => (step wordEnv (wordState n)).state

/-- The sequence for a list in brackets is pushed in the third step and mismatches in the fourth.
The fifth pops it and leaves the choice below as it was, but for being marked as failed. -/
theorem frames_local_nested : nested.CustomFree 0 ∧
    ∃ f parent rest, (wordState 3).Tops 0 f (parent :: rest) ∧
      (wordState 3).Holds wordEnv (parent :: rest) 1 ∧
      step wordEnv (wordState 4) = .next (wordState 5) ∧
      (wordState 5).run = (wordState 4).run.withFrames (parent.fail :: rest) := by
  have hsteps : Steps wordEnv 3 (initial {} 0) (wordState 3) :=
    .head (t := wordState 1) rfl (.head (t := wordState 2) rfl (.single rfl))
  have hstep : step wordEnv (wordState 3) = .next (wordState 4) := rfl
  have hpop : step wordEnv (wordState 4) = .next (wordState 5) := rfl
  have htops : (wordState 3).Tops 0 (Frame.enter .sequence 0
      [.literal "[", .iterate .zeroOrMore (.embed (some 0) "main"), .literal "]"]) (_ :: _) :=
    ⟨rfl, rfl⟩
  have hholds : (wordState 3).Holds wordEnv (wordState 3).run.stack.frames.tail 1 := by
    intro k u hk hu
    have hstate : u = wordState 3 ∨ u = wordState 4 := by
      obtain rfl | rfl : k = 0 ∨ k = 1 := by omega
      · exact .inl (hu.unique (.refl _))
      · exact .inr (hu.unique (.single hstep))
    obtain rfl | rfl := hstate
    · exact .inr ⟨rfl, by decide⟩
    · exact .inr ⟨rfl, by decide⟩
  obtain ⟨-, hgone⟩ := frames_local nested Host.idle {} 0 (.text "w")
    customFree_nested hsteps htops htops (settled_terms {}) (.single hstep) hholds
  have hbelow : ¬(wordState 5).Above (wordState 3).callers.length
      (wordState 3).run.stack.frames.tail.length := by
    rintro (h | ⟨-, h⟩)
    · exact absurd h (by decide)
    · exact absurd h (by decide)
  obtain ⟨child, parent', hframes, -, -, hu, -, -, -, hcond⟩ := hgone _ _ _ rfl hpop hbelow
  have hno : child.succeeded = false :=
    (Option.some.inj (congrArg (fun fs => fs.head?.map Frame.succeeded) hframes)).symm
  rw [hno] at hcond
  obtain rfl : parent' = Frame.fail _ := hcond
  exact ⟨customFree_nested, _, _, _, htops, hholds, hpop, hu⟩

end PegMachine.Machine
