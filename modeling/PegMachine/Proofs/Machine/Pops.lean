import PegMachine.Proofs.Machine.Limits
import PegMachine.Proofs.Machine.Locality

namespace PegMachine.Machine

open Evaluator (ContainedRules containedRules_embeds like_of_match)

/-- A child that is taken into its parent, in a run that is traced or not and is embedded in
`depth` others. -/
structure Fold (input : Input) where
  traced : Bool
  depth : Nat
  child : Frame
  parent : Frame
  result : Frame
  taken : Frame.fold? input child parent = some result

/-- The fold of a child into its parent, where it is possible. -/
def Fold.of? (input : Input) (traced : Bool) (depth : Nat) (child parent : Frame) :
    Option (Fold input) :=
  match h : Frame.fold? input child parent with
  | some result => some ⟨traced, depth, child, parent, result, h⟩
  | none => none

private theorem Fold.of?_of_some {input : Input} {traced : Bool} {depth : Nat}
    {child parent result : Frame} (h : Frame.fold? input child parent = some result) :
    Fold.of? input traced depth child parent =
      some ⟨traced, depth, child, parent, result, h⟩ := by
  unfold Fold.of?
  split
  · next result' h' =>
    obtain rfl := Option.some.inj (h.symm.trans h')
    rfl
  · next hnone => exact absurd (h.symm.trans hnone) nofun

private theorem Fold.of?_of_none
    {input : Input} {traced : Bool} {depth : Nat} {child parent : Frame}
    (h : Frame.fold? input child parent = none) :
    Fold.of? input traced depth child parent = none := by
  unfold Fold.of?
  split
  · next result h' => exact absurd (h.symm.trans h') nofun
  · rfl

/-- What a line about a pop says. -/
structure PopLine where
  kind : Bytes
  ok : Bool
  cursor : Int
  deriving DecidableEq

def Event.pop? : Event → Option PopLine
  | .pop kind ok cursor => some ⟨kind, ok, cursor⟩
  | _ => none

def Entry.pop? : Entry → Option PopLine
  | .message _ => none
  | .event _ _ _ _ e => e.pop?

/-- The lines about pops that were written so far, in order. -/
def State.pops (s : State) : List PopLine := s.log.reverse.filterMap Entry.pop?

def Report.pops (r : Report) : List PopLine := r.log.filterMap Entry.pop?

/-- What the next step folds, if that is what it does. -/
def State.fold? (env : Env) (s : State) : Option (Fold env.input) :=
  if 0 < s.run.terms.limit ∧ s.run.terms.limit ≤ s.steps then none
  else
    match s.run.stack.frames with
    | child :: parent :: _ =>
      if child.isComplete env.input.size then
        Fold.of? env.input s.run.terms.debug s.callers.length child parent
      else none
    | _ => none

/-- All that is folded within a number of steps, in order. -/
def folds (env : Env) : Nat → State → List (Fold env.input)
  | 0, _ => []
  | fuel + 1, s =>
    (s.fold? env).toList ++
      match step env s with
      | .next t => folds env fuel t
      | .stop .. => []

theorem frames_of_fold? {env : Env} {s : State} {f : Fold env.input} (h : s.fold? env = some f) :
    (∃ below, s.run.stack.frames = f.child :: f.parent :: below) ∧
      f.traced = s.run.terms.debug ∧ f.depth = s.callers.length := by
  unfold State.fold? at h
  split at h
  · cases h
  split at h
  · next child parent below hframes =>
    split at h
    · unfold Fold.of? at h
      split at h
      · cases h
        exact ⟨⟨below, hframes⟩, rfl, rfl⟩
      · cases h
    · cases h
  · cases h

namespace Fold

variable {input : Input}

/-- The line for a fold. -/
def line (f : Fold input) : PopLine := ⟨f.child.kind.name, !f.result.failed, f.result.cursor⟩

/-- The child was folded as a success: its parent counts one match more. -/
def Succeeds (f : Fold input) : Prop := f.result.matched = Frame.oneMore f.parent.matched

/-- The child was folded as a failure: all that happens to its parent is that it is marked. -/
def Fails (f : Fold input) : Prop := f.result = f.parent.fail

variable (f : Fold input)

private theorem line_ok : f.line.ok = (f.child.succeeded && !f.parent.failed) := by
  obtain ⟨hno, hr⟩ | ⟨hyes, ⟨-, hr⟩ | hr | ⟨cursor, output, -, hr⟩⟩ := fold?_cases f.taken
  · simp [line, hno, hr, Frame.fail]
  · simp [line, hyes, hr]
  · simp [line, hyes, hr]
  · simp [line, hyes, hr, Frame.succeed]

theorem oneMore_ne (n : Int) : Frame.oneMore n ≠ n := by
  unfold Frame.oneMore
  split <;> omega

private theorem succeeds_iff (hk : f.child.kind ≠ .unknown) :
    f.Succeeds ↔ f.child.succeeded = true := by
  have hne := oneMore_ne f.parent.matched
  obtain ⟨hno, hr⟩ | ⟨hyes, ⟨hu, -⟩ | hr | ⟨cursor, output, -, hr⟩⟩ := fold?_cases f.taken
  · simp [Succeeds, hno, hr, Frame.fail, hne.symm]
  · exact absurd hu hk
  · simp [Succeeds, hyes, hr]
  · simp [Succeeds, hyes, hr, Frame.succeed]

private theorem fails_iff (hk : f.child.kind ≠ .unknown) : f.Fails ↔ f.child.succeeded = false := by
  have hne := oneMore_ne f.parent.matched
  obtain ⟨hno, hr⟩ | ⟨hyes, ⟨hu, -⟩ | hr | ⟨cursor, output, -, hr⟩⟩ := fold?_cases f.taken
  · simp [Fails, hno, hr]
  · exact absurd hu hk
  · simp [Fails, hyes, hr, Frame.fail, hne]
  · simp [Fails, hyes, hr, Frame.succeed, Frame.fail, hne]

end Fold

section

variable {env : Env} {s : State} {top : Frame} {below : List Frame}

theorem trace_pops (s : State) (e : Event) :
    (s.trace e).pops = s.pops ++ if s.run.terms.debug then e.pop?.toList else [] := by
  unfold State.trace State.pops
  split
  · cases h : e.pop? <;> simp [Entry.pop?, h]
  · simp

/-- All other events leave the lines about pops as they were. -/
theorem trace_other {e : Event} (h : e.pop? = none) : (s.trace e).pops = s.pops := by
  simp [trace_pops, h]

@[simp] theorem withFrames_pops (frames : List Frame) : (s.withFrames frames).pops = s.pops := rfl

theorem raise_pops (payload : Payload) : (raise env s payload).state.pops = s.pops := by
  unfold raise
  split <;> rfl

private theorem finish_pops (root : Frame) : (finish env s root).state.pops = s.pops := by
  have htrace : (s.trace (.finish (!root.failed) root.cursor)).pops = s.pops := trace_other rfl
  unfold finish
  simp only
  repeat' split
  all_goals exact htrace

private theorem leaf_pops (e : Expr) (attempt : Attempt) :
    (leaf s top below e attempt).state.pops = s.pops := by
  have htrace (ok : Bool) :
      (State.trace { s with run := s.run.reach top.cursor } (.attempt ok e.render)).pops =
        s.pops := trace_other rfl
  cases attempt with
  | fault => rfl
  | mismatch => exact htrace false
  | success value next => exact htrace true

private theorem enter_pops (kind : Kind) (items : List Expr) :
    (enter s top below kind items).state.pops = s.pops := trace_other rfl

private theorem embed_pops (id : Option Nat) (main : Bytes) :
    (embed env s top id main).state.pops = s.pops := by
  have htrace : (s.trace (.embed main)).pops = s.pops := trace_other rfl
  unfold embed
  repeat' split
  all_goals first | rfl | exact htrace

private theorem custom_pops (host : Nat) : (custom env s host).state.pops = s.pops := by
  unfold custom
  simp only
  split
  · rfl
  · exact raise_pops _
  · rfl

private theorem act_pops (a : Action) : (act env s top below a).state.pops = s.pops := by
  have htrace : (s.trace (.action a.render)).pops = s.pops := trace_other rfl
  have logged (message : Bytes) :
      State.pops { s.trace (.action a.render) with
        log := .message message :: (s.trace (.action a.render)).log } = s.pops := by
    rw [← htrace]
    simp [State.pops, Entry.pop?]
  unfold act
  simp only
  repeat' split
  all_goals
    first
      | exact htrace
      | exact logged _
      | exact (raise_pops _).trans htrace
      | exact (custom_pops _).trans htrace

private theorem evaluate_pops : (evaluate env s top below).state.pops = s.pops := by
  unfold evaluate
  split
  · rfl
  · split
    · rfl
    · exact trace_other rfl
  · simp only
    split
    · exact leaf_pops _ _
    · exact leaf_pops _ _
    · exact enter_pops _ _
    · exact enter_pops _ _
    · exact enter_pops _ _
    · exact enter_pops _ _
    · exact enter_pops _ _
    · exact act_pops _
    · exact embed_pops _ _
    · rfl
    · rfl

/-- The lines about the folds of traced runs. -/
def lines {input : Input} (folds : List (Fold input)) : List PopLine :=
  (folds.filter Fold.traced).map Fold.line

/-- A step of a traced run writes a line just when it folds, and about what it folds. -/
theorem step_pops : (step env s).state.pops = s.pops ++ lines (s.fold? env).toList := by
  unfold step State.fold?
  by_cases hl : 0 < s.run.terms.limit ∧ s.run.terms.limit ≤ s.steps
  · simp [hl, abort, State.pops, lines]
  simp only [if_neg hl]
  have hcounted : State.pops { s with steps := s.steps + 1 } = s.pops := rfl
  cases hf : s.run.stack.frames with
  | nil => simp [abort, State.pops, lines]
  | cons top below =>
    cases hc : top.isComplete env.input.size with
    | false =>
      have hevaluate : (evaluate env ({ s with steps := s.steps + 1 }.withFrames
          (top.restart :: below)) top.restart below).state.pops = _ := evaluate_pops
      cases below <;> simpa [hc, lines] using hevaluate.trans hcounted
    | true =>
      cases below with
      | nil => simpa [hc, lines] using (finish_pops top).trans hcounted
      | cons parent below =>
        simp only [hc, if_true, fold]
        cases hfold : Frame.fold? env.input top parent with
        | none => simpa [Fold.of?_of_none hfold, lines] using hcounted
        | some f =>
          have hwrites := trace_pops ({ s with steps := s.steps + 1 }.withFrames (f :: below))
            (.pop top.kind.name (!f.failed) f.cursor)
          rw [withFrames_pops, hcounted] at hwrites
          rw [Fold.of?_of_some hfold]
          refine hwrites.trans ?_
          cases hd : s.run.terms.debug <;> simp [hd, lines, Event.pop?, Fold.line]

theorem lines_append {input : Input} (xs ys : List (Fold input)) :
    lines (xs ++ ys) = lines xs ++ lines ys := by
  simp [lines]

/-- A traced machine writes its folds down, one by one. -/
theorem pops_of_steps {n : Nat} {t : State} (h : Steps env n s t) :
    t.pops = s.pops ++ lines (folds env n s) := by
  induction h with
  | refl s => simp [folds, lines]
  | @head n s u t hstep _ ih =>
    have hwrites : (step env s).state.pops = s.pops ++ lines (s.fold? env).toList := step_pops
    rw [hstep, state_next] at hwrites
    rw [ih, hwrites, folds, hstep, lines_append, List.append_assoc]

private theorem pops_of_run {fuel : Nat} {t : State} {ending : Ending}
    (h : run env fuel s = some (t, ending)) : t.pops = s.pops ++ lines (folds env fuel s) := by
  induction fuel generalizing s with
  | zero => cases h
  | succ fuel ih =>
    have hwrites : (step env s).state.pops = s.pops ++ lines (s.fold? env).toList := step_pops
    rw [run] at h
    rw [folds]
    cases hstep : step env s with
    | next u =>
      rw [hstep] at h hwrites
      rw [ih h, ← state_next (s := u), hwrites, lines_append, List.append_assoc]
    | stop u ending' =>
      rw [hstep] at h hwrites
      cases h
      simpa [lines_append] using hwrites

/-- What is folded is folded in a state that the machine comes to. -/
theorem steps_of_mem_folds {n : Nat} {f : Fold env.input} (h : f ∈ folds env n s) :
    ∃ k t, Steps env k s t ∧ t.fold? env = some f := by
  induction n generalizing s with
  | zero => cases h
  | succ n ih =>
    rw [folds] at h
    rcases List.mem_append.1 h with h | h
    · exact ⟨0, s, .refl s, Option.mem_toList.1 h⟩
    · cases hstep : step env s with
      | next u =>
        rw [hstep] at h
        obtain ⟨k, t, hk, ht⟩ := ih h
        exact ⟨k + 1, t, .head hstep hk, ht⟩
      | stop u ending =>
        rw [hstep] at h
        cases h

end

/-- A frame as it stands on top: a predicate has one item, and none left once it was marked. -/
def Frame.Tidy (f : Frame) : Prop :=
  f.kind = .not → f.pending.length ≤ 1 ∧ (f.failed = true → f.pending = [])

/-- A frame as it waits for a child: a predicate has nothing left, and only a choice was marked. -/
structure Frame.Waits (f : Frame) : Prop where
  marked : f.failed = true → f.kind = .choice
  predicate : f.kind = .not → f.pending = []

/-- The frames of an effect stand as they should. -/
def Effect.Tidy : Effect → Prop
  | .become top _ => top.Tidy
  | .enter child top => child.Tidy ∧ top.Waits
  | .embed _ _ top => top.Waits
  | .call .. | .raise .. | .abort _ | .fault => True

/-- The frames of a stack stand as they should, with the top one first. -/
def TidyFrames : List Frame → Prop
  | [] => True
  | top :: below => top.Tidy ∧ ∀ f ∈ below, f.Waits

section

variable {env : Env} {grammar : Nat} {f : Frame}

/-- The frame of a predicate is given its only item. -/
theorem length_of_enter {child top : Frame} (h : f.effect env grammar = .enter child top)
    (hk : child.kind = .not) : child.pending.length = 1 ∧ child.failed = false := by
  unfold Frame.effect at h
  simp only at h
  cases hp : f.restart.pending with
  | nil =>
    rw [hp] at h
    cases h
  | cons e rest =>
    rw [hp] at h
    cases e with
    | literal | pattern =>
      simp only [Attempt.effect] at h
      split at h <;> cases h
    | rule name =>
      simp only at h
      split at h <;> cases h
    | sequence | choice | wrap | hide =>
      cases h
      cases hk
    | iterate =>
      cases h
      exact ⟨rfl, rfl⟩
    | action a =>
      refine absurd h (action_elim (motive := (· ≠ .enter child top)) ?_ ?_ ?_ ?_ ?_)
      all_goals intros; exact nofun
    | embed id main =>
      simp only at h
      repeat' split at h
      all_goals cases h
    | missing => cases h

/-- Only these frames go on after they were marked. -/
theorem marked_of_incomplete {size : Int} (hc : f.isComplete size = false)
    (hm : f.failed = true) : f.kind = .choice ∨ f.kind = .not := by
  cases hk : f.kind with
  | choice => exact .inl rfl
  | not => exact .inr rfl
  | root | sequence | loop | optional | wrap | hide | unknown =>
    simp [Frame.isComplete, hk, hm] at hc

/-- Frames other than those of loops begin no rounds. -/
theorem restart_of_restart_kind (hk : f.restart.kind = .choice ∨ f.restart.kind = .not) :
    f.restart = f := by
  unfold Frame.restart at hk ⊢
  split
  · next quota item mark hl hp => simp [hl, hp] at hk
  · rfl

/-- What a child changes about a frame leaves it as it should be on top. -/
theorem Frame.Waits.tidy {g : Frame} (h : f.Waits) (hk : g.kind = f.kind)
    (hp : g.pending = f.pending) : g.Tidy := by
  intro hnot
  have hnil : g.pending = [] := hp.trans (h.predicate (hk.symm.trans hnot))
  exact ⟨by simp [hnil], fun _ => hnil⟩

/-- A frame that evaluates an item can wait for it. -/
theorem Frame.Tidy.waits (h : f.Tidy) (hc : f.isComplete env.input.size = false) {e : Expr}
    {rest : List Expr} (hp : f.restart.pending = e :: rest) :
    Frame.Waits { f.restart with pending := rest } where
  marked hm := by
    have hm : f.failed = true := by
      unfold Frame.restart at hm
      split at hm <;> exact hm
    rcases marked_of_incomplete hc hm with hk | hk
    · unfold Frame.restart
      simp [hk]
    · have hnil := (h hk).2 hm
      unfold Frame.restart at hp
      simp [hk, hnil] at hp
  predicate hk := by
    have hsame := restart_of_restart_kind (.inr hk)
    rw [hsame] at hp hk
    have hlength := (h hk).1
    simpa [hp] using hlength

theorem Frame.Tidy.effect (h : f.Tidy) (hc : f.isComplete env.input.size = false) :
    (f.effect env grammar).Tidy := by
  have hwaits {e : Expr} {rest : List Expr} (hp : f.restart.pending = e :: rest) := h.waits hc hp
  refine effect_elim (motive := fun effect => f.effect env grammar = effect → effect.Tidy)
    ?expand ?mismatch ?success ?emit ?enter ?embed ?call ?raise ?abort ?fault rfl
  case expand =>
    intro name body rest hp _ _ hk
    have hsame := restart_of_restart_kind (.inr hk)
    rw [hsame] at hp hk
    obtain ⟨hlength, hmarked⟩ := h hk
    refine ⟨by simpa [hp] using hlength, fun hm => ?_⟩
    rw [hsame] at hm
    exact absurd (hp.symm.trans (hmarked hm)) nofun
  case mismatch => exact fun e rest hp _ => (hwaits hp).tidy rfl rfl
  case success => exact fun e rest value next hp _ _ => (hwaits hp).tidy rfl rfl
  case emit => exact fun a rest output hp _ => (hwaits hp).tidy rfl rfl
  case enter =>
    intro e rest kind items hp _ _ _ heffect
    refine ⟨fun hk => ?_, hwaits hp⟩
    obtain ⟨hlength, hclean⟩ := length_of_enter heffect hk
    exact ⟨Nat.le_of_eq hlength, fun hm => absurd (hclean.symm.trans hm) nofun⟩
  case embed => exact fun id main rest hp _ => hwaits hp
  case call => exact fun _ _ _ _ => trivial
  case raise => exact fun _ _ _ _ _ _ => trivial
  case abort => exact fun _ _ _ => trivial
  case fault => exact fun _ => trivial

/-- The frames of all runs stand as they should. -/
structure State.Tidy (s : State) : Prop where
  run : TidyFrames s.run.stack.frames
  callers : ∀ r ∈ s.callers, ∀ f ∈ r.stack.frames, f.Waits

variable {s t : State}

/-- A step that does not call the host leaves the frames as they should be. -/
theorem State.Tidy.next (h : s.Tidy) (hstep : step env s = .next t)
    (hquiet : ∀ top below, s.run.stack.frames = top :: below →
      ∀ host g, top.effect env s.run.grammar ≠ .call host g) : t.Tidy := by
  have hframes := h.run
  obtain ⟨top, below, hf, hc, hperforms⟩ | ⟨child, parent, below, f, hf, hfold, hruns⟩ |
    ⟨root, caller, callers, change, hf, hc, hover, hruns⟩ := next_cases hstep
  · rw [hf] at hframes
    obtain ⟨htop, hbelow⟩ := hframes
    have heffect : (top.effect env s.run.grammar).Tidy := htop.effect hc
    have hcall := hquiet top below hf
    generalize top.effect env s.run.grammar = effect at hperforms heffect hcall
    cases effect with
    | become g tried =>
      obtain ⟨hrun, hcallers⟩ := List.cons.inj (goesOn_next.1 hperforms)
      exact ⟨by rw [hrun]; exact ⟨heffect, hbelow⟩, hcallers ▸ h.callers⟩
    | enter child g =>
      obtain ⟨hrun, hcallers⟩ := List.cons.inj (goesOn_next.1 hperforms)
      refine ⟨?_, hcallers ▸ h.callers⟩
      rw [hrun]
      exact ⟨heffect.1, List.forall_mem_cons.2 ⟨heffect.2, hbelow⟩⟩
    | embed id main g =>
      obtain ⟨terms, -, hruns⟩ := embedded_of_next hperforms
      obtain ⟨hrun, hcallers⟩ := List.cons.inj hruns
      refine ⟨?_, ?_⟩
      · rw [hrun]
        exact ⟨nofun, by simp⟩
      · rw [hcallers]
        exact List.forall_mem_cons.2 ⟨List.forall_mem_cons.2 ⟨heffect, hbelow⟩, h.callers⟩
    | call host g => exact absurd rfl (hcall host g)
    | raise | abort | fault => exact absurd (hperforms.stops trivial) not_stops_next
  · rw [hf] at hframes
    obtain ⟨hparent, hbelow⟩ := List.forall_mem_cons.1 hframes.2
    obtain ⟨hk, hp⟩ := fold?_keeps hfold
    obtain ⟨hrun, hcallers⟩ := List.cons.inj hruns
    exact ⟨by rw [hrun]; exact ⟨hparent.tidy hk hp, hbelow⟩, hcallers ▸ h.callers⟩
  · have hwaiting := h.callers
    rw [hc] at hwaiting
    obtain ⟨hcaller, hcallers⟩ := List.forall_mem_cons.1 hwaiting
    obtain ⟨hrun, hrest⟩ := List.cons.inj hruns
    refine ⟨?_, hrest ▸ hcallers⟩
    rw [hrun]
    cases hcf : caller.stack.frames with
    | nil => simp [Run.resumed, Stack.updateTop, hcf, TidyFrames]
    | cons g below =>
      rw [hcf] at hcaller
      obtain ⟨hg, hbelow⟩ := List.forall_mem_cons.1 hcaller
      have hchange : (change g).Tidy := by
        obtain rfl | rfl := handOver?_cases hover <;> exact hg.tidy rfl rfl
      simpa [Run.resumed, Stack.updateTop, hcf, TidyFrames] using ⟨hchange, hbelow⟩

end

/-- Whether the outermost run is traced hangs on its innermost run only if that is itself. -/
theorem outermost_debug {r r' : Run} (h : r.terms.debug = r'.terms.debug) (callers : List Run) :
    (outermost r callers).terms.debug = (outermost r' callers).terms.debug := by
  cases callers with
  | nil => exact h
  | cons caller callers =>
    refine outermost_debug ?_ callers
    rfl

/-- No step changes whether the outermost run is traced. -/
theorem outermost_debug_of_next {env : Env} {s t : State} (hstep : step env s = .next t) :
    (outermost t.run t.callers).terms.debug = (outermost s.run s.callers).terms.debug := by
  obtain ⟨top, below, hf, -, hperforms⟩ | ⟨child, parent, below, f, -, -, hruns⟩ |
    ⟨root, caller, callers, change, -, hc, -, hruns⟩ := next_cases hstep
  · cases heffect : top.effect env s.run.grammar with
    | become g tried =>
      rw [heffect] at hperforms
      obtain ⟨hrun, hcallers⟩ := List.cons.inj (goesOn_next.1 hperforms)
      rw [hrun, hcallers]
      exact outermost_debug (by rw [withFrames_terms, foldl_reach_terms]) _
    | enter child g =>
      rw [heffect] at hperforms
      obtain ⟨hrun, hcallers⟩ := List.cons.inj (goesOn_next.1 hperforms)
      rw [hrun, hcallers]
      refine outermost_debug ?_ _
      rfl
    | embed id main g =>
      rw [heffect] at hperforms
      obtain ⟨terms, -, hruns⟩ := embedded_of_next hperforms
      obtain ⟨hrun, hcallers⟩ := List.cons.inj hruns
      rw [hcallers, outermost]
      refine outermost_debug ?_ _
      rfl
    | call host g =>
      rw [heffect] at hperforms
      obtain ⟨u, hu, hucallers, hcall⟩ := hperforms
      obtain ⟨hterms, hcallers⟩ := called_of_next hcall.symm
      rw [hcallers, hucallers]
      exact outermost_debug (by rw [hterms, hu]; rfl) _
    | raise | abort | fault =>
      rw [heffect] at hperforms
      exact absurd (hperforms.stops trivial) not_stops_next
  · obtain ⟨hrun, hcallers⟩ := List.cons.inj hruns
    rw [hrun, hcallers]
    refine outermost_debug ?_ _
    rfl
  · obtain ⟨hrun, hcallers⟩ := List.cons.inj hruns
    rw [hrun, hcallers, hc]
    refine outermost_debug ?_ _
    rfl

private theorem outermost_debug_of_steps {env : Env} {n : Nat} {s t : State} (h : Steps env n s t) :
    (outermost t.run t.callers).terms.debug = (outermost s.run s.callers).terms.debug := by
  induction h with
  | refl s => rfl
  | head hstep _ ih => exact ih.trans (outermost_debug_of_next hstep)

section

variable {family : Family} {host : Host} {config : Config} {id : Nat} {input : Input}

/-- Whatever a match comes to without calling the host, its frames stand as they should. -/
theorem tidy_of_steps (hfree : family.CustomFree id) {k n : Nat} {s t : State}
    (hs : Steps (environment family host input) k (initial config id) s) (h : s.Tidy)
    (ht : Steps (environment family host input) n s t) : t.Tidy := by
  have hr : ContainedRules (environment family host input).family (family.Embeds id) :=
    containedRules_embeds family id hfree
  induction ht generalizing k with
  | refl s => exact h
  | @head n s u t hstep _ ih =>
    refine ih (hs.trans (.single hstep)) (h.next hstep fun top below hf host g heq => ?_)
    obtain ⟨hknown, htop⟩ := contained_of_steps hfree hs ⟨rfl, hf⟩
    have hquiet := htop.effect hr hknown
    rw [heq] at hquiet
    exact hquiet

/-- Without functions of the host every run is traced like the outermost one, every child counts as
a success or as a failure, and it is only a choice that takes a child in after it was marked as
failed. -/
theorem folds_customFree (hfree : family.CustomFree id) {n : Nat} {f : Fold input}
    (hf : f ∈ folds (environment family host input) n (initial config id)) :
    f.traced = config.debug ∧ f.child.kind ≠ .unknown ∧
      (f.parent.failed = true → f.parent.kind = .choice) := by
  obtain ⟨k, t, hsteps, hfold⟩ := steps_of_mem_folds hf
  obtain ⟨⟨below, hframes⟩, htraced, -⟩ := frames_of_fold? hfold
  have hstart : (initial config id).Tidy := ⟨⟨nofun, by simp⟩, by simp [initial]⟩
  have htidy := (tidy_of_steps hfree (.refl _) hstart hsteps).run
  rw [hframes] at htidy
  obtain ⟨-, hchild⟩ := contained_of_steps hfree hsteps ⟨rfl, hframes⟩
  have hlike := like_of_match hfree hsteps t.run (by simp)
  exact ⟨htraced.trans hlike.debug_eq, hchild.kind, (htidy.2 f.parent (by simp)).marked⟩

/-- The outermost run of a match is traced if the settings say so when the match begins. -/
theorem folds_outermost {n : Nat} {f : Fold input}
    (hf : f ∈ folds (environment family host input) n (initial config id)) (hdepth : f.depth = 0) :
    f.traced = config.debug := by
  obtain ⟨k, t, hsteps, hfold⟩ := steps_of_mem_folds hf
  obtain ⟨-, htraced, hlength⟩ := frames_of_fold? hfold
  have hcallers : t.callers = [] := List.length_eq_zero_iff.1 (hlength.symm.trans hdepth)
  have hkept := outermost_debug_of_steps hsteps
  rw [hcallers] at hkept
  exact htraced.trans hkept

end

/-- The trace of a match tells of every pop in a run that is traced, in order, and of how the parent
stands after it. That is the truth about the child unless the parent was marked as failed before: a
line with "ok" is always right, and one with "fail" is wrong just when a child that matched is taken
into a parent that was marked. Without functions of the host all runs are traced, and that parent is
a choice. -/
theorem match_traces_pops (family : Family) (host : Host) (config : Config) (id : Nat)
    (input : Input) (hdebug : config.debug = true) :
    (∀ n s, Steps (environment family host input) n (initial config id) s →
      s.pops = lines (folds (environment family host input) n (initial config id))) ∧
    (∀ fuel report, matchInput fuel family host config id input = some report →
      (∃ e, report = { ending := .error e 0 }) ∨ report.pops =
        lines (folds (environment family host input) fuel (initial config id))) ∧
    ∀ n, ∀ f ∈ folds (environment family host input) n (initial config id),
      (f.child.kind ≠ .unknown →
        (f.Succeeds ↔ ¬f.Fails) ∧
        (f.line.ok = true ↔ f.Succeeds ∧ f.parent.failed = false) ∧
        (f.line.ok = false ↔ f.Fails ∨ f.parent.failed = true)) ∧
      (f.depth = 0 → f.traced = true) ∧
      (family.CustomFree id →
        f.traced = true ∧ f.child.kind ≠ .unknown ∧
          (f.parent.failed = true → f.parent.kind = .choice)) := by
  refine ⟨fun n s h => pops_of_steps h, fun fuel report h => ?_, fun n f hf =>
    ⟨fun hk => ?_, fun hdepth => (folds_outermost hf hdepth).trans hdebug, fun hfree => ?_⟩⟩
  · obtain ⟨e, he⟩ | hrun := matchInput_cases family host config id input
    · exact .inl ⟨e, Option.some.inj (h.symm.trans (he config.limit fuel))⟩
    · obtain ⟨⟨t, ending⟩, ht, rfl⟩ :=
        Option.map_eq_some_iff.1 ((hrun config.limit fuel).symm.trans h)
      exact .inr (pops_of_run ht)
  · rw [f.succeeds_iff hk, f.fails_iff hk, f.line_ok]
    cases f.child.succeeded <;> cases f.parent.failed <;> simp
  · obtain ⟨htraced, hknown⟩ := folds_customFree hfree hf
    exact ⟨htraced.trans hdebug, hknown⟩

/-- A choice between two sequences. -/
def twoRows : Family :=
  [.ofRules [("main", .choice [.sequence [.literal "a"], .sequence [.literal "b"]])]]

/-- The second sequence matches, in a choice that was marked by the first. -/
theorem match_traces_pops_twoRows :
    ∃ report, matchInput 10 twoRows Host.idle { debug := true } 0
        (.text "b") = some report ∧
      report.pops = [⟨"sequence", false, 0⟩, ⟨"sequence", false, 1⟩, ⟨"choice", true, 1⟩] := by
  have hends : (matchInput 10 twoRows Host.idle { debug := true } 0
      (.text "b")).map (·.steps) = some 10 := by decide +kernel
  obtain ⟨report, hreport, hsteps⟩ := Option.map_eq_some_iff.1 hends
  obtain ⟨-, hpops, -⟩ := match_traces_pops twoRows Host.idle
    { debug := true } 0 (.text "b") rfl
  obtain ⟨e, rfl⟩ | hlines := hpops 10 report hreport
  · cases hsteps
  · exact ⟨report, hreport, hlines.trans (by decide +kernel)⟩

/-- So its line says that it failed, though it was folded as a success. -/
theorem success_traced_as_failure :
    ∃ report, matchInput 10 twoRows Host.idle { debug := true } 0
        (.text "b") = some report ∧
      report.pops[1]? = some ⟨"sequence", false, 1⟩ ∧
      ∃ f, (folds (environment twoRows Host.idle (.text "b")) 10
        (initial { debug := true } 0))[1]? = some f ∧ f.Succeeds := by
  have hends : (matchInput 10 twoRows Host.idle { debug := true } 0
      (.text "b")).map (·.pops[1]?) = some (some ⟨"sequence", false, 1⟩) := by decide +kernel
  have hcounts : ((folds (environment twoRows Host.idle (.text "b")) 10
      (initial { debug := true } 0))[1]?.map
        fun f => (f.parent.matched, f.result.matched)) = some (0, 1) := by decide +kernel
  obtain ⟨report, hreport, hline⟩ := Option.map_eq_some_iff.1 hends
  obtain ⟨f, hf, hmatched⟩ := Option.map_eq_some_iff.1 hcounts
  obtain ⟨hbefore, hafter⟩ := Prod.mk.inj hmatched
  exact ⟨report, hreport, hline, f, hf, by rw [Fold.Succeeds, hbefore, hafter]; rfl⟩

end PegMachine.Machine
