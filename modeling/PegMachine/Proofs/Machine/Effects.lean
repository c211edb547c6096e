import PegMachine.Proofs.Expr.Parts
import PegMachine.Proofs.Input
import PegMachine.Proofs.Machine.Steps

namespace PegMachine

/-- The errors that tell of a defect of a grammar, so that nothing recovers from them. -/
inductive Error.IsDefect : Error → Prop
  | undefined (e : ResolutionError) : IsDefect (.undefined e)
  | unknownExpression : IsDefect .unknownExpression
  | unknownAction : IsDefect .unknownAction

namespace Machine

/-- The run with other frames on its stack. -/
def Run.withFrames (r : Run) (frames : List Frame) : Run :=
  { r with stack := { r.stack with frames := frames } }

section

variable (r : Run) (frames frames' : List Frame)

@[simp] theorem withFrames_grammar : (r.withFrames frames).grammar = r.grammar := rfl
@[simp] theorem withFrames_frames : (r.withFrames frames).stack.frames = frames := rfl
@[simp] theorem withFrames_furthest : (r.withFrames frames).furthest = r.furthest := rfl
@[simp] theorem withFrames_terms : (r.withFrames frames).terms = r.terms := rfl

@[simp] theorem withFrames_withFrames :
    (r.withFrames frames).withFrames frames' = r.withFrames frames' := rfl

theorem withFrames_self (h : r.stack.frames = frames) : r.withFrames frames = r := by
  subst h
  rfl

@[simp] theorem state_withFrames_run (s : State) :
    (s.withFrames frames).run = s.run.withFrames frames := rfl

@[simp] theorem state_withFrames_callers (s : State) :
    (s.withFrames frames).callers = s.callers := rfl

end

/-- Where a run has tried something is noted beside everything else. -/
theorem foldl_reach_grammar (r : Run) (tried : List Int) :
    (tried.foldl Run.reach r).grammar = r.grammar := by
  induction tried generalizing r with
  | nil => rfl
  | cons cursor tried ih => exact ih (r.reach cursor)

theorem foldl_reach_terms (r : Run) (tried : List Int) :
    (tried.foldl Run.reach r).terms = r.terms := by
  induction tried generalizing r with
  | nil => rfl
  | cons cursor tried ih => exact ih (r.reach cursor)

theorem foldl_reach_withFrames (r : Run) (frames : List Frame) (tried : List Int) :
    tried.foldl Run.reach (r.withFrames frames) = (tried.foldl Run.reach r).withFrames frames := by
  induction tried generalizing r with
  | nil => rfl
  | cons cursor tried ih => exact ih (r.reach cursor)

/-- What a step does about the frame on top. The cursors at which something was tried come along
with a frame that changes. -/
inductive Effect where
  | become (top : Frame) (tried : List Int)
  | enter (child top : Frame)
  | embed (id : Nat) (main : Bytes) (top : Frame)
  | call (host : Nat) (top : Frame)
  | raise (payload : Payload) (top : Frame)
  | abort (e : Error)
  | fault

def Attempt.effect (top : Frame) : Attempt → Effect
  | .fault => .fault
  | .mismatch => .become top.fail [top.cursor]
  | .success value next => .become (top.succeed next [value]) [top.cursor, next]

/-- Actions change the output of the frame they are evaluated in, or end all runs. -/
def Action.effect (input : Input) (top : Frame) : Action → Effect
  | .insert values => .become (top.capture values.reverse) []
  | .insertText text =>
    match input.span? top.cursor top.cursor with
    | none => .fault
    | some span => .become (top.capture [Value.ofText text span]) []
  | .convert none => .fault
  | .convert (some f) =>
    match f top.output.head? with
    | .error message => .raise (.error message) { top with output := top.output.tail }
    | .ok result => .become { top with output := result.toList ++ top.output.tail } []
  | .modify f =>
    match top.output, f with
    | [], _ => .become top []
    | _ :: _, none => .fault
    | last :: output, some f =>
      match f last with
      | .error message => .raise (.error message) top
      | .ok last => .become { top with output := last :: output } []
  | .note key datum =>
    match top.output with
    | [] => .become top []
    | last :: output => .become { top with output := last.annotate key datum :: output } []
  | .clear => .become { top with output := [] } []
  | .custom none => .fault
  | .custom (some host) => .call host top
  | .throw datum => .raise datum top
  | .log _ => .become top []
  | .unknown => .abort .unknownAction

/-- The effect of a frame that is not complete, in a run of a grammar. -/
def Frame.effect (env : Env) (grammar : Nat) (f : Frame) : Effect :=
  let top := f.restart
  match top.pending with
  | [] => .fault
  | .rule name :: rest =>
    match (env.family.grammarAt grammar).rule? name with
    | none => .abort (.undefined ((env.family.grammarAt grammar).undefined name []))
    | some e => .become { top with pending := e :: rest } []
  | e :: rest =>
    let top := { top with pending := rest }
    match e with
    | .literal text => Attempt.effect top (env.input.tryLiteral top.cursor text)
    | .pattern p => Attempt.effect top (env.input.tryPattern top.cursor p)
    | .sequence items => .enter (Frame.enter .sequence top.cursor items) top
    | .choice items => .enter (Frame.enter .choice top.cursor items) top
    | .wrap name items => .enter (Frame.enter (.wrap name) top.cursor items) top
    | .hide items => .enter (Frame.enter .hide top.cursor items) top
    | .iterate kind item =>
      .enter (Frame.enter (Kind.ofRepetition kind item top.cursor) top.cursor [item]) top
    | .action a => Action.effect env.input top a
    | .embed id main =>
      match id, env.family.grammar? id with
      | some id, some g =>
        match g.rule? main with
        | none => .abort (.undefined (g.undefined main []))
        | some _ => .embed id main top
      | _, _ => .fault
    | .rule _ | .missing => .abort .unknownExpression

section

variable {env : Env} {grammar : Nat} {f : Frame}

@[simp] theorem restart_start : f.restart.start = f.start := by
  unfold Frame.restart
  split <;> rfl

@[simp] theorem restart_cursor : f.restart.cursor = f.cursor := by
  unfold Frame.restart
  split <;> rfl

theorem restart_of_pending (h : f.pending ≠ []) : f.restart = f := by
  unfold Frame.restart
  split
  · next hp => exact absurd hp h
  · rfl

theorem restart_of_kind (h : ∀ quota item mark, f.kind ≠ .loop quota item mark) :
    f.restart = f := by
  unfold Frame.restart
  split
  · next hk _ => exact absurd hk (h _ _ _)
  · rfl

private theorem attempt_elim
    {motive : Effect → Prop} {input : Input} {top : Frame} {attempt : Attempt}
    (hw : 0 ≤ top.cursor → top.cursor ≤ input.size → attempt.Within top.cursor input.size)
    (mismatch : motive (.become top.fail [top.cursor]))
    (success : ∀ value next, (0 ≤ top.cursor → top.cursor ≤ input.size →
      top.cursor ≤ next ∧ next ≤ input.size) →
      motive (.become (top.succeed next [value]) [top.cursor, next]))
    (fault : motive .fault) : motive (Attempt.effect top attempt) := by
  cases attempt with
  | fault => exact fault
  | mismatch => exact mismatch
  | success value next => exact success value next hw

theorem action_elim {motive : Effect → Prop} {input : Input} {top : Frame} {a : Action}
    (emit : ∀ output, motive (.become { top with output := output } []))
    (call : ∀ host, a = .custom (some host) → motive (.call host top))
    (raise : ∀ payload output, motive (.raise payload { top with output := output }))
    (abort : ∀ e : Error, e.IsDefect → motive (.abort e)) (fault : motive .fault) :
    motive (Action.effect input top a) := by
  cases a with
  | insert values => exact emit _
  | insertText text =>
    simp only [Action.effect]
    cases input.span? top.cursor top.cursor with
    | none => exact fault
    | some span => exact emit _
  | convert f =>
    cases f with
    | none => exact fault
    | some f =>
      simp only [Action.effect]
      cases f top.output.head? with
      | error message => exact raise _ _
      | ok result => exact emit _
  | modify f =>
    simp only [Action.effect]
    split
    · exact emit _
    · exact fault
    · split
      · exact raise _ _
      · exact emit _
  | note key datum =>
    simp only [Action.effect]
    split
    · exact emit _
    · exact emit _
  | clear => exact emit _
  | custom host =>
    cases host with
    | none => exact fault
    | some host => exact call host rfl
  | throw datum => exact raise _ _
  | log args => exact emit _
  | unknown => exact abort _ .unknownAction

/-- All that the effect of a frame can be. -/
theorem effect_elim {motive : Effect → Prop}
    (expand : ∀ name body rest, f.restart.pending = .rule name :: rest →
      (env.family.grammarAt grammar).rule? name = some body →
      motive (.become { f.restart with pending := body :: rest } []))
    (mismatch : ∀ e rest, f.restart.pending = e :: rest →
      motive (.become { f.restart with pending := rest }.fail [f.cursor]))
    (success : ∀ e rest value next, f.restart.pending = e :: rest →
      (0 ≤ f.cursor → f.cursor ≤ env.input.size → f.cursor ≤ next ∧ next ≤ env.input.size) →
      motive (.become ({ f.restart with pending := rest }.succeed next [value]) [f.cursor, next]))
    (emit : ∀ a rest output, f.restart.pending = .action a :: rest →
      motive (.become { f.restart with pending := rest, output := output } []))
    (enter : ∀ e rest kind items, f.restart.pending = e :: rest →
      (∀ item ∈ items, item ∈ e.children) → kind ≠ .unknown →
      (∀ quota item mark, kind = .loop quota item mark → item ∈ items ∧ mark = f.cursor) →
      motive (.enter (Frame.enter kind f.cursor items) { f.restart with pending := rest }))
    (embed : ∀ id main rest, f.restart.pending = .embed (some id) main :: rest →
      motive (.embed id main { f.restart with pending := rest }))
    (call : ∀ host rest, f.restart.pending = .action (.custom (some host)) :: rest →
      motive (.call host { f.restart with pending := rest }))
    (raise : ∀ a payload rest output, f.restart.pending = .action a :: rest →
      motive (.raise payload { f.restart with pending := rest, output := output }))
    (abort : ∀ e : Error, e.IsDefect → motive (.abort e)) (fault : motive .fault) :
    motive (f.effect env grammar) := by
  unfold Frame.effect
  simp only
  cases hp : f.restart.pending with
  | nil => exact fault
  | cons e rest =>
    have tried {attempt : Attempt}
        (hw : 0 ≤ f.restart.cursor → f.restart.cursor ≤ env.input.size →
          attempt.Within f.restart.cursor env.input.size) :
        motive (Attempt.effect { f.restart with pending := rest } attempt) := by
      refine attempt_elim hw ?_ ?_ fault
      · simpa using mismatch e rest hp
      · intro value next hnext
        simpa using success e rest value next hp (by simpa using hnext)
    have entered {kind : Kind} {items : List Expr} (hi : ∀ item ∈ items, item ∈ e.children)
        (hk : kind ≠ .unknown)
        (hl : ∀ quota item mark, kind = .loop quota item mark →
          item ∈ items ∧ mark = f.restart.cursor) :
        motive (.enter (Frame.enter kind f.restart.cursor items)
          { f.restart with pending := rest }) := by
      simpa using enter e rest kind items hp hi hk (by simpa using hl)
    cases e with
    | literal text => exact tried (Input.tryLiteral_within text)
    | pattern p => exact tried (Input.tryPattern_within p)
    | rule name =>
      simp only
      cases hbody : (env.family.grammarAt grammar).rule? name with
      | none => exact abort _ (.undefined _)
      | some body => exact expand name body rest hp hbody
    | sequence | choice | wrap | hide => exact entered (fun _ h => h) nofun nofun
    | iterate kind item =>
      refine entered (fun _ h => h) ?_ ?_
      · cases kind <;> exact nofun
      · intro quota item' mark hk
        cases kind <;> cases hk <;> simp
    | action a =>
      refine action_elim (emit a rest · hp) ?_ (raise a · rest · hp) abort fault
      rintro host rfl
      exact call host rest hp
    | embed id main =>
      simp only
      split
      · split
        · exact abort _ (.undefined _)
        · exact embed _ main rest hp
      · exact fault
    | missing => exact abort _ .unknownExpression

end

/-- Whether a complete frame counts as a match of the one below it. Frames of an unknown kind do
not fail the frame below. -/
def Frame.succeeded (f : Frame) : Bool :=
  match f.kind with
  | .root | .sequence | .wrap _ | .hide => !f.failed
  | .choice => f.matched != 0
  | .loop quota _ _ => quota.admits f.matched
  | .not => f.failed || f.matched == 0
  | .optional | .unknown => true

section

variable {input : Input} {child parent f : Frame}

/-- All that can become of a frame that takes a child in. -/
theorem fold?_cases (h : Frame.fold? input child parent = some f) :
    child.succeeded = false ∧ f = parent.fail ∨
    child.succeeded = true ∧ (child.kind = .unknown ∧ f = parent ∨
      f = { parent with matched := Frame.oneMore parent.matched } ∨
      ∃ cursor output, (cursor = child.cursor ∨ cursor = child.start) ∧
        f = parent.succeed cursor output) := by
  simp only [Frame.fold?] at h
  simp only [Frame.succeeded]
  cases hk : child.kind with
  | root | sequence | hide =>
    simp only [hk, Option.some.injEq] at h
    subst h
    cases child.failed with
    | true => exact .inl ⟨rfl, rfl⟩
    | false => exact .inr ⟨rfl, .inr (.inr ⟨_, _, .inl rfl, rfl⟩)⟩
  | choice =>
    simp only [hk, Option.some.injEq] at h
    subst h
    by_cases hm : child.matched = 0
    · exact .inl ⟨by simp [hm], if_pos hm⟩
    · exact .inr ⟨by simp [hm], .inr (.inr ⟨_, _, .inl rfl, if_neg hm⟩)⟩
  | loop quota item mark =>
    simp only [hk, Option.some.injEq] at h
    subst h
    cases ha : quota.admits child.matched with
    | false => exact .inl ⟨ha, rfl⟩
    | true => exact .inr ⟨ha, .inr (.inr ⟨_, _, .inl rfl, rfl⟩)⟩
  | optional =>
    simp only [hk, Option.some.injEq] at h
    subst h
    cases child.failed with
    | true => exact .inr ⟨rfl, .inr (.inr ⟨_, _, .inr rfl, rfl⟩)⟩
    | false => exact .inr ⟨rfl, .inr (.inr ⟨_, _, .inl rfl, rfl⟩)⟩
  | not =>
    simp only [hk, Option.some.injEq] at h
    subst h
    cases child.failed || child.matched == 0 with
    | false => exact .inl ⟨rfl, rfl⟩
    | true => exact .inr ⟨rfl, .inr (.inl rfl)⟩
  | wrap name =>
    simp only [hk] at h
    cases hf : child.failed with
    | true =>
      rw [hf] at h
      exact .inl ⟨rfl, (Option.some.inj h).symm⟩
    | false =>
      rw [hf] at h
      obtain ⟨span, -, rfl⟩ := Option.map_eq_some_iff.1 h
      exact .inr ⟨rfl, .inr (.inr ⟨_, _, .inl rfl, rfl⟩)⟩
  | unknown =>
    simp only [hk, Option.some.injEq] at h
    exact .inr ⟨rfl, .inl ⟨rfl, h.symm⟩⟩

theorem fold?_keeps (h : Frame.fold? input child parent = some f) :
    f.kind = parent.kind ∧ f.pending = parent.pending := by
  obtain ⟨-, rfl⟩ | ⟨-, ⟨-, rfl⟩ | rfl | ⟨cursor, output, -, rfl⟩⟩ := fold?_cases h <;>
    exact ⟨rfl, rfl⟩

end

/-- The frame with another kind and other items. -/
def Frame.recast (f : Frame) (kind : Kind) (items : List Expr) : Frame :=
  { f with kind := kind, pending := items }

/-- Kinds of frames that are taken in alike: the loops of one quota are, and a frame at the bottom
of a run is taken in as one of a sequence. -/
inductive Kind.Similar : Kind → Kind → Prop where
  | same (kind : Kind) : Similar kind kind
  | loop (quota : Quota) (item item' : Expr) (mark : Int) :
    Similar (.loop quota item mark) (.loop quota item' mark)
  | root : Similar .root .sequence

/-- Taking a child in does not touch the kind and the items of a frame. -/
theorem fold?_recast {input : Input} {child parent : Frame} {kind kind' : Kind}
    (hk : child.kind.Similar kind) (items items' : List Expr) :
    Frame.fold? input (child.recast kind items) (parent.recast kind' items') =
      (Frame.fold? input child parent).map fun f => f.recast kind' items' := by
  obtain ⟨own, start, cursor, pending, failed, matched, output⟩ := child
  cases hk with
  | same =>
    cases own with
    | root | sequence | optional | hide => cases failed <;> rfl
    | unknown => rfl
    | choice =>
      by_cases h : matched = 0 <;>
        simp [Frame.fold?, Frame.recast, Frame.fail, Frame.succeed, h]
    | loop quota item mark =>
      cases h : quota.admits matched <;>
        simp [Frame.fold?, Frame.recast, Frame.fail, Frame.succeed, h]
    | not =>
      cases h : failed || matched == 0 <;>
        simp [Frame.fold?, Frame.recast, Frame.fail, h]
    | wrap name =>
      cases failed with
      | true => rfl
      | false => cases h : input.span? start cursor <;>
          simp [Frame.fold?, Frame.recast, Frame.succeed, h]
  | loop quota item item' mark =>
    cases h : quota.admits matched <;>
      simp [Frame.fold?, Frame.recast, Frame.fail, Frame.succeed, h]
  | root => cases failed <;> rfl

/-- The machine goes on with some runs, the innermost one first. -/
def Progress.GoesOn (p : Progress) (runs : List Run) : Prop :=
  ∃ t, p = .next t ∧ t.run :: t.callers = runs

def Progress.Stops (p : Progress) : Prop := ∃ t ending, p = .stop t ending

theorem goesOn_next {t : State} {runs : List Run} :
    (Progress.next t).GoesOn runs ↔ t.run :: t.callers = runs := by
  constructor
  · rintro ⟨u, hu, hruns⟩
    cases hu
    exact hruns
  · exact fun hruns => ⟨t, rfl, hruns⟩

theorem not_stops_next {t : State} : ¬(Progress.next t).Stops := by
  rintro ⟨u, ending, hu⟩
  cases hu

/-- What an effect comes to in a state with the frames `below` under the frame on top. -/
def Effect.Performs (env : Env) (s : State) (below : List Frame) (p : Progress) : Effect → Prop
  | .become top tried =>
    p.GoesOn ((tried.foldl Run.reach s.run).withFrames (top :: below) :: s.callers)
  | .enter child top => p.GoesOn (s.run.withFrames (child :: top :: below) :: s.callers)
  | .embed id main top =>
    match s.run.terms.inside? main with
    | .ok terms =>
      p.GoesOn
        (Run.start id main false terms top.cursor :: s.run.withFrames (top :: below) :: s.callers)
    | .error _ => ∃ t, p = .stop t .fault
  | .call host top =>
    ∃ t, t.run = s.run.withFrames (top :: below) ∧ t.callers = s.callers ∧
      p = Machine.custom env t host
  | .raise payload top =>
    ∃ t, t.run = s.run.withFrames (top :: below) ∧ t.callers = s.callers ∧
      p = Machine.raise env t payload
  | .abort e => ∃ t, p = Machine.abort t e
  | .fault => ∃ t, p = .stop t .fault

/-- Effects that end all runs. -/
def Effect.Halts : Effect → Prop
  | .raise .. | .abort _ | .fault => True
  | .become .. | .enter .. | .embed .. | .call .. => False

section

variable {env : Env} {s t : State} {top : Frame} {below : List Frame}

theorem Effect.Performs.stops {e : Effect} {p : Progress} (h : e.Performs env s below p)
    (he : e.Halts) : p.Stops := by
  cases e with
  | become | enter | embed | call => exact he.elim
  | raise payload top =>
    obtain ⟨t, -, -, rfl⟩ := h
    unfold Machine.raise
    split <;> exact ⟨_, _, rfl⟩
  | abort e =>
    obtain ⟨t, rfl⟩ := h
    exact ⟨_, _, rfl⟩
  | fault =>
    obtain ⟨t, rfl⟩ := h
    exact ⟨_, _, rfl⟩

/-- Where the machine goes on into an embedded run, that run has got its terms. -/
theorem embedded_of_next {id : Nat} {main : Bytes}
    (h : (Effect.embed id main top).Performs env s below (.next t)) :
    ∃ terms, s.run.terms.inside? main = .ok terms ∧ t.run :: t.callers =
      Run.start id main false terms top.cursor :: s.run.withFrames (top :: below) :: s.callers := by
  cases hterms : s.run.terms.inside? main with
  | ok terms =>
    simp only [Effect.Performs, hterms] at h
    exact ⟨terms, rfl, goesOn_next.1 h⟩
  | error e =>
    simp only [Effect.Performs, hterms] at h
    obtain ⟨u, hu⟩ := h
    cases hu

theorem fault_of_embed_stop {id : Nat} {main : Bytes} {ending : Ending}
    (h : (Effect.embed id main top).Performs env s below (.stop t ending)) : ending = .fault := by
  cases hterms : s.run.terms.inside? main with
  | ok terms =>
    simp only [Effect.Performs, hterms] at h
    obtain ⟨u, hu, -⟩ := h
    cases hu
  | error e =>
    simp only [Effect.Performs, hterms] at h
    obtain ⟨u, hu⟩ := h
    cases hu
    rfl

private theorem leaf_performs
    (hr : t.run = s.run.withFrames (top :: below)) (hc : t.callers = s.callers)
    (e : Expr) (attempt : Attempt) :
    (Attempt.effect top attempt).Performs env s below (leaf t top below e attempt) := by
  cases attempt with
  | fault => exact ⟨t, rfl⟩
  | mismatch => exact ⟨_, rfl, by simp [hr, hc, Run.reach, Run.withFrames]⟩
  | success value next => exact ⟨_, rfl, by simp [hr, hc, Run.reach, Run.withFrames]⟩

private theorem enter_performs
    (hr : t.run = s.run.withFrames (top :: below)) (hc : t.callers = s.callers)
    (kind : Kind) (items : List Expr) :
    (Effect.enter (Frame.enter kind top.cursor items) top).Performs env s below
      (enter t top below kind items) :=
  ⟨_, rfl, by simp [hr, hc]⟩

private theorem act_performs
    (hr : t.run = s.run.withFrames (top :: below)) (hc : t.callers = s.callers)
    (a : Action) :
    (Action.effect env.input top a).Performs env s below (act env t top below a) := by
  have hrun : (t.trace (.action a.render)).run = s.run.withFrames (top :: below) := by simp [hr]
  have hcallers : (t.trace (.action a.render)).callers = s.callers := by simp [hc]
  -- an action leaves the state as it is, or puts a changed frame in the place of the top one
  have stays : (Effect.become top []).Performs env s below
      (.next (t.trace (.action a.render))) := ⟨_, rfl, by simp [hr, hc]⟩
  have changes (top' : Frame) : (Effect.become top' []).Performs env s below
      (.next ((t.trace (.action a.render)).withFrames (top' :: below))) :=
    ⟨_, rfl, by simp [hr, hc]⟩
  cases a with
  | insert values => exact changes _
  | insertText text =>
    simp only [act, Action.effect]
    cases env.input.span? top.cursor top.cursor with
    | none => exact ⟨_, rfl⟩
    | some span => exact changes _
  | convert f =>
    cases f with
    | none => exact ⟨_, rfl⟩
    | some f =>
      simp only [act, Action.effect]
      cases f top.output.head? with
      | error message => exact ⟨_, by simp [hr], by simp [hc], rfl⟩
      | ok result => exact changes _
  | modify f =>
    simp only [act, Action.effect]
    cases top.output with
    | nil => exact stays
    | cons last output =>
      cases f with
      | none => exact ⟨_, rfl⟩
      | some f =>
        simp only
        cases f last with
        | error message => exact ⟨_, hrun, hcallers, rfl⟩
        | ok last => exact changes _
  | note key datum =>
    simp only [act, Action.effect]
    cases top.output with
    | nil => exact stays
    | cons last output => exact changes _
  | clear => exact changes _
  | custom host =>
    cases host with
    | none => exact ⟨_, rfl⟩
    | some host => exact ⟨_, hrun, hcallers, rfl⟩
  | throw datum => exact ⟨_, hrun, hcallers, rfl⟩
  | log args => exact ⟨_, rfl, by simp [hr, hc]⟩
  | unknown => exact ⟨_, rfl⟩

private theorem embed_performs
    (hr : t.run = s.run.withFrames (top :: below)) (hc : t.callers = s.callers)
    (id : Option Nat) (main : Bytes) :
    Effect.Performs env s below (embed env t top id main)
      (match id, env.family.grammar? id with
      | some id, some g =>
        match g.rule? main with
        | none => .abort (.undefined (g.undefined main []))
        | some _ => .embed id main top
      | _, _ => .fault) := by
  unfold embed
  cases id with
  | none => exact ⟨_, rfl⟩
  | some id =>
    cases env.family.grammar? (some id) with
    | none => exact ⟨_, rfl⟩
    | some g =>
      simp only
      cases g.rule? main with
      | none => exact ⟨_, rfl⟩
      | some body =>
        simp only [Effect.Performs, hr, withFrames_terms]
        cases s.run.terms.inside? main with
        | error e => exact ⟨_, rfl⟩
        | ok terms => exact ⟨_, rfl, by simp [hr, hc]⟩

private theorem evaluate_performs {f : Frame} (hr : t.run = s.run.withFrames (f.restart :: below))
    (hc : t.callers = s.callers) :
    (f.effect env s.run.grammar).Performs env s below (evaluate env t f.restart below) := by
  have hg : t.grammar env = env.family.grammarAt s.run.grammar := by
    rw [State.grammar, hr]
    rfl
  unfold evaluate Frame.effect
  simp only
  cases hp : f.restart.pending with
  | nil => exact ⟨_, rfl⟩
  | cons e rest =>
    have hr' : (t.withFrames ({ f.restart with pending := rest } :: below)).run =
        s.run.withFrames ({ f.restart with pending := rest } :: below) := by simp [hr]
    cases e with
    | rule name =>
      simp only [hg]
      cases (env.family.grammarAt s.run.grammar).rule? name with
      | none => exact ⟨_, rfl⟩
      | some e => exact ⟨_, rfl, by simp [hr, hc]⟩
    | missing => exact ⟨_, rfl⟩
    | literal | pattern => exact leaf_performs hr' hc _ _
    | sequence | choice | wrap | hide | iterate => exact enter_performs hr' hc _ _
    | action a => exact act_performs hr' hc a
    | embed id main => exact embed_performs hr' hc id main

end

section

variable {env : Env} {s : State} {top : Frame} {below : List Frame}

/-- A step with a frame on top that is not complete performs the effect of that frame. -/
theorem step_performs (hl : s.MayStep) (hf : s.run.stack.frames = top :: below)
    (hc : top.isComplete env.input.size = false) :
    (top.effect env s.run.grammar).Performs env s below (step env s) := by
  unfold step
  rw [if_neg hl]
  simp only [hf, hc, Bool.false_eq_true, if_false]
  exact evaluate_performs rfl rfl

/-- A complete frame is taken into the one below it. -/
theorem step_folds {parent f : Frame} (hl : s.MayStep)
    (hf : s.run.stack.frames = top :: parent :: below)
    (hc : top.isComplete env.input.size = true)
    (hfold : Frame.fold? env.input top parent = some f) :
    (step env s).GoesOn (s.run.withFrames (f :: below) :: s.callers) := by
  unfold step
  rw [if_neg hl]
  simp only [hf, hc, if_true, fold, hfold]
  exact ⟨_, rfl, by simp⟩

theorem step_fold_stops {parent : Frame} (hl : s.MayStep)
    (hf : s.run.stack.frames = top :: parent :: below)
    (hc : top.isComplete env.input.size = true)
    (hfold : Frame.fold? env.input top parent = none) : (step env s).Stops := by
  unfold step
  rw [if_neg hl]
  simp only [hf, hc, if_true, fold, hfold]
  exact ⟨_, _, rfl⟩

/-- How a run hands its outcome over to the frame that embeds it, if it has a position to report
should it fail. -/
def Run.handOver? (input : Input) (r : Run) (root : Frame) : Option (Frame → Frame) :=
  if root.failed || (r.exact && decide (root.cursor < input.size)) then
    (r.position? input).map fun _ => Frame.fail
  else some (·.succeed root.cursor root.output)

/-- The run as it goes on after an embedded one. -/
def Run.resumed (caller r : Run) (change : Frame → Frame) : Run :=
  let caller := caller.reach r.furthest
  { caller with stack := caller.stack.updateTop change }

theorem handOver?_cases {input : Input} {r : Run} {root : Frame} {change : Frame → Frame}
    (h : r.handOver? input root = some change) :
    change = Frame.fail ∨ change = (·.succeed root.cursor root.output) := by
  unfold Run.handOver? at h
  split at h
  · obtain ⟨position, -, rfl⟩ := Option.map_eq_some_iff.1 h
    exact .inl rfl
  · exact .inr (Option.some.inj h).symm

/-- An embedded run ends with its bottom frame, and the run that embeds it goes on. -/
theorem step_returns {caller : Run} {callers : List Run} {change : Frame → Frame}
    (hl : s.MayStep) (hf : s.run.stack.frames = [top])
    (hc : top.isComplete env.input.size = true) (hcallers : s.callers = caller :: callers)
    (hover : s.run.handOver? env.input top = some change) :
    (step env s).GoesOn (caller.resumed s.run change :: callers) := by
  unfold step
  rw [if_neg hl]
  simp only [hf, hc, if_true, finish, trace_run, trace_callers, hcallers]
  unfold Run.handOver? at hover
  by_cases hfail : (top.failed || s.run.exact && decide (top.cursor < env.input.size)) = true
  · rw [if_pos hfail] at hover ⊢
    obtain ⟨position, hp, rfl⟩ := Option.map_eq_some_iff.1 hover
    rw [hp]
    exact ⟨_, rfl, by simp [Run.resumed]⟩
  · rw [if_neg hfail] at hover ⊢
    obtain rfl := Option.some.inj hover
    exact ⟨_, rfl, by simp [Run.resumed]⟩

theorem step_return_stops (hl : s.MayStep) (hf : s.run.stack.frames = [top])
    (hc : top.isComplete env.input.size = true)
    (hover : s.run.handOver? env.input top = none) : (step env s).Stops := by
  unfold step
  rw [if_neg hl]
  simp only [hf, hc, if_true, finish, trace_run]
  unfold Run.handOver? at hover
  split at hover
  · next hfail =>
    rw [if_pos hfail, Option.map_eq_none_iff.1 hover]
    exact ⟨_, _, rfl⟩
  · cases hover

/-- The outermost run ends all. -/
theorem step_ends (hl : s.MayStep) (hf : s.run.stack.frames = [top])
    (hc : top.isComplete env.input.size = true) (hcallers : s.callers = []) :
    (step env s).Stops := by
  unfold step
  rw [if_neg hl]
  simp only [hf, hc, if_true, finish, trace_run, trace_callers, hcallers]
  split
  · split <;> exact ⟨_, _, rfl⟩
  · exact ⟨_, _, rfl⟩

theorem step_empty (hl : s.MayStep) (hf : s.run.stack.frames = []) : (step env s).Stops := by
  unfold step
  rw [if_neg hl]
  simp only [hf]
  exact ⟨_, _, rfl⟩

variable {t : State}

/-- Where the machine goes on from a complete frame with one below it, that one took it in. -/
theorem folds_of_next {parent : Frame} (hf : s.run.stack.frames = top :: parent :: below)
    (hc : top.isComplete env.input.size = true) (hstep : step env s = .next t) :
    ∃ f, Frame.fold? env.input top parent = some f ∧
      t.run :: t.callers = s.run.withFrames (f :: below) :: s.callers := by
  have hl := mayStep_of_next hstep
  cases hfold : Frame.fold? env.input top parent with
  | none => exact absurd (hstep ▸ step_fold_stops hl hf hc hfold) not_stops_next
  | some f => exact ⟨f, rfl, goesOn_next.1 (hstep ▸ step_folds hl hf hc hfold)⟩

/-- Where the machine goes on from a complete run, it was embedded in another one. -/
theorem returns_of_next (hf : s.run.stack.frames = [top])
    (hc : top.isComplete env.input.size = true) (hstep : step env s = .next t) :
    ∃ caller callers change, s.callers = caller :: callers ∧
      s.run.handOver? env.input top = some change ∧
      t.run :: t.callers = caller.resumed s.run change :: callers := by
  have hl := mayStep_of_next hstep
  cases hcallers : s.callers with
  | nil => exact absurd (hstep ▸ step_ends hl hf hc hcallers) not_stops_next
  | cons caller callers =>
    cases hover : s.run.handOver? env.input top with
    | none => exact absurd (hstep ▸ step_return_stops hl hf hc hover) not_stops_next
    | some change =>
      have hreturns := step_returns hl hf hc hcallers hover
      exact ⟨caller, callers, change, rfl, rfl, goesOn_next.1 (hstep ▸ hreturns)⟩

/-- All that a step can do from which the machine goes on: it evaluates the frame on top, folds it
into the one below, or hands the run over to the one that embeds it. -/
theorem next_cases (hstep : step env s = .next t) :
    (∃ top below, s.run.stack.frames = top :: below ∧ top.isComplete env.input.size = false ∧
      (top.effect env s.run.grammar).Performs env s below (.next t)) ∨
    (∃ child parent below f, s.run.stack.frames = child :: parent :: below ∧
      Frame.fold? env.input child parent = some f ∧
      t.run :: t.callers = s.run.withFrames (f :: below) :: s.callers) ∨
    ∃ root caller callers change, s.run.stack.frames = [root] ∧ s.callers = caller :: callers ∧
      s.run.handOver? env.input root = some change ∧
      t.run :: t.callers = caller.resumed s.run change :: callers := by
  have hl := mayStep_of_next hstep
  cases hf : s.run.stack.frames with
  | nil => exact absurd (hstep ▸ step_empty hl hf) not_stops_next
  | cons top below =>
    cases hc : top.isComplete env.input.size with
    | false => exact .inl ⟨top, below, rfl, hc, hstep ▸ step_performs hl hf hc⟩
    | true =>
      cases below with
      | nil =>
        obtain ⟨caller, callers, change, hcallers, hover, hruns⟩ := returns_of_next hf hc hstep
        exact .inr (.inr ⟨top, caller, callers, change, rfl, hcallers, hover, hruns⟩)
      | cons parent below =>
        obtain ⟨f, hfold, hruns⟩ := folds_of_next hf hc hstep
        exact .inr (.inl ⟨top, parent, below, f, rfl, hfold, hruns⟩)

end

end Machine

end PegMachine
