import Mathlib.Data.Nat.Find
import PegMachine.Proofs.Evaluator.Alternatives
import PegMachine.Proofs.Machine.Locality

namespace PegMachine.Machine

open Evaluator

/-- The machine is about to evaluate an item, in a frame that is `f` without it. -/
def State.Faces (env : Env) (s : State) (e : Expr) (f : Frame) (below : List Frame) : Prop :=
  ∃ top, s.run.stack.frames = top :: below ∧ top.isComplete env.input.size = false ∧
    top.restart = { f with pending := e :: f.pending }

/-- In `m` steps the frames that are there now are on top again, for the first time since others
were put on them. -/
structure State.Returns (env : Env) (s : State) (m : Nat) (t : State) : Prop where
  steps : Steps env m s t
  pos : 0 < m
  inside : ∀ k u, 0 < k → k < m → Steps env k s u →
    u.Above s.callers.length s.run.stack.frames.length
  back : ¬t.Above s.callers.length s.run.stack.frames.length

/-- Takes in what came of a child: nothing, or a match up to a cursor with an output. -/
def Frame.take (f : Frame) : Option (Int × List Value) → Frame
  | none => f.fail
  | some (next, output) => f.succeed next output

private theorem take_ite {c : Prop} [Decidable c] {parent parent' : Frame} {next : Int}
    {output : List Value} (h : (if c then parent.fail else parent.succeed next output) = parent')
    (other : Frame) : ∃ verdict, parent' = parent.take verdict ∧
      (if c then other.fail else other.succeed next output) = other.take verdict := by
  by_cases hc : c
  · rw [if_pos hc] at h
    exact ⟨none, h.symm, if_pos hc⟩
  · rw [if_neg hc] at h
    exact ⟨some (next, output), h.symm, if_neg hc⟩

/-- A child comes to the same in all frames that stand at the same cursor. -/
theorem fold?_take {input : Input} {child parent parent' other : Frame}
    (h : Frame.fold? input child parent = some parent') (hk : child.kind ≠ .unknown)
    (hc : other.cursor = parent.cursor) : ∃ verdict, parent' = parent.take verdict ∧
      Frame.fold? input child other = some (other.take verdict) := by
  simp only [Frame.fold?] at h ⊢
  cases hkind : child.kind with
  | root | sequence | choice | hide =>
    simp only [hkind, Option.some.injEq] at h ⊢
    exact take_ite h other
  | loop quota item mark =>
    simp only [hkind, Option.some.injEq] at h ⊢
    cases hq : quota.admits child.matched with
    | true => exact ⟨some (child.cursor, child.output), by simp [← h, hq, Frame.take], rfl⟩
    | false => exact ⟨none, by simp [← h, hq, Frame.take], rfl⟩
  | optional =>
    simp only [hkind, Option.some.injEq] at h ⊢
    cases hfailed : child.failed with
    | true => exact ⟨some (child.start, []), by simp [← h, hfailed, Frame.take], rfl⟩
    | false => exact ⟨some (child.cursor, child.output), by simp [← h, hfailed, Frame.take], rfl⟩
  | not =>
    simp only [hkind, Option.some.injEq] at h ⊢
    cases hpass : child.failed || child.matched == 0 with
    | true =>
      -- that nothing matched is a match of nothing
      refine ⟨some (parent.cursor, []), by simp [← h, hpass, Frame.take, Frame.succeed], ?_⟩
      simp [Frame.take, Frame.succeed, ← hc]
    | false => exact ⟨none, by simp [← h, hpass, Frame.take], rfl⟩
  | wrap name =>
    simp only [hkind] at h ⊢
    cases hfailed : child.failed with
    | true => exact ⟨none, by simpa [hfailed, Frame.take, eq_comm] using h, rfl⟩
    | false =>
      rw [hfailed] at h
      obtain ⟨span, hspan, rfl⟩ := Option.map_eq_some_iff.1 h
      exact ⟨some (child.cursor, [Value.ofItems name span child.output.reverse]), rfl,
        Option.map_eq_some_iff.2 ⟨span, hspan, rfl⟩⟩
  | unknown => exact absurd hkind hk

/-- A run of a grammar, on settled terms, that is about to evaluate a choice at a cursor. -/
structure State.Meets (env : Env) (s : State) (grammar : Nat) (cursor : Int) (items : List Expr)
    (f : Frame) (below : List Frame) : Prop where
  faces : s.Faces env (.choice items) f below
  settled : s.run.terms.Settled
  grammar_eq : s.run.grammar = grammar
  cursor_eq : f.cursor = cursor

section

variable {env : Env} {known : Nat → Prop} {s s' t : State} {grammar : Nat} {cursor : Int}
  {items : List Expr} {f f' : Frame} {below below' : List Frame} {m : Nat}

/-- The first step evaluates the choice, in a frame of its own. -/
theorem State.Meets.enters (h : s.Meets env grammar cursor items f below) (hl : s.MayStep) :
    ∃ u, step env s = .next u ∧
      (⟨[], [Frame.enter .choice cursor items], []⟩ : Activity).Over s.run (f :: below)
        s.callers u := by
  obtain ⟨top, hf, hc, hrestart⟩ := h.faces
  have heffect : top.effect env s.run.grammar =
      .enter (Frame.enter .choice cursor items) f := by
    simp only [Frame.effect, hrestart, ← h.cursor_eq]
  have hperforms := step_performs hl hf hc
  rw [heffect] at hperforms
  obtain ⟨u, hu, hruns⟩ := hperforms
  exact ⟨u, hu, over_own.2 ⟨h.settled, List.cons.inj hruns⟩⟩

theorem State.Faces.length_eq {e : Expr} (h : s.Faces env e f below) :
    s.run.stack.frames.length = (f :: below).length := by
  obtain ⟨top, hf, -⟩ := h
  rw [hf]
  rfl

/-- Until it is popped, what goes on about a choice is the same in all frames that are about to
evaluate it, as far as the limit lets it. -/
theorem State.Returns.follow (hr : ContainedRules env.family known) (hid : known grammar)
    (hitems : ∀ item ∈ items, Contained known item) (hs : s.Meets env grammar cursor items f below)
    (h : s.Returns env m t) {k : Nat} (hk : k + 1 < m) : ∃ (u : State) (a : Activity),
      Steps env (k + 1) s u ∧ a.Quiet known grammar ∧ a.Over s.run (f :: below) s.callers u ∧
      ∀ {s' f' below'}, s'.Meets env grammar cursor items f' below' →
        (0 < s'.run.terms.limit → (s'.steps + (k + 1 : Nat) : Int) ≤ s'.run.terms.limit) →
        ∃ u', Steps env (k + 1) s' u' ∧ a.Over s'.run (f' :: below') s'.callers u' := by
  have hquiet : (⟨[], [Frame.enter .choice cursor items], []⟩ : Activity).Quiet known
      grammar := by
    refine ⟨hid, by simp, fun g hg => ?_, by simp⟩
    obtain rfl := List.mem_singleton.1 hg
    exact ⟨hitems, nofun, nofun⟩
  obtain ⟨hsteps, -, hinside, -⟩ := h
  rw [hs.faces.length_eq] at hinside
  obtain ⟨rest, rfl⟩ := Nat.exists_eq_add_of_lt hk
  obtain ⟨u, hu, -⟩ := Steps.split (n := k + 1) (m := rest + 1) hsteps
  have hu₀ := hu
  cases hu with
  | @head _ _ u₁ _ hfirst hrest =>
    obtain ⟨u₂, hsecond, hou⟩ := hs.enters (mayStep_of_next hfirst)
    obtain rfl := Progress.next.inj (hfirst.symm.trans hsecond)
    obtain ⟨a, ha, hoa, hother⟩ := hquiet.steps hr hs.grammar_eq hou hrest fun j w hj hw =>
      hinside (j + 1) w (by omega) (by omega) (.head hfirst hw)
    refine ⟨u, a, hu₀, ha, hoa, fun {s' f' below'} hs' hlimit => ?_⟩
    have hl : s'.MayStep := by
      rintro ⟨hpos, hle⟩
      have := hlimit hpos
      omega
    obtain ⟨u', hu', hou'⟩ := hs'.enters hl
    have hcount : (step env s').state.steps = s'.steps + 1 := step_steps hl
    rw [hu', state_next] at hcount
    obtain ⟨t', ht', hoa'⟩ := hother s'.run (f' :: below') s'.callers u' hs'.grammar_eq hou'
      fun hpos => by
        have := hlimit hpos
        omega
    exact ⟨t', .head hu' ht', hoa'⟩

/-- Where the limit is lower than what it takes a choice to be popped, it is reached. -/
theorem State.Returns.spent (hr : ContainedRules env.family known) (hid : known grammar)
    (hitems : ∀ item ∈ items, Contained known item) (hs : s.Meets env grammar cursor items f below)
    (h : s.Returns env m t) (hs' : s'.Meets env grammar cursor items f' below')
    (hlow : s'.run.terms.limit < s'.steps + m) :
    ∃ k u, Steps env k s' u ∧ s'.run.terms.limit ≤ u.steps := by
  by_cases hle : s'.run.terms.limit ≤ s'.steps
  · exact ⟨0, s', .refl s', hle⟩
  · obtain ⟨k, hk⟩ : ∃ k : Nat, s'.run.terms.limit = (s'.steps + (k + 1 : Nat) : Int) :=
      ⟨(s'.run.terms.limit - s'.steps - 1).toNat, by omega⟩
    obtain ⟨_, _, -, -, -, hfollows⟩ := h.follow hr hid hitems hs (k := k) (by omega)
    obtain ⟨u, hu, -⟩ := hfollows hs' fun _ => Int.le_of_eq hk.symm
    exact ⟨k + 1, u, hu, by rw [hk, hu.steps_eq]; omega⟩

/-- What a choice comes to is settled by its grammar, its alternatives and its cursor: from all
frames that are about to evaluate it, the machine returns in as many steps with the same verdict,
and apart from that frame and from what was tried it leaves all as it was. -/
theorem State.Returns.transfer (hr : ContainedRules env.family known) (hid : known grammar)
    (hitems : ∀ item ∈ items, Contained known item) (hs : s.Meets env grammar cursor items f below)
    (h : s.Returns env m t) (hs' : s'.Meets env grammar cursor items f' below')
    (hlimit : 0 < s'.run.terms.limit → (s'.steps + m : Int) ≤ s'.run.terms.limit) :
    ∃ verdict tried t', s'.Returns env m t' ∧
      (⟨[], [], tried⟩ : Activity).Over s.run (f.take verdict :: below) s.callers t ∧
      (⟨[], [], tried⟩ : Activity).Over s'.run (f'.take verdict :: below') s'.callers t' := by
  have hback := h.back
  rw [hs.faces.length_eq] at hback
  have hbefore (k : Nat) (hk : k + 1 < m) := h.follow hr hid hitems hs hk
  -- the frame of the choice is pushed in the first step and popped in the last one
  have hm : 1 < m := by
    by_contra hm
    obtain rfl : m = 1 := by have := h.pos; omega
    cases h.steps with
    | head hfirst hnone =>
      cases hnone
      obtain ⟨u, hu, hou⟩ := hs.enters (mayStep_of_next hfirst)
      obtain rfl := Progress.next.inj (hfirst.symm.trans hu)
      exact hback (hou.above (by simp))
  obtain ⟨n, rfl⟩ : ∃ n, m = n + 1 + 1 := ⟨m - 2, by omega⟩
  obtain ⟨v, b, hv, hb, hob, hother⟩ := hbefore n (by omega)
  obtain ⟨v', hv', hob'⟩ := hother hs' fun hpos => by have := hlimit hpos; omega
  obtain ⟨v₀, hv₀, hlast⟩ := h.steps.split
  obtain rfl := hv₀.unique hv
  have hlast : step env v₀ = .next t := by
    cases hlast with
    | head hstep hnone =>
      cases hnone
      exact hstep
  have hl : v'.MayStep := by
    rw [State.MayStep, hob'.limit_eq]
    rintro ⟨hpos, hle⟩
    have := hlimit hpos
    have := hv'.steps_eq
    omega
  obtain ⟨child, tried, rfl, hcomplete⟩ | ⟨c, hcq, -, hoc⟩ := hb.next hr hs.grammar_eq hob hlast
  · obtain ⟨g, hfold, hruns⟩ := Machine.pops hob hcomplete hlast
    have hcursor : f'.cursor = f.cursor := hs'.cursor_eq.trans hs.cursor_eq.symm
    obtain ⟨verdict, rfl, hfold'⟩ := fold?_take hfold (hb.frames child (by simp)).kind hcursor
    obtain ⟨-, hrun, -⟩ := over_own.1 hob
    obtain ⟨-, hrun', hcallers'⟩ := over_own.1 hob'
    have hframes' : v'.run.stack.frames = child :: f' :: below' := by
      rw [hrun']
      rfl
    obtain ⟨t', ht', hruns'⟩ := step_folds hl hframes' hcomplete hfold'
    obtain ⟨htrun, htcallers⟩ := List.cons.inj hruns
    obtain ⟨htrun', htcallers'⟩ := List.cons.inj hruns'
    refine ⟨verdict, tried, t', ⟨hv'.trans (.single ht'), by omega, ?_, ?_⟩, ?_, ?_⟩
    · rintro (_ | k) w hk hlt hw
      · cases hk
      · obtain ⟨_, c, -, hc, -, hfollows⟩ := hbefore k hlt
        obtain ⟨w', hw', hoc⟩ := hfollows hs' fun hpos => by have := hlimit hpos; omega
        obtain rfl := hw.unique hw'
        rw [hs'.faces.length_eq]
        exact hoc.above hc.nonempty
    · rw [hs'.faces.length_eq]
      exact not_above_of_pop hob' hcomplete ht'
    · exact over_own.2 ⟨hs.settled, by rw [htrun, hrun]; rfl, htcallers⟩
    · exact over_own.2 ⟨hs'.settled, by rw [htrun', hrun']; rfl, htcallers'.trans hcallers'⟩
  · exact absurd (hoc.above hcq.nonempty) hback

end

/-- Alone, an expression comes to a verdict. -/
def ComesAlone (env : Env) (id : Nat) (e : Expr) (cursor : Int) :
    Option (Int × List Value) → Prop
  | none => MissesAlone env id e cursor
  | some (next, output) => MatchesAlone env id e cursor next output

section

variable {env : Env} {id : Nat} {e : Expr} {cursor : Int} {s : State}
  {verdict verdict' : Option (Int × List Value)}

theorem ComesAlone.unique (h : ComesAlone env id e cursor verdict)
    (h' : ComesAlone env id e cursor verdict') : verdict = verdict' := by
  cases verdict with
  | none =>
    cases verdict' with
    | none => rfl
    | some match' => exact absurd h (MatchesAlone.not_missesAlone h')
  | some match₁ =>
    cases verdict' with
    | none => exact absurd h' (MatchesAlone.not_missesAlone h)
    | some match₂ =>
      obtain ⟨hnext, houtput⟩ := MatchesAlone.unique h h'
      exact congrArg some (Prod.ext hnext houtput)

private theorem foldl_reach_eq (r : Run) (tried : List Int) :
    ∃ furthest, r.furthest ≤ furthest ∧ tried.foldl Run.reach r = { r with furthest := furthest } := by
  induction tried generalizing r with
  | nil => exact ⟨r.furthest, Int.le_refl _, rfl⟩
  | cons c tried ih =>
    obtain ⟨furthest, hle, heq⟩ := ih (r.reach c)
    exact ⟨furthest, Int.le_trans (Int.le_max_left _ _) hle, heq⟩

/-- A run alone that comes back to its bottom frame ends with the verdict that this has taken in. -/
theorem comesAlone_of_steps {tried : List Int} {m : Nat}
    (hsteps : Steps env m { run := Run.alone id e cursor } s)
    (h : (⟨[], [], tried⟩ : Activity).Over (Run.alone id e cursor)
      [(Frame.enter .root cursor []).take verdict] [] s) (h0 : 0 ≤ cursor) :
    ComesAlone env id e cursor verdict := by
  obtain ⟨furthest, hle, hreach⟩ := foldl_reach_eq (Run.alone id e cursor) tried
  obtain ⟨-, hrun, hcallers⟩ := over_own.1 h
  rw [hreach] at hrun
  have ends (b : Activation)
      (hb : b.frame .root cursor [] = (Frame.enter .root cursor []).take verdict) :
      EndsWith env { run := Run.alone id e cursor }
        (Outcome.result env.input false cursor (.done b furthest)) := by
    have hstands : Stands (Run.start id [] false {} cursor) [] [b.frame .root cursor []] furthest s :=
      ⟨by rw [hrun, hb]; rfl, hcallers⟩
    exact .of_steps hsteps (finish_ends ⟨settled_default, Int.le_refl 0⟩ hstands)
  cases verdict with
  | none =>
    obtain ⟨offset, hoffset⟩ := Option.isSome_iff_exists.1 (env.input.offset?_isSome h0)
    obtain ⟨offset', hoffset'⟩ := Option.isSome_iff_exists.1
      (env.input.offset?_isSome (Int.le_trans h0 hle))
    have hposition : position? env.input cursor furthest = some (offset, offset') := by
      simp only [position?, hoffset, hoffset']
    obtain ⟨fuel, t, ending, hends, hresult⟩ := ends (Activation.start cursor).fail rfl
    refine ⟨fuel, t, failureAt env.input .mismatch .nil (offset, offset'), cursor, ?_, rfl⟩
    have hending := congrArg Result.ending hresult
    rw [ending_resultOf] at hending
    rw [hends, hending]
    simp [Outcome.result, Activation.fail, Activation.start, failureResult, hposition,
      Result.ending]
  | some hit =>
    obtain ⟨next, output⟩ := hit
    obtain ⟨fuel, t, ending, hends, hresult⟩ := ends ((Activation.start cursor).succeed next output)
      rfl
    refine ⟨fuel, t, ?_⟩
    have hending := congrArg Result.ending hresult
    rw [ending_resultOf] at hending
    rw [hends, hending]
    simp [Outcome.result, Activation.succeed, Activation.start, Result.ending]

end

section

variable {env : Env} {known : Nat → Prop} {id : Nat} {items : List Expr} {cursor : Int}
  {s t : State} {f : Frame} {below : List Frame} {m : Nat} {verdict : Option (Int × List Value)}

private theorem meets_alone (env : Env) (id : Nat) (items : List Expr) (cursor : Int) :
    State.Meets env { run := Run.alone id (.choice items) cursor } id cursor items
      (Frame.enter .root cursor []) [] :=
  ⟨⟨_, rfl, rfl, rfl⟩, settled_default, rfl, rfl⟩

/-- The first of the states in which nothing is left above. -/
theorem returns_of_steps (hsteps : Steps env m s t) (hpos : 0 < m)
    (hback : ¬t.Above s.callers.length s.run.stack.frames.length) :
    ∃ k u, s.Returns env k u := by
  classical
  have hex : ∃ k, 0 < k ∧ ∃ u, Steps env k s u ∧
      ¬u.Above s.callers.length s.run.stack.frames.length := ⟨m, hpos, t, hsteps, hback⟩
  obtain ⟨hfirst, u, hu, hgone⟩ := Nat.find_spec hex
  refine ⟨Nat.find hex, u, hu, hfirst, ?_, hgone⟩
  intro k v hk hlt hv
  by_contra habove
  exact Nat.find_min hex hlt ⟨hk, v, hv, habove⟩

/-- Alone, a choice that comes to a verdict is popped. -/
theorem returns_of_comesAlone (hr : ContainedRules env.family known) (hid : known id)
    (hitems : ∀ item ∈ items, Contained known item) (h0 : 0 ≤ cursor)
    (hle : cursor ≤ env.input.size) (h : ComesAlone env id (.choice items) cursor verdict) :
    ∃ m t, State.Returns env { run := Run.alone id (.choice items) cursor } m t := by
  have hdone : ∃ b furthest, Evaluates env.family env.input id (.item (.choice items))
      (.start cursor) cursor (.done b furthest) := by
    cases verdict with
    | none =>
      obtain ⟨b, furthest, hb, -⟩ := (missesAlone_iff hr hid (.choice hitems) h0 hle).1 h
      exact ⟨b, furthest, hb⟩
    | some hit =>
      obtain ⟨b, furthest, hb, -⟩ := (matchesAlone_iff hr hid (.choice hitems)).1 h
      exact ⟨b, furthest, hb⟩
  obtain ⟨b, furthest, hb⟩ := hdone
  obtain ⟨fuel, hfuel⟩ := hb.answered
  have hs : Stands (Run.start id [] false {} cursor) []
      [(Activation.start cursor).frame .root cursor [.choice items]] cursor
      { run := Run.alone id (.choice items) cursor } := ⟨rfl, rfl⟩
  obtain ⟨n, t, hn, hsteps, ht⟩ :=
    (simulates env fuel).item (r := Run.start id [] false {} cursor)
      ⟨settled_default, Int.le_refl 0⟩ hfuel hs rfl
  refine returns_of_steps hsteps hn ?_
  rintro (habove | ⟨-, habove⟩)
  · simp [ht.callers_eq] at habove
  · simp [ht.frames_eq, Run.alone] at habove

/-- Alternatives lead a choice to a verdict: it passes over all of them, or commits to one. -/
def Chooses (env : Env) (id : Nat) (cursor : Int) (items : List Expr) :
    Option (Int × List Value) → Prop
  | none => ∃ output, Passes env id cursor items [] output
  | some (next, output) => Commits env id cursor [] items next output

private theorem comesAlone_choice (hr : ContainedRules env.family known) (hid : known id)
    (hitems : ∀ item ∈ items, Contained known item) (h0 : 0 ≤ cursor)
    (hle : cursor ≤ env.input.size) : ComesAlone env id (.choice items) cursor verdict ↔
      Chooses env id cursor items verdict := by
  cases verdict with
  | none => exact missesAlone_choice hr hid hitems h0 hle
  | some hit => exact matchesAlone_choice hr hid hitems h0 hle

/-- From any frame that is about to evaluate a choice the machine returns with the verdict to which
its alternatives lead, and it does return if they lead to one, unless the limit ends the run. -/
theorem returns_iff (hr : ContainedRules env.family known) (hid : known s.run.grammar)
    (hitems : ∀ item ∈ items, Contained known item) (h0 : 0 ≤ f.cursor)
    (hle : f.cursor ≤ env.input.size) (hset : s.run.terms.Settled)
    (hs : s.Faces env (.choice items) f below) :
    (∀ m t, s.Returns env m t → ∃ verdict, Chooses env s.run.grammar f.cursor items verdict ∧
      t.callers = s.callers ∧ t.run.stack.frames = f.take verdict :: below) ∧
    ∀ verdict, Chooses env s.run.grammar f.cursor items verdict →
      (∃ m t, s.Returns env m t ∧
        t.callers = s.callers ∧ t.run.stack.frames = f.take verdict :: below) ∨
      ∃ m t, Steps env m s t ∧ 0 < s.run.terms.limit ∧ s.run.terms.limit ≤ t.steps := by
  have hmeets : s.Meets env s.run.grammar f.cursor items f below := ⟨hs, hset, rfl, rfl⟩
  have halone := meets_alone env s.run.grammar items f.cursor
  constructor
  · intro m t h
    obtain ⟨verdict, tried, t', ht', hover, hover'⟩ :=
      h.transfer hr hid hitems hmeets halone fun hpos => absurd hpos (Int.lt_irrefl 0)
    obtain ⟨-, hrun, hcallers⟩ := over_own.1 hover
    have hcomes := comesAlone_of_steps ht'.steps hover' h0
    exact ⟨verdict, (comesAlone_choice hr hid hitems h0 hle).1 hcomes, hcallers, by rw [hrun]; rfl⟩
  · intro verdict h
    have hcomes := (comesAlone_choice hr hid hitems h0 hle).2 h
    obtain ⟨m, u, hu⟩ := returns_of_comesAlone hr hid hitems h0 hle hcomes
    by_cases hlimit : 0 < s.run.terms.limit → (s.steps + m : Int) ≤ s.run.terms.limit
    · obtain ⟨verdict', tried, t, ht, hover', hover⟩ :=
        hu.transfer hr hid hitems halone hmeets hlimit
      obtain rfl := hcomes.unique (comesAlone_of_steps hu.steps hover' h0)
      obtain ⟨-, hrun, hcallers⟩ := over_own.1 hover
      exact .inl ⟨m, t, ht, hcallers, by rw [hrun]; rfl⟩
    · obtain ⟨hpos, hlow⟩ := Classical.not_imp.1 hlimit
      obtain ⟨k, t, ht, hspent⟩ :=
        hu.spent hr hid hitems halone hmeets (Int.not_le.1 hlow)
      exact .inr ⟨k, t, ht, hpos, hspent⟩

end

section

variable {family : Family} {host : Host} {config : Config} {id n : Nat} {input : Input}
  {env : Env} {known : Nat → Prop} {allowed : Action → Prop} {s : State} {items : List Expr}
  {e : Expr} {f : Frame} {below : List Frame}

theorem contained_of_faces (hfree : family.CustomFree id)
    (hrun : Steps (environment family host input) n (initial config id) s)
    (hs : s.Faces (environment family host input) (.choice items) f below) :
    family.Embeds id s.run.grammar ∧ ∀ item ∈ items, Contained (family.Embeds id) item := by
  obtain ⟨top, hf, -, hrestart⟩ := hs
  obtain ⟨hid, htop⟩ := contained_of_steps hfree hrun ⟨rfl, hf⟩
  have hpending : Contained (family.Embeds id) (.choice items) :=
    htop.restart.pending _ (by simp [hrestart])
  exact ⟨hid, fun item hitem => hpending.child hitem⟩

private theorem cursor_of_faces (hsafe : Safe env known allowed s) (hs : s.Faces env e f below) :
    0 ≤ f.cursor ∧ f.cursor ≤ env.input.size := by
  obtain ⟨top, hf, -, hrestart⟩ := hs
  have htop := hsafe.run.frames top (by simp [hf])
  have hcursor : f.cursor = top.cursor := by
    rw [← restart_cursor (f := top), hrestart]
  rw [hcursor]
  exact ⟨htop.cursor_nonneg, Int.le_trans htop.cursor_le hsafe.run.furthest_le⟩

end

/-- A choice commits to the first alternative that is no action and matches as a sequence of its
own, if all before it are passed over: those that are no actions mismatch as sequences of their own,
and those that are actions work on what the choice has put out so far. Wherever a match comes to
evaluate a choice, the frame that waits for it takes in the cursor and the output of that
alternative, behind what the actions left, or it is marked as failed if all are passed over. -/
theorem choice_commits (family : Family) (host : Host) (config : Config) (id : Nat) (input : Input)
    (hdefined : ∀ g ∈ family, g.Defined) (hclosed : family.Closed)
    (hcheck : family.check id = none) (hfree : family.CustomFree id)
    (hmain : ((family.grammarAt id).rule? config.main).isSome) {n : Nat} {s : State}
    (hrun : Steps (environment family host input) n (initial config id) s)
    {items : List Expr} {f : Frame} {below : List Frame}
    (hs : s.Faces (environment family host input) (.choice items) f below) :
    (∀ m t, s.Returns (environment family host input) m t →
      ∃ verdict, Chooses (environment family host input) s.run.grammar f.cursor items
          verdict ∧
        t.callers = s.callers ∧ t.run.stack.frames = f.take verdict :: below) ∧
    ∀ verdict,
      Chooses (environment family host input) s.run.grammar f.cursor items verdict →
      (∃ m t, s.Returns (environment family host input) m t ∧
        t.callers = s.callers ∧ t.run.stack.frames = f.take verdict :: below) ∨
      ∃ m t, Steps (environment family host input) m s t ∧
        0 < config.limit ∧ config.limit ≤ t.steps := by
  have hsound := soundRules_of_check hdefined hclosed hcheck hmain (action_ne_custom hfree)
  have hsafe := safe_of_steps hsound (fun host h => h host rfl) hmain hrun
  obtain ⟨hid, hitems⟩ := contained_of_faces hfree hrun hs
  obtain ⟨h0, hle⟩ := cursor_of_faces hsafe hs
  have hterms := like_of_match hfree hrun s.run (by simp)
  have hlimit : s.run.terms.limit = config.limit := hterms.limit_eq
  exact hlimit ▸ returns_iff (containedRules_embeds family id hfree) hid hitems h0 hle
    hterms.settled hs

/-- A choice between an insertion and two letters. -/
def letters : Family :=
  [.ofRules [("main", .choice [.action (.insertText "x"), .literal "b", .literal "a"])]]

theorem defined_letters : ∀ g ∈ letters, g.Defined := Grammar.defined_map [_]

theorem closed_letters : letters.Closed := by decide

theorem customFree_letters : letters.CustomFree 0 := Family.customFree_of_lacks rfl 0

/-- The machine that matches a text by them. -/
def lettersOn (source : Bytes) : Env :=
  environment letters Host.idle (.text source)

theorem faces_letters (source : Bytes) : ∃ s, Steps (lettersOn source) 1 (initial {} 0) s ∧
    s.run.grammar = 0 ∧ s.Faces (lettersOn source)
      (.choice [.action (.insertText "x"), .literal "b", .literal "a"]) (.enter .root 0 []) [] :=
  ⟨_, .single rfl, rfl, _, rfl, rfl, rfl⟩

/-- Behind what the insertion puts out, the choice puts out the letter that it commits to. -/
theorem choice_commits_letters : (∀ g ∈ letters, g.Defined) ∧ letters.Closed ∧
    letters.check 0 = none ∧ letters.CustomFree 0 ∧ ∃ s m t,
      Steps (lettersOn "a") 1 (initial {} 0) s ∧
      s.Faces (lettersOn "a") (.choice [.action (.insertText "x"), .literal "b", .literal "a"])
        (.enter .root 0 []) [] ∧
      s.Returns (lettersOn "a") m t ∧ t.run.stack.frames =
        [(Frame.enter .root 0 []).succeed 1 [.ofText "a" ⟨0, 1⟩, .ofText "x" ⟨0, 0⟩]] := by
  obtain ⟨s, hrun, hgrammar, hs⟩ := faces_letters "a"
  obtain ⟨-, hreturns⟩ := choice_commits letters Host.idle {} 0
    (.text "a") defined_letters closed_letters rfl customFree_letters rfl hrun hs
  rw [hgrammar] at hreturns
  have hinserts : Passes (lettersOn "a") 0 0 [.action (.insertText "x"), .literal "b"] []
      [.ofText "x" ⟨0, 0⟩] := by
    refine .act (.action _) ⟨10, _, rfl⟩ (.miss ?_ ⟨10, _, _, _, rfl, rfl⟩ (.nil _))
    rintro ⟨⟩
  have hit : MatchesAlone (lettersOn "a") 0 (.sequence [.literal "a"]) 0 1 [.ofText "a" ⟨0, 1⟩] :=
    ⟨10, _, rfl⟩
  have hcommits : Commits (lettersOn "a") 0 0 []
      ([.action (.insertText "x"), .literal "b"] ++ .literal "a" :: []) 1
      ([.ofText "a" ⟨0, 1⟩] ++ [.ofText "x" ⟨0, 0⟩]) := by
    refine .intro hinserts ?_ hit
    rintro ⟨⟩
  obtain ⟨m, t, ht, -, hframes⟩ | ⟨m, t, -, hlimit, -⟩ := hreturns (some (1, _)) hcommits
  · exact ⟨defined_letters, closed_letters, rfl, customFree_letters, s, m, t, hrun, hs, ht, hframes⟩
  · cases hlimit

/-- Though the insertion matches alone, a choice that has no letter to commit to fails. -/
theorem choice_passes_insertion : (∀ g ∈ letters, g.Defined) ∧ letters.Closed ∧
    letters.check 0 = none ∧ letters.CustomFree 0 ∧
    MatchesAlone (lettersOn "") 0 (.sequence [.action (.insertText "x")]) 0 0
      [.ofText "x" ⟨0, 0⟩] ∧ ∃ s m t, Steps (lettersOn "") 1 (initial {} 0) s ∧
      s.Faces (lettersOn "") (.choice [.action (.insertText "x"), .literal "b", .literal "a"])
        (.enter .root 0 []) [] ∧
      s.Returns (lettersOn "") m t ∧ t.run.stack.frames = [(Frame.enter .root 0 []).fail] := by
  obtain ⟨s, hrun, hgrammar, hs⟩ := faces_letters ""
  have hcontained := contained_of_faces customFree_letters hrun hs
  have hterms := like_of_match customFree_letters hrun s.run (by simp)
  obtain ⟨-, hreturns⟩ := returns_iff (containedRules_embeds letters 0 customFree_letters)
    hcontained.1 hcontained.2 (Int.le_refl 0) (Int.le_refl 0) hterms.settled hs
  rw [hgrammar] at hreturns
  have hpasses : Passes (lettersOn "") 0 0 [.action (.insertText "x"), .literal "b", .literal "a"]
      [] [.ofText "x" ⟨0, 0⟩] := by
    refine .act (.action _) ⟨10, _, rfl⟩ (.miss ?_ ⟨10, _, _, _, rfl, rfl⟩
      (.miss ?_ ⟨10, _, _, _, rfl, rfl⟩ (.nil _)))
    all_goals rintro ⟨⟩
  obtain ⟨m, t, ht, -, hframes⟩ | ⟨m, t, -, hlimit, -⟩ := hreturns none ⟨_, hpasses⟩
  · exact ⟨defined_letters, closed_letters, rfl, customFree_letters, ⟨10, _, rfl⟩, s, m, t, hrun,
      hs, ht, hframes⟩
  · rw [hterms.limit_eq] at hlimit
    cases hlimit

end PegMachine.Machine
