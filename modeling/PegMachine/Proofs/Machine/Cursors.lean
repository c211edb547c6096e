import Mathlib.Data.List.Chain
import PegMachine.Proofs.Machine.Effects
import PegMachine.Proofs.Machine.Safety

namespace PegMachine.Machine

/-- A frame that does not stand before its start. A loop began its round in between. -/
structure Frame.Forward (f : Frame) : Prop where
  start_le : f.start ≤ f.cursor
  mark : ∀ quota item mark, f.kind = .loop quota item mark → f.start ≤ mark ∧ mark ≤ f.cursor

/-- Frames, the top one first, each of which starts where the one below it stands. -/
structure Linked (frames : List Frame) : Prop where
  forward : ∀ f ∈ frames, f.Forward
  chain : frames.IsChain fun child parent => child.start = parent.cursor

/-- The frames of runs, from the top of the innermost run on. -/
def framesOf (runs : List Run) : List Frame := runs.flatMap (·.stack.frames)

@[simp] theorem framesOf_cons (r : Run) (runs : List Run) :
    framesOf (r :: runs) = r.stack.frames ++ framesOf runs := rfl

/-- An effect puts frames that go forward in the place of the frame on top. -/
def Effect.Forward (f : Frame) : Effect → Prop
  | .become top _ => top.Forward ∧ top.start = f.start
  | .enter child top =>
    (top.Forward ∧ top.start = f.start) ∧ child.Forward ∧ child.start = top.cursor
  | .embed _ _ top => top.Forward ∧ top.start = f.start
  | .call .. => False
  | .raise .. | .abort _ | .fault => True

namespace Frame.Forward

variable {env : Env} {f g : Frame}

theorem advance (h : f.Forward) (hk : g.kind = f.kind) (hs : g.start = f.start)
    (hc : f.cursor ≤ g.cursor) : g.Forward := by
  refine ⟨?_, fun quota item mark hkind => ?_⟩
  · have := h.start_le
    omega
  · have := h.mark quota item mark (hk ▸ hkind)
    omega

theorem enter {kind : Kind} {cursor : Int} {items : List Expr}
    (hl : ∀ quota item mark, kind = .loop quota item mark → mark = cursor) :
    (Frame.enter kind cursor items).Forward := by
  refine ⟨Int.le_refl _, fun quota item mark hk => ?_⟩
  obtain rfl := hl quota item mark hk
  exact ⟨Int.le_refl _, Int.le_refl _⟩

/-- The next round of a loop begins where the last one ended. -/
theorem restart (h : f.Forward) : f.restart.Forward := by
  unfold Frame.restart
  split
  · refine ⟨h.start_le, ?_⟩
    rintro _ _ _ hk
    cases hk
    exact ⟨h.start_le, Int.le_refl _⟩
  · exact h

/-- A child that started where its parent stands takes it forward or leaves it there. -/
theorem fold (h : f.Forward) {input : Input} {child : Frame} (hchild : child.Forward)
    (hs : child.start = f.cursor) (hfold : Frame.fold? input child f = some g) :
    g.Forward ∧ g.start = f.start := by
  have hle := hchild.start_le
  obtain ⟨-, rfl⟩ | ⟨-, ⟨-, rfl⟩ | rfl | ⟨cursor, output, hcursor, rfl⟩⟩ := fold?_cases hfold
  · exact ⟨h.advance rfl rfl (Int.le_refl _), rfl⟩
  · exact ⟨h, rfl⟩
  · exact ⟨h.advance rfl rfl (Int.le_refl _), rfl⟩
  · refine ⟨h.advance rfl rfl ?_, rfl⟩
    simp only [Frame.succeed]
    omega

/-- So does an embedded run with the frame that embeds it. -/
theorem handOver (h : f.Forward) {input : Input} {r : Run} {root : Frame} (hroot : root.Forward)
    (hs : root.start = f.cursor) {change : Frame → Frame}
    (hover : r.handOver? input root = some change) :
    (change f).Forward ∧ (change f).start = f.start := by
  have hle := hroot.start_le
  obtain rfl | rfl := handOver?_cases hover
  · exact ⟨h.advance rfl rfl (Int.le_refl _), rfl⟩
  · refine ⟨h.advance rfl rfl ?_, rfl⟩
    simp only [Frame.succeed]
    omega

/-- Unless it calls the host, a frame inside of the input has an effect that goes forward. -/
theorem effect (h : f.Forward) (h0 : 0 ≤ f.cursor) (hle : f.cursor ≤ env.input.size)
    (hcustom : ∀ host rest, f.restart.pending ≠ .action (.custom host) :: rest) (grammar : Nat) :
    (f.effect env grammar).Forward f := by
  have left {g : Frame} (hk : g.kind = f.restart.kind) (hs : g.start = f.start)
      (hc : f.cursor ≤ g.cursor) : g.Forward ∧ g.start = f.start :=
    ⟨h.restart.advance hk (hs.trans restart_start.symm) (restart_cursor.symm ▸ hc), hs⟩
  have here : f.cursor ≤ f.restart.cursor := Int.le_of_eq restart_cursor.symm
  refine effect_elim ?expand ?mismatch ?success ?emit ?enter ?embed ?call ?raise ?abort ?fault
  case expand => exact fun _ _ _ _ _ => left rfl restart_start here
  case mismatch => exact fun _ _ _ => left rfl restart_start here
  case success => exact fun _ _ _ _ _ hnext => left rfl restart_start (hnext h0 hle).1
  case emit => exact fun _ _ _ _ => left rfl restart_start here
  case enter =>
    intro e rest kind items _ _ _ hl
    refine ⟨left rfl restart_start here, .enter ?_, restart_cursor.symm⟩
    exact fun quota item mark hk => (hl quota item mark hk).2
  case embed => exact fun _ _ _ _ => left rfl restart_start here
  case call => exact fun host rest hp => absurd hp (hcustom (some host) rest)
  case raise => exact fun _ _ _ _ _ => trivial
  case abort => exact fun _ _ => trivial
  case fault => trivial

end Frame.Forward

namespace Linked

variable {f g : Frame} {below : List Frame}

theorem change (h : Linked (f :: below)) (hg : g.Forward ∧ g.start = f.start) :
    Linked (g :: below) := by
  refine ⟨List.forall_mem_cons.2 ⟨hg.1, (List.forall_mem_cons.1 h.forward).2⟩, ?_⟩
  cases below with
  | nil => exact .singleton g
  | cons parent below =>
    obtain ⟨hs, hbelow⟩ := List.isChain_cons_cons.1 h.chain
    exact List.isChain_cons_cons.2 ⟨hg.2.trans hs, hbelow⟩

theorem push (h : Linked (f :: below)) (hg : g.Forward) (hs : g.start = f.cursor) :
    Linked (g :: f :: below) :=
  ⟨List.forall_mem_cons.2 ⟨hg, h.forward⟩, List.isChain_cons_cons.2 ⟨hs, h.chain⟩⟩

theorem pop (h : Linked (f :: below)) : Linked below :=
  ⟨(List.forall_mem_cons.1 h.forward).2, h.chain.tail⟩

private theorem start_eq (h : Linked (f :: g :: below)) : f.start = g.cursor :=
  (List.isChain_cons_cons.1 h.chain).1

variable {env : Env} {s t : State}

theorem performs {e : Effect} (h : Linked (f :: below ++ framesOf s.callers)) (he : e.Forward f)
    (hp : e.Performs env s below (.next t)) : Linked (framesOf (t.run :: t.callers)) := by
  cases e with
  | become top tried =>
    rw [goesOn_next.1 hp]
    exact h.change he
  | enter child top =>
    rw [goesOn_next.1 hp]
    exact (h.change he.1).push he.2.1 he.2.2
  | embed id main top =>
    obtain ⟨terms, -, hruns⟩ := embedded_of_next hp
    rw [hruns]
    exact (h.change he).push (.enter nofun) rfl
  | call => exact he.elim
  | raise | abort | fault => exact absurd (hp.stops trivial) not_stops_next

/-- Frames stay linked in each step, for a frame that leaves takes the one below along. -/
theorem step {known : Nat → Prop} {allowed : Action → Prop} (hsafe : Safe env known allowed s)
    (hcustom : ∀ host, ¬allowed (.custom host)) (h : Linked (framesOf (s.run :: s.callers)))
    (hstep : step env s = .next t) : Linked (framesOf (t.run :: t.callers)) := by
  obtain ⟨top, below, hf, hc, hperforms⟩ | ⟨child, parent, below, f, hf, hfold, hruns⟩ |
    ⟨root, caller, callers, change, hf, hcallers, hover, hruns⟩ := next_cases hstep
  · have htop := hsafe.run.frames top (by simp [hf])
    rw [framesOf_cons, hf] at h
    have heffect := (h.forward top (by simp)).effect htop.cursor_nonneg
      (Int.le_trans htop.cursor_le hsafe.run.furthest_le)
      (fun host rest => hsafe.pending_ne_action (hcustom host) hf rest) s.run.grammar
    exact h.performs heffect hperforms
  · rw [framesOf_cons, hf] at h
    rw [hruns]
    have hchild := h.forward child (by simp)
    exact h.pop.change ((h.forward parent (by simp)).fold hchild h.start_eq hfold)
  · obtain ⟨f, frames, hcaller⟩ := List.exists_cons_of_ne_nil
      (hsafe.callers caller (by simp [hcallers])).nonempty
    rw [framesOf_cons, hf, hcallers, framesOf_cons, hcaller] at h
    have hroot := h.forward root (by simp)
    have hchange := (h.forward f (by simp)).handOver hroot h.start_eq hover
    rw [hruns]
    simpa [Run.resumed, Stack.updateTop, hcaller] using h.pop.change hchange

theorem steps {known : Nat → Prop} {allowed : Action → Prop} {n : Nat}
    (hr : SoundRules env.family known allowed) (hcustom : ∀ host, ¬allowed (.custom host))
    (hsafe : Safe env known allowed s) (h : Linked (framesOf (s.run :: s.callers)))
    (hsteps : Steps env n s t) : Linked (framesOf (t.run :: t.callers)) := by
  induction hsteps with
  | refl s => exact h
  | head hstep _ ih =>
    exact ih (hsafe.steps hr hcustom (.single hstep)) (h.step hsafe hcustom hstep)

theorem start {id : Nat} {main : Bytes} {exact : Bool} {terms : Terms} {cursor : Int} :
    Linked (framesOf [Run.start id main exact terms cursor]) := by
  have hroot : (Frame.enter .root cursor [.rule main]).Forward := .enter nofun
  exact ⟨by simpa [framesOf, Run.start] using hroot, .singleton _⟩

end Linked

/-- Where the cursors of all runs are, and what a failure of one of them would tell. -/
structure State.InOrder (input : Input) (s : State) : Prop where
  linked : Linked (framesOf (s.run :: s.callers))
  bounds : ∀ r ∈ s.run :: s.callers, r.furthest ≤ input.size ∧
    ∀ f ∈ r.stack.frames, 0 ≤ f.start ∧ f.cursor ≤ r.furthest
  failures : ∀ r ∈ s.run :: s.callers, ∀ position, r.position? input = some position →
    ∀ kind payload, Failure.Within input (failureAt input kind payload position)

theorem Safe.inOrder {env : Env} {known : Nat → Prop} {allowed : Action → Prop} {s : State}
    (h : Safe env known allowed s) (hl : Linked (framesOf (s.run :: s.callers))) :
    s.InOrder env.input := by
  have hruns := List.forall_mem_cons.2 ⟨h.run, h.callers⟩
  refine ⟨hl, fun r hr => ⟨(hruns r hr).furthest_le, fun f hf => ?_⟩,
    fun r hr position hp kind payload => (hruns r hr).failureAt_within hp kind payload⟩
  have hframe := (hruns r hr).frames f hf
  exact ⟨hframe.start_nonneg, hframe.cursor_le⟩

section

variable {family : Family} {host : Host} {config : Config} {id : Nat} {input : Input} {cursor : Int}

private theorem inOrder_start {main : Bytes} {exact : Bool} {terms : Terms} (h0 : 0 ≤ cursor)
    (hle : cursor ≤ input.size) :
    State.InOrder input { run := Run.start id main exact terms cursor } := by
  refine ⟨.start, ?_, ?_⟩
  · intro r hr
    obtain rfl := List.mem_singleton.1 hr
    refine ⟨hle, fun f hf => ?_⟩
    obtain rfl := List.mem_singleton.1 hf
    exact ⟨h0, Int.le_refl _⟩
  · intro r hr position hp kind payload source hsource
    obtain rfl := List.mem_singleton.1 hr
    rw [hsource] at hp hle ⊢
    obtain rfl := Option.some.inj hp
    exact ⟨h0, Int.le_refl _, hle⟩

/-- A run without its main rule ends in its first step, and not with a failure. -/
theorem step_undefined {env : Env} {main : Bytes} (exact : Bool) (terms : Terms) (cursor : Int)
    (hmain : (env.family.grammarAt id).rule? main = none) :
    ∃ t e c, step env { run := Run.start id main exact terms cursor } = .stop t (.error e c) ∧
      ∀ f, e ≠ .failure f := by
  by_cases hl : State.MayStep { run := Run.start id main exact terms cursor }
  · have heffect : (Frame.enter .root cursor [.rule main]).effect env id =
        .abort (.undefined ((env.family.grammarAt id).undefined main [])) := by
      simp [Frame.effect, Frame.enter, Frame.restart, hmain]
    have hperforms : Effect.Performs env { run := Run.start id main exact terms cursor } [] _ _ :=
      step_performs hl rfl rfl
    rw [show (Run.start id main exact terms cursor).grammar = id from rfl, heffect] at hperforms
    obtain ⟨t, ht⟩ := hperforms
    exact ⟨_, _, _, ht, by simp⟩
  · rw [step, if_pos (Decidable.not_not.1 hl)]
    exact ⟨_, _, _, rfl, by simp⟩

variable {env : Env} {main : Bytes} {exact : Bool} {terms : Terms}

/-- So it comes to no other state. -/
theorem stays_of_undefined (hmain : (env.family.grammarAt id).rule? main = none) {n : Nat}
    {s : State} (h : Steps env n { run := Run.start id main exact terms cursor } s) :
    n = 0 ∧ s = { run := Run.start id main exact terms cursor } := by
  obtain ⟨t, e, c, hstop, -⟩ := step_undefined exact terms cursor hmain
  cases h with
  | refl => exact ⟨rfl, rfl⟩
  | head hstep _ => cases hstop.symm.trans hstep

theorem no_failure_of_undefined (hmain : (env.family.grammarAt id).rule? main = none) {fuel : Nat}
    {t : State} {f : Failure} {c : Int} :
    run env fuel { run := Run.start id main exact terms cursor } ≠ some (t, .error (.failure f) c) := by
  obtain ⟨u, e, c', hstop, he⟩ := step_undefined exact terms cursor hmain
  cases fuel with
  | zero => exact nofun
  | succ fuel =>
    rw [run, hstop]
    rintro ⟨⟩
    exact he f rfl

end

/-- The cursors of all runs of a checked grammar are in order, from whichever cursor of the input
it starts, and so are the offsets of every failure in a text. -/
theorem cursors_inOrder (family : Family) (host : Host) (config : Config) (id : Nat) (input : Input)
    (cursor : Int) (hdefined : ∀ g ∈ family, g.Defined) (hclosed : family.Closed)
    (hcheck : family.check id = none) (hfree : family.CustomFree id) (h0 : 0 ≤ cursor)
    (hle : cursor ≤ input.size) :
    (∀ n s, Steps (environment family host input) n
      { run := Run.start id config.main config.exact config.terms cursor } s → s.InOrder input) ∧
    ∀ fuel t f c, run (environment family host input) fuel
        { run := Run.start id config.main config.exact config.terms cursor } =
      some (t, .error (.failure f) c) → Failure.Within input f := by
  cases hmain : (family.grammarAt id).rule? config.main with
  | none =>
    have hmain : ((environment family host input).family.grammarAt id).rule? config.main =
        none := hmain
    constructor
    · intro n s hsteps
      obtain ⟨-, rfl⟩ := stays_of_undefined hmain hsteps
      exact inOrder_start h0 hle
    · intro fuel t f c hrun
      exact absurd hrun (no_failure_of_undefined hmain)
  | some body =>
    have hmain := Option.isSome_of_eq_some hmain
    have hr := soundRules_of_check hdefined hclosed hcheck hmain (action_ne_custom hfree)
    have hcustom (host : Option Nat) : ¬∀ host', Action.custom host ≠ .custom host' :=
      fun h => h host rfl
    have hstart : Safe (environment family host input) (family.Embeds id)
        (fun a => ∀ host, a ≠ .custom host)
        { run := Run.start id config.main config.exact config.terms cursor } :=
      ⟨.start .refl (settled_terms config) hmain h0 hle, by simp⟩
    constructor
    · intro n s hsteps
      exact (hstart.steps hr hcustom hsteps).inOrder (Linked.start.steps hr hcustom hstart hsteps)
    · intro fuel t f c hrun
      obtain ⟨n, u, hsteps, hstop⟩ := steps_of_run hrun
      have hsafe := hstart.steps hr hcustom hsteps
      have hk := step_keeps_of_pending hr hsafe fun _ _ hf _ host rest =>
        hsafe.pending_ne_action (hcustom host) hf rest
      rw [hstop] at hk
      exact hk.1

/-- The list that begins at the second byte is not closed, so the run that starts there fails. -/
theorem cursors_inOrder_nested : (∀ g ∈ nested, g.Defined) ∧ nested.Closed ∧
    nested.check 0 = none ∧ nested.CustomFree 0 ∧
    ∃ t f c, run (environment nested Host.idle (.text "[[w")) 60
        { run := Run.start 0 "main" true (Config.terms {}) 1 } = some (t, .error (.failure f) c) ∧
      0 ≤ f.offset ∧ f.offset ≤ f.furthest ∧ f.furthest ≤ 3 := by
  have hcheck : nested.check 0 = none := rfl
  have hends : ∃ t f c,
      run (environment nested Host.idle (.text "[[w")) 60
        { run := Run.start 0 "main" true (Config.terms {}) 1 } = some (t, .error (.failure f) c) :=
    ⟨_, _, _, rfl⟩
  obtain ⟨t, f, c, hrun⟩ := hends
  have hwithin := (cursors_inOrder nested Host.idle {} 0
    (.text "[[w") 1 defined_nested closed_nested hcheck customFree_nested (by decide)
    (by decide)).2 60 t f c hrun
  exact ⟨defined_nested, closed_nested, hcheck, customFree_nested, t, f, c, hrun,
    hwithin "[[w" rfl⟩

end PegMachine.Machine
