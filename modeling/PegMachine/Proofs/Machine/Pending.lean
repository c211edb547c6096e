import PegMachine.Proofs.Machine.Effects

namespace PegMachine.Machine

/-- A property of expressions that passes on to their children, and through the embedded grammars
out of `known` to their rules. Custom actions do not have it, for the host may put anything into a
frame. -/
structure Inherited (family : Family) (known : Nat → Prop) (holds : Expr → Prop) : Prop where
  child : ∀ {e child}, holds e → child ∈ e.children → holds child
  rule : ∀ {id}, known id → ∀ rule ∈ (family.grammarAt id).rules, holds rule.2
  reference : ∀ name, holds (.rule name)
  embed : ∀ {inner main}, holds (.embed (some inner) main) → known inner
  custom : ∀ host, ¬holds (.action (.custom host))

/-- All that a frame is still to evaluate has a property. -/
structure Frame.Awaits (holds : Expr → Prop) (f : Frame) : Prop where
  pending : ∀ e ∈ f.pending, holds e
  loop : ∀ quota item mark, f.kind = .loop quota item mark → holds item

/-- All that a run is still to evaluate has a property, and its grammar is known. -/
structure Run.Awaits (known : Nat → Prop) (holds : Expr → Prop) (r : Run) : Prop where
  grammar : known r.grammar
  frames : ∀ f ∈ r.stack.frames, f.Awaits holds

/-- What an effect leaves to evaluate has a property. -/
def Effect.Awaits (known : Nat → Prop) (holds : Expr → Prop) : Effect → Prop
  | .become top _ => top.Awaits holds
  | .enter child top => child.Awaits holds ∧ top.Awaits holds
  | .embed id _ top => known id ∧ top.Awaits holds
  | .call .. => False
  | .raise .. | .abort _ | .fault => True

variable {env : Env} {known : Nat → Prop} {holds : Expr → Prop} {f g : Frame} {r : Run}

namespace Frame.Awaits

/-- A frame that only loses items awaits nothing new. -/
theorem shrink (h : f.Awaits holds) (hk : g.kind = f.kind) (hp : g.pending ⊆ f.pending) :
    g.Awaits holds :=
  ⟨fun e he => h.pending e (hp he), hk ▸ h.loop⟩

theorem restart (h : f.Awaits holds) : f.restart.Awaits holds := by
  unfold Frame.restart
  split
  · next quota item mark hk hp =>
    have hitem := h.loop quota item mark hk
    refine ⟨?_, ?_⟩
    · intro e he
      exact List.mem_singleton.1 he ▸ hitem
    · rintro _ _ _ hk'
      cases hk'
      exact hitem
  · exact h

theorem fold (h : f.Awaits holds) {input : Input} {child : Frame}
    (hfold : Frame.fold? input child f = some g) : g.Awaits holds := by
  obtain ⟨hk, hp⟩ := fold?_keeps hfold
  exact h.shrink hk (hp ▸ fun _ he => he)

/-- The items of the frames that a frame leads to come from its own items and from rules. -/
theorem effect (hi : Inherited env.family known holds) {grammar : Nat} (hg : known grammar)
    (h : f.Awaits holds) : (f.effect env grammar).Awaits known holds := by
  have hrestart := h.restart
  have left {e : Expr} {rest : List Expr} (hp : f.restart.pending = e :: rest) :
      Frame.Awaits holds { f.restart with pending := rest } := hrestart.shrink rfl (by simp [hp])
  have item {e : Expr} {rest : List Expr} (hp : f.restart.pending = e :: rest) : holds e :=
    hrestart.pending e (by simp [hp])
  refine effect_elim ?expand ?mismatch ?success ?emit ?enter ?embed ?call ?raise ?abort ?fault
  case expand =>
    intro name body rest hp hbody
    have hrule := hi.rule hg _ (Grammar.mem_rules_of_rule? _ name body hbody)
    exact ⟨List.forall_mem_cons.2 ⟨hrule, (left hp).pending⟩, hrestart.loop⟩
  case mismatch => exact fun e rest hp => (left hp).shrink rfl fun _ he => he
  case success => exact fun e rest value next hp _ => (left hp).shrink rfl fun _ he => he
  case emit => exact fun a rest output hp => (left hp).shrink rfl fun _ he => he
  case enter =>
    intro e rest kind items hp hitems _ hl
    have hchildren (child : Expr) (hm : child ∈ items) : holds child :=
      hi.child (item hp) (hitems child hm)
    exact ⟨⟨hchildren, fun quota child mark hk => hchildren child (hl quota child mark hk).1⟩,
      left hp⟩
  case embed => exact fun id main rest hp => ⟨hi.embed (item hp), left hp⟩
  case call => exact fun host rest hp => hi.custom (some host) (item hp)
  case raise => exact fun _ _ _ _ _ => trivial
  case abort => exact fun _ _ => trivial
  case fault => trivial

end Frame.Awaits

namespace Run.Awaits

theorem start {family : Family} (hi : Inherited family known holds) {id : Nat} {main : Bytes}
    {exact : Bool} {terms : Terms} {cursor : Int} (hk : known id) :
    (Run.start id main exact terms cursor).Awaits known holds where
  grammar := hk
  frames f hf := by
    obtain rfl := List.mem_singleton.1 hf
    exact ⟨fun e he => List.mem_singleton.1 he ▸ hi.reference main, nofun⟩

/-- A run awaits what its frames do, wherever it has been. -/
theorem replace (h : r.Awaits known holds) {frames : List Frame} (tried : List Int)
    (hf : ∀ f ∈ frames, f.Awaits holds) :
    ((tried.foldl Run.reach r).withFrames frames).Awaits known holds := by
  refine ⟨?_, hf⟩
  rw [withFrames_grammar]
  induction tried generalizing r with
  | nil => exact h.grammar
  | cons cursor tried ih => exact ih (r := r.reach cursor) ⟨h.grammar, h.frames⟩

theorem resumed {caller : Run} {change : Frame → Frame} (h : caller.Awaits known holds)
    (hchange : ∀ f : Frame, f.Awaits holds → (change f).Awaits holds) :
    (caller.resumed r change).Awaits known holds := by
  refine ⟨h.grammar, ?_⟩
  have hframes := h.frames
  unfold Run.resumed Stack.updateTop
  simp only [reach_stack]
  split
  · exact hframes
  · next f frames hf =>
    rw [hf] at hframes
    obtain ⟨htop, hbelow⟩ := List.forall_mem_cons.1 hframes
    exact List.forall_mem_cons.2 ⟨hchange f htop, hbelow⟩

end Run.Awaits

/-- Every step leaves only such expressions to evaluate. -/
theorem awaits_of_next {s t : State} (hi : Inherited env.family known holds)
    (h : ∀ r ∈ s.run :: s.callers, r.Awaits known holds) (hstep : step env s = .next t) :
    ∀ r ∈ t.run :: t.callers, r.Awaits known holds := by
  obtain ⟨hrun, hcallers⟩ := List.forall_mem_cons.1 h
  have hframes := hrun.frames
  obtain ⟨top, below, hf, -, hperforms⟩ | ⟨child, parent, below, f, hf, hfold, hruns⟩ |
    ⟨root, caller, callers, change, hf, hc, hover, hruns⟩ := next_cases hstep
  · rw [hf] at hframes
    obtain ⟨htop, hbelow⟩ := List.forall_mem_cons.1 hframes
    have heffect := htop.effect hi hrun.grammar
    generalize top.effect env s.run.grammar = effect at hperforms heffect
    cases effect with
    | become top tried =>
      rw [goesOn_next.1 hperforms]
      have hchanged := hrun.replace tried (List.forall_mem_cons.2 ⟨heffect, hbelow⟩)
      exact List.forall_mem_cons.2 ⟨hchanged, hcallers⟩
    | enter child top =>
      rw [goesOn_next.1 hperforms]
      have hpushed := hrun.replace []
        (List.forall_mem_cons.2 ⟨heffect.1, List.forall_mem_cons.2 ⟨heffect.2, hbelow⟩⟩)
      exact List.forall_mem_cons.2 ⟨hpushed, hcallers⟩
    | embed inner main top =>
      obtain ⟨terms, -, hruns⟩ := embedded_of_next hperforms
      rw [hruns]
      have hwaiting := hrun.replace [] (List.forall_mem_cons.2 ⟨heffect.2, hbelow⟩)
      exact List.forall_mem_cons.2
        ⟨.start hi heffect.1, List.forall_mem_cons.2 ⟨hwaiting, hcallers⟩⟩
    | call => exact heffect.elim
    | raise | abort | fault => exact absurd (hperforms.stops trivial) not_stops_next
  · rw [hf] at hframes
    rw [hruns]
    obtain ⟨-, hparent⟩ := List.forall_mem_cons.1 hframes
    obtain ⟨hparent, hbelow⟩ := List.forall_mem_cons.1 hparent
    have hfolded := hrun.replace [] (List.forall_mem_cons.2 ⟨hparent.fold hfold, hbelow⟩)
    exact List.forall_mem_cons.2 ⟨hfolded, hcallers⟩
  · rw [hc] at hcallers
    rw [hruns]
    obtain ⟨hcaller, hcallers⟩ := List.forall_mem_cons.1 hcallers
    have hresumed : (caller.resumed s.run change).Awaits known holds := by
      refine hcaller.resumed fun f hf => ?_
      obtain rfl | rfl := handOver?_cases hover
      · exact hf.shrink rfl fun _ he => he
      · exact hf.shrink rfl fun _ he => he
    exact List.forall_mem_cons.2 ⟨hresumed, hcallers⟩

section

variable {s : State} (host : Host)

/-- Actions of the grammar itself do the same under every host. -/
theorem act_host_eq {a : Action} (h : ∀ id, a ≠ .custom id) (top : Frame) (below : List Frame) :
    act { env with host := host } s top below a = act env s top below a := by
  cases a with
  | custom id => exact absurd rfl (h id)
  | convert f => cases f <;> rfl
  | insert | insertText | modify | note | clear | throw | log | unknown => rfl

/-- Where no custom action is next, the step is the same under every host. -/
theorem step_host_eq (hi : Inherited env.family known holds) (h : s.run.Awaits known holds) :
    step { env with host := host } s = step env s := by
  unfold step
  split
  · rfl
  simp only
  cases hf : s.run.stack.frames with
  | nil => rfl
  | cons top below =>
    have htop := (h.frames top (by simp [hf])).restart
    simp only
    split
    · rfl
    unfold evaluate
    cases hp : top.restart.pending with
    | nil => rfl
    | cons e rest =>
      cases e with
      | action a =>
        refine act_host_eq host ?_ _ _
        rintro id rfl
        exact hi.custom id (htop.pending (.action (.custom id)) (by simp [hp]))
      | rule | missing | literal | pattern | sequence | choice | wrap | hide | iterate
      | embed => rfl

/-- A machine that never comes to a custom action does not depend on its host. -/
theorem run_host_eq (hi : Inherited env.family known holds)
    (h : ∀ r ∈ s.run :: s.callers, r.Awaits known holds) (fuel : Nat) :
    run { env with host := host } fuel s = run env fuel s := by
  induction fuel generalizing s with
  | zero => rfl
  | succ fuel ih =>
    rw [run, run, step_host_eq host hi (h s.run (by simp))]
    cases hstep : step env s with
    | next t => exact ih (awaits_of_next hi h hstep)
    | stop t ending => rfl

end

end PegMachine.Machine
