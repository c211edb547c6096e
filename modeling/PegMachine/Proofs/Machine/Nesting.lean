import PegMachine.Proofs.Machine.Pending
import PegMachine.Proofs.Machine.Terms

namespace PegMachine.Machine

variable {env : Env} {s t : State}

/-- The settings that a function of the host leaves behind are those of the run that called it. -/
theorem called_of_next {host : Nat} (h : custom env s host = .next t) :
    t.run.terms =
        { s.run.terms with settings := (env.host host (s.view env)).settings } ∧
      t.callers = s.callers := by
  unfold custom raise at h
  simp only at h
  repeat' split at h
  all_goals cases h
  exact ⟨rfl, rfl⟩

theorem custom_of_effect {f g : Frame} {grammar host : Nat}
    (h : f.effect env grammar = .call host g) :
    ∃ rest, f.restart.pending = .action (.custom (some host)) :: rest := by
  revert h
  refine effect_elim
    (motive := fun e => e = .call host g →
      ∃ rest, f.restart.pending = .action (.custom (some host)) :: rest)
    ?expand ?mismatch ?success ?emit ?enter ?embed ?call ?raise ?abort ?fault
  case call =>
    intro host' rest hp heq
    cases heq
    exact ⟨rest, hp⟩
  all_goals
    intros
    contradiction

/-- Where the terms of a run after a step come from, if not from a run before it. -/
inductive Terms.Renewed (env : Env) (s : State) (u : Terms) : Prop
  | embed (main : Bytes) (h : s.run.terms.inside? main = .ok u)
  | call (host : Nat) (view : View) (hview : view.settings = s.run.terms.settings)
    (h : u = { s.run.terms with settings := (env.host host view).settings })
    (hcalls : ∃ top ∈ s.run.stack.frames,
      .action (.custom (some host)) ∈ top.restart.pending)

/-- A run goes on on the terms it is on, unless it is embedded in that step or calls the host. -/
theorem terms_of_next (hstep : step env s = .next t) {r : Run} (hr : r ∈ t.run :: t.callers) :
    (∃ r' ∈ s.run :: s.callers, r.terms = r'.terms) ∨ r.terms.Renewed env s := by
  have waiting {r : Run} (hr : r ∈ s.callers) :
      (∃ r' ∈ s.run :: s.callers, r.terms = r'.terms) ∨ r.terms.Renewed env s :=
    .inl ⟨r, by simp [hr], rfl⟩
  have replaced (tried : List Int) (frames : List Frame) :
      ∃ r' ∈ s.run :: s.callers,
        ((tried.foldl Run.reach s.run).withFrames frames).terms = r'.terms :=
    ⟨s.run, by simp, by rw [withFrames_terms, foldl_reach_terms]⟩
  obtain ⟨top, below, hf, -, hperforms⟩ | ⟨child, parent, below, f, -, -, hruns⟩ |
    ⟨root, caller, callers, change, -, hc, -, hruns⟩ := next_cases hstep
  · cases heffect : top.effect env s.run.grammar with
    | become g tried =>
      rw [heffect] at hperforms
      rw [goesOn_next.1 hperforms] at hr
      obtain rfl | hr := List.mem_cons.1 hr
      · exact .inl (replaced tried _)
      · exact waiting hr
    | enter child g =>
      rw [heffect] at hperforms
      rw [goesOn_next.1 hperforms] at hr
      obtain rfl | hr := List.mem_cons.1 hr
      · exact .inl (replaced [] _)
      · exact waiting hr
    | embed id main g =>
      rw [heffect] at hperforms
      obtain ⟨terms, hterms, hruns⟩ := embedded_of_next hperforms
      rw [hruns] at hr
      obtain rfl | hr := List.mem_cons.1 hr
      · exact .inr (.embed main hterms)
      obtain rfl | hr := List.mem_cons.1 hr
      · exact .inl (replaced [] _)
      · exact waiting hr
    | call host g =>
      rw [heffect] at hperforms
      obtain ⟨u, hu, hucallers, hcall⟩ := hperforms
      obtain ⟨hterms, hcallers⟩ := called_of_next hcall.symm
      obtain ⟨rest, hp⟩ := custom_of_effect heffect
      obtain rfl | hr := List.mem_cons.1 hr
      · rw [hu, withFrames_terms] at hterms
        refine .inr (.call host (u.view env) ?_ hterms ⟨top, by simp [hf], by simp [hp]⟩)
        rw [State.view, hu, withFrames_terms]
      · rw [hcallers, hucallers] at hr
        exact waiting hr
    | raise | abort | fault =>
      rw [heffect] at hperforms
      exact absurd (hperforms.stops trivial) not_stops_next
  · rw [hruns] at hr
    obtain rfl | hr := List.mem_cons.1 hr
    · exact .inl (replaced [] _)
    · exact waiting hr
  · rw [hruns] at hr
    obtain rfl | hr := List.mem_cons.1 hr
    · exact .inl ⟨caller, by simp [hc], rfl⟩
    · exact waiting (by simp [hc, hr])

/-- Settled terms with the limit of others, and traced like them. -/
structure Terms.Like (t u : Terms) : Prop where
  settled : u.Settled
  limit_eq : u.limit = t.limit
  debug_eq : u.debug = t.debug

theorem Terms.Settled.like {u : Terms} (h : u.Settled) : u.Like u := ⟨h, rfl, rfl⟩

theorem Terms.Like.trans {u v w : Terms} (h : u.Like v) (h' : v.Like w) : u.Like w :=
  ⟨h'.settled, h'.limit_eq.trans h.limit_eq, h'.debug_eq.trans h.debug_eq⟩

theorem Terms.Like.inside {u v : Terms} (h : u.Like v) (main : Bytes) : u.Like (v.inside main) :=
  ⟨h.settled.inside main, h.limit_eq, h.debug_eq⟩

/-- Where the host is never called all runs are on the terms of the outermost one. -/
theorem like_of_steps {known : Nat → Prop} {holds : Expr → Prop} {terms : Terms} {n : Nat}
    (hi : Inherited env.family known holds)
    (ha : ∀ r ∈ s.run :: s.callers, r.Awaits known holds)
    (h : ∀ r ∈ s.run :: s.callers, terms.Like r.terms) (hsteps : Steps env n s t) :
    ∀ r ∈ t.run :: t.callers, terms.Like r.terms := by
  induction hsteps with
  | refl s => exact h
  | @head n s u t hstep _ ih =>
    refine ih (awaits_of_next hi ha hstep) fun r hr => ?_
    have hrun := h s.run (by simp)
    obtain ⟨r', hr', heq⟩ | hnew := terms_of_next hstep hr
    · exact heq ▸ h r' hr'
    · generalize r.terms = u at hnew
      cases hnew with
      | embed main hterms =>
        rw [inside?_eq hrun.settled] at hterms
        obtain rfl := Except.ok.inj hterms
        exact hrun.inside main
      | call host view hview hterms hcalls =>
        obtain ⟨top, htop, hpending⟩ := hcalls
        have hframe := ((ha s.run (by simp)).frames top htop).restart
        exact absurd (hframe.pending _ hpending) (hi.custom (some host))

end PegMachine.Machine
