import PegMachine.Proofs.Inlining.Frames
import PegMachine.Proofs.Machine.Safety

namespace PegMachine.Machine

/-- Only the outermost run may have to consume all of the input. -/
def Nested : Run → List Run → Prop
  | _, [] => True
  | r, caller :: callers => r.exact = false ∧ Nested caller callers

theorem Nested.congr {r r' : Run} {callers : List Run} (h : Nested r callers)
    (hx : r'.exact = r.exact) : Nested r' callers := by
  cases callers with
  | nil => trivial
  | cons caller callers => exact ⟨hx.trans h.1, h.2⟩

theorem outermost_exact {r r' : Run} (hx : r.exact = r'.exact) (callers : List Run) :
    (outermost r callers).exact = (outermost r' callers).exact := by
  induction callers generalizing r r' with
  | nil => exact hx
  | cons caller callers ih => exact ih rfl

/-- The bottom frame of all runs is the one of the outermost. -/
theorem getLast?_stacked {r : Run} {callers : List Run}
    (h : ∀ r' ∈ r :: callers, r'.stack.frames ≠ []) :
    (stacked (r :: callers)).getLast?.map (·.frame.cursor) =
      some (outermost r callers).stack.rootCursor := by
  induction callers generalizing r with
  | nil =>
    obtain ⟨f, hf⟩ := Option.ne_none_iff_exists'.1
      (fun hn => h r (by simp) (List.getLast?_eq_none_iff.1 hn))
    have hplaced := getLast?_placed r.grammar r.stack.frames
    rw [hf] at hplaced
    obtain ⟨x, hx, rfl⟩ := Option.map_eq_some_iff.1 hplaced
    simp [stacked, hx, outermost, Stack.rootCursor, hf]
  | cons caller callers ih =>
    have hrest := ih (r := caller.reach r.furthest) fun r' hr' => by
      rcases List.mem_cons.1 hr' with rfl | hr'
      · exact h caller (by simp)
      · exact h r' (by simp [hr'])
    obtain ⟨x, hx, hc⟩ := Option.map_eq_some_iff.1 hrest
    have hx : (stacked (caller :: callers)).getLast? = some x := hx
    rw [stacked, List.getLast?_append, hx, outermost, ← hc]
    rfl

/-- The two machines agree in all but their frames. -/
structure Aligned (s t : State) : Prop where
  callers_eq : t.callers = []
  grammar_eq : t.run.grammar = 0
  steps_eq : t.steps = s.steps
  exact_eq : t.run.exact = (outermost s.run s.callers).exact
  furthest_eq : t.run.furthest = (outermost s.run s.callers).furthest
  nested : Nested s.run s.callers
  limits : ∀ r ∈ s.run :: s.callers, r.terms.limit = t.run.terms.limit

/-- A state of the family's machine, and the state of the other one that stands for it. -/
structure Merges (q : Naming) (s t : State) : Prop where
  aligned : Aligned s t
  frames : List.Forall₂ (Alike q) (stacked (s.run :: s.callers)) t.run.stack.frames

/-- Steps of the two machines that lead to corresponding states, or end both in one way. -/
def Corresponds (q : Naming) : Progress → Progress → Prop
  | .next s, .next t => Merges q s t
  | .stop s ending, .stop t ending' =>
    ending' = ending ∧ t.steps = s.steps ∧ t.run.furthest = s.run.furthest
  | _, _ => False

/-- The single grammar has the rules of all the others. -/
structure Inlines (q : Naming) (env env' : Env) : Prop where
  input_eq : env'.input = env.input
  rule : ∀ {id : Nat} {name : Bytes} {e : Expr}, (env.family.grammarAt id).rule? name = some e →
    (env'.family.grammarAt 0).rule? (q.name id name) = some (e.qualify q id)

section

variable {q : Naming} {env env' : Env} {known : Nat → Prop} {allowed : Action → Prop} {s t : State}

namespace Aligned

theorem withRun (h : Aligned s t) {r r' : Run}
    (hf : r'.furthest = (outermost r s.callers).furthest) (hx : r.exact = s.run.exact)
    (hx' : r'.exact = t.run.exact) (hg : r'.grammar = t.run.grammar)
    (ht : r.terms = s.run.terms) (ht' : r'.terms = t.run.terms) :
    Aligned { s with run := r } { t with run := r' } where
  callers_eq := h.callers_eq
  grammar_eq := hg.trans h.grammar_eq
  steps_eq := h.steps_eq
  exact_eq := hx'.trans (h.exact_eq.trans (outermost_exact hx s.callers).symm)
  furthest_eq := hf
  nested := h.nested.congr hx
  limits := by
    obtain ⟨hrun, hcallers⟩ := List.forall_mem_cons.1 h.limits
    rw [ht']
    exact List.forall_mem_cons.2 ⟨ht ▸ hrun, hcallers⟩

theorem withFrames (h : Aligned s t) (frames frames' : List Frame) :
    Aligned (s.withFrames frames) (t.withFrames frames') := by
  have hf : (outermost s.run s.callers).furthest =
      (outermost (s.withFrames frames).run s.callers).furthest :=
    outermost_furthest (by rfl) s.callers
  exact h.withRun (h.furthest_eq.trans hf) rfl rfl rfl rfl rfl

theorem reach (h : Aligned s t) (cursor : Int) :
    Aligned { s with run := s.run.reach cursor } { t with run := t.run.reach cursor } := by
  refine h.withRun ?_ rfl rfl rfl rfl rfl
  rw [outermost_reach, reach_furthest, h.furthest_eq]

theorem trace (h : Aligned s t) (e e' : Event) : Aligned (s.trace e) (t.trace e') := by
  obtain ⟨hc, hg, hs, hx, hf, hn, hl⟩ := h
  refine ⟨?_, ?_, ?_, ?_, ?_, ?_, ?_⟩ <;> simp only [trace_run, trace_callers, trace_steps] <;>
    assumption

theorem counted (h : Aligned s t) :
    Aligned { s with steps := s.steps + 1 } { t with steps := t.steps + 1 } :=
  ⟨h.callers_eq, h.grammar_eq, congrArg (· + 1) h.steps_eq, h.exact_eq, h.furthest_eq, h.nested,
    h.limits⟩

end Aligned

theorem Merges.rootCursor (h : Merges q s t) (hs : Safe env known allowed s) :
    t.run.stack.rootCursor = (outermost s.run s.callers).stack.rootCursor := by
  have hlast := getLast?_alike h.frames
  rw [getLast?_stacked fun r hr => (hs.inBounds r hr).1] at hlast
  obtain ⟨f, hf, hc⟩ := Option.map_eq_some_iff.1 hlast
  rw [← hc, Stack.rootCursor, hf]

theorem abort_corresponds (h : Merges q s t) (hs : Safe env known allowed s) (e : Error) :
    Corresponds q (abort s e) (abort t e) := by
  refine ⟨?_, h.aligned.steps_eq, ?_⟩
  · simp only [h.aligned.callers_eq, outermost, h.rootCursor hs]
  · simp only [h.aligned.callers_eq, outermost, h.aligned.furthest_eq]

/-- A payload is reported from where the outermost run stands. -/
theorem raise?_outermost {r : Run} {callers : List Run} (payload : Payload)
    (h : SafeRun env known allowed r) (hc : ∀ r ∈ callers, SafeRun env known allowed r) :
    raise? env.input payload r callers = ((outermost r callers).position? env.input).map
      fun position => (failureAt env.input .payload payload position, outermost r callers) := by
  induction callers generalizing r with
  | nil => rfl
  | cons caller callers ih =>
    obtain ⟨position, hp⟩ := Option.isSome_iff_exists.1 h.position?_isSome
    simp only [raise?, hp, outermost]
    exact ih ((hc caller (by simp)).reach h.furthest_le) fun r hr => hc r (by simp [hr])

private theorem raise_corresponds (hi : Inlines q env env') (h : Merges q s t)
    (hs : Safe env known allowed s) (payload : Payload) :
    Corresponds q (raise env s payload) (raise env' t payload) := by
  have hraise := raise?_outermost payload hs.run hs.callers
  obtain ⟨f, run, hsome, -⟩ := hs.run.raise?_within payload hs.callers
  rw [hraise] at hsome
  obtain ⟨position, hp, -⟩ := Option.map_eq_some_iff.1 hsome
  have hroot := h.rootCursor hs
  have hp' : t.run.position? env.input = some position := by
    rw [← hp]
    simp only [Run.position?, hroot, h.aligned.furthest_eq]
  simp only [raise, h.aligned.callers_eq, raise?, hi.input_eq, hraise, hp, hp', Option.map_some]
  exact ⟨by rw [hroot], h.aligned.steps_eq, h.aligned.furthest_eq⟩

/-- The top frames of two states that are aligned, and the frames below them. -/
structure Facing (q : Naming) (s t : State) (top : Frame) (below : List Frame) (top' : Frame)
    (rest : List Frame) : Prop where
  aligned : Aligned s t
  top : Alike q ⟨s.run.grammar, below.isEmpty, top⟩ top'
  rest : List.Forall₂ (Alike q) (placed s.run.grammar below ++ stacked s.callers) rest

namespace Facing

variable {top top' : Frame} {below rest : List Frame}

theorem merges (h : Facing q s t top below top' rest) {f g : Frame}
    (hf : Alike q ⟨s.run.grammar, below.isEmpty, f⟩ g) :
    Merges q (s.withFrames (f :: below)) (t.withFrames (g :: rest)) :=
  ⟨h.aligned.withFrames _ _, .cons hf h.rest⟩

theorem withTop (h : Facing q s t top below top' rest) {f g : Frame}
    (hf : Alike q ⟨s.run.grammar, below.isEmpty, f⟩ g) (frames frames' : List Frame) :
    Facing q (s.withFrames frames) (t.withFrames frames') f below g rest :=
  ⟨h.aligned.withFrames _ _, hf, h.rest⟩

theorem trace (h : Facing q s t top below top' rest) (e e' : Event) :
    Facing q (s.trace e) (t.trace e') top below top' rest :=
  ⟨h.aligned.trace e e', by simpa using h.top, by simpa using h.rest⟩

theorem reach (h : Facing q s t top below top' rest) (cursor : Int) :
    Facing q { s with run := s.run.reach cursor } { t with run := t.run.reach cursor } top below
      top' rest :=
  ⟨h.aligned.reach cursor, h.top, h.rest⟩

end Facing

section

variable {top top' : Frame} {below rest : List Frame}

private theorem leaf_corresponds (h : Facing q s t top below top' rest) (e e' : Expr)
    {attempt attempt' : Attempt} (heq : attempt' = attempt) (hne : attempt ≠ .fault) :
    Corresponds q (leaf s top below e attempt) (leaf t top' rest e' attempt') := by
  subst heq
  have htried := h.reach top.cursor
  unfold leaf
  simp only [h.top.cursor_eq]
  cases attempt' with
  | fault => exact absurd rfl hne
  | mismatch =>
    have hnext := htried.trace (.attempt false e.render)
      (.attempt false e'.render)
    exact hnext.merges (hnext.top.change Frame.fail rfl rfl fun _ _ => rfl)
  | success value next =>
    have hnext := (htried.trace (.attempt true e.render)
      (.attempt true e'.render)).reach next
    exact hnext.merges (hnext.top.change (·.succeed next [value]) rfl rfl fun _ _ => rfl)

private theorem enter_corresponds (h : Facing q s t top below top' rest) {kind kind' : Kind}
    (hk : kind.Alike q s.run.grammar kind') (items : List Expr) :
    Corresponds q (enter s top below kind items)
      (enter t top' rest kind' (Expr.qualifyAll q s.run.grammar items)) := by
  have hnew : Alike q ⟨s.run.grammar, false, Frame.enter kind top.cursor items⟩
      (Frame.enter kind' top'.cursor (Expr.qualifyAll q s.run.grammar items)) := by
    rw [h.top.cursor_eq]
    exact ⟨by simp, kind', hk, rfl⟩
  have hnext : Merges q (s.withFrames (Frame.enter kind top.cursor items :: top :: below))
      (t.withFrames (Frame.enter kind' top'.cursor (Expr.qualifyAll q s.run.grammar items) ::
        top' :: rest)) :=
    ⟨h.aligned.withFrames _ _, .cons hnew (.cons h.top h.rest)⟩
  exact ⟨hnext.aligned.trace _ _, by simpa using hnext.frames⟩

private theorem fold_corresponds (hi : Inlines q env env') {child child' : Frame}
    (h : Facing q s t top below top' rest) {id : Nat} {bottom : Bool}
    (hc : Alike q ⟨id, bottom, child⟩ child')
    {f : Frame} (hf : Frame.fold? env.input child top = some f) :
    Corresponds q (fold env s child top below) (fold env' t child' top' rest) := by
  obtain ⟨g, hg, ha⟩ := hc.fold h.top hf
  simp only [fold, hi.input_eq, hf, hg]
  have hnext := h.merges ha
  exact ⟨hnext.aligned.trace _ _, by simpa using hnext.frames⟩

private theorem embed_corresponds (h : Facing q s t top below top' rest)
    (hs : SafeFrame env known allowed s.run.grammar s.run.furthest top) {inner : Nat}
    {main : Bytes} {g : Grammar} (hg : env.family[inner]? = some g) (hm : (g.rule? main).isSome)
    (hterms : s.run.terms.Settled) (hframes : s.run.stack.frames = top :: below) :
    Corresponds q (embed env s top (some inner) main)
      (enter t top' rest .sequence [.rule (q.name inner main)]) := by
  obtain ⟨body, hbody⟩ := Option.isSome_iff_exists.1 hm
  simp only [embed, Family.grammar?, Option.bind_some, hg, hbody, inside?_eq hterms]
  have hnew : Alike q ⟨inner, true, Frame.enter .root top.cursor [.rule main]⟩
      (Frame.enter .sequence top'.cursor [.rule (q.name inner main)]) := by
    rw [h.top.cursor_eq]
    refine ⟨fun _ => rfl, .sequence, .inr ⟨rfl, rfl⟩, ?_⟩
    simp [Frame.enter, Frame.recast, Expr.qualifyAll, Expr.qualify]
  have hreach : (s.run.reach top.cursor).furthest = s.run.furthest := by
    have := hs.cursor_le
    simp only [reach_furthest]
    omega
  have ha := h.aligned
  refine ⟨⟨?_, ?_, ?_, ?_, ?_, ?_, ?_⟩, ?_⟩ <;> simp only [trace_run, trace_callers, trace_steps]
  · exact ha.callers_eq
  · exact ha.grammar_eq
  · exact ha.steps_eq
  · exact ha.exact_eq.trans (outermost_exact (by rfl) s.callers)
  · exact ha.furthest_eq.trans (outermost_furthest hreach.symm s.callers)
  · exact ⟨rfl, ha.nested⟩
  · exact List.forall_mem_cons.2 ⟨ha.limits s.run (by simp), ha.limits⟩
  · simp only [stacked, hframes]
    exact .cons hnew (.cons h.top h.rest)

private theorem finish_corresponds (hi : Inlines q env env') (hs : Safe env known allowed s)
    {root root' : Frame} (h : Merges q s t) (hroot : Alike q ⟨s.run.grammar, true, root⟩ root')
    (hc : s.callers = []) : Corresponds q (finish env s root) (finish env' t root') := by
  have hposition : t.run.position? env.input = s.run.position? env.input := by
    have hcursor := h.rootCursor hs
    have hfurthest := h.aligned.furthest_eq
    simp only [hc, outermost] at hcursor hfurthest
    simp only [Run.position?, hcursor, hfurthest]
  have hexact := h.aligned.exact_eq
  have hfurthest := h.aligned.furthest_eq
  simp only [hc, outermost] at hexact hfurthest
  obtain ⟨position, hp⟩ := Option.isSome_iff_exists.1 hs.run.position?_isSome
  simp only [finish, trace_run, trace_callers, hi.input_eq, hroot.failed_eq, hroot.cursor_eq,
    hroot.output_eq, hexact, hposition, hp, hc, h.aligned.callers_eq]
  split
  · exact ⟨rfl, by simpa using h.aligned.steps_eq, by simpa using hfurthest⟩
  · exact ⟨rfl, by simpa using h.aligned.steps_eq, by simpa using hfurthest⟩

/-- The last frame of a run inside of another one is taken into that one. -/
theorem finish_inner
    (hs : Safe env known allowed s) (root : Frame) {parent : Frame} {below : List Frame}
    {caller : Run} {callers : List Run} (hx : s.run.exact = false)
    (hc : s.callers = caller :: callers) (hf : caller.stack.frames = parent :: below) :
    ∃ u, finish env s root = .next u ∧ u.callers = callers ∧ u.steps = s.steps ∧
      u.run = { caller.reach s.run.furthest with
        stack := { caller.stack with
          frames := (if root.failed then parent.fail
            else parent.succeed root.cursor root.output) :: below } } := by
  obtain ⟨position, hp⟩ := Option.isSome_iff_exists.1 hs.run.position?_isSome
  simp only [finish, trace_run, trace_callers, hx, Bool.false_and, Bool.or_false, hp, hc, resume]
  cases root.failed with
  | true => exact ⟨_, rfl, rfl, by simp, by simp [Stack.updateTop, hf]⟩
  | false => exact ⟨_, rfl, rfl, by simp, by simp [Stack.updateTop, hf]⟩

/-- A run inside of another one ends as its frame folds. -/
theorem finish_inner_corresponds (hi : Inlines q env env') (hs : Safe env known allowed s)
    {root root' parent' : Frame} {caller : Run} {callers : List Run} {below' : List Frame}
    (ha : Aligned s t) (hroot : Alike q ⟨s.run.grammar, true, root⟩ root')
    (hc : s.callers = caller :: callers)
    (hrest : List.Forall₂ (Alike q) (stacked (caller :: callers)) (parent' :: below')) :
    Corresponds q (finish env s root) (fold env' t root' parent' below') := by
  have hcaller := hs.callers caller (by simp [hc])
  obtain ⟨parent, below, hf⟩ := List.exists_cons_of_ne_nil hcaller.nonempty
  have hn := ha.nested
  rw [hc] at hn
  obtain ⟨u, hu, hucallers, husteps, hurun⟩ := finish_inner hs root hn.1 hc hf
  rw [stacked, hf, placed, List.cons_append, List.forall₂_cons] at hrest
  -- a bottom frame that were folded like a sequence would do the same to its parent
  have hfold : Frame.fold? env.input root parent = some (if root.failed then parent.fail
      else parent.succeed root.cursor root.output) := by
    have hkind : root.kind = .root := hroot.1 rfl
    simp only [Frame.fold?, hkind]
  obtain ⟨g, hg, hgood⟩ := hroot.fold hrest.1 hfold
  simp only [hu, fold, hi.input_eq, hg]
  refine ⟨⟨?_, ?_, ?_, ?_, ?_, ?_, ?_⟩, ?_⟩
  · rw [trace_callers]
    exact ha.callers_eq
  · rw [trace_run]
    exact ha.grammar_eq
  · rw [trace_steps, husteps]
    exact ha.steps_eq
  · rw [trace_run, hucallers]
    have := ha.exact_eq
    rw [hc] at this
    exact this.trans (outermost_exact (by rw [hurun]) callers)
  · rw [trace_run, hucallers]
    have := ha.furthest_eq
    rw [hc] at this
    exact this.trans (outermost_furthest (by rw [hurun]) callers)
  · rw [hucallers]
    exact hn.2.congr (by rw [hurun]; rfl)
  · have hlimits := (List.forall_mem_cons.1 ha.limits).2
    rw [hc] at hlimits
    obtain ⟨hcaller, hcallers⟩ := List.forall_mem_cons.1 hlimits
    rw [trace_run, hucallers, hurun]
    exact List.forall_mem_cons.2 ⟨hcaller, hcallers⟩
  · rw [trace_run, hucallers, stacked, hurun]
    exact .cons hgood hrest.2

private theorem act_corresponds (hi : Inlines q env env') (h : Facing q s t top below top' rest)
    (hs : Safe env known allowed s)
    (ht : SafeFrame env known allowed s.run.grammar s.run.furthest top)
    (hb : ∀ f ∈ below, SafeFrame env known allowed s.run.grammar s.run.furthest f)
    (hm : Merges q s t) {a : Action} (hflaws : Expr.actionFlaws a = [])
    (hcustom : ∀ host, a ≠ .custom host) :
    Corresponds q (act env s top below a) (act env' t top' rest a) := by
  have htrace := h.trace (.action a.render) (.action a.render)
  have hsafe := hs.trace (.action a.render)
  have hmerges : Merges q (s.trace (.action a.render)) (t.trace (.action a.render)) :=
    ⟨hm.aligned.trace _ _, by simpa using hm.frames⟩
  have emitted (output : List Value) := htrace.merges
    (htrace.top.change ({ · with output := output }) rfl rfl fun _ _ => rfl)
  unfold act
  simp only [h.top.output_eq, hi.input_eq]
  cases a with
  | insert values =>
    exact htrace.merges (htrace.top.change (·.capture values.reverse) rfl rfl fun _ _ => rfl)
  | insertText text =>
    have hspan : (env.input.span? top.cursor top.cursor).isSome :=
      Input.span?_isSome ht.cursor_nonneg (by
        have := ht.cursor_le
        have := hs.run.furthest_le
        omega)
    obtain ⟨span, hspan⟩ := Option.isSome_iff_exists.1 hspan
    simp only [h.top.cursor_eq, hspan]
    exact htrace.merges (htrace.top.change (·.capture _) rfl rfl fun _ _ => rfl)
  | convert f =>
    cases f with
    | none => simp [Expr.actionFlaws] at hflaws
    | some f =>
      simp only
      split
      · refine raise_corresponds hi (emitted _) (hsafe.withFrames ?_ ?_) _ <;> rw [trace_run]
        · exact ht.emit _
        · exact hb
      · exact emitted _
  | modify f =>
    cases f with
    | none => simp [Expr.actionFlaws] at hflaws
    | some f =>
      cases top.output with
      | nil => exact hmerges
      | cons last output =>
        simp only
        split
        · exact raise_corresponds hi hmerges hsafe _
        · exact emitted _
  | note key datum =>
    cases top.output with
    | nil => exact hmerges
    | cons last output => exact emitted _
  | clear => exact emitted _
  | custom host => exact absurd rfl (hcustom host)
  | throw datum => exact raise_corresponds hi hmerges hsafe _
  | log args =>
    obtain ⟨⟨hc, hg, hst, hx, hf, hn, hl⟩, hframes⟩ := hmerges
    exact ⟨⟨hc, hg, hst, hx, hf, hn, hl⟩, hframes⟩
  | unknown => exact abort_corresponds hmerges hsafe _

private theorem evaluate_corresponds (hi : Inlines q env env')
    (hcustom : ∀ host, ¬allowed (.custom host)) (h : Facing q s t top below top' rest)
    (hs : Safe env known allowed s)
    (ht : SafeFrame env known allowed s.run.grammar s.run.furthest top)
    (hb : ∀ f ∈ below, SafeFrame env known allowed s.run.grammar s.run.furthest f)
    (hne : top.pending ≠ []) :
    Corresponds q (evaluate env s top below) (evaluate env' t top' rest) := by
  obtain ⟨e, items, hp⟩ := List.exists_cons_of_ne_nil hne
  have hitems := ht.pending
  rw [hp] at hitems
  have he := hitems e (by simp)
  have hp' : top'.pending = e.qualify q s.run.grammar :: Expr.qualifyAll q s.run.grammar items := by
    rw [h.top.pending_eq, hp, Expr.qualifyAll]
  -- in all cases but a reference the item has left the frame
  have hrest : ∀ e ∈ items, Sound env.family known allowed s.run.grammar e :=
    fun e hm => hitems e (by simp [hm])
  have hleft := ht.await hrest
  have hs' := hs.withFrames hleft hb
  have hleft' := h.top.await items
  have h' := h.withTop hleft' ({ top with pending := items } :: below)
    ({ top' with pending := Expr.qualifyAll q s.run.grammar items } :: rest)
  have hm := h.merges hleft'
  have hcursor : top.cursor ≤ env.input.size := by
    have := ht.cursor_le
    have := hs.run.furthest_le
    omega
  have hcursor' := h.top.cursor_eq
  have tried {attempt : Attempt} (hw : attempt.Within top.cursor env.input.size) :
      attempt ≠ .fault := by
    rintro rfl
    exact hw
  unfold evaluate
  rw [hp, hp']
  cases e with
  | missing => exact absurd he.flawless.present (by simp [Expr.isMissing])
  | literal text =>
    have hattempt : env'.input.tryLiteral top'.cursor text = env.input.tryLiteral top.cursor text := by
      rw [hi.input_eq, hcursor']
    exact leaf_corresponds h' _ _ hattempt
      (tried (Input.tryLiteral_within _ ht.cursor_nonneg hcursor))
  | pattern p =>
    have hattempt : env'.input.tryPattern top'.cursor p = env.input.tryPattern top.cursor p := by
      rw [hi.input_eq, hcursor']
    exact leaf_corresponds h' _ _ hattempt
      (tried (Input.tryPattern_within _ ht.cursor_nonneg hcursor))
  | rule name =>
    obtain ⟨body, hbody⟩ := Option.isSome_iff_exists.1 (he.rule name (Expr.mem_parts_self _ rfl))
    have hfound : (s.grammar env).rule? name = some body := hbody
    have hfound' : (t.grammar env').rule? (q.name s.run.grammar name) =
        some (body.qualify q s.run.grammar) := by
      have := hi.rule hbody
      rwa [← h.aligned.grammar_eq] at this
    simp only [Expr.qualify, hfound, hfound']
    have htrace := h.trace (.rule name) (.rule (q.name s.run.grammar name))
    refine htrace.merges ?_
    rw [trace_run]
    exact h.top.await (body :: items)
  | sequence items' => exact enter_corresponds h' (.inl rfl) items'
  | choice items' => exact enter_corresponds h' (.inl rfl) items'
  | wrap name items' => exact enter_corresponds h' (.inl rfl) items'
  | hide items' => exact enter_corresponds h' (.inl rfl) items'
  | iterate kind item =>
    refine enter_corresponds h' ?_ [item]
    simp only [hcursor']
    cases kind <;> exact .inl rfl
  | action a =>
    have ha := he.action a (Expr.mem_parts_self _ rfl)
    exact act_corresponds hi h' hs' hleft hb hm he.flawless.flaws_eq
      fun host heq => hcustom host (heq ▸ ha)
  | embed grammar main =>
    cases grammar with
    | none => exact absurd he.flawless.flaws_eq (by simp [Expr.flaws])
    | some inner =>
      obtain ⟨hk, g, hg, hmain⟩ := he.embed inner main (Expr.mem_parts_self _ rfl)
      exact embed_corresponds h' hleft hg hmain hs.run.settled rfl

end

private theorem step_corresponds
    (hi : Inlines q env env') (hcustom : ∀ host, ¬allowed (.custom host))
    (hs : Safe env known allowed s) (h : Merges q s t) :
    Corresponds q (step env s) (step env' t) := by
  unfold step
  have hlimit := h.aligned.limits s.run (by simp)
  simp only [← hlimit, h.aligned.steps_eq]
  split
  · exact abort_corresponds h hs _
  have hs' : Safe env known allowed { s with steps := s.steps + 1 } := ⟨hs.run, hs.callers⟩
  have ha := h.aligned.counted
  rw [h.aligned.steps_eq] at ha
  obtain ⟨top, below, hf⟩ := List.exists_cons_of_ne_nil hs.run.nonempty
  have hall := hs.run.frames
  rw [hf] at hall
  have hframes := h.frames
  rw [stacked, hf, placed, List.cons_append, List.forall₂_cons_left_iff] at hframes
  obtain ⟨top', rest, htop, hrest, hf'⟩ := hframes
  have hm : Merges q { s with steps := s.steps + 1 } { t with steps := s.steps + 1 } :=
    ⟨ha, h.frames⟩
  simp only [hf, hf', hi.input_eq, htop.isComplete_eq]
  split
  -- a complete frame folds in both machines, except that a bottom frame may end a run of the family
  · cases below with
    | cons parent below =>
      rw [placed, List.cons_append, List.forall₂_cons_left_iff] at hrest
      obtain ⟨parent', rest, hparent, hrest, rfl⟩ := hrest
      obtain ⟨f, hfold, -⟩ := (hall top (by simp)).fold hs.run.furthest_le (hall parent (by simp))
      have hfacing : Facing q { s with steps := s.steps + 1 } { t with steps := s.steps + 1 }
          parent below parent' rest := ⟨ha, hparent, hrest⟩
      exact fold_corresponds hi hfacing htop hfold
    | nil =>
      by_cases hc : s.callers = []
      · rw [hc] at hrest
        cases hrest
        exact finish_corresponds hi hs' hm htop hc
      · obtain ⟨caller, callers, hc⟩ := List.exists_cons_of_ne_nil hc
        have hcaller := hs.callers caller (by simp [hc])
        obtain ⟨parent, below, hparent⟩ := List.exists_cons_of_ne_nil hcaller.nonempty
        rw [hc, placed, List.nil_append] at hrest
        obtain ⟨parent', rest, rfl⟩ : ∃ parent' rest', rest = parent' :: rest' := by
          rw [stacked, hparent, placed, List.cons_append, List.forall₂_cons_left_iff] at hrest
          obtain ⟨parent', rest', -, -, hr⟩ := hrest
          exact ⟨parent', rest', hr⟩
        exact finish_inner_corresponds hi hs' ha htop hc hrest
  · next hc =>
    have hb : ∀ f ∈ below, SafeFrame env known allowed s.run.grammar s.run.furthest f :=
      fun f hm => hall f (by simp [hm])
    have htop' := (hall top (by simp)).restart
    have hfacing : Facing q { s with steps := s.steps + 1 } { t with steps := s.steps + 1 }
        top below top' rest := ⟨ha, htop, hrest⟩
    exact evaluate_corresponds hi hcustom (hfacing.withTop htop.restart _ _)
      (hs'.withFrames htop' hb) htop' hb (restart_pending (by simpa using hc))

/-- Corresponding states lead to the same ending, after the same number of steps. -/
theorem run_corresponds (hi : Inlines q env env') (hr : SoundRules env.family known allowed)
    (hcustom : ∀ host, ¬allowed (.custom host)) (fuel : Nat) (hs : Safe env known allowed s)
    (h : Merges q s t) :
    (run env' fuel t).map (fun r => (r.2, r.1.steps, r.1.run.furthest)) =
      (run env fuel s).map fun r => (r.2, r.1.steps, r.1.run.furthest) := by
  induction fuel generalizing s t with
  | zero => rfl
  | succ fuel ih =>
    have hstep := step_corresponds hi hcustom hs h
    have hkeeps := step_keeps hr hcustom hs
    rw [run, run]
    cases hp : step env s with
    | next s' =>
      cases hp' : step env' t with
      | next t' =>
        rw [hp, hp'] at hstep
        rw [hp] at hkeeps
        exact ih hkeeps hstep
      | stop t' ending' =>
        rw [hp, hp'] at hstep
        exact hstep.elim
    | stop s' ending =>
      cases hp' : step env' t with
      | next t' =>
        rw [hp, hp'] at hstep
        exact hstep.elim
      | stop t' ending' =>
        rw [hp, hp'] at hstep
        obtain ⟨rfl, hsteps, hfurthest⟩ := hstep
        simp [hsteps, hfurthest]

end

/-- What a match is about: how it ends, the number of its steps, and how far it got. -/
def Report.outcome (r : Report) : Ending × Nat × Int := (r.ending, r.steps, r.furthest)

/-- Embedding is inlining: a family of checked grammars and the single grammar made of them match
every input in the same way, with the same values or error and in the same number of steps. -/
theorem match_merged (q : Naming) (family : Family) (host : Host) (config : Config) (id fuel : Nat)
    (input : Input) (hdefined : ∀ g ∈ family, g.Defined) (hclosed : family.Closed)
    (hcheck : ∀ id, family.check id = none)
    (hcustom : ∀ id, ∀ rule ∈ (family.grammarAt id).rules, ∀ host,
      .action (.custom host) ∉ rule.2.parts)
    (hmain : ((family.grammarAt id).rule? config.main).isSome) :
    (matchInput fuel [family.merged q] host { config with main := q.name id config.main } 0
        input).map Report.outcome =
      (matchInput fuel family host config id input).map Report.outcome := by
  have hclean := Family.clean_of_checks hcheck hclosed
  have hproper (id : Nat) : Grammar.Proper (family.grammarAt id).rules :=
    (Family.defined_grammarAt hdefined id).proper (hclean id).errors_eq
  obtain ⟨body, hbody⟩ := Option.isSome_iff_exists.1 hmain
  have hmain' : ((family[id]?).getD {}).rule? config.main = some body := hbody
  have hmerged : (family.merged q).rule? (q.name id config.main) = some (body.qualify q id) :=
    Family.rule?_merged hproper hbody
  have hcheck' := Family.check_of_clean (Family.clean_merged (q := q) hproper hclean) 0
  simp only [matchInput, hcheck, hcheck', hmain', List.getElem?_cons_zero, Option.getD_some, hmerged,
    Option.map_map]
  have hi : Inlines q (environment family host input) (environment [family.merged q] host input) :=
    ⟨rfl, fun he => Family.rule?_merged hproper he⟩
  have hr : SoundRules family (fun _ => True) (fun a => ∀ host, a ≠ .custom host) :=
    soundRules_of_clean hdefined (fun id _ => hclean id) (fun _ _ _ _ _ _ _ => trivial)
      fun id _ rule hr a hm host heq => hcustom id rule hr host (heq ▸ hm)
  have hs : Safe (environment family host input) (fun _ => True)
      (fun a => ∀ host, a ≠ .custom host) (initial config id) :=
    ⟨.start trivial (settled_terms config) hmain (Int.le_refl 0) input.size_nonneg, by simp [initial]⟩
  have hm : Merges q (initial config id)
      (initial { config with main := q.name id config.main } 0) := by
    refine ⟨⟨rfl, rfl, rfl, rfl, rfl, trivial, by simp [initial, Run.start, Config.terms]⟩,
      .cons ⟨fun _ => rfl, .root, .inl rfl, ?_⟩ .nil⟩
    simp only [Frame.enter, Frame.recast, Expr.qualifyAll, Expr.qualify]
    rfl
  exact run_corresponds hi hr (fun host h => h host rfl) fuel hs hm

/-- Names that start with as many hyphens as the number of the grammar says. -/
def hyphenated : Naming where
  name id rule := List.replicate id Ascii.hyphen ++ Ascii.newline :: rule
  nonempty id rule := by simp
  injective := by
    intro id id' rule rule' h
    induction id generalizing id' with
    | zero =>
      cases id' with
      | zero => exact ⟨rfl, (List.cons.inj h).2⟩
      | succ id' => exact absurd (List.cons.inj h).1 (by decide)
    | succ id ih =>
      cases id' with
      | zero => exact absurd (List.cons.inj h).1 (by decide)
      | succ id' =>
        obtain ⟨rfl, hr⟩ := ih (List.cons.inj h).2
        exact ⟨rfl, hr⟩

/-- A grammar that embeds itself runs as one that uses its own main rule. -/
theorem match_merged_nested : (∀ g ∈ nested, g.Defined) ∧ nested.Closed ∧
    (matchInput 100 nested Host.idle {} 0 (.text "[w[w]]")).isSome ∧
    (matchInput 100 [nested.merged hyphenated] Host.idle
        { main := hyphenated.name 0 "main" } 0 (.text "[w[w]]")).map Report.outcome =
      (matchInput 100 nested Host.idle {} 0
        (.text "[w[w]]")).map Report.outcome := by
  have hcheck (id : Nat) : nested.check id = none := by
    cases id <;> rfl
  refine ⟨defined_nested, closed_nested, rfl, ?_⟩
  exact match_merged hyphenated nested Host.idle {} 0 100
    (.text "[w[w]]") defined_nested closed_nested hcheck
    (fun id rule hr host hm => plain_nested id rule hr _ hm) rfl

end PegMachine.Machine
