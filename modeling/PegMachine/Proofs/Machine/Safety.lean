import PegMachine.Proofs.Grammar.Checked
import PegMachine.Proofs.Grammar.Defined
import PegMachine.Proofs.Input
import PegMachine.Proofs.Machine.Steps
import PegMachine.Proofs.Machine.Terms

namespace PegMachine.Machine

/-- An expression that grammar `id` can evaluate: nothing is wrong with it, the rules it uses are
there, in grammars out of `known`, and its actions are allowed. -/
structure Sound (family : Family) (known : Nat → Prop) (allowed : Action → Prop) (id : Nat)
    (e : Expr) : Prop where
  flawless : e.Flawless
  rule : ∀ name, .rule name ∈ e.parts → ((family.grammarAt id).rule? name).isSome
  embed : ∀ inner main, .embed (some inner) main ∈ e.parts →
    known inner ∧ ∃ g, family[inner]? = some g ∧ (g.rule? main).isSome
  action : ∀ a, .action a ∈ e.parts → allowed a

/-- Grammars out of `known` have only rules that they can evaluate. -/
def SoundRules (family : Family) (known : Nat → Prop) (allowed : Action → Prop) : Prop :=
  ∀ id, known id → ∀ rule ∈ (family.grammarAt id).rules, Sound family known allowed id rule.2

/-- The endings that are meant to be. -/
def Ending.Expected : Ending → Prop
  | .values .. => True
  | .error (.failure _) _ => True
  | .error (.limit _) _ => True
  | _ => False

/-- The offsets of a failure in a text are in order and inside of the text. -/
def Failure.Within (input : Input) (f : Failure) : Prop :=
  ∀ source, input = .text source →
    0 ≤ f.offset ∧ f.offset ≤ f.furthest ∧ f.furthest ≤ source.length

/-- The ending is no fault, and a failure is at a place inside of the input. -/
def Ending.Within (input : Input) : Ending → Prop
  | .fault => False
  | .error (.failure f) _ => Failure.Within input f
  | _ => True

section

variable (env : Env) (known : Nat → Prop) (allowed : Action → Prop)

/-- A frame of a run of grammar `id` that has got as far as `furthest`. -/
structure SafeFrame (id : Nat) (furthest : Int) (f : Frame) : Prop where
  pending : ∀ e ∈ f.pending, Sound env.family known allowed id e
  loop : ∀ quota item mark, f.kind = .loop quota item mark → Sound env.family known allowed id item
  start_nonneg : 0 ≤ f.start
  start_le : f.start ≤ furthest
  cursor_nonneg : 0 ≤ f.cursor
  cursor_le : f.cursor ≤ furthest

structure SafeRun (r : Run) : Prop where
  grammar : known r.grammar
  settled : r.terms.Settled
  nonempty : r.stack.frames ≠ []
  frames : ∀ f ∈ r.stack.frames, SafeFrame env known allowed r.grammar r.furthest f
  furthest_le : r.furthest ≤ env.input.size

/-- The invariant of all runs. -/
structure Safe (s : State) : Prop where
  run : SafeRun env known allowed s.run
  callers : ∀ r ∈ s.callers, SafeRun env known allowed r

/-- A step keeps the invariant or ends within the input, and as expected if all actions are
known. -/
def Keeps : Progress → Prop
  | .next s => Safe env known allowed s
  | .stop _ ending => ending.Within env.input ∧ (¬allowed .unknown → ending.Expected)

end

section

variable {env : Env} {known : Nat → Prop} {allowed : Action → Prop}

theorem Sound.child {id : Nat} {e child : Expr} (h : Sound env.family known allowed id e)
    (hc : child ∈ e.children) : Sound env.family known allowed id child where
  flawless := h.flawless.child hc
  rule name hm := h.rule name (Expr.mem_parts_of_child e child _ hc hm)
  embed inner main hm := h.embed inner main (Expr.mem_parts_of_child e child _ hc hm)
  action a hm := h.action a (Expr.mem_parts_of_child e child _ hc hm)

namespace SafeFrame

variable {id : Nat} {furthest : Int} {f : Frame}

theorem mono (h : SafeFrame env known allowed id furthest f) {furthest' : Int}
    (hle : furthest ≤ furthest') : SafeFrame env known allowed id furthest' f :=
  ⟨h.pending, h.loop, h.start_nonneg, by have := h.start_le; omega, h.cursor_nonneg,
    by have := h.cursor_le; omega⟩

theorem fail (h : SafeFrame env known allowed id furthest f) :
    SafeFrame env known allowed id furthest f.fail :=
  ⟨h.pending, h.loop, h.start_nonneg, h.start_le, h.cursor_nonneg, h.cursor_le⟩

theorem succeed (h : SafeFrame env known allowed id furthest f) {cursor : Int} (hc : 0 ≤ cursor)
    (hle : cursor ≤ furthest) (output : List Value) :
    SafeFrame env known allowed id furthest (f.succeed cursor output) :=
  ⟨h.pending, h.loop, h.start_nonneg, h.start_le, hc, hle⟩

theorem emit (h : SafeFrame env known allowed id furthest f) (output : List Value) :
    SafeFrame env known allowed id furthest { f with output := output } :=
  ⟨h.pending, h.loop, h.start_nonneg, h.start_le, h.cursor_nonneg, h.cursor_le⟩

theorem count (h : SafeFrame env known allowed id furthest f) (matched : Int) :
    SafeFrame env known allowed id furthest { f with matched := matched } :=
  ⟨h.pending, h.loop, h.start_nonneg, h.start_le, h.cursor_nonneg, h.cursor_le⟩

theorem await (h : SafeFrame env known allowed id furthest f) {items : List Expr}
    (hi : ∀ e ∈ items, Sound env.family known allowed id e) :
    SafeFrame env known allowed id furthest { f with pending := items } :=
  ⟨hi, h.loop, h.start_nonneg, h.start_le, h.cursor_nonneg, h.cursor_le⟩

theorem restart (h : SafeFrame env known allowed id furthest f) :
    SafeFrame env known allowed id furthest f.restart := by
  unfold Frame.restart
  split
  · next quota item mark hk hp =>
    have hitem := h.loop quota item mark hk
    refine ⟨?_, ?_, h.start_nonneg, h.start_le, h.cursor_nonneg, h.cursor_le⟩
    · intro e he
      exact List.mem_singleton.1 he ▸ hitem
    · rintro _ _ _ hk'
      cases hk'
      exact hitem
  · exact h

theorem ite {c : Prop} [Decidable c] {f g : Frame} (hf : SafeFrame env known allowed id furthest f)
    (hg : SafeFrame env known allowed id furthest g) :
    SafeFrame env known allowed id furthest (if c then f else g) := by
  split
  · exact hf
  · exact hg

/-- Taking a child in is possible and leaves a safe frame. -/
theorem fold {child parent : Frame} (hf : furthest ≤ env.input.size)
    (hc : SafeFrame env known allowed id furthest child)
    (hp : SafeFrame env known allowed id furthest parent) :
    ∃ f, Frame.fold? env.input child parent = some f ∧
      SafeFrame env known allowed id furthest f := by
  have taken (output : List Value) := hp.succeed hc.cursor_nonneg hc.cursor_le output
  have emptied := hp.succeed hc.start_nonneg hc.start_le []
  unfold Frame.fold?
  cases child.kind with
  | root | sequence | choice | hide => exact ⟨_, rfl, hp.fail.ite (taken _)⟩
  | loop quota item mark => exact ⟨_, rfl, (taken _).ite hp.fail⟩
  | optional => exact ⟨_, rfl, emptied.ite (taken _)⟩
  | not => exact ⟨_, rfl, (hp.count _).ite hp.fail⟩
  | unknown => exact ⟨_, rfl, hp⟩
  | wrap name =>
    simp only
    split
    · exact ⟨_, rfl, hp.fail⟩
    · have hspan : (env.input.span? child.start child.cursor).isSome :=
        Input.span?_isSome hc.start_nonneg (by have := hc.cursor_le; omega)
      obtain ⟨span, hspan⟩ := Option.isSome_iff_exists.1 hspan
      exact ⟨_, by rw [hspan]; rfl, taken _⟩

end SafeFrame

namespace SafeRun

variable {r : Run}

theorem reach (h : SafeRun env known allowed r) {cursor : Int} (hc : cursor ≤ env.input.size) :
    SafeRun env known allowed (r.reach cursor) where
  grammar := h.grammar
  settled := h.settled
  nonempty := h.nonempty
  frames f hf := (h.frames f hf).mono (Int.le_max_left _ _)
  furthest_le := Int.max_le.2 ⟨h.furthest_le, hc⟩

theorem withFrames (h : SafeRun env known allowed r) {frames : List Frame} (hne : frames ≠ [])
    (hf : ∀ f ∈ frames, SafeFrame env known allowed r.grammar r.furthest f) :
    SafeRun env known allowed { r with stack := { r.stack with frames := frames } } :=
  ⟨h.grammar, h.settled, hne, hf, h.furthest_le⟩

theorem rootCursor_within (h : SafeRun env known allowed r) :
    0 ≤ r.stack.rootCursor ∧ r.stack.rootCursor ≤ r.furthest := by
  unfold Stack.rootCursor
  split
  · next f hf =>
    have hsafe := h.frames f (List.mem_of_getLast? hf)
    exact ⟨hsafe.cursor_nonneg, hsafe.cursor_le⟩
  · next hf => exact absurd (List.getLast?_eq_none_iff.1 hf) h.nonempty

theorem furthest_nonneg (h : SafeRun env known allowed r) : 0 ≤ r.furthest := by
  obtain ⟨f, frames, hf⟩ := List.exists_cons_of_ne_nil h.nonempty
  have hsafe := h.frames f (by simp [hf])
  have := hsafe.cursor_nonneg
  have := hsafe.cursor_le
  omega

/-- A safe run has a position to report. -/
theorem position?_isSome (h : SafeRun env known allowed r) : (r.position? env.input).isSome := by
  obtain ⟨offset, ho⟩ := Option.isSome_iff_exists.1
    (env.input.offset?_isSome h.rootCursor_within.1)
  obtain ⟨furthest, hf⟩ := Option.isSome_iff_exists.1 (env.input.offset?_isSome h.furthest_nonneg)
  simp [Run.position?, ho, hf]

/-- In a text a safe run reports where it stands and how far it got. -/
theorem failureAt_within (h : SafeRun env known allowed r) {position : Int × Int}
    (hp : r.position? env.input = some position) (kind : FailureKind) (payload : Payload) :
    Failure.Within env.input (failureAt env.input kind payload position) := by
  intro source hsource
  rw [hsource] at hp ⊢
  obtain rfl := Option.some.inj hp
  obtain ⟨hnonneg, hle⟩ := h.rootCursor_within
  have hfurthest := h.furthest_le
  rw [hsource] at hfurthest
  exact ⟨hnonneg, hle, hfurthest⟩

/-- A payload ends all runs with a failure that the outermost one reports. -/
theorem raise?_within (payload : Payload) (h : SafeRun env known allowed r) {callers : List Run}
    (hc : ∀ r ∈ callers, SafeRun env known allowed r) :
    ∃ f run, raise? env.input payload r callers = some (f, run) ∧ Failure.Within env.input f := by
  obtain ⟨position, hp⟩ := Option.isSome_iff_exists.1 h.position?_isSome
  induction callers generalizing r position with
  | nil =>
    refine ⟨failureAt env.input .payload payload position, r, ?_, h.failureAt_within hp _ _⟩
    simp only [raise?, hp, Option.map_some]
  | cons caller callers ih =>
    simp only [raise?, hp]
    have hcaller := (hc caller (by simp)).reach h.furthest_le
    obtain ⟨position, hp⟩ := Option.isSome_iff_exists.1 hcaller.position?_isSome
    exact ih hcaller (fun r hr => hc r (by simp [hr])) position hp

theorem start {id : Nat} {main : Bytes} {exact : Bool} {terms : Terms} {cursor : Int}
    (hk : known id) (ht : terms.Settled) (hm : ((env.family.grammarAt id).rule? main).isSome)
    (hc : 0 ≤ cursor) (hle : cursor ≤ env.input.size) :
    SafeRun env known allowed (Run.start id main exact terms cursor) where
  grammar := hk
  settled := ht
  nonempty := by simp [Run.start]
  furthest_le := hle
  frames f hf := by
    obtain rfl := List.mem_singleton.1 hf
    refine ⟨fun e he => ?_, by simp [Frame.enter], hc, Int.le_refl _, hc, Int.le_refl _⟩
    obtain rfl := List.mem_singleton.1 he
    exact ⟨⟨rfl, rfl⟩, by simp [Expr.parts, Expr.visit, Run.start, hm],
      by simp [Expr.parts, Expr.visit], by simp [Expr.parts, Expr.visit]⟩

end SafeRun

namespace Safe

variable {s : State}

theorem trace (h : Safe env known allowed s) (e : Event) : Safe env known allowed (s.trace e) := by
  unfold State.trace
  split
  · exact ⟨h.run, h.callers⟩
  · exact h

theorem withFrames (h : Safe env known allowed s) {top : Frame} {below : List Frame}
    (ht : SafeFrame env known allowed s.run.grammar s.run.furthest top)
    (hb : ∀ f ∈ below, SafeFrame env known allowed s.run.grammar s.run.furthest f) :
    Safe env known allowed (s.withFrames (top :: below)) := by
  refine ⟨h.run.withFrames (by simp) fun f hf => ?_, h.callers⟩
  rcases List.mem_cons.1 hf with rfl | hf
  · exact ht
  · exact hb f hf

theorem reach (h : Safe env known allowed s) {cursor : Int} (hc : cursor ≤ env.input.size) :
    Safe env known allowed { s with run := s.run.reach cursor } :=
  ⟨h.run.reach hc, h.callers⟩

end Safe

section

variable {s : State} {top : Frame} {below : List Frame} {id : Nat} {furthest : Int}

private theorem raise_keeps (h : Safe env known allowed s) (payload : Payload) :
    Keeps env known allowed (raise env s payload) := by
  obtain ⟨f, run, hf, hwithin⟩ := h.run.raise?_within payload h.callers
  simp only [raise, hf]
  exact ⟨hwithin, fun _ => trivial⟩

private theorem resume_keeps (h : Safe env known allowed s) {caller : Run} {callers : List Run}
    (hc : s.callers = caller :: callers) {change : Frame → Frame}
    (hchange : ∀ {id furthest f}, s.run.furthest ≤ furthest →
      SafeFrame env known allowed id furthest f → SafeFrame env known allowed id furthest (change f)) :
    Keeps env known allowed (resume s caller callers change) := by
  have hall := h.callers
  rw [hc] at hall
  have hrun := (hall caller (by simp)).reach h.run.furthest_le
  refine ⟨?_, fun r hr => hall r (by simp [hr])⟩
  obtain ⟨f, frames, hf⟩ := List.exists_cons_of_ne_nil hrun.nonempty
  have hfs := hrun.frames
  simp only [Stack.updateTop, hf] at hfs ⊢
  refine hrun.withFrames (by simp) ?_
  intro g hg
  rcases List.mem_cons.1 hg with rfl | hg
  · exact hchange (Int.le_max_right _ _) (hfs f (by simp))
  · exact hfs g (by simp [hg])

private theorem finish_keeps (h : Safe env known allowed s)
    (hr : SafeFrame env known allowed s.run.grammar s.run.furthest top) :
    Keeps env known allowed (finish env s top) := by
  have ht := h.trace (.finish (!top.failed) top.cursor)
  unfold finish
  simp only
  split
  · obtain ⟨position, hp⟩ := Option.isSome_iff_exists.1 ht.run.position?_isSome
    simp only [hp]
    split
    · exact ⟨ht.run.failureAt_within hp _ _, fun _ => trivial⟩
    · next caller callers hc => exact resume_keeps ht hc fun _ hf => hf.fail
  · split
    · exact ⟨trivial, fun _ => trivial⟩
    · next caller callers hc =>
      refine resume_keeps ht hc fun hle hf => hf.succeed hr.cursor_nonneg ?_ _
      have := hr.cursor_le
      rw [trace_run] at hle
      omega

private theorem fold_keeps (h : Safe env known allowed s) {child parent : Frame}
    (hc : SafeFrame env known allowed s.run.grammar s.run.furthest child)
    (hp : SafeFrame env known allowed s.run.grammar s.run.furthest parent)
    (hb : ∀ f ∈ below, SafeFrame env known allowed s.run.grammar s.run.furthest f) :
    Keeps env known allowed (fold env s child parent below) := by
  obtain ⟨f, hf, hsafe⟩ := hc.fold h.run.furthest_le hp
  simp only [fold, hf]
  exact (h.withFrames hsafe hb).trace _

private theorem leaf_keeps (h : Safe env known allowed s)
    (ht : SafeFrame env known allowed s.run.grammar s.run.furthest top)
    (hb : ∀ f ∈ below, SafeFrame env known allowed s.run.grammar s.run.furthest f) (e : Expr)
    {attempt : Attempt} (hw : attempt.Within top.cursor env.input.size) :
    Keeps env known allowed (leaf s top below e attempt) := by
  have hcursor : top.cursor ≤ env.input.size := by
    have := ht.cursor_le
    have := h.run.furthest_le
    omega
  have hreach (ok : Bool) := (h.reach hcursor).trace (.attempt ok e.render)
  match attempt, hw with
  | .mismatch, _ =>
    simp only [leaf, Keeps]
    refine (hreach false).withFrames ?_ ?_ <;> simp only [trace_run, reach_grammar, reach_furthest]
    · exact ht.fail.mono (Int.le_max_left _ _)
    · exact fun f hf => (hb f hf).mono (Int.le_max_left _ _)
  | .success value next, hw =>
    obtain ⟨hge, hle⟩ := hw
    have hpast : s.run.furthest ≤ max (max s.run.furthest top.cursor) next := by omega
    have hnonneg := ht.cursor_nonneg
    simp only [leaf, Keeps]
    refine ((hreach true).reach hle).withFrames ?_ ?_ <;>
      simp only [trace_run, reach_grammar, reach_furthest]
    · exact (ht.mono hpast).succeed (by omega) (by omega) _
    · exact fun f hf => (hb f hf).mono hpast

private theorem enter_keeps (h : Safe env known allowed s)
    (ht : SafeFrame env known allowed s.run.grammar s.run.furthest top)
    (hb : ∀ f ∈ below, SafeFrame env known allowed s.run.grammar s.run.furthest f) {kind : Kind}
    {items : List Expr} (hi : ∀ e ∈ items, Sound env.family known allowed s.run.grammar e)
    (hk : ∀ quota item mark, kind = .loop quota item mark → item ∈ items) :
    Keeps env known allowed (enter s top below kind items) := by
  have hnew : SafeFrame env known allowed s.run.grammar s.run.furthest
      (Frame.enter kind top.cursor items) :=
    ⟨hi, fun quota item mark hl => hi item (hk quota item mark hl), ht.cursor_nonneg, ht.cursor_le,
      ht.cursor_nonneg, ht.cursor_le⟩
  refine (h.withFrames hnew fun f hf => ?_).trace _
  rcases List.mem_cons.1 hf with rfl | hf
  · exact ht
  · exact hb f hf

private theorem embed_keeps (h : Safe env known allowed s)
    (ht : SafeFrame env known allowed s.run.grammar s.run.furthest top) {inner : Nat} {main : Bytes}
    (hk : known inner) {g : Grammar} (hg : env.family[inner]? = some g)
    (hm : (g.rule? main).isSome) : Keeps env known allowed (embed env s top (some inner) main) := by
  have hat : env.family.grammarAt inner = g := by simp [Family.grammarAt, hg]
  have hcursor : top.cursor ≤ env.input.size := by
    have := ht.cursor_le
    have := h.run.furthest_le
    omega
  obtain ⟨body, hbody⟩ := Option.isSome_iff_exists.1 hm
  have htrace := h.trace (.embed main)
  have hsettled := h.run.settled
  simp only [embed, Family.grammar?, Option.bind_some, hg, hbody, inside?_eq hsettled]
  refine ⟨.start hk (hsettled.inside main) (hat ▸ hm) ht.cursor_nonneg hcursor, ?_⟩
  intro r hr
  rcases List.mem_cons.1 hr with rfl | hr
  · exact htrace.run
  · exact htrace.callers r hr

/-- Actions work on the output of the top frame, or end all runs. -/
theorem act_keeps (h : Safe env known allowed s)
    (ht : SafeFrame env known allowed s.run.grammar s.run.furthest top)
    (hb : ∀ f ∈ below, SafeFrame env known allowed s.run.grammar s.run.furthest f) {a : Action}
    (hflaws : Expr.actionFlaws a = []) (ha : allowed a) (hcustom : ∀ host, a ≠ .custom host) :
    Keeps env known allowed (act env s top below a) := by
  have htrace := h.trace (.action a.render)
  have emitted (output : List Value) : Safe env known allowed
      ((s.trace (.action a.render)).withFrames ({ top with output := output } :: below)) := by
    refine htrace.withFrames ?_ ?_ <;> rw [trace_run]
    · exact ht.emit output
    · exact hb
  unfold act
  simp only
  cases a with
  | insert values => exact emitted _
  | insertText text =>
    have hspan : (env.input.span? top.cursor top.cursor).isSome :=
      Input.span?_isSome ht.cursor_nonneg (by
        have := ht.cursor_le
        have := h.run.furthest_le
        omega)
    obtain ⟨span, hspan⟩ := Option.isSome_iff_exists.1 hspan
    simp only [hspan]
    exact emitted _
  | convert f =>
    cases f with
    | none => simp [Expr.actionFlaws] at hflaws
    | some f =>
      simp only
      split
      · exact raise_keeps (emitted _) _
      · exact emitted _
  | modify f =>
    cases f with
    | none => simp [Expr.actionFlaws] at hflaws
    | some f =>
      simp only
      split
      · exact htrace
      · next heq => cases heq
      · next last output _ heq =>
        cases heq
        split
        · exact raise_keeps htrace _
        · exact emitted _
  | note key datum =>
    simp only
    split
    · exact htrace
    · exact emitted _
  | clear => exact emitted _
  | custom host => exact absurd rfl (hcustom host)
  | throw datum => exact raise_keeps htrace _
  | log args => exact ⟨htrace.run, htrace.callers⟩
  | unknown => exact ⟨trivial, fun hno => absurd ha hno⟩

private theorem evaluate_keeps
    (hr : SoundRules env.family known allowed) (h : Safe env known allowed s)
    (ht : SafeFrame env known allowed s.run.grammar s.run.furthest top)
    (hb : ∀ f ∈ below, SafeFrame env known allowed s.run.grammar s.run.furthest f)
    (hne : top.pending ≠ []) (hcustom : ∀ host rest, top.pending ≠ .action (.custom host) :: rest) :
    Keeps env known allowed (evaluate env s top below) := by
  obtain ⟨e, rest, hp⟩ := List.exists_cons_of_ne_nil hne
  have hitems := ht.pending
  rw [hp] at hitems
  have he := hitems e (by simp)
  have hrest : ∀ e ∈ rest, Sound env.family known allowed s.run.grammar e :=
    fun e hm => hitems e (by simp [hm])
  have hcursor : top.cursor ≤ env.input.size := by
    have := ht.cursor_le
    have := h.run.furthest_le
    omega
  -- in all cases but a reference the item has left the frame
  have hleft := ht.await hrest
  have hs := h.withFrames hleft hb
  have entered {kind : Kind} {items : List Expr} (hi : ∀ item ∈ items, item ∈ e.children)
      (hk : ∀ quota item mark, kind = .loop quota item mark → item ∈ items) :=
    enter_keeps hs hleft hb (fun item hm => he.child (hi item hm)) hk
  unfold evaluate
  rw [hp]
  cases e with
  | missing => exact absurd he.flawless.present (by simp [Expr.isMissing])
  | literal text => exact leaf_keeps hs hleft hb _ (Input.tryLiteral_within _ ht.cursor_nonneg hcursor)
  | pattern p => exact leaf_keeps hs hleft hb _ (Input.tryPattern_within _ ht.cursor_nonneg hcursor)
  | rule name =>
    obtain ⟨body, hbody⟩ := Option.isSome_iff_exists.1 (he.rule name (Expr.mem_parts_self _ rfl))
    have hbody' : (s.grammar env).rule? name = some body := hbody
    simp only [hbody']
    have hsound := hr s.run.grammar h.run.grammar _ (Grammar.mem_rules_of_rule? _ name body hbody)
    refine (h.trace (.rule name)).withFrames ?_ ?_ <;> rw [trace_run]
    · refine ht.await ?_
      intro e hm
      rcases List.mem_cons.1 hm with rfl | hm
      · exact hsound
      · exact hrest e hm
    · exact hb
  | sequence items => exact entered (fun _ h => h) (by simp)
  | choice items => exact entered (fun _ h => h) (by simp)
  | wrap name items => exact entered (fun _ h => h) (by simp)
  | hide items => exact entered (fun _ h => h) (by simp)
  | iterate kind item =>
    refine entered (fun _ h => h) ?_
    intro quota item' mark hk
    cases kind <;> cases hk <;> simp
  | action a =>
    have ha := he.action a (Expr.mem_parts_self _ rfl)
    exact act_keeps hs hleft hb he.flawless.flaws_eq ha fun host heq => hcustom host rest (heq ▸ hp)
  | embed grammar main =>
    cases grammar with
    | none => exact absurd he.flawless.flaws_eq (by simp [Expr.flaws])
    | some inner =>
      obtain ⟨hk, g, hg, hm⟩ := he.embed inner main (Expr.mem_parts_self _ rfl)
      exact embed_keeps hs hleft hk hg hm

theorem restart_pending {f : Frame} {size : Int} (h : f.isComplete size = false) :
    f.restart.pending ≠ [] := by
  unfold Frame.restart
  split
  · simp
  · next hno =>
    intro hp
    cases hk : f.kind with
    | loop quota item mark => exact hno quota item mark hk hp
    | root | sequence | choice | optional | not | wrap | hide | unknown =>
      simp [Frame.isComplete, hk, hp] at h

/-- A step keeps the invariant unless it calls the host, which may do anything to the stack. -/
theorem step_keeps_of_pending (hr : SoundRules env.family known allowed)
    (h : Safe env known allowed s)
    (hcustom : ∀ top below, s.run.stack.frames = top :: below →
      top.isComplete env.input.size = false →
      ∀ host rest, top.restart.pending ≠ .action (.custom host) :: rest) :
    Keeps env known allowed (step env s) := by
  unfold step
  split
  · exact ⟨trivial, fun _ => trivial⟩
  have hs : Safe env known allowed { s with steps := s.steps + 1 } := ⟨h.run, h.callers⟩
  obtain ⟨top, below, hf⟩ := List.exists_cons_of_ne_nil h.run.nonempty
  have hall := h.run.frames
  rw [hf] at hall
  have htop := hall top (by simp)
  simp only [hf]
  split
  · cases below with
    | nil => exact finish_keeps hs htop
    | cons parent below =>
      exact fold_keeps hs htop (hall parent (by simp)) fun f hm => hall f (by simp [hm])
  · next hc =>
    have hb : ∀ f ∈ below, SafeFrame env known allowed s.run.grammar s.run.furthest f :=
      fun f hm => hall f (by simp [hm])
    have hc' : top.isComplete env.input.size = false := by simpa using hc
    exact evaluate_keeps hr (hs.withFrames htop.restart hb) htop.restart hb (restart_pending hc')
      (hcustom top below hf hc')

/-- An action that is not allowed is not evaluated. -/
theorem Safe.pending_ne_action (h : Safe env known allowed s) {a : Action} (ha : ¬allowed a)
    (hf : s.run.stack.frames = top :: below) (rest : List Expr) :
    top.restart.pending ≠ .action a :: rest := by
  intro hp
  have hsound := (h.run.frames top (by simp [hf])).restart.pending (.action a) (by simp [hp])
  exact ha (hsound.action _ (Expr.mem_parts_self _ rfl))

/-- Without custom actions every step keeps the invariant or ends as expected. -/
theorem step_keeps (hr : SoundRules env.family known allowed)
    (hcustom : ∀ host, ¬allowed (.custom host)) (h : Safe env known allowed s) :
    match step env s with
    | .next t => Safe env known allowed t
    | .stop _ ending => ¬allowed .unknown → ending.Expected := by
  have hk : Keeps env known allowed (step env s) :=
    step_keeps_of_pending hr h fun _ _ hf _ host rest => h.pending_ne_action (hcustom host) hf rest
  cases hstep : step env s with
  | next t =>
    rw [hstep] at hk
    exact hk
  | stop t ending =>
    rw [hstep] at hk
    exact hk.2

theorem Safe.steps (hr : SoundRules env.family known allowed)
    (hcustom : ∀ host, ¬allowed (.custom host)) {n : Nat} {t : State} (h : Safe env known allowed s)
    (hsteps : Steps env n s t) : Safe env known allowed t := by
  induction hsteps with
  | refl s => exact h
  | head hstep _ ih =>
    have hk := step_keeps hr hcustom h
    rw [hstep] at hk
    exact ih hk

end

end

/-- Clean grammars, with nothing but allowed actions, have only rules that they can evaluate. -/
theorem soundRules_of_clean {family : Family} {known : Nat → Prop} {allowed : Action → Prop}
    (hdefined : ∀ g ∈ family, g.Defined) (hclean : ∀ id, known id → family.Clean id)
    (hembed : ∀ id, known id → ∀ rule ∈ (family.grammarAt id).rules, ∀ inner main,
      .embed (some inner) main ∈ rule.2.parts → known inner)
    (hactions : ∀ id, known id → ∀ rule ∈ (family.grammarAt id).rules,
      ∀ a, .action a ∈ rule.2.parts → allowed a) :
    SoundRules family known allowed := by
  intro id hid rule hr
  have hproper := (Family.defined_grammarAt hdefined id).proper (hclean id hid).errors_eq
  refine ⟨hproper.flawless rule hr, (hclean id hid).rule rule hr, fun inner main hm => ?_,
    hactions id hid rule hr⟩
  exact ⟨hembed id hid rule hr inner main hm, (hclean id hid).embed rule hr inner main hm⟩

/-- The cursors of a state are inside of the input, in all of its runs, and no stack is empty. -/
def InBounds (input : Input) (s : State) : Prop :=
  ∀ r ∈ s.run :: s.callers, r.stack.frames ≠ [] ∧ 0 ≤ r.furthest ∧ r.furthest ≤ input.size ∧
    ∀ f ∈ r.stack.frames, 0 ≤ f.cursor ∧ f.cursor ≤ input.size

theorem Safe.inBounds {env : Env} {known : Nat → Prop} {allowed : Action → Prop} {s : State}
    (h : Safe env known allowed s) : InBounds env.input s := by
  intro r hr
  have hrun : SafeRun env known allowed r := by
    rcases List.mem_cons.1 hr with rfl | hr
    · exact h.run
    · exact h.callers r hr
  refine ⟨hrun.nonempty, hrun.furthest_nonneg, hrun.furthest_le, ?_⟩
  intro f hf
  have hframe := hrun.frames f hf
  exact ⟨hframe.cursor_nonneg, Int.le_trans hframe.cursor_le hrun.furthest_le⟩

/-- Actions of a declared kind, other than custom ones. -/
def Plain : Action → Prop
  | .custom _ | .unknown => False
  | _ => True

private theorem id_lt_of_main {family : Family} {id : Nat} {main : Bytes}
    (h : ((family.grammarAt id).rule? main).isSome) : id < family.length := by
  by_cases hid : id < family.length
  · exact hid
  · have hnone : family[id]? = none := List.getElem?_eq_none (by omega)
    simp [Family.grammarAt, hnone, Grammar.rule?] at h

section

variable {family : Family} {host : Host} {config : Config} {id : Nat} {input : Input}
  {allowed : Action → Prop}

/-- Nothing is wrong with the rules that a checked grammar leads to. -/
theorem soundRules_of_check (hdefined : ∀ g ∈ family, g.Defined) (hclosed : family.Closed)
    (hcheck : family.check id = none) (hmain : ((family.grammarAt id).rule? config.main).isSome)
    (hactions : ∀ inner, family.Embeds id inner → ∀ rule ∈ (family.grammarAt inner).rules,
      ∀ a, .action a ∈ rule.2.parts → allowed a) :
    SoundRules family (family.Embeds id) allowed := by
  have hclean := Family.clean_of_check hcheck (id_lt_of_main hmain) hclosed
  exact soundRules_of_clean hdefined hclean (fun _ hi _ hr _ _ hm => .step hi hr hm) hactions

/-- Where there are no custom actions all actions are others. -/
theorem action_ne_custom (hfree : family.CustomFree id) : ∀ inner, family.Embeds id inner →
    ∀ rule ∈ (family.grammarAt inner).rules, ∀ a, .action a ∈ rule.2.parts →
      ∀ host, a ≠ .custom host := by
  intro inner hi rule hr a hm host ha
  exact hfree inner hi rule hr host (ha ▸ hm)

/-- Every state that a match of such a grammar comes to is safe. -/
theorem safe_of_steps (hr : SoundRules family (family.Embeds id) allowed)
    (hcustom : ∀ host, ¬allowed (.custom host))
    (hmain : ((family.grammarAt id).rule? config.main).isSome) {n : Nat} {s : State}
    (h : Steps (environment family host input) n (initial config id) s) :
    Safe (environment family host input) (family.Embeds id) allowed s := by
  have hstart : Safe (environment family host input) (family.Embeds id) allowed
      (initial config id) :=
    ⟨.start .refl (settled_terms config) hmain (Int.le_refl 0) input.size_nonneg,
      by simp [initial]⟩
  exact hstart.steps hr hcustom h

/-- Without actions of an undeclared kind it stops as expected. -/
theorem expected_of_stop (hr : SoundRules family (family.Embeds id) Plain)
    (hmain : ((family.grammarAt id).rule? config.main).isSome) {n : Nat} {s t : State}
    {ending : Ending} (h : Steps (environment family host input) n (initial config id) s)
    (hstop : step (environment family host input) s = .stop t ending) :
    ending.Expected := by
  have hk := step_keeps hr (fun _ h => h) (safe_of_steps hr (fun _ h => h) hmain h)
  rw [hstop] at hk
  exact hk fun h => h

end

/-- A match with a checked grammar is safe: every state it comes to is in bounds and goes on or
ends as expected, and what it reports is values, a failure or the limit. -/
theorem match_expected (family : Family) (host : Host) (config : Config) (id : Nat) (input : Input)
    (hdefined : ∀ g ∈ family, g.Defined) (hclosed : family.Closed)
    (hcheck : family.check id = none)
    (hmain : ((family.grammarAt id).rule? config.main).isSome)
    (hactions : ∀ inner, family.Embeds id inner → ∀ rule ∈ (family.grammarAt inner).rules,
      ∀ a, .action a ∈ rule.2.parts → Plain a) :
    (∀ n s, Steps (environment family host input) n (initial config id) s →
      InBounds input s ∧
        ((∃ t, step (environment family host input) s = .next t) ∨
          ∃ t ending, step (environment family host input) s = .stop t ending ∧
            ending.Expected)) ∧
      ∀ fuel report, matchInput fuel family host config id input = some report →
        report.ending.Expected := by
  have hr := soundRules_of_check hdefined hclosed hcheck hmain hactions
  refine ⟨fun n s h => ⟨(safe_of_steps hr (fun _ h => h) hmain h).inBounds, ?_⟩,
    fun fuel report h => ?_⟩
  · cases hstep : step (environment family host input) s with
    | next t => exact .inl ⟨t, rfl⟩
    | stop t ending => exact .inr ⟨t, ending, rfl, expected_of_stop hr hmain h hstep⟩
  · obtain ⟨body, hbody⟩ := Option.isSome_iff_exists.1 hmain
    have hbody' : ((family[id]?).getD {}).rule? config.main = some body := hbody
    simp only [matchInput, hcheck, hbody'] at h
    obtain ⟨⟨t, ending⟩, hrun, rfl⟩ := Option.map_eq_some_iff.1 h
    obtain ⟨n, u, hsteps, hstop⟩ := steps_of_run hrun
    exact expected_of_stop hr hmain hsteps hstop

/-- A grammar that embeds itself: lists of words in brackets, each with a note on it. -/
def nested : Family :=
  [.ofRules [("main", .choice [.sequence [.literal "[",
    .iterate .zeroOrMore (.embed (some 0) "main"), .literal "]"],
    .wrap "word" [.literal "w", .action (.note "seen" .nil)]])]]

theorem defined_nested : ∀ g ∈ nested, g.Defined := Grammar.defined_map [_]

theorem closed_nested : nested.Closed := by decide

theorem plain_nested (inner : Nat) : ∀ rule ∈ (nested.grammarAt inner).rules, ∀ a,
    .action a ∈ rule.2.parts → Plain a := by
  intro rule hr a hm
  match inner with
  | 0 =>
    obtain rfl := List.mem_singleton.1 hr
    obtain rfl : a = .note "seen" .nil := by
      simpa [Expr.parts, Expr.visit, Expr.visitAll] using hm
    trivial
  | inner + 1 => cases hr

theorem customFree_nested : nested.CustomFree 0 := Family.customFree_of_lacks rfl 0

/-- The spans of the tokens may be anywhere. -/
theorem match_nested : (∀ g ∈ nested, g.Defined) ∧ nested.Closed ∧ nested.check 0 = none ∧
    ∃ report, matchInput 60 nested Host.idle {} 0
      (.tokens "" [⟨"[", "[", ⟨7, 3⟩⟩, ⟨"w", "w", ⟨-5, 90⟩⟩]) = some report ∧
      report.ending.Expected := by
  have hcheck : nested.check 0 = none := rfl
  have hends : (matchInput 60 nested Host.idle {} 0
      (.tokens "" [⟨"[", "[", ⟨7, 3⟩⟩, ⟨"w", "w", ⟨-5, 90⟩⟩])).isSome := rfl
  obtain ⟨report, hreport⟩ := Option.isSome_iff_exists.1 hends
  refine ⟨defined_nested, closed_nested, hcheck, report, hreport, ?_⟩
  have hsafe := match_expected nested Host.idle {} 0
    (.tokens "" [⟨"[", "[", ⟨7, 3⟩⟩, ⟨"w", "w", ⟨-5, 90⟩⟩]) defined_nested closed_nested hcheck rfl
    fun inner _ => plain_nested inner
  exact hsafe.2 60 report hreport

end PegMachine.Machine
