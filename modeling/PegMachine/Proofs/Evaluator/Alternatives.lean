import PegMachine.Proofs.Evaluator.Alone
import PegMachine.Proofs.Rewriting.Rows

namespace PegMachine

namespace Machine

open Evaluator (Acts)

section

variable (env : Env) (id : Nat) (cursor : Int)

/-- Alternatives that a choice at `cursor` passes over, with what the choice has put out before and
after them, last first. Those that are actions do on that output what they would do after an
insertion of it, and all others mismatch as sequences of their own. -/
inductive Passes : List Expr → List Value → List Value → Prop
  | nil (output : List Value) : Passes [] output output
  | miss {e : Expr} {items : List Expr} {output after : List Value} (hno : ¬Acts env.family id e)
      (misses : MissesAlone env id (.sequence [e]) cursor) (rest : Passes items output after) :
      Passes (e :: items) output after
  | act {e : Expr} {items : List Expr} {output changed after : List Value}
      (acts : Acts env.family id e)
      (changes : MatchesAlone env id (.sequence [.action (.insert output.reverse), e]) cursor cursor
        changed) (rest : Passes items changed after) : Passes (e :: items) output after

/-- The alternatives of a choice that has put out `before`: those up to one are passed over, and
that one matches as a sequence of its own. -/
inductive Commits (before : List Value) : List Expr → Int → List Value → Prop
  | intro {earlier later : List Expr} {e : Expr} {middle own : List Value} {next : Int}
      (passes : Passes env id cursor earlier before middle) (hno : ¬Acts env.family id e)
      (hit : MatchesAlone env id (.sequence [e]) cursor next own) :
      Commits before (earlier ++ e :: later) next (own ++ middle)

end

section

variable {env : Env} {id : Nat} {cursor next : Int} {e : Expr} {items : List Expr}
  {before changed output : List Value}

theorem Commits.miss (hno : ¬Acts env.family id e)
    (misses : MissesAlone env id (.sequence [e]) cursor)
    (h : Commits env id cursor before items next output) :
    Commits env id cursor before (e :: items) next output := by
  cases h with
  | intro passes hact hit => exact .intro (.miss hno misses passes) hact hit

theorem Commits.act (acts : Acts env.family id e)
    (changes : MatchesAlone env id (.sequence [.action (.insert before.reverse), e]) cursor cursor
      changed) (h : Commits env id cursor changed items next output) :
    Commits env id cursor before (e :: items) next output := by
  cases h with
  | intro passes hact hit => exact .intro (.act acts changes passes) hact hit

end

end Machine

namespace Evaluator

open Machine

section

variable {family : Family} {input : Input} {id : Nat} {e : Expr} {items : List Expr}
  {stops : Activation → Bool} {a b : Activation} {furthest furthest' : Int} {o : Outcome}
  {effect : Action}

/-- To evaluate a single item is to evaluate the items of a list of one. -/
theorem evaluates_singleton (hgo : stops a = false) :
    Evaluates family input id (.items stops [e]) a furthest o ↔
      Evaluates family input id (.item e) a furthest o := by
  constructor
  · intro h
    cases h with
    | stopped hstop => exact absurd (hgo.symm.trans hstop) nofun
    | cons _ head tail => cases tail <;> exact head
    | halted _ head => exact head
  · intro h
    cases o with
    | done b furthest' => exact .cons hgo h .nil
    | raised | aborted | fault => exact .halted hgo h rfl

/-- An insertion in front of an item only adds to the output. -/
theorem evaluates_insert {values : List Value} (hgo : a.stopsSequence = false) :
    Evaluates family input id
        (.items Activation.stopsSequence [.action (.insert values), e]) a furthest o ↔
      Evaluates family input id (.item e) (a.capture values.reverse) furthest o := by
  have hgo' : (a.capture values.reverse).stopsSequence = false := hgo
  constructor
  · intro h
    cases h with
    | stopped hstop => exact absurd (hgo.symm.trans hstop) nofun
    | cons _ head tail =>
      cases head with
      | action hact =>
        cases hact
        exact (evaluates_singleton hgo').1 tail
    | halted _ head ho =>
      cases head with
      | action hact =>
        cases hact
        cases ho
  · intro h
    exact .cons hgo (.action rfl) ((evaluates_singleton hgo').2 h)

/-- A sequence is done when its items are. -/
theorem evaluates_sequence_done :
    Evaluates family input id (.item (.sequence items)) a furthest (.done b furthest') ↔
      ∃ c, Evaluates family input id (.items Activation.stopsSequence items) (.start a.cursor)
        furthest (.done c furthest') ∧ b = a.takeSequence c := by
  constructor
  · intro h
    generalize ho : Outcome.done b furthest' = o at h
    cases h with
    | sequence inner =>
      obtain ⟨c, rfl, hc⟩ := into_eq_done ho.symm
      exact ⟨c, inner, (Option.some.inj hc).symm⟩
  · rintro ⟨c, inner, rfl⟩
    exact .sequence inner

/-- So is a choice. -/
theorem evaluates_choice_done :
    Evaluates family input id (.item (.choice items)) a furthest (.done b furthest') ↔
      ∃ c, Evaluates family input id (.items Activation.stopsChoice items) (.start a.cursor)
        furthest (.done c furthest') ∧ b = a.takeChoice c := by
  constructor
  · intro h
    generalize ho : Outcome.done b furthest' = o at h
    cases h with
    | choice inner =>
      obtain ⟨c, rfl, hc⟩ := into_eq_done ho.symm
      exact ⟨c, inner, (Option.some.inj hc).symm⟩
  · rintro ⟨c, inner, rfl⟩
    exact .choice inner

/-- What an action does about the output depends on nothing else but the cursor. -/
theorem act_done_congr
    (a' : Activation) (h : act input a furthest effect = some (.done b furthest'))
    (hc : a'.cursor = a.cursor) (ho : a'.output = a.output) (mark : Int) :
    act input a' mark effect = some (.done { a' with output := b.output } mark) := by
  cases a
  cases a'
  cases hc
  cases ho
  cases effect with
  | insert | clear | log =>
    cases h
    rfl
  | insertText text =>
    simp only [act] at h ⊢
    split at h <;> cases h
    rfl
  | convert f =>
    cases f with
    | none => cases h
    | some f =>
      simp only [act] at h ⊢
      split at h <;> cases h
      rfl
  | modify f =>
    simp only [act] at h ⊢
    repeat' split at h
    all_goals cases h
    all_goals rfl
  | note key datum =>
    simp only [act] at h ⊢
    split at h <;> cases h <;> rfl
  | throw | unknown => cases h
  | custom host => cases host <;> cases h

/-- An item that is an action does what that action does. -/
theorem Acts.does (h : Acts family id e) : ∃ effect, ∀ a furthest o,
    Evaluates family input id (.item e) a furthest o ↔ act input a furthest effect = some o := by
  induction h with
  | action effect =>
    refine ⟨effect, fun a furthest o => ⟨fun h => ?_, .action⟩⟩
    cases h with
    | action hact => exact hact
  | @rule name body hbody _ ih =>
    obtain ⟨effect, heffect⟩ := ih
    refine ⟨effect, fun a furthest o => ⟨fun h => ?_, fun h => .rule hbody ((heffect _ _ _).2 h)⟩⟩
    cases h with
    | undefined hnone => exact absurd (hbody.symm.trans hnone) nofun
    | rule hbody' h =>
      obtain rfl := Option.some.inj (hbody.symm.trans hbody')
      exact (heffect _ _ _).1 h

end

theorem Contained.of_children {known : Nat → Prop} {items : List Expr} {e : Expr}
    (hchildren : e.children = items) (hcustom : ∀ host, e ≠ .action (.custom host))
    (hembed : ∀ inner main, e ≠ .embed (some inner) main)
    (h : ∀ item ∈ items, Contained known item) : Contained known e := by
  subst hchildren
  constructor
  · intro host hm
    obtain heq | ⟨child, hc, hm⟩ := Expr.mem_parts_cases hm
    · exact hcustom host heq.symm
    · exact (h child hc).custom host hm
  · intro inner main hm
    obtain heq | ⟨child, hc, hm⟩ := Expr.mem_parts_cases hm
    · exact absurd heq.symm (hembed inner main)
    · exact (h child hc).embed inner main hm

theorem Contained.sequence {known : Nat → Prop} {items : List Expr}
    (h : ∀ item ∈ items, Contained known item) : Contained known (.sequence items) :=
  .of_children rfl nofun nofun h

theorem Contained.choice {known : Nat → Prop} {items : List Expr}
    (h : ∀ item ∈ items, Contained known item) : Contained known (.choice items) :=
  .of_children rfl nofun nofun h

theorem Contained.insert {known : Nat → Prop} (values : List Value) :
    Contained known (.action (.insert values)) :=
  ⟨by simp [Expr.parts, Expr.visit], by simp [Expr.parts, Expr.visit]⟩

section

variable {env : Env} {known : Nat → Prop} {id : Nat} {e : Expr} {items : List Expr}
  {cursor next : Int} {a b : Activation} {furthest furthest' : Int} {own output after : List Value}
  (hr : ContainedRules env.family known) (hid : known id)

include hr hid

/-- A sequence matches alone as its items do. -/
theorem matchesAlone_sequence (hitems : ∀ item ∈ items, Contained known item) :
    MatchesAlone env id (.sequence items) cursor next own ↔ ∃ b furthest,
      Evaluates env.family env.input id (.items Activation.stopsSequence items) (.start cursor)
        cursor (.done b furthest) ∧ b.failed = false ∧ b.cursor = next ∧ b.output = own := by
  rw [matchesAlone_iff hr hid (.sequence hitems)]
  constructor
  · rintro ⟨b, furthest, h, hb, rfl, rfl⟩
    obtain ⟨c, inner, rfl⟩ := evaluates_sequence_done.1 h
    cases hc : c.failed with
    | true => simp [Activation.takeSequence, hc, Activation.fail] at hb
    | false =>
      refine ⟨c, furthest, inner, hc, ?_, ?_⟩
      · simp [Activation.takeSequence, hc, Activation.succeed]
      · simp [Activation.takeSequence, hc, Activation.succeed, Activation.start]
  · rintro ⟨b, furthest, inner, hb, rfl, rfl⟩
    refine ⟨_, furthest, evaluates_sequence_done.2 ⟨b, inner, rfl⟩, ?_⟩
    simp [Activation.takeSequence, hb, Activation.succeed, Activation.start]

theorem missesAlone_sequence (hitems : ∀ item ∈ items, Contained known item) (h0 : 0 ≤ cursor)
    (hle : cursor ≤ env.input.size) : MissesAlone env id (.sequence items) cursor ↔
      ∃ b furthest, Evaluates env.family env.input id (.items Activation.stopsSequence items)
        (.start cursor) cursor (.done b furthest) ∧ b.failed = true := by
  rw [missesAlone_iff hr hid (.sequence hitems) h0 hle]
  constructor
  · rintro ⟨b, furthest, h, hb⟩
    obtain ⟨c, inner, rfl⟩ := evaluates_sequence_done.1 h
    cases hc : c.failed with
    | true => exact ⟨c, furthest, inner, hc⟩
    | false => simp [Activation.takeSequence, hc, Activation.succeed, Activation.start] at hb
  · rintro ⟨b, furthest, inner, hb⟩
    refine ⟨_, furthest, evaluates_sequence_done.2 ⟨b, inner, rfl⟩, ?_⟩
    simp [Activation.takeSequence, hb, Activation.fail]

/-- What is judged to miss, misses as a sequence of its own. -/
theorem missesAlone_of_judges (he : Contained known e) (h0 : 0 ≤ cursor)
    (hle : cursor ≤ env.input.size)
    (h : Judges env.family env.input id e cursor furthest (.missed furthest')) :
    MissesAlone env id (.sequence [e]) cursor := by
  obtain ⟨mark, -, hmiss⟩ := (h (.start cursor) rfl).fromMark cursor
  rw [missesAlone_sequence hr hid (by simpa using he) h0 hle]
  exact ⟨_, mark, (evaluates_singleton rfl).2 hmiss, rfl⟩

private theorem matchesAlone_of_judges (he : Contained known e)
    (h : Judges env.family env.input id e cursor furthest (.matched next own furthest')) :
    MatchesAlone env id (.sequence [e]) cursor next own := by
  obtain ⟨mark, -, hmatch⟩ := (h (.start cursor) rfl).fromMark cursor
  rw [matchesAlone_sequence hr hid (by simpa using he)]
  refine ⟨_, mark, (evaluates_singleton rfl).2 hmatch, rfl, rfl, ?_⟩
  simp [Activation.succeed, Activation.start]

/-- What comes of an item alone comes of it everywhere, unless it acts on what is there. -/
theorem judges_of_missesAlone (he : Contained known e) (hno : ¬Acts env.family id e)
    (h0 : 0 ≤ cursor) (hle : cursor ≤ env.input.size)
    (h : MissesAlone env id (.sequence [e]) cursor) (furthest : Int) :
    ∃ mark, Judges env.family env.input id e cursor furthest (.missed mark) := by
  obtain ⟨c, mark, hc, hmissed⟩ :=
    (missesAlone_sequence hr hid (by simpa using he) h0 hle).1 h
  obtain ⟨mark, -, hany⟩ := ((evaluates_singleton rfl).1 hc).fromMark furthest
  obtain ⟨j, hj, hon⟩ := hany.judged_of_not_acts hno
  cases j with
  | missed mark' => exact ⟨mark', hj⟩
  | matched next own mark' =>
    cases hon
    cases hmissed
  | ended o ho =>
    obtain rfl : _ = o := hon
    cases ho

private theorem judges_of_matchesAlone (he : Contained known e) (hno : ¬Acts env.family id e)
    (h : MatchesAlone env id (.sequence [e]) cursor next own) (furthest : Int) :
    ∃ mark, Judges env.family env.input id e cursor furthest (.matched next own mark) := by
  obtain ⟨c, mark, hc, hmatched, rfl, rfl⟩ :=
    (matchesAlone_sequence hr hid (by simpa using he)).1 h
  obtain ⟨mark, -, hany⟩ := ((evaluates_singleton rfl).1 hc).fromMark furthest
  obtain ⟨j, hj, hon⟩ := hany.judged_of_not_acts hno
  cases j with
  | missed mark' =>
    cases hon
    cases hmatched
  | matched next own mark' =>
    cases hon
    refine ⟨mark, ?_⟩
    simpa [Activation.succeed, Activation.start] using hj
  | ended o ho =>
    obtain rfl : _ = o := hon
    cases ho

/-- What an action makes of an output can be seen in a sequence that inserts that output first. -/
theorem changesAlone_iff (he : Contained known e) {effect : Action}
    (heffect : ∀ a furthest o, Evaluates env.family env.input id (.item e) a furthest o ↔
      act env.input a furthest effect = some o) (a : Activation) (furthest : Int) :
    MatchesAlone env id (.sequence [.action (.insert a.output.reverse), e]) a.cursor a.cursor
      output ↔ ∃ b furthest', act env.input a furthest effect = some (.done b furthest') ∧
        b.output = output := by
  have hitems : ∀ item ∈ [.action (.insert a.output.reverse), e], Contained known item := by
    simpa using ⟨Contained.insert _, he⟩
  have hinserted : ((Activation.start a.cursor).capture a.output.reverse.reverse).output =
      a.output := by simp [Activation.capture, Activation.start]
  rw [matchesAlone_sequence hr hid hitems]
  constructor
  · rintro ⟨b, mark, h, -, -, rfl⟩
    have hact := (heffect _ _ _).1 ((evaluates_insert rfl).1 h)
    exact ⟨_, _, act_done_congr a hact rfl hinserted.symm furthest, rfl⟩
  · rintro ⟨b, mark, hact, rfl⟩
    have hinsert := act_done_congr ((Activation.start a.cursor).capture a.output.reverse.reverse)
      hact rfl hinserted a.cursor
    exact ⟨_, _, (evaluates_insert rfl).2 ((heffect _ _ _).2 hinsert), rfl, rfl, rfl⟩

/-- Alternatives that are evaluated in a choice are passed over, or the choice commits to one. -/
theorem alternatives_of_evaluates (hitems : ∀ item ∈ items, Contained known item)
    (h0 : 0 ≤ a.cursor) (hle : a.cursor ≤ env.input.size) (ha : a.matched = 0)
    (h : Evaluates env.family env.input id (.items Activation.stopsChoice items) a furthest
      (.done b furthest')) :
    b.matched = 0 ∧ Passes env id a.cursor items a.output b.output ∨
      b.matched ≠ 0 ∧ Commits env id a.cursor a.output items b.cursor b.output := by
  have hgo : a.stopsChoice = false := by simp [Activation.stopsChoice, ha]
  induction items generalizing a furthest with
  | nil =>
    have hdone : b = a := by
      cases h <;> rfl
    subst hdone
    exact .inl ⟨ha, .nil _⟩
  | cons e items ih =>
    obtain ⟨he, hitems⟩ := List.forall_mem_cons.1 hitems
    cases h with
    | stopped hstop =>
      rw [hgo] at hstop
      cases hstop
    | halted _ _ ho => cases ho
    | @cons _ _ _ _ _ _ c middle _ _ head tail =>
      by_cases hacts : Acts env.family id e
      · obtain ⟨effect, heffect⟩ := hacts.does
        have hact := (heffect _ _ _).1 head
        obtain ⟨changed, rfl⟩ := act_eq_done hact
        have hchanges := (changesAlone_iff hr hid he heffect a furthest).2 ⟨_, _, hact, rfl⟩
        obtain ⟨hb, hpasses⟩ | ⟨hb, hcommits⟩ :=
          ih hitems (a := { a with output := changed }) h0 hle ha tail hgo
        · exact .inl ⟨hb, .act hacts hchanges hpasses⟩
        · exact .inr ⟨hb, hcommits.act hacts hchanges⟩
      · obtain ⟨j, hj, hon⟩ := head.judged_of_not_acts hacts
        cases j with
        | missed mark =>
          cases hon
          have hmisses := missesAlone_of_judges hr hid he h0 hle hj
          obtain ⟨hb, hpasses⟩ | ⟨hb, hcommits⟩ := ih hitems (a := a.fail) h0 hle ha tail hgo
          · exact .inl ⟨hb, .miss hacts hmisses hpasses⟩
          · exact .inr ⟨hb, hcommits.miss hacts hmisses⟩
        | matched next own mark =>
          cases hon
          obtain ⟨hstop, hmatched⟩ := stopsChoice_succeed ha next own
          cases tail.of_stops hstop
          refine .inr ⟨by simpa using hmatched, ?_⟩
          have hit := matchesAlone_of_judges hr hid he hj
          have hfirst : Commits env id a.cursor a.output ([] ++ e :: items) next
              (own ++ a.output) := .intro (.nil _) hacts hit
          exact hfirst
        | ended o ho =>
          obtain rfl : _ = o := hon
          cases ho

/-- Alternatives that are passed over leave a choice open for the ones behind them. -/
theorem evaluates_of_passes {earlier : List Expr} (h : Passes env id cursor earlier output after)
    (hearlier : ∀ item ∈ earlier, Contained known item) (h0 : 0 ≤ cursor)
    (hle : cursor ≤ env.input.size) (hc : a.cursor = cursor) (ha : a.matched = 0)
    (hout : a.output = output) (furthest : Int) :
    ∃ b mark, b.cursor = cursor ∧ b.matched = 0 ∧ b.output = after ∧ ∀ later o,
      Evaluates env.family env.input id (.items Activation.stopsChoice later) b mark o →
        Evaluates env.family env.input id (.items Activation.stopsChoice (earlier ++ later)) a
          furthest o := by
  induction h generalizing a furthest with
  | nil output => exact ⟨a, furthest, hc, ha, hout, fun later o h => h⟩
  | @miss e items output after hno misses _ ih =>
    obtain ⟨he, hearlier⟩ := List.forall_mem_cons.1 hearlier
    have hgo : a.stopsChoice = false := by simp [Activation.stopsChoice, ha]
    obtain ⟨mark, hmissed⟩ := judges_of_missesAlone hr hid he hno h0 hle misses furthest
    obtain ⟨b, mark', hb, hb', hb'', hrest⟩ := ih hearlier (a := a.fail) hc ha hout mark
    exact ⟨b, mark', hb, hb', hb'', fun later o h => .cons hgo (hmissed a hc) (hrest later o h)⟩
  | @act e items output changed after acts changes _ ih =>
    obtain ⟨he, hearlier⟩ := List.forall_mem_cons.1 hearlier
    have hgo : a.stopsChoice = false := by simp [Activation.stopsChoice, ha]
    obtain ⟨effect, heffect⟩ := acts.does
    subst hc hout
    obtain ⟨c, mark, hact, rfl⟩ := (changesAlone_iff hr hid he heffect a furthest).1 changes
    have hacted := act_done_congr a hact rfl rfl furthest
    obtain ⟨b, mark', hb, hb', hb'', hrest⟩ :=
      ih hearlier (a := { a with output := c.output }) rfl ha rfl furthest
    refine ⟨b, mark', hb, hb', hb'', fun later o h => ?_⟩
    exact .cons hgo ((heffect _ _ _).2 hacted) (hrest later o h)

variable (hitems : ∀ item ∈ items, Contained known item) (h0 : 0 ≤ cursor)
  (hle : cursor ≤ env.input.size)

include hitems h0 hle

/-- A choice matches alone as the alternative that it commits to. -/
theorem matchesAlone_choice : MatchesAlone env id (.choice items) cursor next output ↔
    Commits env id cursor [] items next output := by
  rw [matchesAlone_iff hr hid (.choice hitems)]
  constructor
  · rintro ⟨b, furthest, h, hb, rfl, rfl⟩
    obtain ⟨c, inner, rfl⟩ := evaluates_choice_done.1 h
    have hstart := alternatives_of_evaluates hr hid hitems (a := .start cursor) h0 hle rfl inner
    obtain ⟨hc, -⟩ | ⟨hc, hcommits⟩ := hstart
    · simp [Activation.takeChoice, hc, Activation.fail] at hb
    · simpa [Activation.takeChoice, hc, Activation.succeed, Activation.start] using hcommits
  · rintro (@⟨earlier, later, e, middle, own, next, passes, hno, hit⟩)
    obtain ⟨hearlier, he⟩ := List.forall_mem_append.1 hitems
    obtain ⟨he, -⟩ := List.forall_mem_cons.1 he
    obtain ⟨b, mark, hb, hmatched, rfl, hrest⟩ := evaluates_of_passes hr hid passes hearlier h0 hle
      (a := .start cursor) rfl rfl rfl cursor
    obtain ⟨mark', hj⟩ := judges_of_matchesAlone hr hid he hno hit mark
    have hgo : b.stopsChoice = false := by simp [Activation.stopsChoice, hmatched]
    obtain ⟨hstop, htaken⟩ := stopsChoice_succeed hmatched _ _
    have inner := hrest (e :: later) _ (.cons hgo (hj b hb) (.stopped hstop))
    refine ⟨_, _, evaluates_choice_done.2 ⟨_, inner, rfl⟩, ?_⟩
    simp only [Activation.takeChoice, beq_eq_false_iff_ne.1 htaken, if_false]
    simp [Activation.succeed, Activation.start]

/-- It mismatches alone when it passes over all of its alternatives. -/
theorem missesAlone_choice : MissesAlone env id (.choice items) cursor ↔
    ∃ output, Passes env id cursor items [] output := by
  rw [missesAlone_iff hr hid (.choice hitems) h0 hle]
  constructor
  · rintro ⟨b, furthest, h, hb⟩
    obtain ⟨c, inner, rfl⟩ := evaluates_choice_done.1 h
    have hstart := alternatives_of_evaluates hr hid hitems (a := .start cursor) h0 hle rfl inner
    obtain ⟨-, hpasses⟩ | ⟨hc, -⟩ := hstart
    · exact ⟨_, hpasses⟩
    · simp [Activation.takeChoice, hc, Activation.succeed, Activation.start] at hb
  · rintro ⟨output, passes⟩
    obtain ⟨b, mark, hb, hmatched, -, hrest⟩ := evaluates_of_passes hr hid passes hitems h0 hle
      (a := .start cursor) rfl rfl rfl cursor
    have inner := hrest [] _ .nil
    rw [List.append_nil] at inner
    refine ⟨_, _, evaluates_choice_done.2 ⟨_, inner, rfl⟩, ?_⟩
    simp [Activation.takeChoice, hmatched, Activation.fail]

end

end Evaluator

end PegMachine
