import Mathlib.Data.Nat.Find
import PegMachine.Proofs.Evaluator.Alternatives

namespace PegMachine

namespace Machine

/-- Alone, an expression comes to an end. -/
def EndsAlone (env : Env) (id : Nat) (e : Expr) (cursor : Int) : Prop :=
  ∃ fuel, (run env fuel { run := Run.alone id e cursor }).isSome

/-- Each of `n` copies in a row, but for the last one, consumes something and ends before the input
does. -/
def AdvancesInside (env : Env) (id : Nat) (e : Expr) (n : Nat) (cursor : Int) : Prop :=
  ∀ k, k + 1 < n → ∀ before after output output',
    MatchesAlone env id (.sequence (List.replicate k e)) cursor before output →
    MatchesAlone env id (.sequence (List.replicate (k + 1) e)) cursor after output' →
    before < after ∧ after < env.input.size

end Machine

namespace Evaluator

open Machine

section

variable {family : Family} {input : Input} {id : Nat} {a b : Activation} {furthest furthest' : Int}
  {o : Outcome} {payload : Payload}

private theorem into_eq_raised {take? : Activation → Option Activation}
    (h : o.into take? = .raised payload furthest) : o = .raised payload furthest := by
  cases o with
  | done b furthest' =>
    simp only [Outcome.into] at h
    split at h <;> cases h
  | raised | aborted | fault => exact h

private theorem intoCaller_eq_raised
    (h : o.intoCaller input a furthest = .raised payload furthest') :
    ∃ inner, o = .raised payload inner := by
  cases o with
  | done b inner =>
    simp only [Outcome.intoCaller] at h
    repeat' split at h
    all_goals cases h
  | raised payload' inner =>
    simp only [Outcome.intoCaller] at h
    split at h
    · cases h
      exact ⟨inner, rfl⟩
    · cases h
  | aborted | fault => cases h

/-- Only actions raise payloads. -/
theorem Evaluates.not_raised {known : Nat → Prop} {hides : Prop} {task : Task}
    (hr : AdmittedRules family known hides fun _ => False)
    (h : Evaluates family input id task a furthest o) :
    known id → task.Admitted known hides (fun _ => False) → o ≠ .raised payload furthest' := by
  induction h generalizing furthest' with
  | missing | undefined | stranded | headless | nil | stopped | last =>
    intro _ _ ho
    cases ho
  | @literal _ a _ text =>
    intro _ _ ho
    cases hattempt : input.tryLiteral a.cursor text <;> rw [hattempt] at ho <;> cases ho
  | @pattern _ a _ p =>
    intro _ _ ho
    cases hattempt : input.tryPattern a.cursor p <;> rw [hattempt] at ho <;> cases ho
  | rule hrule _ ih =>
    intro hid _
    exact ih hid (hr _ hid _ (Grammar.mem_rules_of_rule? _ _ _ hrule))
  | sequence _ ih | choice _ ih | wrap _ ih | hide _ ih | optional _ ih | not _ ih | once _ ih =>
    intro hid ht ho
    exact ih hid (fun e he => ht.child he) (into_eq_raised ho)
  | loop _ _ ih =>
    intro hid ht ho
    exact ih hid (ht.child (List.mem_singleton.2 rfl)) (into_eq_raised ho)
  | action =>
    intro _ ht
    exact (ht.action _ (Expr.mem_parts_self _ rfl)).elim
  | embed _ _ _ ih =>
    intro _ ht ho
    obtain ⟨inner, ho⟩ := intoCaller_eq_raised ho
    exact ih (ht.embed _ _ (Expr.mem_parts_self _ rfl)) (.rule _) ho
  | cons _ _ _ _ tail =>
    intro hid ht
    exact tail hid (List.forall_mem_cons.1 ht).2
  | halted _ _ _ head =>
    intro hid ht
    exact head hid (List.forall_mem_cons.1 ht).1
  | again _ _ _ _ more =>
    intro hid ht
    exact more hid ht
  | broken _ _ round =>
    intro hid ht
    exact round hid ht

end

section

variable {family : Family} {input : Input} {id : Nat} {e : Expr} {a b : Activation}
  {furthest furthest' cursor next : Int} {output : List Value} {o : Outcome} {k : Nat}

theorem oneMore_eq {n : Int} (h : n < 9223372036854775807) : Frame.oneMore n = n + 1 := by
  simp [Frame.oneMore, Int.ne_of_lt h]

theorem stopsLoop_eq_false {size mark : Int} : b.stopsLoop size mark = false ↔
    b.failed = false ∧ b.cursor < size ∧ b.cursor ≠ mark := by
  simp [Activation.stopsLoop]

/-- After a round that is not the last one, a repetition goes on from where it got to. -/
theorem rounds_iff_of_again
    (round : Evaluates family input id (.item e) a furthest (.done b furthest'))
    (hgo : b.stopsLoop input.size a.cursor = false) :
    Evaluates family input id (.rounds e) a furthest o ↔
      Evaluates family input id (.rounds e) b furthest' o := by
  constructor
  · intro h
    cases h with
    | last round' hstop =>
      cases round.unique round'
      rw [hgo] at hstop
      cases hstop
    | again round' _ more =>
      cases round.unique round'
      exact more
    | broken round' ho =>
      cases round.unique round'
      cases ho
  · exact .again round hgo

theorem rounds_iff_of_last
    (round : Evaluates family input id (.item e) a furthest (.done b furthest'))
    (hstop : b.stopsLoop input.size a.cursor = true) :
    Evaluates family input id (.rounds e) a furthest o ↔ o = .done b furthest' := by
  constructor
  · intro h
    cases h with
    | last round' _ => exact (round.unique round').symm
    | again round' hgo _ =>
      cases round.unique round'
      rw [hgo] at hstop
      cases hstop
    | broken round' ho =>
      cases round.unique round'
      cases ho
  · rintro rfl
    exact .last round hstop

/-- A repetition is done when its rounds are. -/
theorem evaluates_loop_done
    {kind : Repetition} {quota : Quota} (hquota : kind.quota? = some quota) :
    Evaluates family input id (.item (.iterate kind e)) a furthest (.done b furthest') ↔
      ∃ c, Evaluates family input id (.rounds e) (.start a.cursor) furthest (.done c furthest') ∧
        b = a.takeLoop quota c := by
  constructor
  · intro h
    generalize ho : Outcome.done b furthest' = o at h
    cases h with
    | loop hquota' inner =>
      obtain ⟨c, rfl, hc⟩ := into_eq_done ho.symm
      cases Option.some.inj (hquota.symm.trans hquota')
      exact ⟨c, inner, (Option.some.inj hc).symm⟩
    | optional | not | once => cases hquota
  · rintro ⟨c, inner, rfl⟩
    exact .loop hquota inner

/-- Rounds do not lower the count of matches: there are not more of them than input is left. -/
theorem rounds_matched (hfamily : family.Actionless) (he : e.Actionless)
    (h : Evaluates family input id (.rounds e) a furthest (.done b furthest')) (h0 : 0 ≤ a.cursor)
    (hlt : a.cursor < input.size)
    (hcount : a.matched + (input.size - a.cursor) ≤ 9223372036854775807) :
    a.matched ≤ b.matched := by
  generalize htask : Task.rounds e = task at h
  generalize hdone : Outcome.done b furthest' = o at h
  induction h with
  | @last id a furthest item b' furthest' round hstop =>
    cases htask
    cases hdone
    obtain ⟨j, -, hon⟩ := round.judged hfamily he
    cases j with
    | missed =>
      cases hon
      exact Int.le_refl _
    | matched next output =>
      cases hon
      have hmatched : (a.succeed next output).matched = a.matched + 1 := oneMore_eq (by omega)
      omega
    | ended o ho =>
      obtain rfl : _ = o := hon
      cases ho
  | @again id a furthest item c middle o round hgo more _ ih =>
    cases htask
    obtain ⟨hforward, hle⟩ := round.forward h0 (Int.le_of_lt hlt)
    obtain ⟨j, -, hon⟩ := round.judged hfamily he
    cases j with
    | missed =>
      cases hon
      cases hgo
    | matched next output =>
      cases hon
      obtain ⟨-, hinside, hmoved⟩ := stopsLoop_eq_false.1 hgo
      have hmatched : (a.succeed next output).matched = a.matched + 1 := oneMore_eq (by omega)
      have hcursor : (a.succeed next output).cursor = next := rfl
      have hmore := ih (by omega) hinside (by omega) rfl hdone
      omega
    | ended o ho =>
      obtain rfl : _ = o := hon
      cases ho
  | broken _ ho =>
    cases htask
    subst hdone
    cases ho
  | _ => cases htask

/-- After `j` copies, the next one consumes something and ends before the input does. -/
def CopyAdvances (family : Family) (input : Input) (id : Nat) (e : Expr) (cursor : Int) (j : Nat) :
    Prop :=
  ∀ before after own own' mark mark',
    InRow family input id (List.replicate j e) cursor cursor (.matched before own mark) →
    InRow family input id (List.replicate (j + 1) e) cursor cursor (.matched after own' mark') →
    before < after ∧ after < input.size

/-- A row of copies ends with one more copy. -/
theorem inRow_replicate_succ :
    InRow family input id (List.replicate (k + 1) e) cursor furthest
        (.matched next output furthest') ↔
      ∃ middle own mark later,
        InRow family input id (List.replicate k e) cursor furthest (.matched middle own mark) ∧
        Judges family input id e middle mark (.matched next later furthest') ∧
        output = later ++ own := by
  rw [List.replicate_succ', inRow_append]
  constructor
  · rintro ⟨m, hm, hthen⟩
    cases m with
    | missed => cases hthen
    | ended => cases hthen
    | matched middle own mark =>
      obtain ⟨later, hlater, heq⟩ := hthen
      cases later with
      | missed => cases heq
      | ended => cases heq
      | matched next' later mark' =>
        cases heq
        exact ⟨middle, own, mark, later, hm, inRow_singleton.1 hlater, rfl⟩
  · rintro ⟨middle, own, mark, later, hm, hlast, rfl⟩
    exact ⟨_, hm, _, inRow_singleton.2 hlast, rfl⟩

/-- One more round does what one more copy does, and it is counted. -/
theorem judges_round {middle mark : Int} {later : List Value} (own : List Value)
    (h : Judges family input id e middle mark (.matched next later furthest))
    (hk : (k : Int) < 9223372036854775807) :
    Evaluates family input id (.item e) ⟨middle, false, k, own⟩ mark
      (.done ⟨next, false, (k + 1 : Nat), later ++ own⟩ furthest) := by
  have hround := h ⟨middle, false, k, own⟩ rfl
  simp only [Judgement.on, Activation.succeed, oneMore_eq hk] at hround
  exact hround

/-- Up to a copy that does not advance, or ends with the input, a repetition goes through its rounds
as a sequence goes through copies. -/
theorem rounds_of_copies (hsize : input.size ≤ 9223372036854775807) (h0 : 0 ≤ cursor)
    (hle : cursor ≤ input.size)
    (hadvance : ∀ j < k, CopyAdvances family input id e cursor j)
    (h : InRow family input id (List.replicate k e) cursor cursor (.matched next output furthest)) :
    cursor + k ≤ next ∧ (k = 0 ∧ next = cursor ∨ next < input.size) ∧
      ∀ o, Evaluates family input id (.rounds e) (.start cursor) cursor o ↔
        Evaluates family input id (.rounds e) ⟨next, false, k, output⟩ furthest o := by
  induction k generalizing next output furthest with
  | zero =>
    cases h
    exact ⟨by omega, .inl ⟨rfl, rfl⟩, fun o => Iff.rfl⟩
  | succ k ih =>
    obtain ⟨middle, own, mark, later, hrow, hlast, rfl⟩ := inRow_replicate_succ.1 h
    obtain ⟨hcount, hinside, hrounds⟩ := ih (fun j hj => hadvance j (by omega)) hrow
    obtain ⟨hmoved, hlt⟩ := hadvance k (by omega) _ _ _ _ _ _ hrow h
    refine ⟨by omega, .inr hlt, fun o => (hrounds o).trans ?_⟩
    have hround := judges_round (k := k) own hlast (by omega)
    refine rounds_iff_of_again hround (stopsLoop_eq_false.2 ⟨rfl, hlt, ?_⟩)
    exact Int.ne_of_gt hmoved

/-- A repetition matches at least as often as there are copies in the row, if those but the last
one advance. -/
theorem le_matched_of_copies (hfamily : family.Actionless) (he : e.Actionless)
    (hsize : input.size ≤ 9223372036854775807) (h0 : 0 ≤ cursor) (hle : cursor ≤ input.size)
    (hadvance : ∀ j < k, CopyAdvances family input id e cursor j)
    (hrow : InRow family input id (List.replicate (k + 1) e) cursor cursor
      (.matched next output furthest))
    (h : Evaluates family input id (.rounds e) (.start cursor) cursor (.done b furthest')) :
    (k + 1 : Nat) ≤ b.matched := by
  obtain ⟨middle, own, mark, later, hcopies, hlast, rfl⟩ := inRow_replicate_succ.1 hrow
  obtain ⟨hcount, hinside, hrounds⟩ := rounds_of_copies hsize h0 hle hadvance hcopies
  have hround := judges_round (k := k) own hlast (by omega)
  have hforward : middle ≤ next := (hround.forward (show 0 ≤ middle by omega)
    (show middle ≤ input.size by omega)).1
  cases hstop : (⟨next, false, (k + 1 : Nat), later ++ own⟩ : Activation).stopsLoop input.size
      middle with
  | true =>
    cases (rounds_iff_of_last hround hstop).1 ((hrounds _).1 h)
    exact Int.le_refl _
  | false =>
    obtain ⟨-, hlt, hmoved⟩ : _ ∧ next < input.size ∧ next ≠ middle := stopsLoop_eq_false.1 hstop
    have hmore := (rounds_iff_of_again hround hstop).1 ((hrounds _).1 h)
    refine rounds_matched hfamily he hmore ?_ hlt ?_
    · show 0 ≤ next
      omega
    · show ((k + 1 : Nat) : Int) + (input.size - next) ≤ 9223372036854775807
      omega

end

section

variable {env : Env} {known : Nat → Prop} {id : Nat} {e : Expr} {items : List Expr}
  {cursor next : Int} {output : List Value} {n : Nat}

/-- Alone, a sequence without actions matches as its items do in a row. -/
theorem matchesAlone_iff_inRow (hr : ContainedRules env.family known) (hid : known id)
    (hitems : ∀ item ∈ items, Contained known item) (hfamily : env.family.Actionless)
    (hfree : ∀ item ∈ items, item.Actionless) :
    MatchesAlone env id (.sequence items) cursor next output ↔ ∃ furthest,
      InRow env.family env.input id items cursor cursor (.matched next output furthest) := by
  rw [matchesAlone_sequence hr hid hitems]
  constructor
  · rintro ⟨b, furthest, h, hb, rfl, rfl⟩
    obtain ⟨j, hrow, hshows⟩ := h.inRow hfamily hfree rfl
    cases j with
    | missed mark =>
      obtain ⟨b', heq, hfails⟩ := hshows
      cases heq
      exact absurd (hb.symm.trans hfails) nofun
    | matched next own mark =>
      obtain ⟨b', heq, -, rfl, hout⟩ := hshows
      cases heq
      refine ⟨furthest, ?_⟩
      simpa [hout, Activation.start] using hrow
    | ended o ho =>
      obtain rfl : _ = o := hshows
      cases ho
  · rintro ⟨furthest, h⟩
    obtain ⟨o, ho, b, rfl, hb, hc, hout⟩ := InRow.evaluates (a := .start cursor) rfl h
    exact ⟨b, furthest, ho, hb, hc, by simpa [Activation.start] using hout⟩

theorem contained_of_sound {family : Family} (h : Sound family known (fun _ => False) id e) :
    Contained known e :=
  ⟨fun _ hm => h.action _ hm, fun inner main hm => (h.embed inner main hm).1⟩

private theorem admitted_of_sound {family : Family} (h : Sound family known (fun _ => False) id e) :
    Admitted known True (fun _ => False) e :=
  ⟨h.action, fun _ _ => trivial, fun inner main hm => (h.embed inner main hm).1⟩

theorem actionless_of_sound {family : Family} (h : Sound family known (fun _ => False) id e) :
    e.Actionless := by
  rintro x hx - effect rfl
  exact h.action effect hx

private theorem safe_alone (hid : known id) (he : Sound env.family known (fun _ => False) id e)
    (h0 : 0 ≤ cursor) (hle : cursor ≤ env.input.size) :
    Safe env known (fun _ => False) { run := Run.alone id e cursor } := by
  refine ⟨⟨hid, settled_default, by simp [Run.alone], fun f hf => ?_, hle⟩, by simp⟩
  obtain rfl := List.mem_singleton.1 hf
  refine ⟨fun item hitem => ?_, by simp [Frame.enter], h0, Int.le_refl _, h0, Int.le_refl _⟩
  obtain rfl := List.mem_singleton.1 hitem
  exact he

/-- An expression that the grammar can evaluate, in which nothing acts, matches or mismatches if it
comes to an end. -/
theorem matches_or_misses (hr : SoundRules env.family known fun _ => False) (hid : known id)
    (he : Sound env.family known (fun _ => False) id e) (h0 : 0 ≤ cursor)
    (hle : cursor ≤ env.input.size) (h : EndsAlone env id e cursor) :
    (∃ next output, MatchesAlone env id e cursor next output) ∨ MissesAlone env id e cursor := by
  have hcontained : ContainedRules env.family known :=
    fun inner hi rule hrule => contained_of_sound (hr inner hi rule hrule)
  have hadmitted : AdmittedRules env.family known True fun _ => False :=
    fun inner hi rule hrule => admitted_of_sound (hr inner hi rule hrule)
  obtain ⟨fuel, hends⟩ := h
  obtain ⟨⟨t, ending⟩, hrun⟩ := Option.isSome_iff_exists.1 hends
  obtain ⟨n, u, hsteps, hstop⟩ := steps_of_run hrun
  have hsafe := (safe_alone hid he h0 hle).steps hr (fun _ h => h) hsteps
  have hexpected := step_keeps hr (fun _ h => h) hsafe
  rw [hstop] at hexpected
  obtain ⟨o, ho, hending⟩ :=
    (alone_iff hcontained hid (contained_of_sound he)).1 ⟨fuel, t, hrun⟩
  rw [← hending] at hexpected
  cases o with
  | done b furthest =>
    cases hb : b.failed with
    | true =>
      exact .inr ((missesAlone_iff hcontained hid (contained_of_sound he) h0 hle).2
        ⟨b, furthest, ho, hb⟩)
    | false =>
      exact .inl ⟨b.cursor, b.output, (matchesAlone_iff hcontained hid (contained_of_sound he)).2
        ⟨b, furthest, ho, hb, rfl, rfl⟩⟩
  | raised payload furthest => exact absurd rfl (ho.not_raised hadmitted hid (admitted_of_sound he))
  | aborted error furthest => cases ho.aborted rfl <;> exact (hexpected (fun h => h)).elim
  | fault => exact (hexpected (fun h => h)).elim

end

section

variable {env : Env} {known : Nat → Prop} {id : Nat} {e : Expr} {cursor next : Int}
  {output : List Value} {n k : Nat}

private theorem sound_bounded {family : Family} {allowed : Action → Prop} (n : Nat)
    (he : Sound family known allowed id e) :
    Sound family known allowed id (.iterate (.bounded n Repetition.unbounded) e) := by
  have hflaws : (Expr.iterate (.bounded n Repetition.unbounded) e).flaws = [] := by
    simp only [Expr.flaws, he.flawless.present, he.flawless.flaws_eq, Expr.boundsFlaws]
    simp [Repetition.unbounded]
  have hparts (x : Expr) (hx : x ∈ (Expr.iterate (.bounded n Repetition.unbounded) e).parts) :
      x = .iterate (.bounded n Repetition.unbounded) e ∨ x ∈ e.parts := by
    obtain heq | ⟨child, hc, hx⟩ := Expr.mem_parts_cases hx
    · exact .inl heq
    · exact .inr (List.mem_singleton.1 hc ▸ hx)
  refine ⟨⟨rfl, hflaws⟩, fun name hm => ?_, fun inner main hm => ?_, fun a hm => ?_⟩
  · exact he.rule name ((hparts _ hm).resolve_left nofun)
  · exact he.embed inner main ((hparts _ hm).resolve_left nofun)
  · exact he.action a ((hparts _ hm).resolve_left nofun)

private theorem takeLoop_bounded (a b : Activation) :
    a.takeLoop (.bounded n Repetition.unbounded) b =
      if b.matched < n then a.fail else a.succeed b.cursor b.output := by
  have hne : ((n : Int) != Repetition.unbounded) = true := by
    simp [Repetition.unbounded]
  by_cases h : b.matched < n <;> simp [Activation.takeLoop, Quota.admits, hne, h]

variable (hr : SoundRules env.family known fun _ => False)
  (hfamily : env.family.Actionless) (hid : known id)
  (he : Sound env.family known (fun _ => False) id e)

include hr hfamily hid he

theorem matchesAlone_copies :
    MatchesAlone env id (.sequence (List.replicate n e)) cursor next output ↔
    ∃ furthest, InRow env.family env.input id (List.replicate n e) cursor cursor
      (.matched next output furthest) := by
  refine matchesAlone_iff_inRow (fun inner hi rule hrule => contained_of_sound (hr inner hi rule hrule))
    hid ?_ hfamily ?_
  · intro item hitem
    obtain rfl := List.eq_of_mem_replicate hitem
    exact contained_of_sound he
  · intro item hitem
    obtain rfl := List.eq_of_mem_replicate hitem
    exact actionless_of_sound he

private theorem advancesInside_iff : AdvancesInside env id e n cursor ↔
    ∀ k, k + 1 < n → CopyAdvances env.family env.input id e cursor k := by
  constructor
  · intro h k hk before after own own' mark mark' hbefore hafter
    exact h k hk before after own own'
      ((matchesAlone_copies hr hfamily hid he).2 ⟨mark, hbefore⟩)
      ((matchesAlone_copies hr hfamily hid he).2 ⟨mark', hafter⟩)
  · intro h k hk before after own own' hbefore hafter
    obtain ⟨mark, hbefore⟩ := (matchesAlone_copies hr hfamily hid he).1 hbefore
    obtain ⟨mark', hafter⟩ := (matchesAlone_copies hr hfamily hid he).1 hafter
    exact h k hk before after own own' mark mark' hbefore hafter

variable (hsize : env.input.size ≤ 9223372036854775807) (h0 : 0 ≤ cursor)
  (hle : cursor ≤ env.input.size)

include hsize h0 hle

/-- At a copy that does not advance, or ends with the input, a repetition is over. -/
theorem rounds_of_not_advances (hadvance : ∀ j < k, CopyAdvances env.family env.input id e cursor j)
    (hstuck : ¬CopyAdvances env.family env.input id e cursor k) : ∃ b furthest,
      Evaluates env.family env.input id (.rounds e) (.start cursor) cursor (.done b furthest) ∧
        b.matched = (k + 1 : Nat) := by
  simp only [CopyAdvances, not_forall] at hstuck
  obtain ⟨before, after, own, own', mark, mark', hbefore, hafter, hstuck⟩ := hstuck
  obtain ⟨middle, own', mark', later, hcopies, hlast, rfl⟩ := inRow_replicate_succ.1 hafter
  have hsame := ((matchesAlone_copies hr hfamily hid he).2 ⟨mark, hbefore⟩).unique
    ((matchesAlone_copies hr hfamily hid he).2 ⟨_, hcopies⟩)
  obtain ⟨rfl, rfl⟩ := hsame
  obtain ⟨hcount, hinside, hrounds⟩ := rounds_of_copies hsize h0 hle hadvance hcopies
  have hround := judges_round (k := k) own hlast (by omega)
  have hforward : before ≤ after := (hround.forward (show 0 ≤ before by omega)
    (show before ≤ env.input.size by omega)).1
  refine ⟨_, _, (hrounds _).2 ((rounds_iff_of_last hround ?_).2 rfl), rfl⟩
  rw [← Bool.not_eq_false, stopsLoop_eq_false]
  rintro ⟨-, hlt, hmoved⟩
  have hmoved : after ≠ before := hmoved
  exact hstuck ⟨by omega, hlt⟩

/-- Where copies match of which a repetition asks for that many, it matches if all but the last one
advance, as long as it comes to an end, and it mismatches otherwise. -/
theorem bounded_of_copies (hn : 0 < n)
    (hcopies : MatchesAlone env id (.sequence (List.replicate n e)) cursor next output) :
    (AdvancesInside env id e n cursor →
      EndsAlone env id (.iterate (.bounded n Repetition.unbounded) e) cursor →
      ∃ last output',
        MatchesAlone env id (.iterate (.bounded n Repetition.unbounded) e) cursor last output') ∧
    (¬AdvancesInside env id e n cursor →
      MissesAlone env id (.iterate (.bounded n Repetition.unbounded) e) cursor) := by
  have hcontained : ContainedRules env.family known :=
    fun inner hi rule hrule => contained_of_sound (hr inner hi rule hrule)
  have hbounded := sound_bounded n he
  have hmisses := missesAlone_iff hcontained hid (contained_of_sound hbounded) h0 hle
  rw [advancesInside_iff hr hfamily hid he]
  obtain ⟨m, rfl⟩ : ∃ m, n = m + 1 := ⟨n - 1, by omega⟩
  constructor
  · intro hadvance hends
    obtain hmatches | hmissed := matches_or_misses hr hid hbounded h0 hle hends
    · exact hmatches
    · obtain ⟨furthest, hrow⟩ := (matchesAlone_copies hr hfamily hid he).1 hcopies
      obtain ⟨b, mark, hb, hfailed⟩ := hmisses.1 hmissed
      obtain ⟨c, inner, rfl⟩ := (evaluates_loop_done rfl).1 hb
      have hcount := le_matched_of_copies hfamily (actionless_of_sound he) hsize h0 hle
        (fun j hj => hadvance j (by omega)) hrow inner
      rw [takeLoop_bounded, if_neg (by omega)] at hfailed
      cases hfailed
  · intro hstuck
    -- the first copy that does not advance is the last round
    classical
    have hex : ∃ k, k + 1 < m + 1 ∧ ¬CopyAdvances env.family env.input id e cursor k := by
      simpa [not_forall] using hstuck
    obtain ⟨hk, hlast⟩ := Nat.find_spec hex
    have hearlier (j : Nat) (hj : j < Nat.find hex) :
        CopyAdvances env.family env.input id e cursor j := by
      by_contra hno
      exact Nat.find_min hex hj ⟨by omega, hno⟩
    obtain ⟨b, furthest, inner, hmatched⟩ :=
      rounds_of_not_advances hr hfamily hid he hsize h0 hle hearlier hlast
    refine hmisses.2 ⟨_, furthest, (evaluates_loop_done rfl).2 ⟨b, inner, rfl⟩, ?_⟩
    rw [takeLoop_bounded, if_pos (by omega)]
    rfl

end

end Evaluator

namespace Machine

open Evaluator

/-- A repetition asks for as many rounds as its lower bound says, and rounds are less than copies:
the one that consumes nothing or gets to the end of the input is the last one. So where `n` copies
of an item match in a row, the item repeated at least `n` times matches if all copies but the last
one advance inside of the input, as long as its further rounds come to an end. If one of them does
not, it mismatches. -/
theorem bounded_iff_copies_advance (family : Family) (host : Host) (id inner : Nat)
    (input : Input) (hdefined : ∀ g ∈ family, g.Defined) (hclosed : family.Closed)
    (hid : id < family.length) (hcheck : family.check id = none) (hfamily : family.Actionless)
    (hinner : family.Embeds id inner) (e : Expr)
    (he : Sound family (family.Embeds id) (fun _ => False) inner e)
    (hsize : input.size ≤ 9223372036854775807) (cursor : Int) (h0 : 0 ≤ cursor)
    (hle : cursor ≤ input.size) (n : Nat) (hn : 0 < n) (next : Int) (output : List Value)
    (hcopies : MatchesAlone (environment family host input) inner
      (.sequence (List.replicate n e)) cursor next output) :
    (AdvancesInside (environment family host input) inner e n cursor →
      EndsAlone (environment family host input) inner
        (.iterate (.bounded n Repetition.unbounded) e) cursor →
      ∃ last output', MatchesAlone (environment family host input) inner
        (.iterate (.bounded n Repetition.unbounded) e) cursor last output') ∧
    (¬AdvancesInside (environment family host input) inner e n cursor →
      MissesAlone (environment family host input) inner
        (.iterate (.bounded n Repetition.unbounded) e) cursor) := by
  have hclean := Family.clean_of_check hcheck hid hclosed
  have hr : SoundRules family (family.Embeds id) fun _ => False := by
    refine soundRules_of_clean hdefined hclean (fun _ hi _ hr _ _ hm => .step hi hr hm) ?_
    intro inner' _ rule hrule effect hm
    exact hfamily inner' rule hrule _ hm rfl effect rfl
  exact bounded_of_copies hr hfamily hinner he hsize h0 hle hn hcopies

/-- The letter `a` at least twice, and nothing or that letter at least twice. -/
def twice : Family :=
  [.ofRules [("main", .choice [.iterate (.bounded 2 Repetition.unbounded) (.literal "a"),
    .iterate (.bounded 2 Repetition.unbounded) (.iterate .optional (.literal "a"))])]]

theorem defined_twice : ∀ g ∈ twice, g.Defined := Grammar.defined_map [_]

theorem closed_twice : twice.Closed := by decide

theorem actionless_twice : twice.Actionless := by
  apply Family.actionless_of_forall
  intro inner rule hr effect
  have hlacks : twice.lacks Expr.isAction = true := rfl
  exact Family.not_mem_of_lacks hlacks hr rfl

/-- The machine that matches a text by them. -/
def twiceOn (source : Bytes) : Env :=
  environment twice Host.idle (.text source)

/-- Two letters advance inside of a text of three. -/
theorem bounded_iff_copies_advance_twice : twice.check 0 = none ∧ twice.Actionless ∧
    (Input.text "aaa").size = 3 ∧
    MatchesAlone (twiceOn "aaa") 0 (.sequence (List.replicate 2 (.literal "a"))) 0 2
      [.ofText "a" ⟨1, 2⟩, .ofText "a" ⟨0, 1⟩] ∧
    ∃ last output, MatchesAlone (twiceOn "aaa") 0
      (.iterate (.bounded 2 Repetition.unbounded) (.literal "a")) 0 last output := by
  have hsound : Sound twice (twice.Embeds 0) (fun _ => False) 0 (.literal "a") :=
    ⟨⟨rfl, rfl⟩, by simp [Expr.parts, Expr.visit], by simp [Expr.parts, Expr.visit],
      by simp [Expr.parts, Expr.visit]⟩
  have hcopies : MatchesAlone (twiceOn "aaa") 0 (.sequence (List.replicate 2 (.literal "a"))) 0 2
      [.ofText "a" ⟨1, 2⟩, .ofText "a" ⟨0, 1⟩] := ⟨20, _, rfl⟩
  have hadvances : AdvancesInside (twiceOn "aaa") 0 (.literal "a") 2 0 := by
    intro k hk before after output output' hbefore hafter
    obtain rfl : k = 0 := by omega
    have hnone : MatchesAlone (twiceOn "aaa") 0 (.sequence []) 0 0 [] := ⟨20, _, rfl⟩
    have hone : MatchesAlone (twiceOn "aaa") 0 (.sequence [.literal "a"]) 0 1
      [.ofText "a" ⟨0, 1⟩] := ⟨20, _, rfl⟩
    obtain ⟨rfl, -⟩ := hbefore.unique hnone
    obtain ⟨rfl, -⟩ := hafter.unique hone
    decide
  obtain ⟨hmatches, -⟩ := bounded_iff_copies_advance twice
    Host.idle 0 0 (.text "aaa") defined_twice closed_twice
    (by decide) rfl actionless_twice .refl (.literal "a") hsound (by decide) 0 (by decide)
    (by decide) 2 (by decide) 2 _ hcopies
  exact ⟨rfl, actionless_twice, rfl, hcopies, hmatches hadvances ⟨20, rfl⟩⟩

/-- Two copies of what may match nothing match an empty text, and as a repetition it mismatches. -/
theorem bounded_misses_where_copies_match : (∀ g ∈ twice, g.Defined) ∧ twice.Closed ∧
    twice.check 0 = none ∧ twice.Actionless ∧
    MatchesAlone (twiceOn "") 0
      (.sequence (List.replicate 2 (.iterate .optional (.literal "a")))) 0 0 [] ∧
    MissesAlone (twiceOn "") 0
      (.iterate (.bounded 2 Repetition.unbounded) (.iterate .optional (.literal "a"))) 0 :=
  ⟨defined_twice, closed_twice, rfl, actionless_twice, ⟨20, _, rfl⟩, ⟨20, _, _, _, rfl, rfl⟩⟩

end Machine

end PegMachine
