import Mathlib.Logic.ExistsUnique
import PegMachine.Proofs.Evaluator.Matches

namespace PegMachine

namespace Evaluator

open Machine

section

variable {family : Family} {input : Input} {id : Nat} {a b : Activation} {furthest furthest' : Int}

/-- An item that fails leaves the cursor where it was. -/
theorem Evaluates.failed_cases {task : Task} {o : Outcome}
    (h : Evaluates family input id task a furthest o) :
    ∀ {e b furthest'}, task = .item e → o = .done b furthest' →
      b = a.fail ∨ b.failed = a.failed := by
  induction h with
  | missing | undefined | stranded | headless =>
    intro e b furthest' _ ho
    cases ho
  | literal | pattern =>
    intro e b furthest' _ ho
    obtain hfail | ⟨value, next, -, rfl⟩ := takeLeaf_eq_done ho
    · exact .inl hfail
    · exact .inr rfl
  | rule _ _ ih =>
    intro e b furthest' _ ho
    exact ih rfl ho
  | sequence | once | choice | hide =>
    intro e c furthest' _ ho
    obtain ⟨b, -, hc⟩ := into_eq_done ho
    cases hc
    simp only [Activation.takeSequence, Activation.takeChoice, Activation.takeHide]
    split
    · exact .inl rfl
    · exact .inr rfl
  | wrap =>
    intro e c furthest' _ ho
    obtain ⟨b, -, hc⟩ := into_eq_done ho
    unfold Activation.takeWrap? at hc
    split at hc
    · cases hc
      exact .inl rfl
    · obtain ⟨span, -, rfl⟩ := Option.map_eq_some_iff.1 hc
      exact .inr rfl
  | loop | not =>
    intro e c furthest' _ ho
    obtain ⟨b, -, hc⟩ := into_eq_done ho
    cases hc
    simp only [Activation.takeLoop, Activation.takeNot]
    split
    · exact .inr rfl
    · exact .inl rfl
  | optional =>
    intro e c furthest' _ ho
    obtain ⟨b, -, hc⟩ := into_eq_done ho
    cases hc
    unfold Activation.takeOptional
    split
    · exact .inr rfl
    · exact .inr rfl
  | action hact =>
    intro e b furthest' _ ho
    subst ho
    obtain ⟨output, rfl⟩ := act_eq_done hact
    exact .inr rfl
  | embed =>
    intro e c furthest' _ ho
    obtain ⟨b, inner, -, rfl⟩ := intoCaller_eq_done ho
    unfold Activation.takeSequence
    split
    · exact .inl rfl
    · exact .inr rfl
  | nil | stopped | cons | halted | last | again | broken =>
    intro e b furthest' ht
    cases ht

private theorem into_eq_aborted
    {o : Outcome} {take? : Activation → Option Activation} {error : Error}
    (h : o.into take? = .aborted error furthest) : o = .aborted error furthest := by
  cases o with
  | done b furthest' =>
    simp only [Outcome.into] at h
    split at h <;> cases h
  | raised | aborted | fault => exact h

private theorem intoCaller_eq_aborted {o : Outcome} {error : Error}
    (h : o.intoCaller input a furthest = .aborted error furthest') :
    ∃ inner, o = .aborted error inner := by
  cases o with
  | done b inner =>
    simp only [Outcome.intoCaller] at h
    repeat' split at h
    all_goals cases h
  | raised payload inner =>
    simp only [Outcome.intoCaller] at h
    split at h <;> cases h
  | aborted e inner =>
    cases h
    exact ⟨inner, rfl⟩
  | fault => cases h

private theorem act_aborted {effect : Action} {e : Error}
    (h : act input a furthest effect = some (.aborted e furthest')) : e.IsDefect := by
  cases effect with
  | insert | clear | throw | log => cases h
  | unknown =>
    cases h
    exact .unknownAction
  | insertText text =>
    simp only [act] at h
    split at h <;> cases h
  | convert g =>
    cases g with
    | none => cases h
    | some g =>
      simp only [act] at h
      split at h <;> cases h
  | modify g =>
    simp only [act] at h
    repeat' split at h
    all_goals cases h
  | note key datum =>
    simp only [act] at h
    split at h <;> cases h
  | custom host => cases host <;> cases h

/-- An error that nothing recovers from tells of a defect. It is no failure: those come of
mismatches and payloads. -/
theorem Evaluates.aborted {task : Task} {o : Outcome}
    (h : Evaluates family input id task a furthest o) :
    ∀ {e furthest'}, o = .aborted e furthest' → e.IsDefect := by
  induction h with
  | nil | stopped | last | stranded =>
    intro e furthest' ho
    cases ho
  | missing =>
    intro e furthest' ho
    cases ho
    exact .unknownExpression
  | undefined | headless =>
    intro e furthest' ho
    cases ho
    exact .undefined _
  | @literal _ a _ text =>
    intro e furthest' ho
    cases hattempt : input.tryLiteral a.cursor text <;> rw [hattempt] at ho <;> cases ho
  | @pattern _ a _ p =>
    intro e furthest' ho
    cases hattempt : input.tryPattern a.cursor p <;> rw [hattempt] at ho <;> cases ho
  | rule _ _ ih => exact ih
  | sequence _ ih | choice _ ih | wrap _ ih | hide _ ih | loop _ _ ih | optional _ ih | not _ ih
  | once _ ih =>
    intro e furthest' ho
    exact ih (into_eq_aborted ho)
  | action hact =>
    intro e furthest' ho
    subst ho
    exact act_aborted hact
  | embed _ _ _ ih =>
    intro e furthest' ho
    obtain ⟨inner, ho⟩ := intoCaller_eq_aborted ho
    exact ih ho
  | cons _ _ _ _ ih => exact ih
  | halted _ _ _ ih => exact ih
  | again _ _ _ _ ih => exact ih
  | broken _ _ ih => exact ih

/-- A run that may leave input over fails because its main rule does, or with a payload. -/
theorem Evaluates.failure_cases {task : Task} {o : Outcome} {start cursor : Int} {f : Failure}
    (h : Evaluates family input id task a furthest o)
    (hending : (o.result input false start).ending = .error (.failure f) cursor) :
    (f.kind = .mismatch ∧ ∃ b furthest', o = .done b furthest' ∧ b.failed = true) ∨
      f.kind = .payload := by
  cases o with
  | done b furthest' =>
    simp only [Outcome.result, Bool.false_and, Bool.or_false] at hending
    split at hending
    · next hb =>
      obtain hfault | ⟨position, -, hfailure⟩ := ending_failureResult hending
      · cases hfault
      · cases hfailure
        exact .inl ⟨rfl, b, furthest', rfl, hb⟩
    · cases hending
  | raised payload furthest' =>
    obtain hfault | ⟨position, -, hfailure⟩ := ending_failureResult hending
    · cases hfault
    · cases hfailure
      exact .inr rfl
  | aborted e furthest' =>
    cases hending
    cases h.aborted rfl
  | fault => cases hending

end

end Evaluator

namespace Machine

open Evaluator

/-- What a match fails for: its main rule does not match, it matches and leaves input over, or an
action gives up. -/
inductive Cause where
  | mismatch
  | leftover
  | payload
  deriving Repr, DecidableEq

section

variable (family : Family) (host : Host) (config : Config) (id : Nat) (input : Input)

/-- The match that may leave input over ends in this way. -/
def PartialEnds (ending : Ending) : Prop :=
  MatchEnds family host { config with exact := false } id input ending

/-- What a failure with a cursor tells when it has this cause. -/
def Cause.Explains (f : Failure) (cursor : Int) : Cause → Prop
  | .mismatch =>
    f.kind = .mismatch ∧ cursor = 0 ∧ input.offset? 0 = some f.offset ∧
      ∃ g place, PartialEnds family host config id input (.error (.failure g) place) ∧
        g.kind = .mismatch
  | .leftover =>
    f.kind = .mismatch ∧ config.exact = true ∧ cursor < input.size ∧
      input.offset? cursor = some f.offset ∧
      ∃ vs, PartialEnds family host config id input (.values vs cursor)
  | .payload => f.kind = .payload ∧ cursor = 0 ∧ input.offset? 0 = some f.offset

end

section

variable {family : Family} {host : Host} {config : Config} {id : Nat} {input : Input}

theorem Cause.Explains.unique {f : Failure} {cursor : Int} {cause cause' : Cause}
    (h : cause.Explains family host config id input f cursor)
    (h' : cause'.Explains family host config id input f cursor) : cause = cause' := by
  cases cause with
  | mismatch =>
    obtain ⟨hkind, -, -, g, place, hpartial, -⟩ := h
    cases cause' with
    | mismatch => rfl
    | leftover =>
      obtain ⟨-, -, -, -, vs, hvalues⟩ := h'
      cases hpartial.unique hvalues
    | payload => cases hkind.symm.trans h'.1
  | leftover =>
    obtain ⟨hkind, -, -, -, vs, hvalues⟩ := h
    cases cause' with
    | mismatch =>
      obtain ⟨-, -, -, g, place, hpartial, -⟩ := h'
      cases hpartial.unique hvalues
    | leftover => rfl
    | payload => cases hkind.symm.trans h'.1
  | payload =>
    cases cause' with
    | mismatch | leftover => cases h.1.symm.trans h'.1
    | payload => rfl

private theorem offset?_of_position? {cursor furthest : Int} {position : Int × Int}
    (h : Evaluator.position? input cursor furthest = some position) :
    input.offset? cursor = some position.1 := by
  unfold Evaluator.position? at h
  split at h
  · next offset furthest hoffset hfurthest =>
    cases h
    exact hoffset
  · cases h

/-- The outcome of the main rule tells the cause of a failure. -/
theorem exists_cause (hl : config.limit ≤ 0) (hfree : family.CustomFree id)
    (hcheck : family.check id = none) (hmain : ((family.grammarAt id).rule? config.main).isSome)
    {f : Failure} {cursor : Int}
    (h : MatchEnds family host config id input (.error (.failure f) cursor)) :
    ∃ cause : Cause, cause.Explains family host config id input f cursor := by
  obtain ⟨o, ho, hresult⟩ := (run_iff_evaluates hl hfree).1 ((matchEnds_iff_run hcheck hmain).1 h)
  -- the same outcome tells how the match ends that may leave input over
  have partially {ending : Ending} (he : (o.result input false 0).ending = ending) :
      PartialEnds family host config id input ending := by
    have hmain' : ((family.grammarAt id).rule? { config with exact := false }.main).isSome := hmain
    have hl' : { config with exact := false }.limit ≤ 0 := hl
    exact (matchEnds_iff_run hcheck hmain').2 ((run_iff_evaluates hl' hfree).2 ⟨o, ho, he⟩)
  cases o with
  | done b furthest =>
    simp only [Outcome.result] at hresult partially
    cases hb : b.failed with
    | true =>
      simp only [hb, Bool.true_or, if_true] at hresult partially
      obtain hfault | ⟨position, hp, hfailure⟩ := ending_failureResult hresult
      · cases hfault
      cases hfailure
      have hcursor : b.cursor = 0 := by
        obtain rfl | hsame := ho.failed_cases rfl rfl
        · rfl
        · rw [hb] at hsame
          cases hsame
      have hoffset := offset?_of_position? hp
      rw [hcursor] at hoffset
      exact ⟨.mismatch, rfl, hcursor, hoffset, _, _, partially hresult, rfl⟩
    | false =>
      simp only [hb, Bool.false_or, Bool.false_and, Bool.false_eq_true, if_false] at hresult partially
      cases hleft : config.exact && decide (b.cursor < input.size) with
      | true =>
        rw [if_pos hleft] at hresult
        obtain hfault | ⟨position, hp, hfailure⟩ := ending_failureResult hresult
        · cases hfault
        cases hfailure
        obtain ⟨hexact, hless⟩ := (Bool.and_eq_true _ _).mp hleft
        exact ⟨.leftover, rfl, hexact, of_decide_eq_true hless, offset?_of_position? hp, _,
          partially rfl⟩
      | false =>
        rw [if_neg (by simp [hleft])] at hresult
        cases hresult
  | raised payload furthest =>
    obtain hfault | ⟨position, hp, hfailure⟩ := ending_failureResult hresult
    · cases hfault
    cases hfailure
    exact ⟨.payload, rfl, rfl, offset?_of_position? hp⟩
  | aborted e furthest =>
    cases hresult
    cases ho.aborted rfl
  | fault => cases hresult

end

/-- A failure of a match without a limit has one cause, and the cause tells where it points: to the
start for a mismatch and a payload, and to the rest of the input where some is left over. -/
theorem match_cause (family : Family) (host : Host) (config : Config) (id : Nat) (input : Input)
    {f : Failure} {cursor : Int} (hl : config.limit ≤ 0) (hfree : family.CustomFree id)
    (hcheck : family.check id = none)
    (h : MatchEnds family host config id input (.error (.failure f) cursor)) :
    ∃! cause : Cause, cause.Explains family host config id input f cursor := by
  cases hmain : (family.grammarAt id).rule? config.main with
  | none =>
    cases (matchEnds_undefined hcheck hmain).unique h
  | some body =>
    obtain ⟨cause, hcause⟩ := exists_cause hl hfree hcheck (Option.isSome_of_eq_some hmain) h
    exact ⟨cause, hcause, fun other hother => hother.unique hcause⟩

/-- A letter before an embedded grammar, which gives up at the letter after it. -/
def buried : Family :=
  [.ofRules [("main", .sequence [.literal "a", .choice [.embed (some 1) "main", .literal "b"]])],
    .ofRules [("main", .sequence [.literal "b", .action (.throw (.text "stop"))])]]

/-- The whole text is read when the embedded grammar gives up, and the failure still points to the
start. -/
theorem match_cause_buried : buried.CustomFree 0 ∧ buried.check 0 = none ∧
    ∃ f, MatchEnds buried Host.idle {} 0 (.text "ab")
        (.error (.failure f) 0) ∧ f.kind = .payload ∧ f.offset = 0 ∧ f.furthest = 2 ∧
      ∃! cause : Cause,
        cause.Explains buried Host.idle {} 0 (.text "ab") f 0 := by
  have hfree : buried.CustomFree 0 := Family.customFree_of_lacks rfl 0
  have hcheck : buried.check 0 = none := rfl
  have hends : ∃ f, MatchEnds buried Host.idle {} 0 (.text "ab")
      (.error (.failure f) 0) ∧ f.kind = .payload ∧ f.offset = 0 ∧ f.furthest = 2 :=
    ⟨_, ⟨40, _, rfl, rfl⟩, rfl, rfl, rfl⟩
  obtain ⟨f, hf, hkind, hoffset, hfurthest⟩ := hends
  have hcause := match_cause buried Host.idle {} 0 (.text "ab")
    (Int.le_refl 0) hfree hcheck hf
  exact ⟨hfree, hcheck, f, hf, hkind, hoffset, hfurthest, hcause⟩

end Machine

end PegMachine
