import PegMachine.Proofs.Evaluator.Failures

namespace PegMachine

namespace Machine

/-- The run that has nothing but an expression of a grammar to evaluate. -/
def Run.alone (id : Nat) (e : Expr) (cursor : Int) : Run where
  grammar := id
  main := []
  exact := false
  terms := {}
  stack := { frames := [Frame.enter .root cursor [e]] }
  furthest := cursor

section

variable (env : Env) (id : Nat) (e : Expr) (cursor : Int)

/-- Alone, an expression matches from a cursor up to `next`. The output comes last first. -/
def MatchesAlone (next : Int) (output : List Value) : Prop :=
  ∃ fuel t, run env fuel { run := Run.alone id e cursor } =
    some (t, .values output.reverse next)

/-- Alone, an expression mismatches at a cursor. -/
def MissesAlone : Prop :=
  ∃ fuel t f place, run env fuel { run := Run.alone id e cursor } =
    some (t, .error (.failure f) place) ∧ f.kind = .mismatch

end

section

variable {env : Env} {id : Nat} {e : Expr} {cursor next next' : Int} {output output' : List Value}

theorem MatchesAlone.unique (h : MatchesAlone env id e cursor next output)
    (h' : MatchesAlone env id e cursor next' output') : next = next' ∧ output = output' := by
  obtain ⟨n, t, ht⟩ := h
  obtain ⟨m, t', ht'⟩ := h'
  have hsame := run_unique ht ht'
  simp only [Prod.mk.injEq, Ending.values.injEq, List.reverse_inj] at hsame
  exact ⟨hsame.2.2, hsame.2.1⟩

theorem MatchesAlone.not_missesAlone (h : MatchesAlone env id e cursor next output) :
    ¬MissesAlone env id e cursor := by
  rintro ⟨m, t', f, place, ht', -⟩
  obtain ⟨n, t, ht⟩ := h
  cases run_unique ht ht'

end

end Machine

namespace Evaluator

open Machine

/-- The outcome, with another furthest cursor at which anything was tried. -/
def Outcome.withMark (mark : Int) : Outcome → Outcome
  | .done b _ => .done b mark
  | .raised payload _ => .raised payload mark
  | .aborted e _ => .aborted e mark
  | .fault => .fault

section

variable {family : Family} {input : Input} {a : Activation} {furthest : Int} {o : Outcome}

private theorem withMark_into (mark : Int) (take? : Activation → Option Activation) (o : Outcome) :
    (o.withMark mark).into take? = (o.into take?).withMark mark := by
  cases o with
  | done b furthest =>
    simp only [Outcome.withMark, Outcome.into]
    cases take? b <;> rfl
  | raised | aborted | fault => rfl

private theorem withMark_isDone (mark : Int) (o : Outcome) :
    (o.withMark mark).isDone = o.isDone := by
  cases o <;> rfl

private theorem act_withMark
    {effect : Action} (h : act input a furthest effect = some o) (mark : Int) :
    act input a mark effect = some (o.withMark mark) := by
  cases effect with
  | insert | clear | throw | log | unknown =>
    cases h
    rfl
  | insertText text =>
    simp only [act] at h ⊢
    split at h <;> cases h <;> rfl
  | convert f =>
    cases f with
    | none =>
      cases h
      rfl
    | some f =>
      simp only [act] at h ⊢
      split at h <;> cases h <;> rfl
  | modify f =>
    simp only [act] at h ⊢
    repeat' split at h
    all_goals cases h; rfl
  | note key datum =>
    simp only [act] at h ⊢
    split at h <;> cases h <;> rfl
  | custom host =>
    cases host with
    | none =>
      cases h
      rfl
    | some host => cases h

private theorem takeLeaf_withMark (a : Activation) (furthest mark : Int) (attempt : Attempt) :
    ∃ mark', mark ≤ mark' ∧
      a.takeLeaf mark attempt = (a.takeLeaf furthest attempt).withMark mark' := by
  cases attempt with
  | fault => exact ⟨mark, Int.le_refl _, rfl⟩
  | mismatch => exact ⟨max mark a.cursor, by omega, rfl⟩
  | success value next => exact ⟨max (max mark a.cursor) next, by omega, rfl⟩

/-- An embedded run has a mark of its own, which the one around it only takes over. -/
theorem intoCaller_withMark (input : Input) (a : Activation) (furthest mark : Int) (o : Outcome) :
    ∃ mark', mark ≤ mark' ∧
      o.intoCaller input a mark = (o.intoCaller input a furthest).withMark mark' := by
  cases o with
  | done b inner =>
    refine ⟨max mark inner, by omega, ?_⟩
    simp only [Outcome.intoCaller]
    repeat' split
    all_goals rfl
  | raised payload inner =>
    refine ⟨max mark inner, by omega, ?_⟩
    simp only [Outcome.intoCaller]
    split <;> rfl
  | aborted e inner => exact ⟨max mark inner, by omega, rfl⟩
  | fault => exact ⟨mark, Int.le_refl _, rfl⟩

/-- What comes of a task from a mark, but for where the mark gets to. -/
def FromMark (family : Family) (input : Input) (id : Nat) (task : Task) (a : Activation)
    (mark : Int) (o : Outcome) : Prop :=
  ∃ mark', mark ≤ mark' ∧ Evaluates family input id task a mark (o.withMark mark')

theorem FromMark.into {id : Nat} {e : Expr} {task : Task} {mark : Int}
    {take? : Activation → Option Activation}
    (h : FromMark family input id task (.start a.cursor) mark o)
    (hmake : ∀ {o}, Evaluates family input id task (.start a.cursor) mark o →
      Evaluates family input id (.item e) a mark (o.into take?)) :
    FromMark family input id (.item e) a mark (o.into take?) := by
  obtain ⟨mark', hle, hinner⟩ := h
  exact ⟨mark', hle, withMark_into mark' take? o ▸ hmake hinner⟩

/-- From any mark on the same comes of a task, and the mark is not taken back. -/
theorem Evaluates.fromMark {id : Nat} {task : Task}
    (h : Evaluates family input id task a furthest o) (mark : Int) :
    FromMark family input id task a mark o := by
  induction h generalizing mark with
  | missing => exact ⟨mark, Int.le_refl _, .missing⟩
  | @literal id a furthest text =>
    obtain ⟨mark', hle, heq⟩ :=
      takeLeaf_withMark a furthest mark (input.tryLiteral a.cursor text)
    exact ⟨mark', hle, heq ▸ .literal⟩
  | @pattern id a furthest p =>
    obtain ⟨mark', hle, heq⟩ :=
      takeLeaf_withMark a furthest mark (input.tryPattern a.cursor p)
    exact ⟨mark', hle, heq ▸ .pattern⟩
  | undefined h => exact ⟨mark, Int.le_refl _, .undefined h⟩
  | rule hbody _ ih =>
    obtain ⟨mark', hle, h⟩ := ih mark
    exact ⟨mark', hle, .rule hbody h⟩
  | sequence _ ih => exact (ih mark).into .sequence
  | choice _ ih => exact (ih mark).into .choice
  | wrap _ ih => exact (ih mark).into .wrap
  | hide _ ih => exact (ih mark).into .hide
  | loop hquota _ ih => exact (ih mark).into (.loop hquota)
  | optional _ ih => exact (ih mark).into .optional
  | not _ ih => exact (ih mark).into .not
  | once _ ih => exact (ih mark).into .once
  | action hact => exact ⟨mark, Int.le_refl _, .action (act_withMark hact mark)⟩
  | stranded h => exact ⟨mark, Int.le_refl _, .stranded h⟩
  | headless hg hm => exact ⟨mark, Int.le_refl _, .headless hg hm⟩
  | @embed id a furthest _ _ _ _ o hg hm run _ =>
    obtain ⟨mark', hle, heq⟩ := intoCaller_withMark input a furthest mark o
    exact ⟨mark', hle, heq ▸ .embed hg hm run⟩
  | nil => exact ⟨mark, Int.le_refl _, .nil⟩
  | stopped hstop => exact ⟨mark, Int.le_refl _, .stopped hstop⟩
  | cons hgo _ _ head tail =>
    obtain ⟨middle, hle, hhead⟩ := head mark
    obtain ⟨mark', hle', htail⟩ := tail middle
    exact ⟨mark', by omega, .cons hgo hhead htail⟩
  | halted hgo _ ho head =>
    obtain ⟨mark', hle, hhead⟩ := head mark
    exact ⟨mark', hle, .halted hgo hhead ((withMark_isDone _ _).trans ho)⟩
  | last _ hstop round =>
    obtain ⟨mark', hle, hround⟩ := round mark
    exact ⟨mark', hle, .last hround hstop⟩
  | again _ hgo _ round more =>
    obtain ⟨middle, hle, hround⟩ := round mark
    obtain ⟨mark', hle', hmore⟩ := more middle
    exact ⟨mark', by omega, .again hround hgo hmore⟩
  | broken _ ho round =>
    obtain ⟨mark', hle, hround⟩ := round mark
    exact ⟨mark', hle, .broken hround ((withMark_isDone _ _).trans ho)⟩

theorem Evaluates.unique {id : Nat} {e : Expr} {o' : Outcome}
    (h : Evaluates family input id (.item e) a furthest o)
    (h' : Evaluates family input id (.item e) a furthest o') : o = o' :=
  Yields.unique h.answered h'.answered

end

section

variable {env : Env} {known : Nat → Prop} {id : Nat} {e : Expr} {cursor next : Int}
  {output : List Value}

/-- A run of an expression alone ends as evaluating that expression says. -/
theorem alone_iff (hr : ContainedRules env.family known) (hid : known id) (he : Contained known e)
    {ending : Ending} :
    (∃ fuel t, run env fuel { run := Run.alone id e cursor } = some (t, ending)) ↔
      ∃ o, Evaluates env.family env.input id (.item e) (.start cursor) cursor o ∧
        (o.result env.input false cursor).ending = ending := by
  have hs : Stands (Run.start id [] false {} cursor) []
      [(Activation.start cursor).frame .root cursor [e]] cursor
      { run := Run.alone id e cursor } := ⟨rfl, rfl⟩
  exact run_iff_of_stands env ⟨settled_default, Int.le_refl 0⟩ hr hid he hs

theorem matchesAlone_iff (hr : ContainedRules env.family known) (hid : known id)
    (he : Contained known e) : MatchesAlone env id e cursor next output ↔
      ∃ b furthest, Evaluates env.family env.input id (.item e) (.start cursor) cursor
        (.done b furthest) ∧ b.failed = false ∧ b.cursor = next ∧ b.output = output := by
  constructor
  · intro h
    obtain ⟨o, ho, hresult⟩ := (alone_iff hr hid he).1 h
    obtain ⟨b, furthest, rfl, hb, hout, hnext⟩ := ending_eq_values hresult
    exact ⟨b, furthest, ho, hb, hnext.symm, (List.reverse_inj.1 hout).symm⟩
  · rintro ⟨b, furthest, ho, hb, rfl, rfl⟩
    exact (alone_iff hr hid he).2 ⟨_, ho, by simp [Outcome.result, hb, Result.ending]⟩

theorem missesAlone_iff (hr : ContainedRules env.family known) (hid : known id)
    (he : Contained known e) (h0 : 0 ≤ cursor) (hle : cursor ≤ env.input.size) :
    MissesAlone env id e cursor ↔ ∃ b furthest, Evaluates env.family env.input id (.item e)
      (.start cursor) cursor (.done b furthest) ∧ b.failed = true := by
  constructor
  · rintro ⟨fuel, t, f, place, hrun, hf⟩
    obtain ⟨o, ho, hresult⟩ := (alone_iff hr hid he).1 ⟨fuel, t, hrun⟩
    obtain ⟨-, b, furthest, rfl, hb⟩ | hpayload := ho.failure_cases hresult
    · exact ⟨b, furthest, ho, hb⟩
    · rw [hf] at hpayload
      cases hpayload
  · rintro ⟨b, furthest, ho, hb⟩
    -- what failed has a position, for it only went forward
    have hforward := (ho.forward h0 hle).1
    obtain ⟨mark, hmark, hsame⟩ := ho.fromMark cursor
    cases ho.unique hsame
    obtain ⟨offset, hoffset⟩ := Option.isSome_iff_exists.1
      (env.input.offset?_isSome (Int.le_trans h0 hforward))
    obtain ⟨offset', hoffset'⟩ := Option.isSome_iff_exists.1
      (env.input.offset?_isSome (Int.le_trans h0 hmark))
    have hposition : position? env.input b.cursor furthest = some (offset, offset') := by
      simp only [position?, hoffset, hoffset']
    have hends : (Outcome.result env.input false cursor (.done b furthest)).ending =
        .error (.failure (failureAt env.input .mismatch .nil (offset, offset'))) b.cursor := by
      simp only [Outcome.result, hb, Bool.true_or, if_true, failureResult, hposition, Result.ending]
    obtain ⟨fuel, t, hrun⟩ := (alone_iff hr hid he).2 ⟨_, ho, hends⟩
    exact ⟨fuel, t, _, _, hrun, rfl⟩

end

end Evaluator

end PegMachine
