import PegMachine.Proofs.Evaluator.Matches
import PegMachine.Proofs.Expr.Bare

namespace PegMachine.Evaluator

open Machine

/-- An activation without regard to its output. -/
def Activation.bare (a : Activation) : Activation := { a with output := [] }

/-- An outcome without regard to its output. -/
def Outcome.bare : Outcome → Outcome
  | .done a furthest => .done a.bare furthest
  | o => o

/-- An action that neither calls the host nor hands it the output. -/
def Discreet : Action → Prop
  | .custom _ | .convert _ | .modify _ => False
  | _ => True

section

variable {input : Input} {a a' b b' c : Activation} {furthest furthest' : Int} {o o' : Outcome}

theorem Activation.bare_eq_iff :
    a.bare = a'.bare ↔ a.cursor = a'.cursor ∧ a.failed = a'.failed ∧ a.matched = a'.matched := by
  cases a
  cases a'
  simp [Activation.bare]

theorem bare_start_eq (h : a.bare = a'.bare) :
    (Activation.start a.cursor).bare = (Activation.start a'.cursor).bare := by
  rw [(Activation.bare_eq_iff.1 h).1]

/-- An outcome looks like one that is done only if it is done. -/
theorem of_bare_eq_done (h : o.bare = (Outcome.done b furthest).bare) :
    ∃ b', o = .done b' furthest ∧ b'.bare = b.bare := by
  cases o with
  | done b' furthest' =>
    simp only [Outcome.bare, Outcome.done.injEq] at h
    exact ⟨b', by rw [h.2], h.1⟩
  | raised | aborted | fault => cases h

/-- Outcomes that look alike are both done, or they are the same. -/
theorem done_or_eq_of_bare (h : o.bare = o'.bare) :
    (∃ b b' furthest, o = .done b furthest ∧ o' = .done b' furthest ∧ b'.bare = b.bare) ∨
      o.isDone = false ∧ o' = o := by
  cases o with
  | done b furthest =>
    obtain ⟨b', ho', hb⟩ := of_bare_eq_done h.symm
    exact .inl ⟨b, b', furthest, rfl, ho', hb⟩
  | raised | aborted | fault =>
    cases o' <;> cases h
    exact .inr ⟨rfl, rfl⟩

theorem isDone_eq_of_bare (h : o.bare = o'.bare) : o.isDone = o'.isDone := by
  have hbare (o : Outcome) : o.bare.isDone = o.isDone := by cases o <;> rfl
  rw [← hbare o, h, hbare o']

/-- A way to take in what items did that does not look at their output. -/
def Blind (take? take?' : Activation → Option Activation) : Prop :=
  ∀ b b', b.bare = b'.bare → (take? b).map Activation.bare = (take?' b').map Activation.bare

theorem into_bare {take? take?' : Activation → Option Activation} (htake : Blind take? take?')
    (ho : o.bare = o'.bare) : (o.into take?).bare = (o'.into take?').bare := by
  obtain ⟨b, b', furthest, rfl, rfl, hb⟩ | ⟨hhalts, rfl⟩ := done_or_eq_of_bare ho
  · have hboth := htake b b' hb.symm
    simp only [Outcome.into]
    cases htaken : take? b with
    | none =>
      rw [htaken] at hboth
      rw [Option.map_eq_none_iff.1 hboth.symm]
    | some d =>
      rw [htaken] at hboth
      obtain ⟨d', hd', hbare⟩ := Option.map_eq_some_iff.1 hboth.symm
      rw [hd']
      exact congrArg (Outcome.done · furthest) hbare.symm
  · cases o' with
    | done => cases hhalts
    | raised | aborted | fault => rfl

/-- To take items in and then forget the output is to forget it first. -/
theorem blind_of_bare {take : Activation → Activation → Activation}
    (hbare : ∀ a b, (take a.bare b.bare).bare = (take a b).bare) (ha : a.bare = a'.bare) :
    Blind (fun b => some (take a b)) fun b => some (take a' b) := by
  intro b b' hb
  have htake : (take a b).bare = (take a' b').bare := by
    rw [← hbare a b, ha, hb, hbare a' b']
  exact congrArg some htake

theorem bare_takeSequence (a b : Activation) :
    (a.bare.takeSequence b.bare).bare = (a.takeSequence b).bare := by
  cases hb : b.failed <;>
    simp [Activation.takeSequence, Activation.bare, Activation.fail, Activation.succeed, hb]

private theorem bare_takeChoice (a b : Activation) :
    (a.bare.takeChoice b.bare).bare = (a.takeChoice b).bare := by
  by_cases hb : b.matched = 0 <;>
    simp [Activation.takeChoice, Activation.bare, Activation.fail, Activation.succeed, hb]

private theorem bare_takeLoop (quota : Quota) (a b : Activation) :
    (a.bare.takeLoop quota b.bare).bare = (a.takeLoop quota b).bare := by
  cases hb : quota.admits b.matched <;>
    simp [Activation.takeLoop, Activation.bare, Activation.fail, Activation.succeed, hb]

private theorem bare_takeOptional (a b : Activation) :
    (a.bare.takeOptional b.bare).bare = (a.takeOptional b).bare := by
  cases hb : b.failed <;>
    simp [Activation.takeOptional, Activation.bare, Activation.succeed, hb]

private theorem bare_takeNot (a b : Activation) :
    (a.bare.takeNot b.bare).bare = (a.takeNot b).bare := by
  cases hb : b.failed || b.matched == 0 <;>
    simp [Activation.takeNot, Activation.bare, Activation.fail, Activation.pass, hb]

/-- Hidden items count like a sequence. -/
theorem into_takeHide (a : Activation) (o : Outcome) :
    (o.into fun b => some (a.takeHide b)).bare = (o.into fun b => some (a.takeSequence b)).bare := by
  refine into_bare ?_ rfl
  intro b b' hb
  have hcount : (a.takeHide b).bare = (a.takeSequence b).bare := by
    cases hf : b.failed <;>
      simp [Activation.takeHide, Activation.takeSequence, Activation.bare, Activation.succeed, hf]
  have hsequence := blind_of_bare bare_takeSequence (Eq.refl a.bare) b b' hb
  exact (congrArg some hcount).trans hsequence

/-- So do wrapped items, where the input gives a span for the node. -/
theorem into_takeWrap? {name : Bytes}
    (hspan : ∀ b furthest, o = .done b furthest → (input.span? a.cursor b.cursor).isSome) :
    (o.into (a.takeWrap? input name)).bare = (o.into fun b => some (a.takeSequence b)).bare := by
  cases o with
  | done b furthest =>
    obtain ⟨span, hs⟩ := Option.isSome_iff_exists.1 (hspan b furthest rfl)
    cases hf : b.failed <;>
      simp [Outcome.into, Outcome.bare, Activation.takeWrap?, Activation.takeSequence,
        Activation.bare, Activation.succeed, hf, hs]
  | raised | aborted | fault => rfl

private theorem takeLeaf_bare (h : a.bare = a'.bare) (attempt : Attempt) :
    (a.takeLeaf furthest attempt).bare = (a'.takeLeaf furthest attempt).bare := by
  obtain ⟨hcursor, hfailed, hmatched⟩ := Activation.bare_eq_iff.1 h
  cases attempt <;>
    simp [Activation.takeLeaf, Outcome.bare, Activation.bare, Activation.fail, Activation.succeed,
      hcursor, hfailed, hmatched]

private theorem intoCaller_bare (ha : a.bare = a'.bare) (ho : o.bare = o'.bare) :
    (o.intoCaller input a furthest).bare = (o'.intoCaller input a' furthest).bare := by
  obtain ⟨hcursor, hfailed, hmatched⟩ := Activation.bare_eq_iff.1 ha
  obtain ⟨b, b', inner, rfl, rfl, hb⟩ | ⟨hhalts, rfl⟩ := done_or_eq_of_bare ho
  · obtain ⟨hbcursor, hbfailed, -⟩ := Activation.bare_eq_iff.1 hb
    simp only [Outcome.intoCaller, hbfailed, hbcursor]
    split
    · split
      · simp [Outcome.bare, Activation.bare, Activation.fail, hcursor, hmatched]
      · rfl
    · simp [Outcome.bare, Activation.bare, Activation.succeed, hfailed, hmatched]
  · cases o' with
    | done => cases hhalts
    | raised => simp only [Outcome.intoCaller, hcursor]
    | aborted | fault => rfl

/-- A discreet action does the same to activations that differ in their output. -/
theorem act_bare {effect : Action} (hd : Discreet effect) (ha : a.bare = a'.bare)
    (h : act input a furthest effect = some o) :
    ∃ o', act input a' furthest effect = some o' ∧ o'.bare = o.bare := by
  obtain ⟨hcursor, hfailed, hmatched⟩ := Activation.bare_eq_iff.1 ha
  cases effect with
  | insert values =>
    cases h
    exact ⟨_, rfl, congrArg (Outcome.done · furthest) ha.symm⟩
  | insertText text =>
    simp only [act, hcursor] at h ⊢
    split at h
    · cases h
      exact ⟨_, rfl, rfl⟩
    · cases h
      exact ⟨_, rfl, congrArg (Outcome.done · furthest) ha.symm⟩
  | note key datum =>
    have hdone (a : Activation) : ∃ b, act input a furthest (.note key datum) =
        some (.done b furthest) ∧ b.bare = a.bare := by
      simp only [act]
      split
      · exact ⟨a, rfl, rfl⟩
      · exact ⟨_, rfl, rfl⟩
    obtain ⟨b, hb, hbare⟩ := hdone a
    obtain ⟨b', hb', hbare'⟩ := hdone a'
    cases hb.symm.trans h
    exact ⟨_, hb', congrArg (Outcome.done · furthest) (hbare'.trans (ha.symm.trans hbare.symm))⟩
  | clear =>
    cases h
    exact ⟨_, rfl, congrArg (Outcome.done · furthest) ha.symm⟩
  | log args =>
    cases h
    exact ⟨_, rfl, congrArg (Outcome.done · furthest) ha.symm⟩
  | throw datum =>
    cases h
    exact ⟨_, rfl, rfl⟩
  | unknown =>
    cases h
    exact ⟨_, rfl, rfl⟩
  | custom | convert | modify => exact hd.elim

end

/-- A rule for stopping that does not look at the output. -/
def Steady (stops : Activation → Bool) : Prop :=
  ∀ a b : Activation, a.bare = b.bare → stops a = stops b

theorem steady_stopsSequence : Steady Activation.stopsSequence :=
  fun _ _ h => (Activation.bare_eq_iff.1 h).2.1

private theorem steady_stopsChoice : Steady Activation.stopsChoice := by
  intro a b h
  rw [Activation.stopsChoice, Activation.stopsChoice, (Activation.bare_eq_iff.1 h).2.2]

private theorem steady_stopsNot : Steady Activation.stopsNot := by
  intro a b h
  obtain ⟨-, hfailed, hmatched⟩ := Activation.bare_eq_iff.1 h
  rw [Activation.stopsNot, Activation.stopsNot, hfailed, hmatched]

theorem stopsLoop_eq_of_bare {a b : Activation} (h : a.bare = b.bare) (size mark : Int) :
    a.stopsLoop size mark = b.stopsLoop size mark := by
  obtain ⟨hcursor, hfailed, -⟩ := Activation.bare_eq_iff.1 h
  rw [Activation.stopsLoop, Activation.stopsLoop, hcursor, hfailed]

/-- Tasks that differ in what they output at most. -/
inductive Task.Alike : Task → Task → Prop
  | item {e e' : Expr} (h : e.bare = e'.bare) : Alike (.item e) (.item e')
  | items {stops : Activation → Bool} {pending pending' : List Expr} (hs : Steady stops)
      (h : Expr.bareAll pending = Expr.bareAll pending') :
      Alike (.items stops pending) (.items stops pending')
  | rounds {e e' : Expr} (h : e.bare = e'.bare) : Alike (.rounds e) (.rounds e')

section

variable {family : Family} {input : Input} {id : Nat} {a : Activation} {furthest : Int}
  {stops : Activation → Bool} {pending : List Expr}

variable (furthest) in
/-- A remark only writes. -/
theorem act_remark {e : Expr} (he : e.isRemark = true) (h0 : 0 ≤ a.cursor)
    (hle : a.cursor ≤ input.size) : ∃ effect b, e = .action effect ∧
      act input a furthest effect = some (.done b furthest) ∧ b.bare = a.bare := by
  cases e with
  | action effect =>
    refine ⟨effect, ?_⟩
    cases effect with
    | insertText text =>
      obtain ⟨span, hs⟩ := Option.isSome_iff_exists.1 (input.span?_isSome h0 hle)
      exact ⟨a.capture [Value.ofText text span], rfl, by simp only [act, hs], rfl⟩
    | note key datum =>
      cases ho : a.output with
      | nil => exact ⟨a, rfl, by simp only [act, ho], rfl⟩
      | cons last output =>
        exact ⟨{ a with output := last.annotate key datum :: output }, rfl,
          by simp only [act, ho], rfl⟩
    | insert | clear | log => exact ⟨_, rfl, rfl, rfl⟩
    | convert | modify | custom | throw | unknown => cases he
  | missing | literal | pattern | rule | sequence | choice | iterate | wrap | hide | embed => cases he

theorem Evaluates.of_remark {e : Expr} {o : Outcome} (he : e.isRemark = true)
    (h : Evaluates family input id (.item e) a furthest o) (h0 : 0 ≤ a.cursor)
    (hle : a.cursor ≤ input.size) : ∃ b, o = .done b furthest ∧ b.bare = a.bare := by
  obtain ⟨effect, b, rfl, hact, hb⟩ := act_remark furthest he h0 hle
  cases h with
  | action hact' =>
    cases hact.symm.trans hact'
    exact ⟨b, rfl, hb⟩

/-- Where nothing but remarks is left to evaluate, an activation changes in its output alone. -/
theorem evaluates_remarks (hp : Expr.bareAll pending = [])
    (h0 : 0 ≤ a.cursor) (hle : a.cursor ≤ input.size) :
    ∃ b, Evaluates family input id (.items stops pending) a furthest (.done b furthest) ∧
      b.bare = a.bare := by
  induction pending generalizing a with
  | nil => exact ⟨a, .nil, rfl⟩
  | cons e pending ih =>
    cases he : e.isRemark with
    | false =>
      rw [Expr.bareAll_cons he] at hp
      cases hp
    | true =>
      rw [Expr.bareAll_remark he] at hp
      cases hstop : stops a with
      | true => exact ⟨a, .stopped hstop, rfl⟩
      | false =>
        obtain ⟨effect, b, rfl, hact, hb⟩ := act_remark furthest he h0 hle
        have hcursor := (Activation.bare_eq_iff.1 hb).1
        obtain ⟨c, hc, hbare⟩ := ih hp (hcursor ▸ h0) (hcursor ▸ hle)
        exact ⟨c, .cons hstop (.action hact) hc, hbare.trans hb⟩

/-- Remarks before the first item that counts are passed over. -/
theorem evaluates_past_remarks {x : Expr} {xs : List Expr} (hs : Steady stops)
    (hp : Expr.bareAll pending = x :: xs) (hstop : stops a = false) (h0 : 0 ≤ a.cursor)
    (hle : a.cursor ≤ input.size) :
    ∃ e more b, e.bare = x ∧ Expr.bareAll more = xs ∧ b.bare = a.bare ∧
      ∀ o, Evaluates family input id (.items stops (e :: more)) b furthest o →
        Evaluates family input id (.items stops pending) a furthest o := by
  induction pending generalizing a with
  | nil => cases hp
  | cons e pending ih =>
    cases he : e.isRemark with
    | false =>
      rw [Expr.bareAll_cons he] at hp
      cases hp
      exact ⟨e, pending, a, rfl, rfl, rfl, fun _ h => h⟩
    | true =>
      rw [Expr.bareAll_remark he] at hp
      obtain ⟨effect, b, rfl, hact, hb⟩ := act_remark furthest he h0 hle
      have hcursor := (Activation.bare_eq_iff.1 hb).1
      obtain ⟨e', more, c, he', hmore, hc, hpast⟩ :=
        ih hp ((hs b a hb).trans hstop) (hcursor ▸ h0) (hcursor ▸ hle)
      refine ⟨e', more, c, he', hmore, hc.trans hb, ?_⟩
      intro o h
      exact .cons hstop (.action hact) (hpast o h)

/-- Where the items of two lists count alike, the first that counts in the one is the next to be
evaluated in the other, once the remarks before it are passed over. -/
theorem evaluates_next {e : Expr} {pending' : List Expr} {a' : Activation}
    (he : e.isRemark = false) (hs : Steady stops)
    (hp : Expr.bareAll (e :: pending) = Expr.bareAll pending') (ha : a.bare = a'.bare)
    (hstop : stops a = false) (h0 : 0 ≤ a.cursor) (hle : a.cursor ≤ input.size) :
    ∃ e' more c, e.bare = e'.bare ∧ Expr.bareAll pending = Expr.bareAll more ∧
      a.bare = c.bare ∧ stops c = false ∧
        ∀ o, Evaluates family input id (.items stops (e' :: more)) c furthest o →
          Evaluates family input id (.items stops pending') a' furthest o := by
  rw [Expr.bareAll_cons he] at hp
  have hcursor := (Activation.bare_eq_iff.1 ha).1
  have hstop' : stops a' = false := (hs a a' ha).symm.trans hstop
  obtain ⟨e', more, c, he', hmore, hc, hpast⟩ :=
    evaluates_past_remarks hs hp.symm hstop' (hcursor ▸ h0) (hcursor ▸ hle)
  have hac := ha.trans hc.symm
  exact ⟨e', more, c, he'.symm, hmore.symm, hac, (hs a c hac).symm.trans hstop, hpast⟩

/-- Whatever groups items in a row, evaluating it counts like evaluating a sequence. -/
theorem evaluates_group {e : Expr} {inner : List Expr} {o : Outcome}
    (he : e = .sequence inner ∨ (∃ name, e = .wrap name inner) ∨ e = .hide inner)
    (h0 : 0 ≤ a.cursor) (hle : a.cursor ≤ input.size)
    (h : Evaluates family input id (.items Activation.stopsSequence inner) (.start a.cursor)
      furthest o) :
    ∃ o', Evaluates family input id (.item e) a furthest o' ∧
      o'.bare = (o.into fun b => some (a.takeSequence b)).bare := by
  obtain rfl | ⟨name, rfl⟩ | rfl := he
  · exact ⟨_, .sequence h, rfl⟩
  · refine ⟨_, .wrap h, into_takeWrap? ?_⟩
    intro b furthest' ho
    subst ho
    exact input.span?_isSome h0 (h.forward h0 hle).2
  · exact ⟨_, .hide h, into_takeHide a o⟩

end

/-- What is evaluated in one family has an outcome in the other, wherever the task and the activation
differ in the output alone, and so do the outcomes. -/
def Mirrors (family' : Family) (input : Input) (known : Nat → Prop) (id : Nat) (task : Task)
    (a : Activation) (furthest : Int) (o : Outcome) : Prop :=
  known id → task.Admitted known True Discreet → 0 ≤ a.cursor → a.cursor ≤ input.size →
    ∀ {task' : Task} {a' : Activation}, task.Alike task' → a.bare = a'.bare →
      ∃ o', Evaluates family' input id task' a' furthest o' ∧ o'.bare = o.bare

section

variable {family family' : Family} {input : Input} {known : Nat → Prop}

/-- What groups the items of a sequence, in one way or another, counts like the sequence. -/
theorem evaluates_regrouped {id : Nat} {e : Expr} {items : List Expr} {a a' : Activation}
    {furthest : Int} {o : Outcome} (he : e.bare = .sequence (Expr.bareAll items))
    (ha : a.bare = a'.bare) (h0 : 0 ≤ a.cursor) (hle : a.cursor ≤ input.size)
    (hinner : ∀ inner, Expr.bareAll items = Expr.bareAll inner →
      ∃ o', Evaluates family input id (.items Activation.stopsSequence inner) (.start a'.cursor)
        furthest o' ∧ o'.bare = o.bare) :
    ∃ o', Evaluates family input id (.item e) a' furthest o' ∧
      o'.bare = (o.into fun b => some (a.takeSequence b)).bare := by
  obtain ⟨inner, hitems, hgroup⟩ := Expr.of_bare_eq_sequence he
  obtain ⟨o₁, ho₁, hbare₁⟩ := hinner inner hitems.symm
  have hcursor := (Activation.bare_eq_iff.1 ha).1
  obtain ⟨o₂, ho₂, hbare₂⟩ := evaluates_group hgroup (hcursor ▸ h0) (hcursor ▸ hle) ho₁
  have htaken := into_bare (blind_of_bare bare_takeSequence ha.symm) hbare₁
  exact ⟨o₂, ho₂, hbare₂.trans htaken⟩

variable {id : Nat} {a b : Activation} {furthest furthest' : Int} {o : Outcome} {e item : Expr}
  {items : List Expr} {stops : Activation → Bool}

namespace Mirrors

/-- A leaf is evaluated on both sides, and told by the cursor alone what is there. -/
theorem leaf (hleaf : e.isLeaf = true)
    (h : ∀ {a'}, known id → Admitted known True Discreet e → 0 ≤ a.cursor →
      a.cursor ≤ input.size → a.bare = a'.bare →
        ∃ o', Evaluates family' input id (.item e) a' furthest o' ∧ o'.bare = o.bare) :
    Mirrors family' input known id (.item e) a furthest o := by
  intro hid ht h0 hle task' a' halike ha
  cases halike with
  | item he =>
    have hbare : e.bare = e := by
      cases e <;> first | rfl | cases hleaf
    cases Expr.eq_of_bare_eq_leaf (he.symm.trans hbare) hleaf
    exact h hid ht h0 hle ha

theorem attempt (found : Activation → Attempt) (hleaf : e.isLeaf = true)
    (hfound : ∀ {a'}, a.bare = a'.bare → found a' = found a)
    (hmake : ∀ {a'}, Evaluates family' input id (.item e) a' furthest
      (a'.takeLeaf furthest (found a'))) :
    Mirrors family' input known id (.item e) a furthest (a.takeLeaf furthest (found a)) := by
  refine leaf hleaf fun {a'} _ _ _ _ ha => ⟨_, hmake, ?_⟩
  rw [hfound ha]
  exact takeLeaf_bare ha.symm _

theorem undefined {name : Bytes}
    (hfamily : family.map Grammar.bareRules = family'.map Grammar.bareRules)
    (hnone : (family.grammarAt id).rule? name = none) :
    Mirrors family' input known id (.item (.rule name)) a furthest
      (.aborted (.undefined ((family.grammarAt id).undefined name [])) furthest) := by
  have hrules := Family.grammarAt_of_bareRules hfamily id
  refine leaf rfl fun _ _ _ _ _ =>
    ⟨_, .undefined (Grammar.rule?_eq_none_of_bareRules hrules hnone), ?_⟩
  rw [Grammar.undefined_eq_of_bareRules hrules]

theorem rule {name : Bytes}
    (hfamily : family.map Grammar.bareRules = family'.map Grammar.bareRules)
    (hr : AdmittedRules family known True Discreet)
    (hbody : (family.grammarAt id).rule? name = some e)
    (h : Mirrors family' input known id (.item e) a furthest o) :
    Mirrors family' input known id (.item (.rule name)) a furthest o := by
  refine leaf rfl fun {a'} hid _ h0 hle ha => ?_
  have hrules := Family.grammarAt_of_bareRules hfamily id
  obtain ⟨body', hbody', hbare⟩ := Grammar.exists_rule?_of_bareRules hrules hbody
  have hadmitted := hr _ hid _ (Grammar.mem_rules_of_rule? _ _ _ hbody)
  obtain ⟨o', ho', halike⟩ := h hid hadmitted h0 hle (.item hbare) ha
  exact ⟨o', .rule hbody' ho', halike⟩

/-- Items in a row, however they are grouped. -/
theorem row {take? : Activation → Option Activation}
    (h : Mirrors family' input known id (.items Activation.stopsSequence items)
      (.start a.cursor) furthest o)
    (hchildren : e.children = items) (he : e.bare = .sequence (Expr.bareAll items))
    (htake : 0 ≤ a.cursor → a.cursor ≤ input.size →
      (o.into take?).bare = (o.into fun b => some (a.takeSequence b)).bare) :
    Mirrors family' input known id (.item e) a furthest (o.into take?) := by
  intro hid ht h0 hle task' a' halike ha
  cases halike with
  | item hsame =>
    rw [htake h0 hle]
    apply evaluates_regrouped (hsame.symm.trans he) ha h0 hle
    intro inner hinner
    exact h hid (fun x hx => ht.child (hchildren ▸ hx)) h0 hle
      (.items steady_stopsSequence hinner) (bare_start_eq ha)

theorem choice
    (h : Mirrors family' input known id (.items Activation.stopsChoice items) (.start a.cursor)
      furthest o) :
    Mirrors family' input known id (.item (.choice items)) a furthest
      (o.into fun b => some (a.takeChoice b)) := by
  intro hid ht h0 hle task' a' halike ha
  cases halike with
  | item he =>
    obtain ⟨inner, hinner, rfl⟩ := Expr.of_bare_eq_choice he.symm
    obtain ⟨o', ho', hbare⟩ := h hid (fun x hx => ht.child hx) h0 hle
      (.items steady_stopsChoice hinner.symm) (bare_start_eq ha)
    exact ⟨_, .choice ho', into_bare (blind_of_bare bare_takeChoice ha.symm) hbare⟩

/-- A repetition takes in what its item did in an activation of its own. -/
theorem iterate {kind : Repetition} (inner : Expr → Task)
    {take : Activation → Activation → Activation}
    (h : Mirrors family' input known id (inner item) (.start a.cursor) furthest o)
    (hadmits : Admitted known True Discreet item → (inner item).Admitted known True Discreet)
    (hinner : ∀ {item'}, item.bare = item'.bare → (inner item).Alike (inner item'))
    (htake : ∀ a b, (take a.bare b.bare).bare = (take a b).bare)
    (hmake : ∀ {item' a' o'}, Evaluates family' input id (inner item') (.start a'.cursor) furthest
        o' →
      Evaluates family' input id (.item (.iterate kind item')) a' furthest
        (o'.into fun b => some (take a' b))) :
    Mirrors family' input known id (.item (.iterate kind item)) a furthest
      (o.into fun b => some (take a b)) := by
  intro hid ht h0 hle task' a' halike ha
  cases halike with
  | item he =>
    obtain ⟨item', hitem, rfl⟩ := Expr.of_bare_eq_iterate he.symm
    obtain ⟨o', ho', hbare⟩ := h hid (hadmits (ht.child (List.mem_singleton.2 rfl))) h0 hle
      (hinner hitem.symm) (bare_start_eq ha)
    exact ⟨_, hmake ho', into_bare (blind_of_bare htake ha.symm) hbare⟩

/-- An item that is evaluated once. -/
theorem once {kind : Repetition} {take : Activation → Activation → Activation}
    (hs : Steady stops)
    (h : Mirrors family' input known id (.items stops [item]) (.start a.cursor) furthest o)
    (htake : ∀ a b, (take a.bare b.bare).bare = (take a b).bare)
    (hmake : ∀ {item' a' o'}, Evaluates family' input id (.items stops [item']) (.start a'.cursor)
        furthest o' →
      Evaluates family' input id (.item (.iterate kind item')) a' furthest
        (o'.into fun b => some (take a' b))) :
    Mirrors family' input known id (.item (.iterate kind item)) a furthest
      (o.into fun b => some (take a b)) :=
  iterate (fun e => .items stops [e]) h (fun ht => List.forall_mem_singleton.2 ht)
    (fun hitem => .items hs (Expr.bareAll_singleton hitem)) htake hmake

theorem action {effect : Action} (hact : act input a furthest effect = some o) :
    Mirrors family' input known id (.item (.action effect)) a furthest o := by
  refine leaf rfl fun {a'} _ ht _ _ ha => ?_
  have hdiscreet := ht.action _ (Expr.mem_parts_self _ rfl)
  obtain ⟨o', ho', hbare⟩ := act_bare hdiscreet ha hact
  exact ⟨o', .action ho', hbare⟩

theorem stranded {grammar : Option Nat} {main : Bytes}
    (hfamily : family.map Grammar.bareRules = family'.map Grammar.bareRules)
    (hnone : family.grammar? grammar = none) :
    Mirrors family' input known id (.item (.embed grammar main)) a furthest .fault := by
  refine leaf rfl fun _ _ _ _ _ => ⟨_, .stranded ?_, rfl⟩
  cases grammar with
  | none => rfl
  | some inner => exact Family.getElem?_eq_none_of_bareRules hfamily hnone

theorem headless {inner : Nat} {g : Grammar} {main : Bytes}
    (hfamily : family.map Grammar.bareRules = family'.map Grammar.bareRules)
    (hg : family[inner]? = some g) (hm : g.rule? main = none) :
    Mirrors family' input known id (.item (.embed (some inner) main)) a furthest
      (.aborted (.undefined (g.undefined main [])) furthest) := by
  obtain ⟨g', hg', hrules⟩ := Family.exists_getElem?_of_bareRules hfamily hg
  refine leaf rfl fun _ _ _ _ _ =>
    ⟨_, .headless hg' (Grammar.rule?_eq_none_of_bareRules hrules hm), ?_⟩
  rw [Grammar.undefined_eq_of_bareRules hrules]

theorem embed {inner : Nat} {g : Grammar} {main : Bytes} {body : Expr}
    (hfamily : family.map Grammar.bareRules = family'.map Grammar.bareRules)
    (hg : family[inner]? = some g) (hm : g.rule? main = some body)
    (h : Mirrors family' input known inner (.item (.rule main)) (.start a.cursor) a.cursor o) :
    Mirrors family' input known id (.item (.embed (some inner) main)) a furthest
      (o.intoCaller input a furthest) := by
  refine leaf rfl fun {a'} _ ht h0 hle ha => ?_
  obtain ⟨g', hg', hrules⟩ := Family.exists_getElem?_of_bareRules hfamily hg
  obtain ⟨body', hm', -⟩ := Grammar.exists_rule?_of_bareRules hrules hm
  have hknown := ht.embed _ _ (Expr.mem_parts_self _ rfl)
  have hcursor := (Activation.bare_eq_iff.1 ha).1
  obtain ⟨o', ho', hbare⟩ := h hknown (.rule _) h0 hle (.item rfl) (bare_start_eq ha)
  rw [hcursor] at ho'
  exact ⟨_, .embed hg' hm' ho', intoCaller_bare ha.symm hbare⟩

theorem nil : Mirrors family' input known id (.items stops []) a furthest (.done a furthest) := by
  intro _ _ h0 hle task' a' halike ha
  cases halike with
  | items _ hpending =>
    have hcursor := (Activation.bare_eq_iff.1 ha).1
    obtain ⟨b, hb, hbare⟩ := evaluates_remarks hpending.symm (hcursor ▸ h0) (hcursor ▸ hle)
    exact ⟨_, hb, congrArg (Outcome.done · _) (hbare.trans ha.symm)⟩

theorem stopped (hstop : stops a = true) :
    Mirrors family' input known id (.items stops items) a furthest (.done a furthest) := by
  intro _ _ _ _ task' a' halike ha
  cases halike with
  | items hs _ =>
    exact ⟨_, .stopped ((hs _ _ ha).symm.trans hstop), congrArg (Outcome.done · _) ha.symm⟩

theorem cons (hstop : stops a = false)
    (hhead : Evaluates family input id (.item e) a furthest (.done b furthest'))
    (head : Mirrors family' input known id (.item e) a furthest (.done b furthest'))
    (tail : Mirrors family' input known id (.items stops items) b furthest' o) :
    Mirrors family' input known id (.items stops (e :: items)) a furthest o := by
  intro hid ht h0 hle task' a' halike ha
  obtain ⟨hte, htes⟩ := List.forall_mem_cons.1 ht
  have hforward := hhead.forward h0 hle
  have h0' : 0 ≤ b.cursor := Int.le_trans h0 hforward.1
  cases halike with
  | items hs hpending =>
    cases he : e.isRemark with
    | true =>
      rw [Expr.bareAll_remark he] at hpending
      obtain ⟨b', hdone, hb⟩ := hhead.of_remark he h0 hle
      cases hdone
      exact tail hid htes h0' hforward.2 (.items hs hpending) (hb.trans ha)
    | false =>
      obtain ⟨e', more, c, he', hmore, hc, hstop', hpast⟩ :=
        evaluates_next he hs hpending ha hstop h0 hle
      obtain ⟨o₁, ho₁, hbare₁⟩ := head hid hte h0 hle (.item he') hc
      obtain ⟨b', rfl, hb⟩ := of_bare_eq_done hbare₁
      obtain ⟨o₂, ho₂, hbare₂⟩ := tail hid htes h0' hforward.2 (.items hs hmore) hb.symm
      exact ⟨o₂, hpast o₂ (.cons hstop' ho₁ ho₂), hbare₂⟩

theorem halted (hstop : stops a = false) (hhalts : o.isDone = false)
    (hhead : Evaluates family input id (.item e) a furthest o)
    (head : Mirrors family' input known id (.item e) a furthest o) :
    Mirrors family' input known id (.items stops (e :: items)) a furthest o := by
  intro hid ht h0 hle task' a' halike ha
  obtain ⟨hte, -⟩ := List.forall_mem_cons.1 ht
  cases halike with
  | items hs hpending =>
    cases he : e.isRemark with
    | true =>
      obtain ⟨b', hdone, -⟩ := hhead.of_remark he h0 hle
      subst hdone
      cases hhalts
    | false =>
      obtain ⟨e', more, c, he', -, hc, hstop', hpast⟩ :=
        evaluates_next he hs hpending ha hstop h0 hle
      obtain ⟨o₁, ho₁, hbare₁⟩ := head hid hte h0 hle (.item he') hc
      have hhalts' := (isDone_eq_of_bare hbare₁).trans hhalts
      exact ⟨o₁, hpast o₁ (.halted hstop' ho₁ hhalts'), hbare₁⟩

theorem last (hstop : b.stopsLoop input.size a.cursor = true)
    (round : Mirrors family' input known id (.item e) a furthest (.done b furthest')) :
    Mirrors family' input known id (.rounds e) a furthest (.done b furthest') := by
  intro hid ht h0 hle task' a' halike ha
  cases halike with
  | rounds he =>
    obtain ⟨o₁, ho₁, hbare₁⟩ := round hid ht h0 hle (.item he) ha
    obtain ⟨b', rfl, hb⟩ := of_bare_eq_done hbare₁
    have hcursor := (Activation.bare_eq_iff.1 ha).1
    rw [hcursor, ← stopsLoop_eq_of_bare hb] at hstop
    exact ⟨_, .last ho₁ hstop, hbare₁⟩

theorem again (hstop : b.stopsLoop input.size a.cursor = false)
    (hround : Evaluates family input id (.item e) a furthest (.done b furthest'))
    (round : Mirrors family' input known id (.item e) a furthest (.done b furthest'))
    (more : Mirrors family' input known id (.rounds e) b furthest' o) :
    Mirrors family' input known id (.rounds e) a furthest o := by
  intro hid ht h0 hle task' a' halike ha
  have hforward := hround.forward h0 hle
  cases halike with
  | rounds he =>
    obtain ⟨o₁, ho₁, hbare₁⟩ := round hid ht h0 hle (.item he) ha
    obtain ⟨b', rfl, hb⟩ := of_bare_eq_done hbare₁
    obtain ⟨o₂, ho₂, hbare₂⟩ :=
      more hid ht (Int.le_trans h0 hforward.1) hforward.2 (.rounds he) hb.symm
    have hcursor := (Activation.bare_eq_iff.1 ha).1
    rw [hcursor, ← stopsLoop_eq_of_bare hb] at hstop
    exact ⟨o₂, .again ho₁ hstop ho₂, hbare₂⟩

theorem broken (hhalts : o.isDone = false)
    (round : Mirrors family' input known id (.item e) a furthest o) :
    Mirrors family' input known id (.rounds e) a furthest o := by
  intro hid ht h0 hle task' a' halike ha
  cases halike with
  | rounds he =>
    obtain ⟨o₁, ho₁, hbare₁⟩ := round hid ht h0 hle (.item he) ha
    exact ⟨o₁, .broken ho₁ ((isDone_eq_of_bare hbare₁).trans hhalts), hbare₁⟩

end Mirrors

/-- Families with the same bare rules are evaluated side by side. Whatever is evaluated in the one
has an outcome in the other, and only in the output may the two differ. -/
theorem Evaluates.bared (hfamily : family.map Grammar.bareRules = family'.map Grammar.bareRules)
    (hr : AdmittedRules family known True Discreet) {task : Task}
    (h : Evaluates family input id task a furthest o) :
    Mirrors family' input known id task a furthest o := by
  have same {a a' : Activation} (ha : a.bare = a'.bare) : a'.cursor = a.cursor :=
    (Activation.bare_eq_iff.1 ha).1.symm
  induction h with
  | missing => exact .leaf rfl fun _ _ _ _ _ => ⟨_, .missing, rfl⟩
  | @literal _ _ _ text =>
    exact .attempt (fun a => input.tryLiteral a.cursor text) rfl
      (fun ha => by rw [same ha]) .literal
  | @pattern _ _ _ p =>
    exact .attempt (fun a => input.tryPattern a.cursor p) rfl
      (fun ha => by rw [same ha]) .pattern
  | undefined hnone => exact .undefined hfamily hnone
  | rule hbody _ ih => exact .rule hfamily hr hbody ih
  | sequence _ ih => exact ih.row rfl rfl fun _ _ => rfl
  | hide _ ih => exact ih.row rfl rfl fun _ _ => into_takeHide _ _
  | @wrap _ a _ name _ o hitems ih =>
    refine ih.row rfl rfl fun h0 hle => into_takeWrap? fun b furthest' ho => ?_
    subst ho
    exact input.span?_isSome h0 (hitems.forward h0 hle).2
  | choice _ ih => exact ih.choice
  | loop hquota _ ih =>
    exact .iterate .rounds ih (fun ht => ht) .rounds (bare_takeLoop _) (.loop hquota)
  | optional _ ih => exact ih.once steady_stopsSequence bare_takeOptional .optional
  | not _ ih => exact ih.once steady_stopsNot bare_takeNot .not
  | once _ ih => exact ih.once steady_stopsSequence bare_takeSequence .once
  | action hact => exact .action hact
  | stranded hnone => exact .stranded hfamily hnone
  | headless hg hm => exact .headless hfamily hg hm
  | embed hg hm _ ih => exact .embed hfamily hg hm ih
  | nil => exact .nil
  | stopped hstop => exact .stopped hstop
  | cons hstop hhead _ head tail => exact .cons hstop hhead head tail
  | halted hstop hhead hhalts head => exact .halted hstop hhalts hhead head
  | last _ hstop round => exact round.last hstop
  | again hround hstop _ round more => exact .again hstop hround round more
  | broken _ hhalts round => exact round.broken hhalts

end

/-- No grammar that `id` leads to has an action that is not discreet. -/
def DiscreetRules (family : Family) (id : Nat) : Prop :=
  ∀ inner, family.Embeds id inner → ∀ rule ∈ (family.grammarAt inner).rules,
    ∀ a, .action a ∈ rule.2.parts → Discreet a

theorem DiscreetRules.customFree {family : Family} {id : Nat} (h : DiscreetRules family id) :
    family.CustomFree id :=
  fun inner hi rule hr _ hm => h inner hi rule hr _ hm

end PegMachine.Evaluator

namespace PegMachine.Machine

open Evaluator

/-- An ending without regard to the values it comes with. -/
def Ending.bare : Ending → Ending
  | .values _ cursor => .values [] cursor
  | ending => ending

/-- What a run ends with does not hang on its output, the values apart. -/
theorem result_bare {input : Input} {o o' : Outcome} (exact : Bool) (start : Int)
    (h : o.bare = o'.bare) :
    (o.result input exact start).ending.bare = (o'.result input exact start).ending.bare := by
  obtain ⟨b, b', furthest, rfl, rfl, hb⟩ | ⟨-, rfl⟩ := done_or_eq_of_bare h
  · obtain ⟨hcursor, hfailed, -⟩ := Activation.bare_eq_iff.1 hb
    simp only [Outcome.result, hcursor, hfailed]
    split
    · rfl
    · simp [Result.ending, Ending.bare]
  · rfl

section

variable {family family' : Family} {host host' : Host} {config : Config} {id : Nat} {input : Input}

/-- A match ends with one of two families that have the same bare rules if it does so with the
other. -/
theorem matchEnds_of_bare (hl : config.limit ≤ 0) (hcheck : family.check id = none)
    (hcheck' : family'.check id = none) (hdiscreet : DiscreetRules family id)
    (hdiscreet' : DiscreetRules family' id)
    (hfamily : family.map Grammar.bareRules = family'.map Grammar.bareRules) {ending : Ending}
    (h : MatchEnds family host config id input ending) :
    ∃ ending', MatchEnds family' host' config id input ending' ∧ ending'.bare = ending.bare := by
  have hrules := Family.grammarAt_of_bareRules hfamily id
  cases hmain : (family.grammarAt id).rule? config.main with
  | none =>
    have hends : MatchEnds family' host' config id input
        (.error (.undefined ((family'.grammarAt id).undefined config.main [])) 0) :=
      matchEnds_undefined hcheck' (Grammar.rule?_eq_none_of_bareRules hrules hmain)
    obtain rfl := h.unique (matchEnds_undefined hcheck hmain)
    refine ⟨_, hends, ?_⟩
    rw [Grammar.undefined_eq_of_bareRules hrules]
  | some body =>
    obtain ⟨body', hmain', -⟩ := Grammar.exists_rule?_of_bareRules hrules hmain
    have hmain := Option.isSome_of_eq_some hmain
    have hmain' := Option.isSome_of_eq_some hmain'
    obtain ⟨o, ho, rfl⟩ :=
      (run_iff_evaluates hl hdiscreet.customFree).1 ((matchEnds_iff_run hcheck hmain).1 h)
    have hadmitted : AdmittedRules family (family.Embeds id) True Discreet :=
      admittedRules_embeds (fun _ _ _ _ _ _ => trivial) hdiscreet
    obtain ⟨o', ho', hbare⟩ := ho.bared hfamily hadmitted .refl (.rule _) (Int.le_refl 0)
      input.size_nonneg (.item rfl) rfl
    refine ⟨_, (matchEnds_iff_run hcheck' hmain').2 ?_, result_bare config.exact 0 hbare⟩
    exact (run_iff_evaluates hl hdiscreet'.customFree).2 ⟨o', ho', rfl⟩

end

/-- Output never influences matching. Two checked grammars that differ in what they wrap, hide,
insert, annotate, clear and log end a match alike: both with values and at the same cursor, or both
with the same error, or neither. -/
theorem match_output_blind (family family' : Family) (host host' : Host) (config : Config)
    (id : Nat) (input : Input) (outcome : Ending) (hl : config.limit ≤ 0)
    (hcheck : family.check id = none) (hcheck' : family'.check id = none)
    (hdiscreet : DiscreetRules family id) (hdiscreet' : DiscreetRules family' id)
    (hfamily : family.map Grammar.bareRules = family'.map Grammar.bareRules) :
    (∃ ending, MatchEnds family host config id input ending ∧ ending.bare = outcome) ↔
      ∃ ending, MatchEnds family' host' config id input ending ∧ ending.bare = outcome := by
  constructor
  · rintro ⟨ending, hends, rfl⟩
    exact matchEnds_of_bare hl hcheck hcheck' hdiscreet hdiscreet' hfamily hends
  · rintro ⟨ending, hends, rfl⟩
    exact matchEnds_of_bare hl hcheck' hcheck hdiscreet' hdiscreet hfamily.symm hends

/-- Letters in brackets, as a node that shows the letters alone. -/
def adorned : Family :=
  [.ofRules [("main", .wrap "list" [.hide [.literal "["], .action (.log []),
      .iterate .zeroOrMore (.rule "item"), .action .clear, .action (.insertText "end"),
      .hide [.literal "]"]]),
    ("item", .choice [.action (.note "seen" .nil), .wrap "a" [.literal "a"],
      .embed (some 0) "main"])]]

/-- The same letters in brackets, as they are written. -/
def unadorned : Family :=
  [.ofRules [("main", .sequence [.sequence [.literal "["], .iterate .zeroOrMore (.rule "item"),
      .sequence [.literal "]"]]),
    ("item", .choice [.sequence [.literal "a"], .embed (some 0) "main"])]]

/-- Both read the brackets inside of the brackets and stop before the letter that is left over. -/
theorem match_output_blind_brackets : adorned.check 0 = none ∧ unadorned.check 0 = none ∧
    DiscreetRules adorned 0 ∧ DiscreetRules unadorned 0 ∧
    adorned.map Grammar.bareRules = unadorned.map Grammar.bareRules ∧
    ∃ ending, MatchEnds adorned Host.idle { exact := false } 0
        (.text "[a[]a]b") ending ∧ ending.bare = .values [] 6 := by
  have hcheck : adorned.check 0 = none := rfl
  have hcheck' : unadorned.check 0 = none := rfl
  have hdiscreet : DiscreetRules adorned 0 := by
    intro inner _ rule hr a hm
    rcases inner with _ | inner
    · rcases List.mem_cons.1 hr with rfl | hr
      · have hone : a = .log [] ∨ a = .clear ∨ a = .insertText "end" := by
          simpa [Expr.parts, Expr.visit, Expr.visitAll] using hm
        obtain rfl | rfl | rfl := hone <;> trivial
      · obtain rfl := List.mem_singleton.1 hr
        obtain rfl : a = .note "seen" .nil := by
          simpa [Expr.parts, Expr.visit, Expr.visitAll] using hm
        trivial
    · cases hr
  have hdiscreet' : DiscreetRules unadorned 0 := by
    intro inner _ rule hr a hm
    have hlacks : unadorned.lacks Expr.isAction = true := rfl
    exact absurd hm (Family.not_mem_of_lacks hlacks hr rfl)
  have hfamily : adorned.map Grammar.bareRules = unadorned.map Grammar.bareRules := rfl
  have hblind := match_output_blind adorned unadorned Host.idle
    Host.idle { exact := false } 0 (.text "[a[]a]b") (.values [] 6)
    (Int.le_refl 0) hcheck hcheck' hdiscreet hdiscreet' hfamily
  have hends : ∃ ending, MatchEnds unadorned Host.idle
      { exact := false } 0 (.text "[a[]a]b") ending ∧ ending.bare = .values [] 6 :=
    ⟨_, ⟨120, _, rfl, rfl⟩, rfl⟩
  exact ⟨hcheck, hcheck', hdiscreet, hdiscreet', hfamily, hblind.2 hends⟩

end PegMachine.Machine
