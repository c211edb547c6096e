import PegMachine.Proofs.Evaluator.Derivations
import PegMachine.Proofs.Input

namespace PegMachine

/-- Some leaf matches between two cursors and gives a value. -/
def Input.Reads (input : Input) (cursor next : Int) (value : Value) : Prop :=
  (∃ literal, input.tryLiteral cursor literal = .success value next) ∨
    ∃ p, input.tryPattern cursor p = .success value next

theorem Input.Reads.within {input : Input} {cursor next : Int} {value : Value}
    (h : input.Reads cursor next value) (h0 : 0 ≤ cursor) (hle : cursor ≤ input.size) :
    cursor ≤ next ∧ next ≤ input.size := by
  obtain ⟨literal, hsuccess⟩ | ⟨p, hsuccess⟩ := h
  · have hwithin := tryLiteral_within literal h0 hle
    rw [hsuccess] at hwithin
    exact hwithin
  · have hwithin := tryPattern_within p h0 hle
    rw [hsuccess] at hwithin
    exact hwithin

/-- A leaf that matches in a text reads the bytes from the cursor on, up to some number. -/
theorem Input.Reads.text {source : Bytes} {cursor next : Int} {value : Value}
    (h : (Input.text source).Reads cursor next value) :
    ∃ rest n, rest? source cursor = some rest ∧ n ≤ rest.length ∧ next = cursor + n ∧
      value = Value.ofText (rest.take n) ⟨cursor, cursor + n⟩ := by
  cases hrest : rest? source cursor with
  | none =>
    obtain ⟨literal, hsuccess⟩ | ⟨p, hsuccess⟩ := h
    · simp [tryLiteral, hrest] at hsuccess
    · simp [tryPattern, hrest] at hsuccess
  | some rest =>
    obtain ⟨literal, hsuccess⟩ | ⟨p, hsuccess⟩ := h
    · simp only [tryLiteral, hrest] at hsuccess
      split at hsuccess
      · next hprefix =>
        have hprefix := List.isPrefixOf_iff_prefix.1 hprefix
        cases hsuccess
        exact ⟨rest, literal.length, rfl, hprefix.length_le, rfl,
          by rw [← List.prefix_iff_eq_take.1 hprefix]⟩
      · cases hsuccess
    · simp only [tryPattern, hrest] at hsuccess
      split at hsuccess
      · cases hsuccess
      · next n hn =>
        obtain ⟨r, -, hr⟩ := Option.bind_eq_some_iff.1 hn
        cases hsuccess
        exact ⟨rest, n, rfl, Regex.search_le hr, rfl, rfl⟩

namespace Evaluator

open Machine

section

variable {input : Input} {a b c : Activation} {furthest furthest' : Int} {o : Outcome}

/-- A combinator is done when its items are. -/
theorem into_eq_done {take? : Activation → Option Activation}
    (h : o.into take? = .done c furthest) : ∃ b, o = .done b furthest ∧ take? b = some c := by
  cases o with
  | done b furthest' =>
    simp only [Outcome.into] at h
    cases hb : take? b with
    | none =>
      rw [hb] at h
      cases h
    | some c' =>
      rw [hb] at h
      cases h
      exact ⟨b, rfl, hb⟩
  | raised | aborted | fault => cases h

/-- An embedded run that is done counts like a sequence. -/
theorem intoCaller_eq_done (h : o.intoCaller input a furthest = .done c furthest') :
    ∃ b inner, o = .done b inner ∧ c = a.takeSequence b := by
  cases o with
  | done b inner =>
    refine ⟨b, inner, rfl, ?_⟩
    simp only [Outcome.intoCaller] at h
    cases hb : b.failed with
    | true =>
      simp only [hb, if_true] at h
      split at h
      · cases h
        simp [Activation.takeSequence, hb]
      · cases h
    | false =>
      simp only [hb, Bool.false_eq_true, if_false] at h
      cases h
      simp [Activation.takeSequence, hb]
  | raised payload inner =>
    simp only [Outcome.intoCaller] at h
    split at h <;> cases h
  | aborted | fault => cases h

theorem takeLeaf_eq_done {attempt : Attempt}
    (h : a.takeLeaf furthest attempt = .done b furthest') :
    b = a.fail ∨ ∃ value next, attempt = .success value next ∧ b = a.succeed next [value] := by
  cases attempt with
  | fault => cases h
  | mismatch =>
    cases h
    exact .inl rfl
  | success value next =>
    cases h
    exact .inr ⟨value, next, rfl, rfl⟩

/-- Actions change nothing but the output of an activation. -/
theorem act_eq_done {effect : Action} (h : act input a furthest effect = some (.done b furthest')) :
    ∃ output, b = { a with output := output } := by
  cases effect with
  | insert values =>
    cases h
    exact ⟨_, rfl⟩
  | insertText text =>
    simp only [act] at h
    split at h <;> cases h
    exact ⟨_, rfl⟩
  | convert f =>
    cases f with
    | none => cases h
    | some f =>
      simp only [act] at h
      split at h <;> cases h
      exact ⟨_, rfl⟩
  | modify f =>
    simp only [act] at h
    split at h
    · cases h
      exact ⟨_, rfl⟩
    · cases h
    · split at h <;> cases h
      exact ⟨_, rfl⟩
  | note key datum =>
    simp only [act] at h
    split at h <;> cases h
    · exact ⟨_, rfl⟩
    · exact ⟨_, rfl⟩
  | clear =>
    cases h
    exact ⟨_, rfl⟩
  | custom host =>
    cases host <;> cases h
  | throw datum => cases h
  | log args =>
    cases h
    exact ⟨_, rfl⟩
  | unknown => cases h

end

/-- An expression with none but allowed actions, with hidden items only where `hides` holds, that
embeds only grammars out of `known`. -/
structure Admitted (known : Nat → Prop) (hides : Prop) (allowed : Action → Prop) (e : Expr) :
    Prop where
  action : ∀ a, .action a ∈ e.parts → allowed a
  hide : ∀ items, .hide items ∈ e.parts → hides
  embed : ∀ inner main, .embed (some inner) main ∈ e.parts → known inner

def Task.Admitted (known : Nat → Prop) (hides : Prop) (allowed : Action → Prop) : Task → Prop
  | .item e | .rounds e => Evaluator.Admitted known hides allowed e
  | .items _ pending => ∀ e ∈ pending, Evaluator.Admitted known hides allowed e

/-- The grammars that `known` holds have only rules that are admitted. -/
def AdmittedRules (family : Family) (known : Nat → Prop) (hides : Prop) (allowed : Action → Prop) :
    Prop :=
  ∀ id, known id → ∀ rule ∈ (family.grammarAt id).rules, Admitted known hides allowed rule.2

theorem admittedRules_embeds {family : Family} {id : Nat} {hides : Prop} {allowed : Action → Prop}
    (hhide : ∀ inner, family.Embeds id inner → ∀ rule ∈ (family.grammarAt inner).rules,
      ∀ items, .hide items ∈ rule.2.parts → hides)
    (haction : ∀ inner, family.Embeds id inner → ∀ rule ∈ (family.grammarAt inner).rules,
      ∀ a, .action a ∈ rule.2.parts → allowed a) :
    AdmittedRules family (family.Embeds id) hides allowed := by
  intro inner hi rule hr
  exact ⟨haction inner hi rule hr, hhide inner hi rule hr, fun _ _ hm => .step hi hr hm⟩

/-- A property of an activation and the cursor it started at that evaluation keeps. -/
structure Invariant (input : Input) (hides : Prop) (allowed : Action → Prop)
    (J : Int → Activation → Prop) : Prop where
  enter : ∀ {s a}, J s a → J a.cursor (.start a.cursor)
  fail : ∀ {s a}, J s a → J s a.fail
  pass : ∀ {s a}, J s a → J s a.pass
  leaf : ∀ {s a value next}, input.Reads a.cursor next value → J s a →
    J s (a.succeed next [value])
  join : ∀ {s a b}, J s a → J a.cursor b → J s (a.succeed b.cursor b.output)
  wrap : ∀ {s a b name span}, input.span? a.cursor b.cursor = some span → J s a → J a.cursor b →
    J s (a.succeed b.cursor [Value.ofItems name span b.output.reverse])
  hide : hides → ∀ {s a b}, J s a → J a.cursor b → J s (a.succeed b.cursor [])
  act : ∀ {s a b effect furthest furthest'}, allowed effect →
    act input a furthest effect = some (.done b furthest') → J s a → J s b

namespace Admitted

variable {known : Nat → Prop} {hides : Prop} {allowed : Action → Prop}

theorem child {e child : Expr} (h : Admitted known hides allowed e) (hc : child ∈ e.children) :
    Admitted known hides allowed child where
  action a hm := h.action a (Expr.mem_parts_of_child e child _ hc hm)
  hide items hm := h.hide items (Expr.mem_parts_of_child e child _ hc hm)
  embed inner main hm := h.embed inner main (Expr.mem_parts_of_child e child _ hc hm)

theorem rule (name : Bytes) : Admitted known hides allowed (.rule name) :=
  ⟨by simp [Expr.parts, Expr.visit], by simp [Expr.parts, Expr.visit],
    by simp [Expr.parts, Expr.visit]⟩

end Admitted

namespace Invariant

variable {input : Input} {hides : Prop} {allowed : Action → Prop} {J : Int → Activation → Prop}
  {s : Int} {a b : Activation}

/-- Taking in a child keeps an invariant, whatever kind of child it is. -/
theorem takeSequence (hJ : Invariant input hides allowed J) (ha : J s a) (hb : J a.cursor b) :
    J s (a.takeSequence b) := by
  unfold Activation.takeSequence
  split
  · exact hJ.fail ha
  · exact hJ.join ha hb

theorem takeChoice (hJ : Invariant input hides allowed J) (ha : J s a) (hb : J a.cursor b) :
    J s (a.takeChoice b) := by
  unfold Activation.takeChoice
  split
  · exact hJ.fail ha
  · exact hJ.join ha hb

theorem takeLoop (hJ : Invariant input hides allowed J) (quota : Quota) (ha : J s a)
    (hb : J a.cursor b) : J s (a.takeLoop quota b) := by
  unfold Activation.takeLoop
  split
  · exact hJ.join ha hb
  · exact hJ.fail ha

/-- A failed optional item counts as one that did not begin. -/
theorem takeOptional (hJ : Invariant input hides allowed J) (ha : J s a) (hb : J a.cursor b) :
    J s (a.takeOptional b) := by
  unfold Activation.takeOptional
  split
  · exact hJ.join ha (hJ.enter ha)
  · exact hJ.join ha hb

theorem takeNot (hJ : Invariant input hides allowed J) (ha : J s a) : J s (a.takeNot b) := by
  unfold Activation.takeNot
  split
  · exact hJ.pass ha
  · exact hJ.fail ha

theorem takeHide (hJ : Invariant input hides allowed J) (hh : hides) (ha : J s a)
    (hb : J a.cursor b) : J s (a.takeHide b) := by
  unfold Activation.takeHide
  split
  · exact hJ.fail ha
  · exact hJ.hide hh ha hb

theorem takeWrap? (hJ : Invariant input hides allowed J) {name : Bytes} {c : Activation}
    (ha : J s a) (hb : J a.cursor b) (hc : a.takeWrap? input name b = some c) : J s c := by
  unfold Activation.takeWrap? at hc
  split at hc
  · cases hc
    exact hJ.fail ha
  · obtain ⟨span, hspan, rfl⟩ := Option.map_eq_some_iff.1 hc
    exact hJ.wrap hspan ha hb

end Invariant

/-- Where an activation is done, an invariant that held before still holds. -/
def Kept (J : Int → Activation → Prop) (a : Activation) (o : Outcome) : Prop :=
  ∀ b furthest, o = .done b furthest → ∀ s, J s a → J s b

namespace Kept

variable {input : Input} {hides : Prop} {allowed : Action → Prop} {J : Int → Activation → Prop}
  {a : Activation} {furthest : Int} {o : Outcome}

theorem leaf (hJ : Invariant input hides allowed J) {attempt : Attempt}
    (hreads : ∀ value next, attempt = .success value next → input.Reads a.cursor next value) :
    Kept J a (a.takeLeaf furthest attempt) := by
  intro b furthest' ho s ha
  obtain rfl | ⟨value, next, hsuccess, rfl⟩ := takeLeaf_eq_done ho
  · exact hJ.fail ha
  · exact hJ.leaf (hreads value next hsuccess) ha

theorem into? (h : Kept J (.start a.cursor) o) (hJ : Invariant input hides allowed J)
    {take? : Activation → Option Activation}
    (htake : ∀ {s b c}, J s a → J a.cursor b → take? b = some c → J s c) :
    Kept J a (o.into take?) := by
  intro c furthest' ho s ha
  obtain ⟨b, hb, hc⟩ := into_eq_done ho
  have hitems := h b furthest' hb a.cursor (hJ.enter ha)
  exact htake ha hitems hc

/-- A combinator takes in what its items did in an activation of their own. -/
theorem into (h : Kept J (.start a.cursor) o) (hJ : Invariant input hides allowed J)
    {take : Activation → Activation} (htake : ∀ {s b}, J s a → J a.cursor b → J s (take b)) :
    Kept J a (o.into fun b => some (take b)) := by
  apply h.into? hJ
  intro s b c ha hb hc
  obtain rfl := Option.some.inj hc
  exact htake ha hb

theorem intoCaller (h : Kept J (.start a.cursor) o) (hJ : Invariant input hides allowed J) :
    Kept J a (o.intoCaller input a furthest) := by
  intro c furthest' ho s ha
  obtain ⟨b, inner, hb, rfl⟩ := intoCaller_eq_done ho
  have hmain := h b inner hb a.cursor (hJ.enter ha)
  exact hJ.takeSequence ha hmain

theorem of_halts (h : o.isDone = false) : Kept J a o := by
  rintro b furthest' rfl
  cases h

theorem trans {b : Activation} {furthest' : Int} (h : Kept J a (.done b furthest'))
    (h' : Kept J b o) : Kept J a o := by
  intro c furthest₂ ho s ha
  have hb := h b furthest' rfl s ha
  exact h' c furthest₂ ho s hb

end Kept

/-- Evaluation keeps an invariant. -/
theorem Invariant.evaluates {input : Input} {hides : Prop} {allowed : Action → Prop}
    {J : Int → Activation → Prop} (hJ : Invariant input hides allowed J) {family : Family}
    {known : Nat → Prop} (hr : AdmittedRules family known hides allowed) {id : Nat} {task : Task}
    {a : Activation} {furthest : Int} {o : Outcome}
    (h : Evaluates family input id task a furthest o) :
    known id → task.Admitted known hides allowed → Kept J a o := by
  induction h with
  | missing | undefined | stranded | headless => exact fun _ _ => .of_halts rfl
  | literal => exact fun _ _ => .leaf hJ fun _ _ hsuccess => .inl ⟨_, hsuccess⟩
  | pattern => exact fun _ _ => .leaf hJ fun _ _ hsuccess => .inr ⟨_, hsuccess⟩
  | rule hrule _ ih =>
    intro hid _
    have hbody := hr _ hid _ (Grammar.mem_rules_of_rule? _ _ _ hrule)
    exact ih hid hbody
  | sequence _ ih | once _ ih =>
    intro hid ht
    have hitems := ih hid fun e he => ht.child he
    exact hitems.into hJ hJ.takeSequence
  | choice _ ih =>
    intro hid ht
    have hitems := ih hid fun e he => ht.child he
    exact hitems.into hJ hJ.takeChoice
  | wrap _ ih =>
    intro hid ht
    have hitems := ih hid fun e he => ht.child he
    exact hitems.into? hJ hJ.takeWrap?
  | hide _ ih =>
    intro hid ht
    have hhides := ht.hide _ (Expr.mem_parts_self _ rfl)
    have hitems := ih hid fun e he => ht.child he
    exact hitems.into hJ (hJ.takeHide hhides)
  | loop _ _ ih =>
    intro hid ht
    have hrounds := ih hid (ht.child (List.mem_singleton.2 rfl))
    exact hrounds.into hJ (hJ.takeLoop _)
  | optional _ ih =>
    intro hid ht
    have hitem := ih hid fun e he => ht.child he
    exact hitem.into hJ hJ.takeOptional
  | not _ ih =>
    intro hid ht
    have hitem := ih hid fun e he => ht.child he
    exact hitem.into hJ fun ha _ => hJ.takeNot ha
  | action hact =>
    intro _ ht b furthest' ho s ha
    subst ho
    exact hJ.act (ht.action _ (Expr.mem_parts_self _ rfl)) hact ha
  | embed _ _ _ ih =>
    intro _ ht
    have hknown := ht.embed _ _ (Expr.mem_parts_self _ rfl)
    have hmain := ih hknown (.rule _)
    exact hmain.intoCaller hJ
  | nil | stopped =>
    rintro - - b furthest' ⟨⟩ s ha
    exact ha
  | cons _ _ _ head tail =>
    intro hid ht
    obtain ⟨he, hes⟩ := List.forall_mem_cons.1 ht
    exact (head hid he).trans (tail hid hes)
  | halted _ _ hhalts | broken _ hhalts => exact fun _ _ => .of_halts hhalts
  | last _ _ round =>
    intro hid ht
    exact round hid ht
  | again _ _ _ round more =>
    intro hid ht
    have hround := round hid ht
    exact hround.trans (more hid ht)

section

variable {family : Family} {input : Input}

/-- Activations only go forward, and they stay inside of the input. -/
theorem invariant_cursor (input : Input) :
    Invariant input True (fun _ => True) fun s a => 0 ≤ s ∧ s ≤ a.cursor ∧ a.cursor ≤ input.size where
  enter h := ⟨Int.le_trans h.1 h.2.1, Int.le_refl _, h.2.2⟩
  fail h := h
  pass h := h
  leaf hreads h := by
    have hwithin := hreads.within (Int.le_trans h.1 h.2.1) h.2.2
    exact ⟨h.1, Int.le_trans h.2.1 hwithin.1, hwithin.2⟩
  join ha hb := ⟨ha.1, Int.le_trans ha.2.1 hb.2.1, hb.2.2⟩
  wrap _ ha hb := ⟨ha.1, Int.le_trans ha.2.1 hb.2.1, hb.2.2⟩
  hide _ _ _ _ ha hb := ⟨ha.1, Int.le_trans ha.2.1 hb.2.1, hb.2.2⟩
  act _ hact h := by
    obtain ⟨output, rfl⟩ := act_eq_done hact
    exact h

/-- Where everything is allowed every expression is admitted. -/
theorem admitted_all (e : Expr) : Admitted (fun _ => True) True (fun _ => True) e :=
  ⟨fun _ _ => trivial, fun _ _ => trivial, fun _ _ _ => trivial⟩

/-- Evaluating a task only goes forward. -/
theorem Evaluates.forward {id : Nat} {task : Task} {a b : Activation} {furthest furthest' : Int}
    (h : Evaluates family input id task a furthest (.done b furthest')) (h0 : 0 ≤ a.cursor)
    (hle : a.cursor ≤ input.size) : a.cursor ≤ b.cursor ∧ b.cursor ≤ input.size := by
  have hrules : AdmittedRules family (fun _ => True) True fun _ => True :=
    fun _ _ rule _ => admitted_all rule.2
  have hadmitted : task.Admitted (fun _ => True) True fun _ => True := by
    cases task with
    | item e | rounds e => exact admitted_all e
    | items stops pending => exact fun e _ => admitted_all e
  have hkept := (invariant_cursor input).evaluates hrules h trivial hadmitted
  have hb := hkept b furthest' rfl a.cursor ⟨h0, Int.le_refl _, hle⟩
  exact hb.2

end

end Evaluator

end PegMachine
