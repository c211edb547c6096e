import PegMachine.Proofs.Evaluator.Invariants
import PegMachine.Proofs.Grammar.LeftRecursion

namespace PegMachine

namespace Input

variable {input : Input} {cursor next : Int} {value : Value}

theorem next_of_tryToken {stream : List Token} {accepts : Bytes → Bool}
    (h : tryToken stream cursor accepts = .success value next) : next = cursor + 1 := by
  unfold tryToken at h
  split at h
  · cases h
  · split at h
    · cases h
    · split at h <;> cases h
      rfl

private theorem lt_of_tryLiteral
    {text : Bytes} (h : input.tryLiteral cursor text = .success value next)
    (hne : text ≠ []) : cursor < next := by
  cases input with
  | text source =>
    have hlength : 0 < text.length := List.length_pos_iff.2 hne
    simp only [tryLiteral] at h
    split at h
    · cases h
    · split at h <;> cases h
      omega
  | tokens source stream =>
    simp only [tryLiteral] at h
    have hnext := next_of_tryToken h
    omega

private theorem lt_of_tryPattern {p : Pattern} (h : input.tryPattern cursor p = .success value next)
    (hne : ∀ text, p.matchStart text ≠ some 0) : cursor < next := by
  cases input with
  | text source =>
    simp only [tryPattern] at h
    split at h
    · cases h
    · next rest hrest =>
      split at h
      · cases h
      · next n hn =>
        have hpos : n ≠ 0 := fun hzero => hne rest (hzero ▸ hn)
        cases h
        omega
  | tokens source stream =>
    have hnext := next_of_tryToken h
    omega

end Input

namespace Evaluator

open Machine

/-- Without a match a loop that is not nullable does not meet its quota. -/
theorem matched_of_admits {family : Family} {id : Nat} {kind : Repetition} {quota : Quota}
    {item : Expr} {matched : Int} (hq : kind.quota? = some quota)
    (hn : ¬family.Nullable id (.iterate kind item)) (h : quota.admits matched = true) :
    matched ≠ 0 := by
  rintro rfl
  cases kind with
  | zeroOrMore => exact hn .zeroOrMore
  | oneOrMore =>
    cases hq
    cases h
  | bounded min max =>
    cases hq
    have hmin : 0 < min := by
      by_contra hle
      exact hn (.bounded (Int.not_lt.1 hle))
    have hbound : min ≠ Repetition.unbounded := by
      intro heq
      rw [heq, Repetition.unbounded] at hmin
      cases hmin
    simp [Quota.admits, hbound, hmin] at h
  | optional | not | unknown => cases hq

/-- Neither a match nor a step forward. -/
def Activation.Unmoved (a b : Activation) : Prop := b.matched = a.matched ∧ b.cursor = a.cursor

/-- What a task has done by the time it is done: it has failed or gone forward, unless there are
nullable items in it. -/
def Task.Advances (family : Family) (id : Nat) (a b : Activation) : Task → Prop
  | .item e => ¬family.Nullable id e → b = a.fail ∨ a.cursor < b.cursor
  | .items stops pending =>
    ((∀ e ∈ pending, ¬family.Nullable id e) → a.Unmoved b ∨ a.cursor < b.cursor) ∧
      (stops = Activation.stopsSequence → (a.failed = true ∨ ∃ e ∈ pending, ¬family.Nullable id e) →
        b.failed = true ∨ a.cursor < b.cursor)
  | .rounds e => ¬family.Nullable id e → a.Unmoved b ∨ a.cursor < b.cursor

section

variable {family : Family} {input : Input} {id : Nat} {a b c : Activation}

theorem unmoved_or_lt_of_item (h : b = a.fail ∨ a.cursor < b.cursor) :
    a.Unmoved b ∨ a.cursor < b.cursor := by
  obtain rfl | hlt := h
  · exact .inl ⟨rfl, rfl⟩
  · exact .inr hlt

theorem unmoved_or_lt_trans (h : a.Unmoved b ∨ a.cursor < b.cursor)
    (h' : b.Unmoved c ∨ b.cursor < c.cursor) (hbc : b.cursor ≤ c.cursor) :
    a.Unmoved c ∨ a.cursor < c.cursor := by
  obtain ⟨hmatched, hcursor⟩ | hlt := h
  · obtain ⟨hmatched', hcursor'⟩ | hlt' := h'
    · exact .inl ⟨hmatched'.trans hmatched, hcursor'.trans hcursor⟩
    · exact .inr (by omega)
  · exact .inr (by omega)

/-- A sequence that is not nullable has an item that is not. -/
theorem exists_not_nullable {items : List Expr} (h : ¬∀ e ∈ items, family.Nullable id e) :
    ∃ e ∈ items, ¬family.Nullable id e := by
  simpa only [not_forall, exists_prop] using h

theorem takeSequence_advances (h : b.failed = true ∨ a.cursor < b.cursor) :
    a.takeSequence b = a.fail ∨ a.cursor < (a.takeSequence b).cursor := by
  unfold Activation.takeSequence
  split
  · exact .inl rfl
  · next hok => exact .inr (h.resolve_left hok)

private theorem takeHide_advances (h : b.failed = true ∨ a.cursor < b.cursor) :
    a.takeHide b = a.fail ∨ a.cursor < (a.takeHide b).cursor := by
  unfold Activation.takeHide
  split
  · exact .inl rfl
  · next hok => exact .inr (h.resolve_left hok)

private theorem takeWrap?_advances {name : Bytes} (h : b.failed = true ∨ a.cursor < b.cursor)
    (hc : a.takeWrap? input name b = some c) : c = a.fail ∨ a.cursor < c.cursor := by
  unfold Activation.takeWrap? at hc
  split at hc
  · cases hc
    exact .inl rfl
  · next hok =>
    obtain ⟨span, -, rfl⟩ := Option.map_eq_some_iff.1 hc
    exact .inr (h.resolve_left hok)

private theorem takeChoice_advances
    (h : (Activation.start a.cursor).Unmoved b ∨ a.cursor < b.cursor) :
    a.takeChoice b = a.fail ∨ a.cursor < (a.takeChoice b).cursor := by
  unfold Activation.takeChoice
  split
  · exact .inl rfl
  · next hmatched => exact .inr (h.resolve_left fun hsame => hmatched hsame.1)

private theorem takeLoop_advances {quota : Quota}
    (hq : quota.admits b.matched = true → b.matched ≠ 0)
    (h : (Activation.start a.cursor).Unmoved b ∨ a.cursor < b.cursor) :
    a.takeLoop quota b = a.fail ∨ a.cursor < (a.takeLoop quota b).cursor := by
  unfold Activation.takeLoop
  split
  · next hadmits => exact .inr (h.resolve_left fun hsame => hq hadmits hsame.1)
  · exact .inl rfl

/-- A task that begins inside of the input makes progress if it gets done. -/
def Progresses (family : Family) (input : Input) (id : Nat) (task : Task) (a : Activation)
    (o : Outcome) : Prop :=
  0 ≤ a.cursor → a.cursor ≤ input.size → ∀ {b furthest}, o = .done b furthest →
    task.Advances family id a b

variable {furthest furthest' : Int} {o : Outcome} {e item : Expr} {items : List Expr}
  {take? : Activation → Option Activation} {stops : Activation → Bool}

namespace Progresses

theorem of_halts {task : Task} (h : o.isDone = false) : Progresses family input id task a o := by
  rintro - - b furthest rfl
  cases h

private theorem of_nullable (h : family.Nullable id e) : Progresses family input id (.item e) a o :=
  fun _ _ _ _ _ hn => (hn h).elim

theorem leaf {attempt : Attempt}
    (h : ∀ value next, attempt = .success value next → ¬family.Nullable id e → a.cursor < next) :
    Progresses family input id (.item e) a (a.takeLeaf furthest attempt) := by
  intro _ _ b furthest' ho hn
  obtain hfail | ⟨value, next, hsuccess, rfl⟩ := takeLeaf_eq_done ho
  · exact .inl hfail
  · exact .inr (h value next hsuccess hn)

/-- A combinator takes in what its items did in an activation of their own. -/
theorem into {task : Task} (h : Progresses family input id task (.start a.cursor) o)
    (htake : ∀ b c, take? b = some c → ¬family.Nullable id e →
      task.Advances family id (.start a.cursor) b → c = a.fail ∨ a.cursor < c.cursor) :
    Progresses family input id (.item e) a (o.into take?) := by
  intro h0 hle c furthest' ho hn
  obtain ⟨b, hb, hc⟩ := into_eq_done ho
  exact htake b c hc hn (h h0 hle hb)

/-- Items in a row fail or go forward if one of them is not nullable. -/
theorem row (h : Progresses family input id (.items Activation.stopsSequence items)
      (.start a.cursor) o)
    (hnull : (∀ item ∈ items, family.Nullable id item) → family.Nullable id e)
    (htake : ∀ b c, take? b = some c → b.failed = true ∨ a.cursor < b.cursor →
      c = a.fail ∨ a.cursor < c.cursor) :
    Progresses family input id (.item e) a (o.into take?) :=
  h.into fun b c hc hn hall =>
    htake b c hc (hall.2 rfl (.inr (exists_not_nullable (mt hnull hn))))

theorem choice (h : Progresses family input id (.items Activation.stopsChoice items)
      (.start a.cursor) o) :
    Progresses family input id (.item (.choice items)) a
      (o.into fun b => some (a.takeChoice b)) := by
  refine h.into fun b c hc hn hall => ?_
  obtain rfl := Option.some.inj hc
  exact takeChoice_advances (hall.1 fun e he hitem => hn (.choice he hitem))

theorem loop {kind : Repetition} {quota : Quota} (hquota : kind.quota? = some quota)
    (h : Progresses family input id (.rounds item) (.start a.cursor) o) :
    Progresses family input id (.item (.iterate kind item)) a
      (o.into fun b => some (a.takeLoop quota b)) := by
  refine h.into fun b c hc hn hrounds => ?_
  obtain rfl := Option.some.inj hc
  exact takeLoop_advances (matched_of_admits hquota hn) (hrounds fun hitem => hn (.iterate hitem))

theorem embed {inner : Nat} {main : Bytes}
    (h : Progresses family input inner (.item (.rule main)) (.start a.cursor) o) :
    Progresses family input id (.item (.embed (some inner) main)) a
      (o.intoCaller input a furthest) := by
  intro h0 hle c furthest' ho hn
  obtain ⟨b, inside, hb, rfl⟩ := intoCaller_eq_done ho
  have hrule : ¬family.Nullable inner (.rule main) := by
    intro hnull
    cases hnull with
    | rule hr hbody => exact hn (.embed hr hbody)
  refine takeSequence_advances ?_
  obtain rfl | hlt := h h0 hle hb hrule
  · exact .inl rfl
  · exact .inr hlt

private theorem stay (hstop : items = [] ∨ stops a = true) :
    Progresses family input id (.items stops items) a (.done a furthest) := by
  rintro - - b furthest' ho
  cases ho
  refine ⟨fun _ => .inl ⟨rfl, rfl⟩, ?_⟩
  rintro rfl (hfailed | ⟨e, he, -⟩)
  · exact .inl hfailed
  · obtain rfl | hstop := hstop
    · cases he
    · exact .inl hstop

theorem cons (hstop : stops a = false)
    (hhead : Evaluates family input id (.item e) a furthest (.done b furthest'))
    (htail : Evaluates family input id (.items stops items) b furthest' o)
    (head : Progresses family input id (.item e) a (.done b furthest'))
    (tail : Progresses family input id (.items stops items) b o) :
    Progresses family input id (.items stops (e :: items)) a o := by
  rintro h0 hle c furthest'' rfl
  have hforward := hhead.forward h0 hle
  have h0' := Int.le_trans h0 hforward.1
  have hrest := (htail.forward h0' hforward.2).1
  obtain ⟨hall, hsome⟩ := tail h0' hforward.2 rfl
  constructor
  · intro hn
    obtain ⟨he, hes⟩ := List.forall_mem_cons.1 hn
    exact unmoved_or_lt_trans (unmoved_or_lt_of_item (head h0 hle rfl he)) (hall hes) hrest
  · -- an item that is not nullable fails, which stops the sequence, or goes forward
    rintro rfl (hfailed | ⟨e, he, hn⟩)
    · cases hfailed.symm.trans hstop
    rcases List.mem_cons.1 he with rfl | he
    · obtain rfl | hlt := head h0 hle rfl hn
      · exact hsome rfl (.inl rfl)
      · exact .inr (by omega)
    · exact (hsome rfl (.inr ⟨e, he, hn⟩)).imp_right fun hlt => by omega

theorem last (round : Progresses family input id (.item e) a o) :
    Progresses family input id (.rounds e) a o :=
  fun h0 hle _ _ ho hn => unmoved_or_lt_of_item (round h0 hle ho hn)

theorem again (hround : Evaluates family input id (.item e) a furthest (.done b furthest'))
    (hmore : Evaluates family input id (.rounds e) b furthest' o)
    (round : Progresses family input id (.item e) a (.done b furthest'))
    (more : Progresses family input id (.rounds e) b o) :
    Progresses family input id (.rounds e) a o := by
  rintro h0 hle c furthest'' rfl hn
  have hforward := hround.forward h0 hle
  have h0' := Int.le_trans h0 hforward.1
  exact unmoved_or_lt_trans (unmoved_or_lt_of_item (round h0 hle rfl hn))
    (more h0' hforward.2 rfl hn) (hmore.forward h0' hforward.2).1

end Progresses

/-- Evaluating a task makes progress. -/
theorem Evaluates.advances {task : Task} (h : Evaluates family input id task a furthest o) :
    Progresses family input id task a o := by
  induction h with
  | missing | undefined | stranded | headless => exact .of_halts rfl
  | literal =>
    exact .leaf fun _ _ hsuccess hn =>
      Input.lt_of_tryLiteral hsuccess fun hempty => hn (hempty ▸ .literal)
  | pattern =>
    exact .leaf fun _ _ hsuccess hn =>
      Input.lt_of_tryPattern hsuccess fun text hzero => hn (.pattern hzero)
  | rule hrule _ ih => exact fun h0 hle _ _ ho hn => ih h0 hle ho fun hbody => hn (.rule hrule hbody)
  | sequence _ ih =>
    refine ih.row .sequence fun b c hc => ?_
    obtain rfl := Option.some.inj hc
    exact takeSequence_advances
  | choice _ ih => exact ih.choice
  | wrap _ ih => exact ih.row .wrap fun b c hc hb => takeWrap?_advances hb hc
  | hide _ ih =>
    refine ih.row .hide fun b c hc => ?_
    obtain rfl := Option.some.inj hc
    exact takeHide_advances
  | loop hquota _ ih => exact ih.loop hquota
  | optional | not | action => exact .of_nullable (by constructor)
  | once _ ih =>
    refine ih.row (fun hitem => .iterate (hitem _ (List.mem_singleton.2 rfl))) fun b c hc => ?_
    obtain rfl := Option.some.inj hc
    exact takeSequence_advances
  | embed _ _ _ ih => exact ih.embed
  | nil => exact .stay (.inl rfl)
  | stopped hstop => exact .stay (.inr hstop)
  | cons hstop hhead htail head tail => exact .cons hstop hhead htail head tail
  | halted _ _ hhalts | broken _ hhalts => exact .of_halts hhalts
  | last _ _ round => exact round.last
  | again hround _ hmore round more => exact .again hround hmore round more

end

end Evaluator

end PegMachine
