import PegMachine.Proofs.Evaluator.Invariants

namespace PegMachine

/-- The action raises a payload, so nothing goes on behind it. -/
def Action.IsThrow (a : Action) : Prop := ∃ datum, a = .throw datum

/-- What may be put out between two cursors. -/
abbrev Match := Int → Int → List Value → Prop

/-- Matches that follow one another. -/
inductive Match.Rounds (once : Match) : Match where
  | nil {s : Int} : Rounds once s s []
  | cons {s m t : Int} {us ws : List Value} (first : once s m us) (rest : Rounds once m t ws) :
    Rounds once s t (us ++ ws)

/-- What a repetition may match, given what one round of it may. -/
def Repetition.Repeats (once : Match) : Repetition → Match
  | .not => fun s t vs => s = t ∧ vs = []
  | .optional => fun s t vs => (s = t ∧ vs = []) ∨ once s t vs
  | _ => Match.Rounds once

namespace Match.Rounds

variable {once : Match} {s m t : Int} {us vs ws : List Value}

theorem one (h : once s t vs) : Rounds once s t vs := by
  have hone : Rounds once s t (vs ++ []) := .cons h .nil
  rwa [List.append_nil] at hone

/-- What holds of the output of every round holds of all. -/
theorem forall_mem {P : Value → Prop} (hp : ∀ s t vs, once s t vs → ∀ v ∈ vs, P v)
    (h : Rounds once s t vs) : ∀ v ∈ vs, P v := by
  induction h with
  | nil => exact nofun
  | cons first _ ih => exact List.forall_mem_append.2 ⟨hp _ _ _ first, ih⟩

end Match.Rounds

namespace Evaluator

open Machine

/-- What each rule of each grammar may match. -/
abbrev Contract := Nat → Bytes → Match

section

variable (input : Input) (contract : Contract) (id : Nat)

mutual

/-- What an expression may match where the rules that it uses keep to the contract. No action but a
throw has a place in it. -/
def Gives : Expr → Match
  | .literal text => fun s t vs =>
    ∃ value, input.tryLiteral s text = .success value t ∧ vs = [value]
  | .pattern p => fun s t vs => ∃ value, input.tryPattern s p = .success value t ∧ vs = [value]
  | .rule name => contract id name
  | .sequence items => GivesAll items
  | .choice items => GivesAny items
  | .iterate kind item => kind.Repeats (Gives item)
  | .wrap name items => fun s t vs =>
    ∃ span ws, input.span? s t = some span ∧ GivesAll items s t ws ∧ vs = [Value.ofItems name span ws]
  | .hide items => fun s t vs => vs = [] ∧ ∃ ws, GivesAll items s t ws
  | .embed (some inner) main => contract inner main
  | .embed none _ | .missing | .action _ => fun _ _ _ => False

def GivesAll : List Expr → Match
  | [] => fun s t vs => s = t ∧ vs = []
  | item :: items => fun s t vs =>
    ∃ m us ws, Gives item s m us ∧ GivesAll items m t ws ∧ vs = us ++ ws

def GivesAny : List Expr → Match
  | [] => fun _ _ _ => False
  | item :: items => fun s t vs => Gives item s t vs ∨ GivesAny items s t vs

end

/-- What a task has matched by the time it is done. An item that did not fail counts one match. -/
def Task.Keeps (a b : Activation) : Task → Prop
  | .item e => b = a.fail ∨
    ∃ vs next, Gives input contract id e a.cursor next vs ∧ b = a.succeed next vs.reverse
  | .items stops pending =>
    (stops = Activation.stopsSequence → b.failed = false → a.failed = false ∧
      ∃ vs, GivesAll input contract id pending a.cursor b.cursor vs ∧
        b.output = vs.reverse ++ a.output) ∧
    (stops = Activation.stopsChoice → (0 < a.matched → b = a) ∧
      (a.matched = 0 → b.matched = 0 ∨
        ∃ vs, GivesAny input contract id pending a.cursor b.cursor vs ∧
          b.output = vs.reverse ++ a.output))
  | .rounds e => ∃ vs, Match.Rounds (Gives input contract id e) a.cursor b.cursor vs ∧
    b.output = vs.reverse ++ a.output

end

/-- Rules keep to the contract as long as those that they use do. -/
def KeepsContract (family : Family) (known : Nat → Prop) (input : Input) (contract : Contract) :
    Prop :=
  ∀ id, known id → ∀ name body, (family.grammarAt id).rule? name = some body →
    ∀ s t vs, Gives input contract id body s t vs → contract id name s t vs

section

variable {family : Family} {input : Input} {a b c : Activation} {gives : Match}

/-- What the items of an activation have matched between its cursor and where they end. -/
def Outputs (gives : Match) (s : Int) (b : Activation) : Prop :=
  ∃ vs, gives s b.cursor vs ∧ b.output = vs.reverse

theorem takeSequence_gives (h : b.failed = false → Outputs gives a.cursor b) :
    a.takeSequence b = a.fail ∨
      ∃ vs next, gives a.cursor next vs ∧ a.takeSequence b = a.succeed next vs.reverse := by
  unfold Activation.takeSequence
  split
  · exact .inl rfl
  · next hok =>
    obtain ⟨vs, hvs, hout⟩ := h (by simpa using hok)
    exact .inr ⟨vs, b.cursor, hvs, by rw [hout]⟩

private theorem takeWrap?_gives {name : Bytes} (h : b.failed = false → Outputs gives a.cursor b)
    (hc : a.takeWrap? input name b = some c) : c = a.fail ∨
      ∃ vs next, (∃ span ws, input.span? a.cursor next = some span ∧ gives a.cursor next ws ∧
        vs = [Value.ofItems name span ws]) ∧ c = a.succeed next vs.reverse := by
  unfold Activation.takeWrap? at hc
  split at hc
  · cases hc
    exact .inl rfl
  · next hok =>
    obtain ⟨span, hspan, rfl⟩ := Option.map_eq_some_iff.1 hc
    obtain ⟨ws, hws, hout⟩ := h (by simpa using hok)
    refine .inr ⟨[Value.ofItems name span ws], b.cursor, ⟨span, ws, hspan, hws, rfl⟩, ?_⟩
    rw [hout, List.reverse_reverse]
    rfl

private theorem takeHide_gives (h : b.failed = false → Outputs gives a.cursor b) :
    a.takeHide b = a.fail ∨
    ∃ vs next, (vs = [] ∧ ∃ ws, gives a.cursor next ws) ∧
      a.takeHide b = a.succeed next vs.reverse := by
  unfold Activation.takeHide
  split
  · exact .inl rfl
  · next hok =>
    obtain ⟨ws, hws, -⟩ := h (by simpa using hok)
    exact .inr ⟨[], b.cursor, ⟨rfl, ws, hws⟩, rfl⟩

private theorem takeChoice_gives (h : b.matched = 0 ∨ Outputs gives a.cursor b) :
    a.takeChoice b = a.fail ∨
      ∃ vs next, gives a.cursor next vs ∧ a.takeChoice b = a.succeed next vs.reverse := by
  unfold Activation.takeChoice
  split
  · exact .inl rfl
  · next hmatched =>
    obtain ⟨vs, hvs, hout⟩ := h.resolve_left hmatched
    exact .inr ⟨vs, b.cursor, hvs, by rw [hout]⟩

private theorem takeLoop_gives {quota : Quota} (h : Outputs gives a.cursor b) :
    a.takeLoop quota b = a.fail ∨
      ∃ vs next, gives a.cursor next vs ∧ a.takeLoop quota b = a.succeed next vs.reverse := by
  unfold Activation.takeLoop
  split
  · obtain ⟨vs, hvs, hout⟩ := h
    exact .inr ⟨vs, b.cursor, hvs, by rw [hout]⟩
  · exact .inl rfl

private theorem takeOptional_gives (h : b.failed = false → Outputs gives a.cursor b) :
    ∃ vs next, ((a.cursor = next ∧ vs = []) ∨ gives a.cursor next vs) ∧
      a.takeOptional b = a.succeed next vs.reverse := by
  unfold Activation.takeOptional
  split
  · exact ⟨[], a.cursor, .inl ⟨rfl, rfl⟩, rfl⟩
  · next hok =>
    obtain ⟨vs, hvs, hout⟩ := h (by simpa using hok)
    exact ⟨vs, b.cursor, .inr hvs, by rw [hout]⟩

private theorem takeNot_gives : a.takeNot b = a.fail ∨
    ∃ vs next, (a.cursor = next ∧ vs = []) ∧ a.takeNot b = a.succeed next vs.reverse := by
  unfold Activation.takeNot
  split
  · exact .inr ⟨[], a.cursor, ⟨rfl, rfl⟩, rfl⟩
  · exact .inl rfl

private theorem matched_succeed (h : a.matched = 0) {next : Int} {output : List Value} :
    0 < (a.succeed next output).matched := by
  simp only [Activation.succeed, h]
  decide

private theorem repeats_of_quota {kind : Repetition} {quota : Quota} (h : kind.quota? = some quota)
    {once : Match} {s t : Int} {vs : List Value} (hr : Match.Rounds once s t vs) :
    kind.Repeats once s t vs := by
  cases kind with
  | zeroOrMore | oneOrMore | bounded => exact hr
  | optional | not | unknown => cases h

variable {contract : Contract} {known : Nat → Prop}

/-- What the items of a sequence match in an activation of their own. -/
theorem Task.Keeps.inside {id : Nat} {s : Int} {items : List Expr}
    (h : (Task.items Activation.stopsSequence items).Keeps input contract id (.start s) b) :
    b.failed = false → Outputs (GivesAll input contract id items) s b := by
  intro hb
  obtain ⟨-, vs, hvs, hout⟩ := h.1 rfl hb
  exact ⟨vs, hvs, hout.trans (List.append_nil _)⟩

theorem givesAll_singleton {id : Nat} {item : Expr} :
    GivesAll input contract id [item] = Gives input contract id item := by
  funext s t vs
  apply propext
  constructor
  · rintro ⟨m, us, _, h, ⟨rfl, rfl⟩, rfl⟩
    rwa [List.append_nil]
  · exact fun h => ⟨t, vs, [], h, ⟨rfl, rfl⟩, (List.append_nil vs).symm⟩

/-- A task of a known grammar that is admitted keeps the contract if it gets done. -/
def Abides (known : Nat → Prop) (input : Input) (contract : Contract) (id : Nat) (task : Task)
    (a : Activation) (o : Outcome) : Prop :=
  known id → task.Admitted known True Action.IsThrow → ∀ {b furthest}, o = .done b furthest →
    task.Keeps input contract id a b

variable {id : Nat} {e item : Expr} {items : List Expr} {o : Outcome} {furthest furthest' : Int}
  {take? : Activation → Option Activation} {stops : Activation → Bool}

namespace Abides

theorem of_halts {task : Task} (h : o.isDone = false) :
    Abides known input contract id task a o := by
  rintro - - b furthest rfl
  cases h

theorem leaf {attempt : Attempt} (h : ∀ value next, attempt = .success value next →
      Gives input contract id e a.cursor next [value]) :
    Abides known input contract id (.item e) a (a.takeLeaf furthest attempt) := by
  intro _ _ b furthest' ho
  obtain hfail | ⟨value, next, hsuccess, rfl⟩ := takeLeaf_eq_done ho
  · exact .inl hfail
  · exact .inr ⟨[value], next, h value next hsuccess, rfl⟩

theorem rule {name : Bytes} (hr : AdmittedRules family known True Action.IsThrow)
    (hk : KeepsContract family known input contract)
    (hrule : (family.grammarAt id).rule? name = some e)
    (h : Abides known input contract id (.item e) a o) :
    Abides known input contract id (.item (.rule name)) a o := by
  intro hid _ b furthest' ho
  obtain hfail | ⟨vs, next, hvs, hb⟩ :=
    h hid (hr _ hid _ (Grammar.mem_rules_of_rule? _ _ _ hrule)) ho
  · exact .inl hfail
  · exact .inr ⟨vs, next, hk _ hid _ _ hrule _ _ vs hvs, hb⟩

/-- A combinator takes in what its items did in an activation of their own. -/
theorem into {task : Task} (h : Abides known input contract id task (.start a.cursor) o)
    (hadmits : (Task.item e).Admitted known True Action.IsThrow →
      task.Admitted known True Action.IsThrow)
    (htake : ∀ b c, take? b = some c → task.Keeps input contract id (.start a.cursor) b →
      (Task.item e).Keeps input contract id a c) :
    Abides known input contract id (.item e) a (o.into take?) := by
  intro hid ht c furthest' ho
  obtain ⟨b, hb, hc⟩ := into_eq_done ho
  exact htake b c hc (h hid (hadmits ht) hb)

/-- Items in a row put out what all of them match, one after the other. -/
theorem row (hchildren : items = e.children)
    (h : Abides known input contract id (.items Activation.stopsSequence items)
      (.start a.cursor) o)
    (htake : ∀ b c, take? b = some c →
      (b.failed = false → Outputs (GivesAll input contract id items) a.cursor b) →
        (Task.item e).Keeps input contract id a c) :
    Abides known input contract id (.item e) a (o.into take?) := by
  subst hchildren
  exact h.into (fun ht _ hm => ht.child hm) fun b c hc hb => htake b c hc hb.inside

theorem choice (h : Abides known input contract id (.items Activation.stopsChoice items)
      (.start a.cursor) o) :
    Abides known input contract id (.item (.choice items)) a
      (o.into fun b => some (a.takeChoice b)) := by
  refine h.into (fun ht _ hm => ht.child hm) fun b c hc hb => ?_
  obtain rfl := Option.some.inj hc
  have hitems := (hb.2 rfl).2 rfl
  simp only [Activation.start, List.append_nil] at hitems
  exact takeChoice_gives hitems

theorem loop {kind : Repetition} {quota : Quota} (hquota : kind.quota? = some quota)
    (h : Abides known input contract id (.rounds item) (.start a.cursor) o) :
    Abides known input contract id (.item (.iterate kind item)) a
      (o.into fun b => some (a.takeLoop quota b)) := by
  refine h.into (fun ht => ht.child (List.mem_singleton.2 rfl)) fun b c hc hb => ?_
  obtain rfl := Option.some.inj hc
  obtain ⟨vs, hvs, hout⟩ := hb
  exact takeLoop_gives ⟨vs, repeats_of_quota hquota hvs, hout.trans (List.append_nil _)⟩

/-- An item that is evaluated once puts out what it matches. -/
theorem once {kind : Repetition}
    (h : Abides known input contract id (.items Activation.stopsSequence [item])
      (.start a.cursor) o)
    (htake : ∀ b c, take? b = some c →
      (b.failed = false → Outputs (Gives input contract id item) a.cursor b) →
        (Task.item (.iterate kind item)).Keeps input contract id a c) :
    Abides known input contract id (.item (.iterate kind item)) a (o.into take?) := by
  refine h.row rfl fun b c hc hb => htake b c hc ?_
  have hsingle : (Expr.iterate kind item).children = [item] := rfl
  rwa [hsingle, givesAll_singleton] at hb

theorem embed {inner : Nat} {main : Bytes}
    (h : Abides known input contract inner (.item (.rule main)) (.start a.cursor) o) :
    Abides known input contract id (.item (.embed (some inner) main)) a
      (o.intoCaller input a furthest) := by
  intro _ ht c furthest' ho
  obtain ⟨b, inside, hb, rfl⟩ := intoCaller_eq_done ho
  have hknown := ht.embed _ _ (Expr.mem_parts_self _ rfl)
  refine takeSequence_gives fun hok => ?_
  obtain rfl | ⟨vs, next, hvs, rfl⟩ := h hknown (.rule _) hb
  · cases hok
  · exact ⟨vs, hvs, List.append_nil _⟩

theorem nil : Abides known input contract id (.items stops []) a (.done a furthest) := by
  intro _ _ b furthest' ho
  cases ho
  exact ⟨fun _ hb => ⟨hb, [], ⟨rfl, rfl⟩, rfl⟩, fun _ => ⟨fun _ => rfl, .inl⟩⟩

theorem stopped (hstop : stops a = true) :
    Abides known input contract id (.items stops items) a (.done a furthest) := by
  intro _ _ b furthest' ho
  cases ho
  constructor
  · rintro rfl hb
    cases hstop.symm.trans hb
  · exact fun _ => ⟨fun _ => rfl, .inl⟩

theorem cons (hstop : stops a = false)
    (head : Abides known input contract id (.item e) a (.done b furthest'))
    (tail : Abides known input contract id (.items stops items) b o) :
    Abides known input contract id (.items stops (e :: items)) a o := by
  intro hid ht c furthest' ho
  obtain ⟨he, hes⟩ := List.forall_mem_cons.1 ht
  obtain ⟨hall, hany⟩ := tail hid hes ho
  constructor
  · intro hs hc
    obtain ⟨hb, ws, hws, hout⟩ := hall hs hc
    obtain rfl | ⟨us, next, hus, rfl⟩ := head hid he rfl
    · cases hb
    · refine ⟨hb, us ++ ws, ⟨next, us, ws, hus, hws, rfl⟩, ?_⟩
      rw [hout, List.reverse_append, List.append_assoc]
      rfl
  · rintro rfl
    obtain ⟨hdone, hnone⟩ := hany rfl
    refine ⟨fun hpos => ?_, fun hzero => ?_⟩
    · simp [Activation.stopsChoice, hpos] at hstop
    -- an item that matched is the last one of a choice
    obtain rfl | ⟨vs, next, hvs, rfl⟩ := head hid he rfl
    · exact (hnone hzero).imp_right fun ⟨vs, hvs, hout⟩ => ⟨vs, .inr hvs, hout⟩
    · rw [hdone (matched_succeed hzero)]
      exact .inr ⟨vs, .inl hvs, rfl⟩

theorem last (round : Abides known input contract id (.item e) a (.done b furthest)) :
    Abides known input contract id (.rounds e) a (.done b furthest) := by
  intro hid ht c furthest' ho
  cases ho
  obtain rfl | ⟨vs, next, hvs, rfl⟩ := round hid ht rfl
  · exact ⟨[], .nil, rfl⟩
  · exact ⟨vs, .one hvs, rfl⟩

theorem again (round : Abides known input contract id (.item e) a (.done b furthest))
    (more : Abides known input contract id (.rounds e) b o) :
    Abides known input contract id (.rounds e) a o := by
  intro hid ht c furthest' ho
  obtain ⟨ws, hws, hout⟩ := more hid ht ho
  obtain rfl | ⟨us, next, hus, rfl⟩ := round hid ht rfl
  · exact ⟨ws, hws, hout⟩
  · refine ⟨us ++ ws, .cons hus hws, ?_⟩
    rw [hout, List.reverse_append, List.append_assoc]
    rfl

end Abides

/-- All evaluations keep a contract that the rules keep. -/
theorem Evaluates.keeps (hr : AdmittedRules family known True Action.IsThrow)
    (hk : KeepsContract family known input contract) {task : Task}
    (h : Evaluates family input id task a furthest o) :
    Abides known input contract id task a o := by
  induction h with
  | missing | undefined | stranded | headless => exact .of_halts rfl
  | literal => exact .leaf fun value _ hsuccess => ⟨value, hsuccess, rfl⟩
  | pattern => exact .leaf fun value _ hsuccess => ⟨value, hsuccess, rfl⟩
  | rule hrule _ ih => exact ih.rule hr hk hrule
  | sequence _ ih =>
    refine ih.row rfl fun b c hc hb => ?_
    obtain rfl := Option.some.inj hc
    exact takeSequence_gives hb
  | choice _ ih => exact ih.choice
  | wrap _ ih => exact ih.row rfl fun b c hc hb => takeWrap?_gives hb hc
  | hide _ ih =>
    refine ih.row rfl fun b c hc hb => ?_
    obtain rfl := Option.some.inj hc
    exact takeHide_gives hb
  | loop hquota _ ih => exact ih.loop hquota
  | optional _ ih =>
    refine ih.once fun b c hc hb => ?_
    obtain rfl := Option.some.inj hc
    exact .inr (takeOptional_gives hb)
  | not _ ih =>
    refine ih.into (fun ht _ hm => ht.child hm) fun b c hc _ => ?_
    obtain rfl := Option.some.inj hc
    exact takeNot_gives
  | once _ ih =>
    refine ih.once fun b c hc hb => ?_
    obtain rfl := Option.some.inj hc
    refine takeSequence_gives fun hok => ?_
    obtain ⟨vs, hvs, hout⟩ := hb hok
    exact ⟨vs, .one hvs, hout⟩
  | action hact =>
    intro _ ht b furthest' ho
    subst ho
    obtain ⟨datum, rfl⟩ := ht.action _ (Expr.mem_parts_self _ rfl)
    cases hact
  | embed _ _ _ ih => exact ih.embed
  | nil => exact .nil
  | stopped hstop => exact .stopped hstop
  | cons hstop _ _ head tail => exact .cons hstop head tail
  | halted _ _ hhalts | broken _ hhalts => exact .of_halts hhalts
  | last _ _ round => exact round.last
  | again _ _ _ round more => exact round.again more

end

end Evaluator

end PegMachine
