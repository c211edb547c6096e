import PegMachine.Proofs.Evaluator.Matches

namespace PegMachine

namespace Value

private theorem contents_append (vs ws : List Value) :
    contents (vs ++ ws) = contents vs ++ contents ws := by
  induction vs with
  | nil => rfl
  | cons v vs ih => simp [contents, ih]

@[simp] theorem content_annotate (key : Bytes) (datum : Payload) (v : Value) :
    (v.annotate key datum).content = v.content := by
  cases v <;> rfl

end Value

/-- Actions that leave the text of the output as it is. -/
def Action.KeepsText : Action → Prop
  | .note .. | .throw _ | .log _ => True
  | _ => False

namespace Input

/-- The text of the items before a cursor. -/
def before (input : Input) (cursor : Int) : Bytes :=
  match input with
  | .text source => source.take cursor.toNat
  | .tokens _ stream => (stream.take cursor.toNat).flatMap Token.value

private theorem before_text
    {source rest : Bytes} {cursor : Int} (hrest : rest? source cursor = some rest)
    (n : Nat) : (Input.text source).before (cursor + n) =
      (Input.text source).before cursor ++ rest.take n := by
  unfold rest? at hrest
  split at hrest
  · next hbounds =>
    cases hrest
    have hnat : (cursor + n).toNat = cursor.toNat + n := by omega
    simp only [before, hnat, List.take_add]
  · cases hrest

private theorem before_token
    {source : Bytes} {stream : List Token} {cursor next : Int} {value : Value}
    {accepts : Bytes → Bool} (h : tryToken stream cursor accepts = .success value next) :
    (Input.tokens source stream).before next =
      (Input.tokens source stream).before cursor ++ value.content := by
  unfold tryToken at h
  split at h
  · cases h
  next hcursor =>
  cases ht : stream[cursor.toNat]? with
  | none =>
    rw [ht] at h
    cases h
  | some token =>
    simp only [ht] at h
    split at h
    · cases h
      have hnat : (cursor + 1).toNat = cursor.toNat + 1 := by omega
      simp only [before, hnat, List.take_add_one, ht, Option.toList_some, List.flatMap_append,
        List.flatMap_singleton]
      rfl
    · cases h

/-- A leaf that matches adds the text of its value. -/
theorem Reads.before {input : Input} {cursor next : Int} {value : Value}
    (h : input.Reads cursor next value) :
    input.before next = input.before cursor ++ value.content := by
  cases input with
  | text source =>
    obtain ⟨rest, n, hrest, -, rfl, rfl⟩ := h.text
    exact before_text hrest n
  | tokens source stream =>
    obtain ⟨literal, hsuccess⟩ | ⟨p, hsuccess⟩ := h
    · simp only [tryLiteral] at hsuccess
      exact before_token hsuccess
    · simp only [tryPattern] at hsuccess
      exact before_token hsuccess

end Input

namespace Evaluator

open Machine

/-- The output of an activation is the text between its start and its cursor. -/
theorem invariant_contents (input : Input) :
    Invariant input False Action.KeepsText fun s a =>
      input.before a.cursor = input.before s ++ Value.contents a.output.reverse where
  enter _ := (List.append_nil _).symm
  fail h := h
  pass h := h
  leaf {s a value next} hreads h := by
    simp only [Activation.succeed, List.cons_append, List.nil_append, List.reverse_cons,
      Value.contents_append]
    rw [hreads.before, h, List.append_assoc]
    simp [Value.contents]
  join {s a b} ha hb := by
    simp only [Activation.succeed, List.reverse_append, Value.contents_append]
    rw [hb, ha, List.append_assoc]
  wrap {s a b name span} _ ha hb := by
    simp only [Activation.succeed, List.cons_append, List.nil_append, List.reverse_cons,
      Value.contents_append]
    rw [hb, ha, List.append_assoc]
    simp [Value.contents, Value.content, Value.ofItems]
  hide h := h.elim
  act {s a b effect furthest furthest'} hallowed hact h := by
    cases effect with
    | note key datum =>
      simp only [Evaluator.act] at hact
      cases hout : a.output with
      | nil =>
        rw [hout] at hact
        cases hact
        exact h
      | cons last output =>
        rw [hout] at hact h
        cases hact
        simpa [Value.contents_append, Value.contents] using h
    | throw datum => cases hact
    | log args =>
      cases hact
      exact h
    | insert | insertText | convert | modify | clear | custom | unknown => exact hallowed.elim

end Evaluator

namespace Machine

/-- The values of a match hold the text of what was matched, in a text and in a stream of tokens. -/
theorem match_contents (family : Family) (host : Host) (config : Config) (id : Nat) (input : Input)
    {vs : List Value} {cursor : Int}
    (hhide : ∀ inner, family.Embeds id inner → ∀ rule ∈ (family.grammarAt inner).rules,
      ∀ items, .hide items ∉ rule.2.parts)
    (hactions : ∀ inner, family.Embeds id inner → ∀ rule ∈ (family.grammarAt inner).rules,
      ∀ a, .action a ∈ rule.2.parts → a.KeepsText)
    (h : MatchEnds family host config id input (.values vs cursor)) :
    0 ≤ cursor ∧ cursor ≤ input.size ∧ Value.contents vs = input.before cursor := by
  have hfree : family.CustomFree id :=
    fun inner hi rule hr custom hm => hactions inner hi rule hr (.custom custom) hm
  obtain ⟨b, furthest, heval, -, rfl, rfl⟩ := Evaluator.evaluates_of_values hfree h
  have hrules := Evaluator.admittedRules_embeds hhide hactions
  have hstart : input.before (Evaluator.Activation.start 0).cursor =
      input.before 0 ++ Value.contents (Evaluator.Activation.start 0).output.reverse := by
    simp [Evaluator.Activation.start, Value.contents]
  have hkept := (Evaluator.invariant_contents input).evaluates hrules heval .refl (.rule _)
  have hcontents : input.before b.cursor =
      input.before 0 ++ Value.contents b.output.reverse := hkept b furthest rfl 0 hstart
  have hempty : input.before 0 = [] := by cases input <;> rfl
  rw [hempty, List.nil_append] at hcontents
  have hforward := heval.forward (Int.le_refl 0) input.size_nonneg
  exact ⟨hforward.1, hforward.2, hcontents.symm⟩

/-- A word and the words that an embedded grammar finds after it. Both grammars look ahead and give
up on alternatives. -/
def retraced : Family :=
  [.ofRules [("main", .sequence [.iterate .not (.literal "b"),
      .choice [.sequence [.literal "a", .literal "x"],
        .wrap "word" [.literal "a", .action (.note "seen" .nil)]],
      .iterate .optional (.sequence [.literal "b", .literal "x"]),
      .iterate .zeroOrMore (.embed (some 1) "main")])],
    .ofRules [("main", .choice [.sequence [.literal "b", .literal "c"], .literal "b"])]]

/-- The word and the text after it are tried in two ways each, and the output has each byte once. -/
theorem match_contents_retraced :
    (∀ inner, ∀ rule ∈ (retraced.grammarAt inner).rules, ∀ items, .hide items ∉ rule.2.parts) ∧
    (∀ inner, ∀ rule ∈ (retraced.grammarAt inner).rules, ∀ a, .action a ∈ rule.2.parts →
      a.KeepsText) ∧
    ∃ vs, MatchEnds retraced Host.idle {} 0 (.text "abbc")
      (.values vs 4) ∧ Value.contents vs = "abbc" := by
  have hhide : ∀ inner, ∀ rule ∈ (retraced.grammarAt inner).rules, ∀ items,
      .hide items ∉ rule.2.parts := by
    intro inner rule hr items hm
    match inner with
    | 0 | 1 =>
      obtain rfl := List.mem_singleton.1 hr
      simp [Expr.parts, Expr.visit, Expr.visitAll] at hm
    | inner + 2 => cases hr
  have hactions : ∀ inner, ∀ rule ∈ (retraced.grammarAt inner).rules, ∀ a,
      .action a ∈ rule.2.parts → a.KeepsText := by
    intro inner rule hr a hm
    match inner with
    | 0 =>
      obtain rfl := List.mem_singleton.1 hr
      obtain rfl : a = .note "seen" .nil := by
        simpa [Expr.parts, Expr.visit, Expr.visitAll] using hm
      trivial
    | 1 =>
      obtain rfl := List.mem_singleton.1 hr
      simp [Expr.parts, Expr.visit, Expr.visitAll] at hm
    | inner + 2 => cases hr
  have hends : ∃ vs, MatchEnds retraced Host.idle {} 0 (.text "abbc")
      (.values vs 4) := ⟨_, 100, _, rfl, rfl⟩
  obtain ⟨vs, hvs⟩ := hends
  have hcontents := match_contents retraced Host.idle {} 0
    (.text "abbc") (fun inner _ => hhide inner) (fun inner _ => hactions inner) hvs
  exact ⟨hhide, hactions, vs, hvs, hcontents.2.2⟩

end Machine

end PegMachine
