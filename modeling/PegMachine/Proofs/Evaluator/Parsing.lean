import PegMachine.Proofs.Evaluator.Fuel

namespace PegMachine.Evaluator

open Machine

/-- The cursor that has the bytes `s` behind it. -/
def place (text s : Bytes) : Int := text.length - s.length

/-- An activation that stands before the suffix `s` of a text. -/
structure Activation.At (text s : Bytes) (a : Activation) : Prop where
  suffix : s <:+ text
  cursor_eq : a.cursor = place text s

section

variable (family : Family) (id : Nat) (text : Bytes)

/-- The expression leads from `s` to `t` and puts out `vs`. -/
structure Parses (e : Expr) (s t : Bytes) (vs : List Value) : Prop where
  suffix : t <:+ s
  yields : ∀ a furthest, a.At text s → ∃ further,
    Yields family (.text text) id e a furthest (.done (a.succeed (place text t) vs.reverse) further)

def Rejects (e : Expr) (s : Bytes) : Prop :=
  ∀ a furthest, a.At text s → ∃ further,
    Yields family (.text text) id e a furthest (.done a.fail further)

/-- The expressions match one after the other. -/
inductive ParsesAll : List Expr → Bytes → Bytes → List Value → Prop where
  | nil {s : Bytes} : ParsesAll [] s s []
  | cons {e : Expr} {es : List Expr} {s m t : Bytes} {vs ws : List Value}
    (head : Parses family id text e s m vs) (tail : ParsesAll es m t ws) :
    ParsesAll (e :: es) s t (vs ++ ws)

/-- One of the expressions does not match behind those before it. -/
inductive RejectsAll : List Expr → Bytes → Prop where
  | head {e : Expr} {es : List Expr} {s : Bytes} (head : Rejects family id text e s) :
    RejectsAll (e :: es) s
  | tail {e : Expr} {es : List Expr} {s m : Bytes} {vs : List Value}
    (head : Parses family id text e s m vs) (tail : RejectsAll es m) : RejectsAll (e :: es) s

/-- The first of the expressions that matches. -/
inductive Picks : List Expr → Bytes → Bytes → List Value → Prop where
  | here {e : Expr} {es : List Expr} {s t : Bytes} {vs : List Value}
    (head : Parses family id text e s t vs) : Picks (e :: es) s t vs
  | next {e : Expr} {es : List Expr} {s t : Bytes} {vs : List Value}
    (head : Rejects family id text e s) (tail : Picks es s t vs) : Picks (e :: es) s t vs

/-- The expression matches round after round, each of which consumes something, until it matches no
more. -/
inductive Rounds (e : Expr) : Bytes → Bytes → List Value → Nat → Prop where
  | stop {s : Bytes} (none : Rejects family id text e s) : Rounds e s s [] 0
  | round {s m t : Bytes} {vs ws : List Value} {n : Nat} (first : Parses family id text e s m vs)
    (shorter : m.length < s.length) (rest : Rounds e m t ws n) : Rounds e s t (vs ++ ws) (n + 1)

end

variable {family : Family} {id : Nat} {text : Bytes} {e : Expr} {es : List Expr} {s m t : Bytes}
  {vs ws : List Value} {a : Activation}

namespace Activation.At

theorem start_cursor (h : a.At text s) :
    (Activation.start a.cursor).At text s := ⟨h.suffix, h.cursor_eq⟩

theorem fail (h : a.At text s) : a.fail.At text s := ⟨h.suffix, h.cursor_eq⟩

theorem succeed (h : a.At text s) (ht : t <:+ s) (output : List Value) :
    (a.succeed (place text t) output).At text t := ⟨ht.trans h.suffix, rfl⟩

end Activation.At

theorem rest?_place (h : s <:+ text) : Input.rest? text (place text s) = some s := by
  have hle := h.length_le
  have hnat : (place text s).toNat = text.length - s.length := by
    simp only [place]
    omega
  rw [Input.rest?, if_pos, hnat, ← List.suffix_iff_eq_drop.1 h]
  simp only [place]
  omega

theorem place_append (text w t : Bytes) : place text (w ++ t) + w.length = place text t := by
  simp only [place, List.length_append]
  omega

theorem Parses.literal (w t : Bytes) : Parses family id text (.literal w) (w ++ t) t
    [Value.ofText w ⟨place text (w ++ t), place text t⟩] := by
  refine ⟨List.suffix_append w t, fun a furthest ha =>
    ⟨max (max furthest (place text (w ++ t))) (place text t), 1, ?_⟩⟩
  have hp : w.isPrefixOf (w ++ t) = true := List.isPrefixOf_iff_prefix.2 (List.prefix_append w t)
  simp only [evalItem, Input.tryLiteral, ha.cursor_eq, rest?_place ha.suffix, hp, if_true,
    Activation.takeLeaf, place_append]
  rfl

theorem Rejects.literal {w : Bytes} (h : ¬w <+: s) : Rejects family id text (.literal w) s := by
  refine fun a furthest ha => ⟨max furthest a.cursor, 1, ?_⟩
  have hp : w.isPrefixOf s = false := by
    rw [← Bool.not_eq_true, List.isPrefixOf_iff_prefix]
    exact h
  simp only [evalItem, Input.tryLiteral, ha.cursor_eq, rest?_place ha.suffix, hp, Bool.false_eq_true,
    if_false, Activation.takeLeaf]

theorem Parses.pattern {p : Pattern} {w : Bytes} (h : p.matchStart (w ++ t) = some w.length) :
    Parses family id text (.pattern p) (w ++ t) t
      [Value.ofText w ⟨place text (w ++ t), place text t⟩] := by
  refine ⟨List.suffix_append w t, fun a furthest ha =>
    ⟨max (max furthest (place text (w ++ t))) (place text t), 1, ?_⟩⟩
  simp only [evalItem, Input.tryPattern, ha.cursor_eq, rest?_place ha.suffix, h,
    Activation.takeLeaf, place_append, List.take_left]
  rfl

theorem Rejects.pattern {p : Pattern} (h : p.matchStart s = none) :
    Rejects family id text (.pattern p) s := by
  refine fun a furthest ha => ⟨max furthest a.cursor, 1, ?_⟩
  simp only [evalItem, Input.tryPattern, ha.cursor_eq, rest?_place ha.suffix, h,
    Activation.takeLeaf]

theorem Parses.rule {name : Bytes} (hr : (family.grammarAt id).rule? name = some e)
    (h : Parses family id text e s t vs) : Parses family id text (.rule name) s t vs := by
  refine ⟨h.suffix, ?_⟩
  intro a furthest ha
  obtain ⟨further, hy⟩ := h.yields a furthest ha
  exact ⟨further, .of_rule hr hy⟩

theorem Rejects.rule {name : Bytes} (hr : (family.grammarAt id).rule? name = some e)
    (h : Rejects family id text e s) : Rejects family id text (.rule name) s := by
  intro a furthest ha
  obtain ⟨further, hy⟩ := h a furthest ha
  exact ⟨further, .of_rule hr hy⟩

section

variable {inner : Nat} {main : Bytes} {g : Grammar} {body : Expr} {b : Activation} {further : Int}

/-- An embedded grammar matches when a run of its own does. -/
theorem Parses.embed (hg : family[inner]? = some g) (hm : g.rule? main = some body) (ht : t <:+ s)
    (h : Yields family (.text text) inner (.rule main) (.start (place text s)) (place text s)
      (.done b further)) (hf : b.failed = false) (hc : b.cursor = place text t) :
    Parses family id text (.embed (some inner) main) s t b.output.reverse := by
  obtain ⟨fuel, hfuel⟩ := h
  refine ⟨ht, ?_⟩
  intro a furthest ha
  refine ⟨max furthest further, fuel + 1, ?_⟩
  simp only [evalItem, Family.grammar?, Option.bind_some, hg, hm, ha.cursor_eq, hfuel,
    Option.map_some, Outcome.intoCaller, hf, hc, Bool.false_eq_true, if_false, List.reverse_reverse]

theorem Rejects.embed (hg : family[inner]? = some g) (hm : g.rule? main = some body)
    (h : Yields family (.text text) inner (.rule main) (.start (place text s)) (place text s)
      (.done b further)) (hf : b.failed = true) :
    Rejects family id text (.embed (some inner) main) s := by
  obtain ⟨fuel, hfuel⟩ := h
  intro a furthest ha
  refine ⟨max furthest further, fuel + 1, ?_⟩
  simp only [evalItem, Family.grammar?, Option.bind_some, hg, hm, ha.cursor_eq, hfuel,
    Option.map_some, Outcome.intoCaller, hf, if_true, position?, Input.offset?, Option.isSome_some]

end

theorem ParsesAll.suffix (h : ParsesAll family id text es s t vs) : t <:+ s := by
  induction h with
  | nil => exact List.suffix_refl _
  | cons head _ ih => exact ih.trans head.suffix

theorem ParsesAll.yields (h : ParsesAll family id text es s t vs) (furthest : Int)
    (ha : a.At text s) (hf : a.failed = false) : ∃ b further,
      ItemsYield family (.text text) id Activation.stopsSequence es a furthest (.done b further) ∧
      b.failed = false ∧ b.cursor = place text t ∧ b.output = vs.reverse ++ a.output := by
  induction h generalizing a furthest with
  | nil => exact ⟨a, furthest, .nil, hf, ha.cursor_eq, rfl⟩
  | @cons e es s m t vs ws head _ ih =>
    obtain ⟨further, hy⟩ := head.yields a furthest ha
    obtain ⟨b, last, hb, hbf, hc, ho⟩ := ih further (ha.succeed head.suffix vs.reverse) hf
    refine ⟨b, last, .cons hf hy hb, hbf, hc, ?_⟩
    rw [ho, List.reverse_append, List.append_assoc]
    rfl

theorem RejectsAll.yields (h : RejectsAll family id text es s) (furthest : Int)
    (ha : a.At text s) (hf : a.failed = false) : ∃ b further,
      ItemsYield family (.text text) id Activation.stopsSequence es a furthest (.done b further) ∧
      b.failed = true := by
  induction h generalizing a furthest with
  | head head =>
    obtain ⟨further, hy⟩ := head a furthest ha
    exact ⟨a.fail, further, .cons hf hy (.stopped rfl), rfl⟩
  | @tail e es s m vs head _ ih =>
    obtain ⟨further, hy⟩ := head.yields a furthest ha
    obtain ⟨b, last, hb, hbf⟩ := ih further (ha.succeed head.suffix vs.reverse) hf
    exact ⟨b, last, .cons hf hy hb, hbf⟩

theorem ParsesAll.inside (h : ParsesAll family id text es s t vs) (ha : a.At text s)
    (furthest : Int) : ∃ b further,
      ItemsYield family (.text text) id Activation.stopsSequence es (.start a.cursor) furthest
        (.done b further) ∧
      b.failed = false ∧ b.cursor = place text t ∧ b.output = vs.reverse := by
  obtain ⟨b, further, hb, hf, hc, ho⟩ := h.yields furthest ha.start_cursor rfl
  exact ⟨b, further, hb, hf, hc, ho.trans (List.append_nil _)⟩

theorem Parses.sequence (h : ParsesAll family id text es s t vs) :
    Parses family id text (.sequence es) s t vs := by
  refine ⟨h.suffix, ?_⟩
  intro a furthest ha
  obtain ⟨b, further, hb, hbf, hc, ho⟩ := h.inside ha furthest
  have htake : a.takeSequence b = a.succeed (place text t) vs.reverse := by
    simp [Activation.takeSequence, hbf, hc, ho]
  exact ⟨further, htake ▸ .sequence hb⟩

theorem Rejects.sequence (h : RejectsAll family id text es s) :
    Rejects family id text (.sequence es) s := by
  intro a furthest ha
  obtain ⟨b, further, hb, hbf⟩ := h.yields furthest ha.start_cursor rfl
  have htake : a.takeSequence b = a.fail := if_pos hbf
  exact ⟨further, htake ▸ .sequence hb⟩

theorem Parses.hide (h : ParsesAll family id text es s t vs) :
    Parses family id text (.hide es) s t [] := by
  refine ⟨h.suffix, ?_⟩
  intro a furthest ha
  obtain ⟨b, further, hb, hbf, hc, -⟩ := h.inside ha furthest
  have htake : a.takeHide b = a.succeed (place text t) [] := by
    simp [Activation.takeHide, hbf, hc]
  exact ⟨further, htake ▸ .hide hb⟩

theorem Rejects.hide (h : RejectsAll family id text es s) :
    Rejects family id text (.hide es) s := by
  intro a furthest ha
  obtain ⟨b, further, hb, hbf⟩ := h.yields furthest ha.start_cursor rfl
  have htake : a.takeHide b = a.fail := if_pos hbf
  exact ⟨further, htake ▸ .hide hb⟩

theorem Parses.wrap (name : Bytes) (h : ParsesAll family id text es s t vs) :
    Parses family id text (.wrap name es) s t
      [Value.ofItems name ⟨place text s, place text t⟩ vs] := by
  refine ⟨h.suffix, ?_⟩
  intro a furthest ha
  obtain ⟨b, further, hb, hbf, hc, ho⟩ := h.inside ha furthest
  have htake : a.takeWrap? (.text text) name b = some (a.succeed (place text t)
      [Value.ofItems name ⟨place text s, place text t⟩ vs]) := by
    simp [Activation.takeWrap?, hbf, hc, ho, ha.cursor_eq, Input.span?]
  exact ⟨further, .wrap hb htake⟩

theorem Rejects.wrap {name : Bytes} (h : RejectsAll family id text es s) :
    Rejects family id text (.wrap name es) s := by
  intro a furthest ha
  obtain ⟨b, further, hb, hbf⟩ := h.yields furthest ha.start_cursor rfl
  exact ⟨further, .wrap hb (if_pos hbf)⟩

theorem Picks.suffix (h : Picks family id text es s t vs) : t <:+ s := by
  induction h with
  | here head => exact head.suffix
  | next _ _ ih => exact ih

theorem Picks.yields (h : Picks family id text es s t vs) (furthest : Int) (ha : a.At text s)
    (hm : a.matched = 0) : ∃ b further,
      ItemsYield family (.text text) id Activation.stopsChoice es a furthest (.done b further) ∧
      b.matched = 1 ∧ b.cursor = place text t ∧ b.output = vs.reverse ++ a.output := by
  have hgo {a : Activation} (hm : a.matched = 0) : a.stopsChoice = false := by
    simp [Activation.stopsChoice, hm]
  induction h generalizing a furthest with
  | @here e es s t vs head =>
    obtain ⟨further, hy⟩ := head.yields a furthest ha
    have hone : (a.succeed (place text t) vs.reverse).matched = 1 := by
      simp [Activation.succeed, hm, Frame.oneMore]
    have hstop : (a.succeed (place text t) vs.reverse).stopsChoice = true := by
      simp [Activation.stopsChoice, hone]
    exact ⟨_, further, .cons (hgo hm) hy (.stopped hstop), hone, rfl, rfl⟩
  | next head _ ih =>
    obtain ⟨further, hy⟩ := head a furthest ha
    obtain ⟨b, last, hb, hrest⟩ := ih further ha.fail hm
    exact ⟨b, last, .cons (hgo hm) hy hb, hrest⟩

theorem Parses.choice (h : Picks family id text es s t vs) :
    Parses family id text (.choice es) s t vs := by
  refine ⟨h.suffix, ?_⟩
  intro a furthest ha
  obtain ⟨b, further, hb, hm, hc, ho⟩ := h.yields furthest ha.start_cursor rfl
  have hout : b.output = vs.reverse := ho.trans (List.append_nil _)
  have htake : a.takeChoice b = a.succeed (place text t) vs.reverse := by
    simp [Activation.takeChoice, hm, hc, hout]
  exact ⟨further, htake ▸ .choice hb⟩

private theorem rejects_each (h : ∀ e ∈ es, Rejects family id text e s) (furthest : Int)
    (ha : a.At text s) (hm : a.matched = 0) : ∃ b further,
      ItemsYield family (.text text) id Activation.stopsChoice es a furthest (.done b further) ∧
      b.matched = 0 := by
  induction es generalizing a furthest with
  | nil => exact ⟨a, furthest, .nil, hm⟩
  | cons e es ih =>
    have hgo : a.stopsChoice = false := by simp [Activation.stopsChoice, hm]
    obtain ⟨further, hy⟩ := h e (by simp) a furthest ha
    obtain ⟨b, last, hb, hbm⟩ := ih (fun e he => h e (by simp [he])) further ha.fail hm
    exact ⟨b, last, .cons hgo hy hb, hbm⟩

theorem Rejects.choice (h : ∀ e ∈ es, Rejects family id text e s) :
    Rejects family id text (.choice es) s := by
  intro a furthest ha
  obtain ⟨b, further, hb, hm⟩ := rejects_each h furthest ha.start_cursor rfl
  have htake : a.takeChoice b = a.fail := if_pos hm
  exact ⟨further, htake ▸ .choice hb⟩

theorem Parses.optional (h : Parses family id text e s t vs) :
    Parses family id text (.iterate .optional e) s t vs := by
  refine ⟨h.suffix, ?_⟩
  intro a furthest ha
  have hall : ParsesAll family id text [e] s t (vs ++ []) := .cons h .nil
  obtain ⟨b, further, hb, hbf, hc, ho⟩ := hall.inside ha furthest
  have htake : a.takeOptional b = a.succeed (place text t) vs.reverse := by
    simp [Activation.takeOptional, hbf, hc, ho]
  exact ⟨further, htake ▸ .optional hb⟩

theorem Parses.optional_none (h : Rejects family id text e s) :
    Parses family id text (.iterate .optional e) s s [] := by
  refine ⟨List.suffix_refl s, ?_⟩
  intro a furthest ha
  have hnone : RejectsAll family id text [e] s := .head h
  obtain ⟨b, further, hb, hbf⟩ := hnone.yields furthest ha.start_cursor rfl
  have htake : a.takeOptional b = a.succeed (place text s) [] := by
    simp [Activation.takeOptional, hbf, ha.cursor_eq]
  exact ⟨further, htake ▸ .optional hb⟩

theorem Parses.not (h : Rejects family id text e s) :
    Parses family id text (.iterate .not e) s s [] := by
  refine ⟨List.suffix_refl s, ?_⟩
  intro a furthest ha
  obtain ⟨further, hy⟩ := h (.start a.cursor) furthest ha.start_cursor
  have hitems : ItemsYield family (.text text) id Activation.stopsNot [e] (.start a.cursor)
      furthest (.done (Activation.start a.cursor).fail further) := .cons rfl hy .nil
  have hpass : a.succeed (place text s) [] = a.pass := by
    simp [Activation.succeed, Activation.pass, ← ha.cursor_eq]
  exact ⟨further, hpass ▸ .not hitems⟩

theorem Rejects.not (h : Parses family id text e s t vs) :
    Rejects family id text (.iterate .not e) s := by
  intro a furthest ha
  obtain ⟨further, hy⟩ := h.yields (.start a.cursor) furthest ha.start_cursor
  have hitems : ItemsYield family (.text text) id Activation.stopsNot [e] (.start a.cursor)
      furthest (.done ((Activation.start a.cursor).succeed (place text t) vs.reverse) further) :=
    .cons rfl hy .nil
  exact ⟨further, .not hitems⟩

theorem Rounds.suffix {n : Nat} (h : Rounds family id text e s t vs n) : t <:+ s := by
  induction h with
  | stop _ => exact List.suffix_refl _
  | round first _ _ ih => exact ih.trans first.suffix

/-- At the end of the text there is no round. -/
theorem Rounds.at_end {n : Nat} (h : Rounds family id text e [] t vs n) :
    t = [] ∧ vs = [] ∧ n = 0 := by
  cases h with
  | stop _ => exact ⟨rfl, rfl, rfl⟩
  | round first shorter rest => cases shorter

/-- The rounds of a loop that starts with `a`. They are counted as long as the count is a word. -/
theorem Rounds.yields {n : Nat} (h : Rounds family id text e s t vs n) (furthest : Int)
    (ha : a.At text s) (hf : a.failed = false) : ∃ b further,
      LoopYields family (.text text) id e a furthest (.done b further) ∧
      b.cursor = place text t ∧ b.output = vs.reverse ++ a.output ∧
      (a.matched + n < Decimal.halfWords → b.matched = a.matched + n) := by
  induction h generalizing a furthest with
  | stop none =>
    obtain ⟨further, hy⟩ := none a furthest ha
    exact ⟨a.fail, further, .stopped hy rfl, ha.cursor_eq, rfl, fun _ => (Int.add_zero _).symm⟩
  | @round s m t vs ws n first shorter rest ih =>
    obtain ⟨further, hy⟩ := first.yields a furthest ha
    have hcount (hsmall : a.matched + (n + 1 : Nat) < Decimal.halfWords) :
        Frame.oneMore a.matched = a.matched + 1 := by
      simp only [Decimal.halfWords] at hsmall
      exact if_neg (by omega)
    cases m with
    | nil =>
      -- the text is over, so there is no further round
      obtain ⟨rfl, rfl, rfl⟩ := rest.at_end
      have hstop : (a.succeed (place text []) vs.reverse).stopsLoop (Input.text text).size
          a.cursor = true := by
        simp [Activation.stopsLoop, Activation.succeed, place, Input.size]
      exact ⟨_, further, .stopped hy hstop, rfl, by rw [List.append_nil]; rfl, hcount⟩
    | cons x m =>
      have hnext := ha.succeed first.suffix vs.reverse
      have hgo : (a.succeed (place text (x :: m)) vs.reverse).stopsLoop (Input.text text).size
          a.cursor = false := by
        simp only [Activation.stopsLoop, Activation.succeed, hf, ha.cursor_eq, place, Input.size,
          Bool.false_or, Bool.not_eq_false', Bool.and_eq_true, decide_eq_true_eq, bne_iff_ne]
        simp only [List.length_cons] at shorter ⊢
        omega
      obtain ⟨b, last, hb, hc, ho, hm⟩ := ih further hnext hf
      refine ⟨b, last, .again hy hgo hb, hc, ?_, fun hsmall => ?_⟩
      · rw [ho, List.reverse_append, List.append_assoc]
        rfl
      · have hone := hcount hsmall
        simp only [Activation.succeed, hone] at hm
        have := hm (by omega)
        omega

theorem Parses.zeroOrMore {n : Nat} (h : Rounds family id text e s t vs n) :
    Parses family id text (.iterate .zeroOrMore e) s t vs := by
  refine ⟨h.suffix, ?_⟩
  intro a furthest ha
  obtain ⟨b, further, hb, hc, ho, -⟩ := h.yields furthest ha.start_cursor rfl
  have hout : b.output = vs.reverse := ho.trans (List.append_nil _)
  have htake : a.takeLoop .zeroOrMore b = a.succeed (place text t) vs.reverse := by
    simp [Activation.takeLoop, Quota.admits, hc, hout]
  exact ⟨further, htake ▸ .zeroOrMore hb⟩

theorem Parses.oneOrMore {n : Nat} (h : Rounds family id text e s t vs n) (hpos : 0 < n)
    (hn : (n : Int) < Decimal.halfWords) :
    Parses family id text (.iterate .oneOrMore e) s t vs := by
  refine ⟨h.suffix, ?_⟩
  intro a furthest ha
  obtain ⟨b, further, hb, hc, ho, hm⟩ := h.yields furthest ha.start_cursor rfl
  have hout : b.output = vs.reverse := ho.trans (List.append_nil _)
  have hmatched : b.matched = n := (hm (by simpa [Activation.start] using hn)).trans (Int.zero_add _)
  have hadmits : Quota.oneOrMore.admits b.matched = true := by
    simp only [Quota.admits, hmatched, bne_iff_ne]
    omega
  have htake : a.takeLoop .oneOrMore b = a.succeed (place text t) vs.reverse := by
    simp [Activation.takeLoop, hadmits, hc, hout]
  exact ⟨further, htake ▸ .oneOrMore hb⟩

end PegMachine.Evaluator
