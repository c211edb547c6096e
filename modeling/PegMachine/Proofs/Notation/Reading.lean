import PegMachine.Proofs.Notation.Phrases

namespace PegMachine.Notation

open Evaluator

/-- A text that is not empty and starts with a character of ASCII in the class. -/
def Begins (cls : CharClass) (s : Bytes) : Prop :=
  ∃ b rest, s = b :: rest ∧ b < 0x80 ∧ cls.contains b.toNat = true

namespace Begins

variable {cls : CharClass} {s : Bytes}

theorem append (h : Begins cls s) (u : Bytes) : Begins cls (s ++ u) := by
  obtain ⟨b, rest, rfl, hb⟩ := h
  exact ⟨b, rest ++ u, rfl, hb⟩

theorem startsIn (h : Begins cls s) {more : CharClass} (hm : cls.isPartOf more = true) :
    StartsIn more s := by
  obtain ⟨b, rest, rfl, hb, hc⟩ := h
  exact .cons hb (CharClass.contains_of_isPartOf hm hc)

theorem mono (h : Begins cls s) {more : CharClass} (hm : cls.isPartOf more = true) :
    Begins more s := by
  obtain ⟨b, rest, rfl, hb, hc⟩ := h
  exact ⟨b, rest, rfl, hb, CharClass.contains_of_isPartOf hm hc⟩

private theorem length_pos (h : Begins cls s) : 0 < s.length := by
  obtain ⟨b, rest, rfl, -⟩ := h
  exact Nat.succ_pos _

end Begins

private theorem begins_identifier {name : Bytes} (h : isIdentifier name = true) :
    Begins initials name := by
  obtain ⟨hne, hs⟩ := startsIn_identifier h []
  obtain ⟨b, rest, rfl⟩ := List.exists_cons_of_ne_nil hne
  exact ⟨b, rest, rfl, hs b rfl⟩

theorem begins_operand {e : Expr} (h : e.Writable) :
    Begins operandStarts (e.renderAt .operand) := by
  cases h with
  | literal => exact ⟨39, _, rfl, by decide, by decide⟩
  | pattern => exact ⟨96, _, rfl, by decide, by decide⟩
  | rule hn => exact (begins_identifier hn).mono (by decide)
  | @sequence items hl _ =>
    match items, hl with
    | [], _ => exact ⟨40, _, rfl, by decide, by decide⟩
    | _ :: _ :: _, _ => exact ⟨40, _, rfl, by decide, by decide⟩
  | choice => exact ⟨40, _, rfl, by decide, by decide⟩
  | iterate => exact ⟨40, _, rfl, by decide, by decide⟩
  | wrap hn =>
    simp only [Expr.renderAt, List.append_assoc]
    exact ((begins_identifier hn).mono (by decide)).append _
  | hide => exact ⟨40, _, rfl, by decide, by decide⟩

theorem join_cons_cons (sep a b : Bytes) (parts : List Bytes) :
    Bytes.join sep (a :: b :: parts) = a ++ (sep ++ Bytes.join sep (b :: parts)) := by
  rw [Bytes.join, List.append_assoc]

private theorem begins_decorate {kind : Repetition} {item : Bytes} (h : Begins operandStarts item) :
    Begins itemStarts (kind.decorate item) := by
  have hi : Begins itemStarts item := h.mono (by decide)
  cases kind with
  | not => exact ⟨33, _, rfl, by decide, by decide⟩
  | zeroOrMore | oneOrMore | optional | bounded | unknown => exact hi.append _

theorem begins_render {e : Expr} (h : e.Writable) (place : Expr.Place) :
    Begins itemStarts (e.renderAt place) := by
  have hoperand : Begins itemStarts (e.renderAt .operand) := (begins_operand h).mono (by decide)
  induction h generalizing place with
  | literal | pattern | rule | wrap =>
    simp only [Expr.renderAt] at hoperand ⊢
    exact hoperand
  | @sequence items hl h ih =>
    match items, hl with
    | [], _ => cases place <;> exact ⟨40, _, rfl, by decide, by decide⟩
    | x :: y :: zs, _ =>
      have hx := ih x (by simp) .item ((begins_operand (h x (by simp))).mono (by decide))
      cases place with
      | operand => exact hoperand
      | alone | item =>
        change Begins itemStarts (Bytes.join " " (x.renderAt .item :: y.renderAt .item :: _))
        rw [join_cons_cons]
        exact hx.append _
  | @choice items hl h ih =>
    match items, hl with
    | x :: y :: zs, _ =>
      have hx := ih x (by simp) .alone ((begins_operand (h x (by simp))).mono (by decide))
      cases place with
      | operand | item => exact ⟨40, _, rfl, by decide, by decide⟩
      | alone =>
        change Begins itemStarts (Bytes.join " / " (x.renderAt .alone :: y.renderAt .alone :: _))
        rw [join_cons_cons]
        exact hx.append _
  | iterate _ h =>
    cases place with
    | operand => exact hoperand
    | alone | item => exact begins_decorate (begins_operand h)
  | hide =>
    cases place with
    | operand => exact hoperand
    | alone | item => exact ⟨126, _, rfl, by decide, by decide⟩

/-- The text `r` is read as an operand that stands for `e`. -/
def ReadsOperand (text r : Bytes) (e : Expr) : Prop :=
  ∀ ⦃u t : Bytes⦄, Follows u t →
    ∃ v, Reads text (.rule "Primary") (r ++ u) t [v] ∧ build v = .ok e

/-- The text `r` is read as the items `es` of a sequence, whatever items come behind them. -/
def ReadsItems (text r : Bytes) (es : List Expr) : Prop :=
  ∀ ⦃u t t' : Bytes⦄ ⦃ws : List Value⦄ ⦃n : Nat⦄ ⦃fs : List Expr⦄, Follows u t →
    StartsIn itemEnds t → ReadsMany text (.rule "Prefix") t t' ws n → buildAll ws = .ok fs →
    ∃ vs n, ReadsMany text (.rule "Prefix") (r ++ u) t' vs n ∧ buildAll vs = .ok (es ++ fs)

/-- The text `r` is read as the alternatives `es` of a choice, whatever alternatives come behind
them. -/
def ReadsAlternatives (text r : Bytes) (es : List Expr) : Prop :=
  ∀ ⦃u t t' : Bytes⦄ ⦃ws : List Value⦄ ⦃n : Nat⦄ ⦃fs : List Expr⦄, Follows u t →
    StartsIn itemEnds t → Refuses text (.rule "Prefix") t →
    ReadsMany text otherwise t t' ws n → buildAll ws = .ok fs →
    ∃ v vs m n, Reads text (.rule "Sequence") (r ++ u) m [v] ∧ ReadsMany text otherwise m t' vs n ∧
      buildAll (v :: vs) = .ok (es ++ fs)

/-- An expression is read again in all places. -/
structure Readable (text : Bytes) (e : Expr) : Prop where
  operand : ReadsOperand text (e.renderAt .operand) e.flatten
  item : ReadsItems text (e.renderAt .item) e.flatten.sequenceItems
  alone : ReadsAlternatives text (e.renderAt .alone) e.flatten.choiceItems

variable {text r : Bytes} {s t u m : Bytes} {e : Expr}

theorem buildAll_cons {v : Value} {vs : List Value} {es : List Expr} (h : build v = .ok e)
    (hs : buildAll vs = .ok es) : buildAll (v :: vs) = .ok (e :: es) := by
  rw [buildAll, h, hs]
  rfl

theorem Gap.length_le (h : Gap u t) : t.length ≤ u.length := by
  cases h <;> simp

theorem readsItems_one (hr : Begins itemStarts r)
    (h : ∀ {u t : Bytes}, Follows u t → StartsIn itemEnds t →
      ∃ v, Reads text (.rule "Prefix") (r ++ u) t [v] ∧ build v = .ok e) :
    ReadsItems text r [e] := by
  intro u t t' ws n fs hf ht hmany hb
  obtain ⟨v, hv, hbv⟩ := h hf ht
  have hlen : t.length < (r ++ u).length := by
    have := hf.gap.length_le
    have := hr.length_pos
    rw [List.length_append]
    omega
  exact ⟨[v] ++ ws, n + 1, .round hv hlen hmany, buildAll_cons hbv hb⟩

theorem ReadsOperand.items (h : ReadsOperand text r e) (hr : Begins operandStarts r) :
    ReadsItems text r [e] := by
  refine readsItems_one (hr.mono (by decide)) fun hf ht => ?_
  obtain ⟨x, hx, hbx⟩ := h hf
  obtain ⟨v, hv, hbv⟩ := reads_operand hx ht
  exact ⟨v, reads_item ((hr.append _).startsIn (by decide) : StartsIn operandStarts _) (by decide)
    (by decide) hv, hbv.trans hbx⟩

/-- Items of a sequence with nothing behind them are an alternative. -/
theorem ReadsItems.alternatives {es : List Expr} (h : ReadsItems text r es) :
    ReadsAlternatives text r [Expr.group es] := by
  intro u t t' ws n fs hf ht hno hmany hb
  have hstop : ReadsMany text (.rule "Prefix") t t [] 0 := .stop hno
  obtain ⟨vs, k, hvs, hbvs⟩ := h hf ht hstop rfl
  rw [List.append_nil] at hbvs
  obtain ⟨v, hv, hbv⟩ := reads_sequence hvs hbvs
  exact ⟨v, ws, t, n, hv, hmany, buildAll_cons hbv hb⟩

theorem refuses_item_at {cls : CharClass} (h : StartsIn cls s)
    (hp : cls.isPartOf [(41, 41), (47, 47)] = true) : Refuses text (.rule "Prefix") s :=
  refuses_item (h.mono hp) (by decide) (by decide) (refuses_primary (h.mono hp))

/-- Alternatives with nothing behind them are an expression. -/
theorem ReadsAlternatives.expression {es : List Expr} (h : ReadsAlternatives text r es)
    (hf : Follows u t) (ht : StartsIn itemEnds t) (hno : Refuses text (.rule "Prefix") t)
    (hno' : Refuses text otherwise t) :
    ∃ x, Reads text (.rule "Expression") (r ++ u) t [x] ∧
      build x = .ok (Expr.alternatives es) := by
  have hstop : ReadsMany text otherwise t t [] 0 := .stop hno'
  obtain ⟨v, vs, m, n, hv, hvs, hb⟩ := h hf ht hno hstop rfl
  rw [List.append_nil] at hb
  exact reads_expression hv hvs hb

theorem ReadsAlternatives.closed {es : List Expr} (h : ReadsAlternatives text r es) (u : Bytes) :
    ∃ x, Reads text (.rule "Expression") (r ++ 0x29 :: u) (0x29 :: u) [x] ∧
      build x = .ok (Expr.alternatives es) := by
  have hclose : StartsIn [(41, 41)] (0x29 :: u) := .cons (by decide) (by decide)
  exact h.expression (.tight (hclose.mono (by decide))) (hclose.mono (by decide))
    (refuses_item_at hclose (by decide)) (refuses_otherwise hclose (by decide))

theorem ReadsAlternatives.operand {es : List Expr} (h : ReadsAlternatives text r es)
    (hr : Begins itemStarts r) : ReadsOperand text ("(" ++ r ++ ")") (Expr.alternatives es) := by
  intro u t hf
  obtain ⟨x, hx, hb⟩ := h.closed u
  have htext : ("(" : Bytes) ++ r ++ (")" : Bytes) ++ u = 0x28 :: (r ++ 0x29 :: u) := by
    rw [List.append_assoc, List.append_assoc]
    rfl
  rw [htext]
  exact ⟨x, reads_group ((hr.append _).startsIn (by decide)) hx hf, hb⟩

private theorem readsOperand_empty (text : Bytes) : ReadsOperand text "()" (.sequence []) := by
  intro u t hf
  have hclose : StartsIn [(41, 41)] (0x29 :: u) := .cons (by decide) (by decide)
  have hstop : ReadsMany text (.rule "Prefix") (0x29 :: u) (0x29 :: u) [] 0 :=
    .stop (refuses_item_at hclose (by decide))
  obtain ⟨v, hv, hb⟩ := reads_sequence hstop rfl
  obtain ⟨x, hx, hbx⟩ := reads_expression hv (.stop (refuses_otherwise hclose (by decide)))
    (buildAll_cons hb rfl)
  exact ⟨x, reads_group (hclose.mono (by decide)) hx hf, hbx⟩

private theorem readsOperand_label {name : Bytes} (hn : isIdentifier name = true) {es : List Expr}
    (h : ReadsItems text r es) (hr : Begins itemStarts r) :
    ReadsOperand text (name ++ ":(" ++ r ++ ")") (.wrap name [Expr.group es]) := by
  intro u t hf
  obtain ⟨x, hx, hb⟩ := h.alternatives.closed u
  have htext : name ++ (":(" : Bytes) ++ r ++ (")" : Bytes) ++ u =
      name ++ Ascii.colon :: 0x28 :: (r ++ 0x29 :: u) := by
    simp only [List.append_assoc]
    rfl
  rw [htext]
  exact reads_label hn ((hr.append _).startsIn (by decide)) hx hb hf

variable {items : List Expr}

theorem begins_join (place : Expr.Place) (sep : Bytes) (hne : items ≠ [])
    (hw : ∀ item ∈ items, item.Writable) :
    Begins itemStarts (Bytes.join sep (Expr.renderEach place items)) := by
  match items, hne with
  | [x], _ => exact begins_render (hw x (by simp)) place
  | x :: y :: items, _ =>
    rw [Expr.renderEach, Expr.renderEach, join_cons_cons]
    exact (begins_render (hw x (by simp)) place).append _

private theorem readsItems_join (hne : items ≠ []) (hw : ∀ item ∈ items, item.Writable)
    (h : ∀ item ∈ items, Readable text item) :
    ReadsItems text (Bytes.join " " (Expr.renderEach .item items))
      ((Expr.flattenEach items).flatMap Expr.sequenceItems) := by
  induction items with
  | nil => exact absurd rfl hne
  | cons x items ih =>
    intro u t t' ws n fs hf ht hmany hb
    cases items with
    | nil =>
      simp only [Expr.flattenEach, List.flatMap_cons, List.flatMap_nil, List.append_nil]
      exact (h x (by simp)).item hf ht hmany hb
    | cons y items =>
      have hws : ∀ item ∈ y :: items, item.Writable := fun e he => hw e (by simp [he])
      obtain ⟨vs, k, hvs, hbvs⟩ := ih (by simp) hws (fun e he => h e (by simp [he])) hf ht hmany hb
      have hrest := (begins_join .item " " (by simp) hws).append u
      obtain ⟨vs', k', hvs', hbvs'⟩ := (h x (by simp)).item
        (.blank (hrest.startsIn (by decide))) (hrest.startsIn (by decide)) hvs hbvs
      refine ⟨vs', k', ?_, ?_⟩
      · rw [Expr.renderEach, Expr.renderEach, join_cons_cons, List.append_assoc, List.append_assoc]
        exact hvs'
      · simp only [hbvs', Expr.flattenEach, List.flatMap_cons, List.append_assoc]

private theorem readsAlternatives_join (hne : items ≠ []) (hw : ∀ item ∈ items, item.Writable)
    (h : ∀ item ∈ items, Readable text item) :
    ReadsAlternatives text (Bytes.join " / " (Expr.renderEach .alone items))
      ((Expr.flattenEach items).flatMap Expr.choiceItems) := by
  induction items with
  | nil => exact absurd rfl hne
  | cons x items ih =>
    intro u t t' ws n fs hf ht hno hmany hb
    cases items with
    | nil =>
      simp only [Expr.flattenEach, List.flatMap_cons, List.flatMap_nil, List.append_nil]
      exact (h x (by simp)).alone hf ht hno hmany hb
    | cons y items =>
      have hws : ∀ item ∈ y :: items, item.Writable := fun e he => hw e (by simp [he])
      obtain ⟨v, vs, m, k, hv, hvs, hbvs⟩ :=
        ih (by simp) hws (fun e he => h e (by simp [he])) hf ht hno hmany hb
      have hrest := (begins_join .alone " / " (by simp) hws).append u
      have hslash : StartsIn [(47, 47)]
          (0x2F :: Ascii.blank :: (Bytes.join " / " (Expr.renderEach .alone (y :: items)) ++ u)) :=
        .cons (by decide) (by decide)
      -- the alternatives behind the slash are one round more for what comes before it
      have hround := reads_otherwise (hrest.startsIn (by decide)) hv
      have hshort := hv.suffix.length_le
      obtain ⟨v', vs', m', k', hv', hvs', hbvs'⟩ := (h x (by simp)).alone
        (.blank (hslash.mono (by decide))) (hslash.mono (by decide))
        (refuses_item_at hslash (by decide))
        (.round hround (by simp only [List.length_cons]; omega) hvs) hbvs
      refine ⟨v', vs', m', k', ?_, hvs', ?_⟩
      · rw [Expr.renderEach, Expr.renderEach, join_cons_cons, List.append_assoc, List.append_assoc]
        exact hv'
      · simp only [hbvs', Expr.flattenEach, List.flatMap_cons, List.append_assoc]

/-- What is written behind an operand that is repeated, and read as the repetition. -/
structure Repeats (text op : Bytes) (kind : Repetition) : Prop where
  starts : ∀ u, StartsIn [(42, 43), (63, 63), (123, 123)] (op ++ u)
  reads : ∀ {u t : Bytes}, Gap u t → StartsIn solid t →
    ∃ y, Reads text repetition (op ++ u) t [y] ∧ suffix y = .ok kind

private theorem repeats_sign {b : UInt8} (hb : b < 0x80)
    (hc : CharClass.contains [(42, 43), (63, 63)] b.toNat = true) :
    Repeats text [b] (if [b] = ("?" : Bytes) then .optional
      else if [b] = ("*" : Bytes) then .zeroOrMore else .oneOrMore) := by
  refine ⟨fun u => (StartsIn.cons hb hc).mono (by decide), fun hg ht => ?_⟩
  obtain ⟨y, hy, hr⟩ := reads_sign text hb hc hg ht
  exact ⟨y, hr, suffix_sign hy⟩

private theorem repeats_bounds {min max : Int} (h : (Repetition.bounded min max).Writable) :
    Repeats text (Repetition.bounds min max) (.bounded min max) := by
  obtain ⟨hflaws, hmin, hmax⟩ := h
  constructor
  · intro u
    have hbrace : ∃ rest, Repetition.bounds min max = 0x7B :: rest := by
      unfold Repetition.bounds
      repeat' split
      all_goals exact ⟨_, rfl⟩
    obtain ⟨rest, hrest⟩ := hbrace
    rw [hrest]
    exact .cons (by decide) (by decide)
  · intro u t hg ht
    simp only [Expr.boundsFlaws] at hflaws
    split at hflaws
    · cases hflaws
    next hlarge =>
    by_cases hexact : min = max ∧ min ≠ Repetition.unbounded
    · obtain ⟨rfl, hne⟩ := hexact
      refine reads_exact ?_ hmin hg ht
      simp only [Repetition.unbounded] at hlarge hne
      omega
    · refine reads_range ?_ (by omega) (by omega) hmin hmax hg ht
      by_cases heq : min = max
      · exact .inr (Classical.byContradiction fun hne => hexact ⟨heq, hne⟩)
      · exact .inl heq

private theorem readsItems_repeated {op : Bytes} {kind : Repetition} (h : ReadsOperand text r e)
    (hr : Begins operandStarts r) (hop : Repeats text op kind) :
    ReadsItems text (r ++ op) [.iterate kind e] := by
  refine readsItems_one ((hr.mono (by decide)).append op) ?_
  intro u t hf ht
  obtain ⟨x, hx, hbx⟩ := h (.tight ((hop.starts u).mono (by decide)))
  obtain ⟨y, hy, hs⟩ := hop.reads hf.gap hf.solid
  obtain ⟨v, hv, hbv⟩ := reads_repeated hx hbx hy hs
  rw [List.append_assoc]
  exact ⟨v, reads_item ((hr.append _).startsIn (by decide) : StartsIn operandStarts _) (by decide)
    (by decide) hv, hbv⟩

private theorem readsItems_negation (h : ReadsOperand text r e) (hr : Begins operandStarts r) :
    ReadsItems text ("!" ++ r) [.iterate .not e] := by
  refine readsItems_one ⟨33, r, rfl, by decide, by decide⟩ ?_
  intro u t hf ht
  obtain ⟨x, hx, hbx⟩ := h hf
  obtain ⟨y, hy, hby⟩ := reads_operand hx ht
  exact reads_negation ((hr.append u).startsIn (by decide)) hy (hby.trans hbx)

private theorem readsItems_hidden (h : ReadsOperand text r e) (hr : Begins operandStarts r) :
    ReadsItems text ("~" ++ r) [.hide [e]] := by
  refine readsItems_one ⟨126, r, rfl, by decide, by decide⟩ ?_
  intro u t hf ht
  obtain ⟨x, hx, hbx⟩ := h hf
  obtain ⟨y, hy, hby⟩ := reads_operand hx ht
  exact reads_hidden ((hr.append u).startsIn (by decide)) hy (hby.trans hbx)

private theorem readsItems_iterate
    {kind : Repetition} (hk : kind.Writable) (h : ReadsOperand text r e)
    (hr : Begins operandStarts r) : ReadsItems text (kind.decorate r) [.iterate kind e] := by
  cases kind with
  | zeroOrMore => exact readsItems_repeated h hr (repeats_sign (b := 0x2A) (by decide) (by decide))
  | oneOrMore => exact readsItems_repeated h hr (repeats_sign (b := 0x2B) (by decide) (by decide))
  | optional => exact readsItems_repeated h hr (repeats_sign (b := 0x3F) (by decide) (by decide))
  | not => exact readsItems_negation h hr
  | bounded min max => exact readsItems_repeated h hr (repeats_bounds hk)
  | unknown => exact absurd hk id

/-- An expression that is written as an operand wherever it stands. -/
theorem readable_operand (hw : e.Writable)
    (hitem : e.renderAt .item = e.renderAt .operand) (halone : e.renderAt .alone = e.renderAt .operand)
    (hi : e.flatten.sequenceItems = [e.flatten]) (hc : e.flatten.choiceItems = [e.flatten])
    (h : ReadsOperand text (e.renderAt .operand) e.flatten) : Readable text e := by
  have hitems : ReadsItems text (e.renderAt .item) e.flatten.sequenceItems := by
    rw [hitem, hi]
    exact ReadsOperand.items h (begins_operand hw)
  refine ⟨h, hitems, ?_⟩
  rw [hc, halone, ← hitem, ← Expr.group_sequenceItems hw]
  exact hitems.alternatives

/-- An expression that is put in parentheses to be an operand, and written in one way elsewhere. -/
theorem readable_item (hw : e.Writable)
    (hoperand : e.renderAt .operand = "(" ++ e.renderAt .alone ++ ")")
    (halone : e.renderAt .alone = e.renderAt .item)
    (hc : e.flatten.choiceItems = [e.flatten])
    (h : ReadsItems text (e.renderAt .item) e.flatten.sequenceItems) : Readable text e := by
  have halt : ReadsAlternatives text (e.renderAt .alone) e.flatten.choiceItems := by
    rw [hc, halone, ← Expr.group_sequenceItems hw]
    exact h.alternatives
  refine ⟨?_, h, halt⟩
  rw [hoperand, ← Expr.alternatives_choiceItems hw]
  exact halt.operand (begins_render hw .alone)

/-- What is written is read again. -/
theorem readable (text : Bytes) {e : Expr} (h : e.Writable) : Readable text e := by
  induction h with
  | @literal w hw =>
    have hread : ReadsOperand text _ (.literal (Utf8.repair w)) :=
      fun _ _ hf => reads_primary_literal w hf
    rw [(Utf8.repair_eq_self_iff w).2 hw] at hread
    exact readable_operand (.literal hw) rfl rfl rfl rfl hread
  | @pattern p hp =>
    exact readable_operand (.pattern hp) rfl rfl rfl rfl fun _ _ hf => reads_primary_regex hp hf
  | @rule name hn =>
    exact readable_operand (.rule hn) rfl rfl rfl rfl fun _ _ hf => reads_reference hn hf
  | @sequence items hl h ih =>
    match items, hl with
    | [], hl =>
      refine readable_item (.sequence hl h) rfl rfl rfl ?_
      exact ReadsOperand.items (readsOperand_empty text) ⟨40, _, rfl, by decide, by decide⟩
    | x :: y :: items, hl =>
      refine readable_item (.sequence hl h) rfl rfl rfl ?_
      rw [Expr.sequenceItems_flatten (by simp)]
      exact readsItems_join (by simp) h ih
  | @choice items hl h ih =>
    match items, hl with
    | x :: y :: items, hl =>
      -- a choice is in parentheses wherever it is not alone
      have halone : ReadsAlternatives text ((Expr.choice (x :: y :: items)).renderAt .alone)
          (Expr.choice (x :: y :: items)).flatten.choiceItems :=
        readsAlternatives_join (by simp) h ih
      have hoperand : ReadsOperand text ((Expr.choice (x :: y :: items)).renderAt .operand)
          (Expr.choice (x :: y :: items)).flatten := by
        rw [← Expr.alternatives_choiceItems (.choice hl h)]
        exact halone.operand (begins_render (.choice hl h) .alone)
      have hbegins := begins_operand (.choice hl h)
      exact ⟨hoperand, ReadsOperand.items hoperand hbegins, halone⟩
  | @iterate kind item hk h ih =>
    exact readable_item (.iterate hk h) rfl rfl rfl
      (readsItems_iterate hk ih.operand (begins_operand h))
  | @wrap name item hn h ih =>
    refine readable_operand (.wrap hn h) rfl rfl rfl rfl ?_
    -- the item of a label is written like an item of a sequence, and read as a sequence of its own
    have hflat : (Expr.wrap name [item]).flatten =
        .wrap name [Expr.group item.flatten.sequenceItems] := by
      rw [Expr.group_sequenceItems h]
      rfl
    have hrender : (Expr.wrap name [item]).renderAt .operand =
        name ++ ":(" ++ item.renderAt .item ++ ")" := by
      rw [Expr.renderAt, Expr.renderItems, Expr.renderEach, Bytes.join]
    rw [hflat, hrender]
    exact readsOperand_label hn ih.item (begins_render h .item)
  | @hide item h ih =>
    exact readable_item (.hide h) rfl rfl rfl (readsItems_hidden ih.operand (begins_operand h))

end PegMachine.Notation
