import PegMachine.Proofs.Evaluator.Matches

namespace PegMachine

namespace Value

mutual

/-- The values of a tree, each before its items. -/
def tree : Value → List Value
  | .text content span notes => [.text content span notes]
  | .node name span items notes => .node name span items notes :: forest items

def forest : List Value → List Value
  | [] => []
  | v :: vs => tree v ++ forest vs

end

/-- Each value ends where the next one starts, or before that. -/
def InOrder (vs : List Value) : Prop := vs.Pairwise fun v w => v.span.stop ≤ w.span.start

/-- A piece of text is what its span covers; a node spans its items, which are in order. -/
def Faithful (source : Bytes) : Value → Prop
  | .text content span _ => span.text? source = some content
  | .node _ span items _ => (∀ item ∈ items, span.contains item.span = true) ∧ InOrder items

/-- A value between two offsets, in which every value is faithful and inside of the one around
it. -/
inductive Placed (source : Bytes) : Int → Int → Value → Prop
  | text {start stop : Int} {content : Bytes} {span : Span} {notes : Notes}
      (hstart : start ≤ span.start) (hle : span.start ≤ span.stop) (hstop : span.stop ≤ stop)
      (htext : span.text? source = some content) : Placed source start stop (.text content span notes)
  | node {start stop : Int} {name : Bytes} {span : Span} {items : List Value} {notes : Notes}
      (hstart : start ≤ span.start) (hle : span.start ≤ span.stop) (hstop : span.stop ≤ stop)
      (hitems : ∀ item ∈ items, Placed source span.start span.stop item)
      (horder : InOrder items) : Placed source start stop (.node name span items notes)

theorem mem_forest {w : Value} {vs : List Value} : w ∈ forest vs ↔ ∃ v ∈ vs, w ∈ v.tree := by
  induction vs with
  | nil => simp [forest]
  | cons v vs ih => simp [forest, ih]

namespace Placed

variable {source : Bytes} {start stop start' stop' : Int} {v w : Value}

theorem bounds (h : Placed source start stop v) :
    start ≤ v.span.start ∧ v.span.start ≤ v.span.stop ∧ v.span.stop ≤ stop := by
  cases h with
  | text hstart hle hstop => exact ⟨hstart, hle, hstop⟩
  | node hstart hle hstop => exact ⟨hstart, hle, hstop⟩

theorem mono (h : Placed source start stop v) (hstart : start' ≤ start) (hstop : stop ≤ stop') :
    Placed source start' stop' v := by
  cases h with
  | text h h' h'' htext => exact .text (by omega) h' (by omega) htext
  | node h h' h'' hitems horder => exact .node (by omega) h' (by omega) hitems horder

theorem annotate (h : Placed source start stop v) (key : Bytes) (datum : Payload) :
    Placed source start stop (v.annotate key datum) := by
  cases h with
  | text h h' h'' htext => exact .text h h' h'' htext
  | node h h' h'' hitems horder => exact .node h h' h'' hitems horder

private theorem faithful (h : Placed source start stop v) : v.Faithful source := by
  cases h with
  | text _ _ _ htext => exact htext
  | node _ _ _ hitems horder =>
    refine ⟨fun item hm => ?_, horder⟩
    have hbounds := (hitems item hm).bounds
    simp only [Span.contains, Bool.and_eq_true, decide_eq_true_eq]
    exact ⟨hbounds.1, hbounds.2.2⟩

/-- Every value of a placed tree is placed, for spans only get narrower on the way down. -/
theorem of_mem_tree (h : Placed source start stop v) (hw : w ∈ v.tree) :
    Placed source start stop w := by
  induction h with
  | text h h' h'' htext =>
    obtain rfl := List.mem_singleton.1 hw
    exact .text h h' h'' htext
  | node h h' h'' hitems horder ih =>
    rcases List.mem_cons.1 hw with rfl | hw
    · exact .node h h' h'' hitems horder
    · obtain ⟨item, hm, hw⟩ := mem_forest.1 hw
      exact (ih item hm hw).mono h h''

end Placed

@[simp] theorem span_annotate (key : Bytes) (datum : Payload) (v : Value) :
    (v.annotate key datum).span = v.span := by
  cases v <;> rfl

theorem InOrder.annotate_last {vs : List Value} {v : Value} (h : InOrder (vs ++ [v])) (key : Bytes)
    (datum : Payload) : InOrder (vs ++ [v.annotate key datum]) := by
  obtain ⟨hvs, -, hlast⟩ := List.pairwise_append.1 h
  refine List.pairwise_append.2 ⟨hvs, List.pairwise_singleton _ _, fun w hw w' hw' => ?_⟩
  obtain rfl := List.mem_singleton.1 hw'
  rw [span_annotate]
  exact hlast w hw v (by simp)

/-- Values in order, all of them between two offsets. -/
structure Laid (source : Bytes) (start stop : Int) (vs : List Value) : Prop where
  placed : ∀ v ∈ vs, v.Placed source start stop
  order : InOrder vs

namespace Laid

variable {source : Bytes} {start middle stop : Int} {v : Value} {vs ws : List Value}

theorem nil : Laid source start stop [] := ⟨nofun, .nil⟩

theorem single (h : v.Placed source start stop) : Laid source start stop [v] :=
  ⟨fun _ hw => List.mem_singleton.1 hw ▸ h, List.pairwise_singleton _ _⟩

theorem widen (h : Laid source start middle vs) (hle : middle ≤ stop) :
    Laid source start stop vs :=
  ⟨fun v hv => (h.placed v hv).mono (Int.le_refl _) hle, h.order⟩

/-- Values up to an offset and values from there on do not overlap. -/
theorem append (h : Laid source start middle vs) (h' : Laid source middle stop ws)
    (hstart : start ≤ middle) (hstop : middle ≤ stop) : Laid source start stop (vs ++ ws) where
  placed v hv := by
    rcases List.mem_append.1 hv with hv | hv
    · exact (h.placed v hv).mono (Int.le_refl _) hstop
    · exact (h'.placed v hv).mono hstart (Int.le_refl _)
  order := by
    refine List.pairwise_append.2 ⟨h.order, h'.order, fun v hv w hw => ?_⟩
    have hbefore := (h.placed v hv).bounds
    have hafter := (h'.placed w hw).bounds
    exact Int.le_trans hbefore.2.2 hafter.1

theorem annotate_last (h : Laid source start stop (vs ++ [v])) (key : Bytes) (datum : Payload) :
    Laid source start stop (vs ++ [v.annotate key datum]) where
  placed w hw := by
    rcases List.mem_append.1 hw with hw | hw
    · exact h.placed w (List.mem_append_left _ hw)
    · obtain rfl := List.mem_singleton.1 hw
      exact (h.placed v (by simp)).annotate key datum
  order := h.order.annotate_last key datum

end Laid

end Value

/-- Actions that put no values of their own into the output. -/
def Action.KeepsSpans : Action → Prop
  | .insert _ | .insertText _ | .convert _ | .modify _ | .custom _ => False
  | .note .. | .clear | .throw _ | .log _ | .unknown => True

namespace Input

variable {source : Bytes} {cursor next : Int} {value : Value}

private theorem placed_take {rest : Bytes} (hrest : rest? source cursor = some rest) {n : Nat}
    (hn : n ≤ rest.length) :
    (Value.ofText (rest.take n) ⟨cursor, cursor + n⟩).Placed source cursor (cursor + n) := by
  unfold rest? at hrest
  split at hrest
  · next hbounds =>
    cases hrest
    rw [List.length_drop] at hn
    have hslice : 0 ≤ cursor ∧ cursor ≤ cursor + n ∧ cursor + n ≤ source.length := by omega
    refine .text (Int.le_refl _) hslice.2.1 (Int.le_refl _) ?_
    have hlength : (cursor + n - cursor).toNat = n := by omega
    rw [Span.text?, Bytes.slice?, if_pos hslice, hlength]
  · cases hrest

/-- A leaf that matches gives a value that is where its span says. -/
theorem Reads.placed (h : (Input.text source).Reads cursor next value) :
    value.Placed source cursor next := by
  obtain ⟨rest, n, hrest, hn, rfl, rfl⟩ := h.text
  exact placed_take hrest hn

end Input

namespace Evaluator

open Machine

/-- The output of an activation is laid out between its start and its cursor. -/
theorem invariant_spans (source : Bytes) :
    Invariant (.text source) True Action.KeepsSpans fun s a =>
      s ≤ a.cursor ∧ Value.Laid source s a.cursor a.output.reverse where
  enter _ := ⟨Int.le_refl _, .nil⟩
  fail h := h
  pass h := h
  leaf {s a value next} hreads h := by
    have hvalue := hreads.placed
    have hle : a.cursor ≤ next := by
      have := hvalue.bounds
      omega
    refine ⟨Int.le_trans h.1 hle, ?_⟩
    simpa [Activation.succeed] using h.2.append (.single hvalue) h.1 hle
  join ha hb := by
    refine ⟨Int.le_trans ha.1 hb.1, ?_⟩
    simpa [Activation.succeed] using ha.2.append hb.2 ha.1 hb.1
  wrap {s a b name span} hspan ha hb := by
    cases hspan
    have hnode : (Value.ofItems name ⟨a.cursor, b.cursor⟩ b.output.reverse).Placed source a.cursor
        b.cursor := .node (Int.le_refl _) hb.1 (Int.le_refl _) hb.2.placed hb.2.order
    refine ⟨Int.le_trans ha.1 hb.1, ?_⟩
    simpa [Activation.succeed] using ha.2.append (.single hnode) ha.1 hb.1
  hide _ _ _ _ ha hb := ⟨Int.le_trans ha.1 hb.1, ha.2.widen hb.1⟩
  act {s a b effect furthest furthest'} hallowed hact h := by
    cases effect with
    | note key datum =>
      simp only [Evaluator.act] at hact
      cases hout : a.output with
      | nil =>
        rw [hout] at hact
        cases hact
        exact h
      | cons last output =>
        rw [hout] at hact h
        cases hact
        rw [List.reverse_cons] at h ⊢
        exact ⟨h.1, h.2.annotate_last key datum⟩
    | clear =>
      cases hact
      exact ⟨h.1, .nil⟩
    | throw datum => cases hact
    | log args =>
      cases hact
      exact h
    | unknown => cases hact
    | insert | insertText | convert | modify | custom => exact hallowed.elim

end Evaluator

namespace Machine

/-- The values of a match in a text tell where they come from: every piece of text is what its span
covers, nodes span their items, values follow one another, and all of them lie before the cursor. -/
theorem match_spans (family : Family) (host : Host) (config : Config) (id : Nat) (source : Bytes)
    {vs : List Value} {cursor : Int}
    (hactions : ∀ inner, family.Embeds id inner → ∀ rule ∈ (family.grammarAt inner).rules,
      ∀ a, .action a ∈ rule.2.parts → a.KeepsSpans)
    (h : MatchEnds family host config id (.text source) (.values vs cursor)) :
    (∀ v ∈ Value.forest vs, v.Faithful source ∧ 0 ≤ v.span.start ∧ v.span.start ≤ v.span.stop ∧
      v.span.stop ≤ cursor) ∧ Value.InOrder vs := by
  have hfree : family.CustomFree id :=
    fun inner hi rule hr custom hm => hactions inner hi rule hr (.custom custom) hm
  obtain ⟨b, furthest, heval, -, rfl, rfl⟩ := Evaluator.evaluates_of_values hfree h
  have hrules : Evaluator.AdmittedRules family (family.Embeds id) True Action.KeepsSpans :=
    Evaluator.admittedRules_embeds (fun _ _ _ _ _ _ => trivial) hactions
  have hlaid := (Evaluator.invariant_spans source).evaluates hrules heval .refl (.rule _) _ _
    rfl _ ⟨Int.le_refl 0, Value.Laid.nil⟩
  refine ⟨fun w hw => ?_, hlaid.2.order⟩
  obtain ⟨v, hv, hw⟩ := Value.mem_forest.1 hw
  have hplaced := (hlaid.2.placed v hv).of_mem_tree hw
  exact ⟨hplaced.faithful, hplaced.bounds⟩

/-- Lists of words in brackets: brackets are hidden, gaps are cleared and a list in a list is a run of
its own. -/
def bracketed : Family :=
  [.ofRules [("main", .wrap "list" [.hide [.literal "["],
    .iterate .zeroOrMore (.choice [.embed (some 0) "main",
      .wrap "word" [.literal "w", .action (.note "seen" .nil)],
      .wrap "gap" [.literal " ", .action .clear]]), .hide [.literal "]"]])]]

/-- The inner list lies between the brackets of the outer one, which no value covers. -/
theorem match_spans_bracketed :
    (∀ inner, ∀ rule ∈ (bracketed.grammarAt inner).rules, ∀ a, .action a ∈ rule.2.parts →
      a.KeepsSpans) ∧
    ∃ vs, MatchEnds bracketed Host.idle {} 0 (.text "[w [w]]")
      (.values vs 7) ∧ (∀ v ∈ Value.forest vs, v.Faithful "[w [w]]") ∧ Value.InOrder vs := by
  have hactions : ∀ inner, ∀ rule ∈ (bracketed.grammarAt inner).rules, ∀ a,
      .action a ∈ rule.2.parts → a.KeepsSpans := by
    intro inner rule hr a hm
    match inner with
    | 0 =>
      obtain rfl := List.mem_singleton.1 hr
      have hboth : a = .note "seen" .nil ∨ a = .clear := by
        simpa [Expr.parts, Expr.visit, Expr.visitAll] using hm
      obtain rfl | rfl := hboth <;> trivial
    | inner + 1 => cases hr
  have hends : ∃ vs, MatchEnds bracketed Host.idle {} 0
      (.text "[w [w]]") (.values vs 7) := ⟨_, 110, _, rfl, rfl⟩
  obtain ⟨vs, hvs⟩ := hends
  have hspans := match_spans bracketed Host.idle {} 0 "[w [w]]"
    (fun inner _ => hactions inner) hvs
  exact ⟨hactions, vs, hvs, fun v hv => (hspans.1 v hv).1, hspans.2⟩

end Machine

end PegMachine
