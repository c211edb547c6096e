import PegMachine.Value.Path
import PegMachine.Proofs.Outline
import PegMachine.Proofs.Notation.Writable
import PegMachine.Proofs.Text.Decimal
import PegMachine.Proofs.Text.DoubleQuoted

namespace PegMachine

open Notation

namespace Span

theorem not_mem_render {b : UInt8} (hdigit : Ascii.isDigit b = false) (hhyphen : b ≠ Ascii.hyphen)
    (hdot : b ≠ Ascii.dot) (s : Span) : b ∉ s.render := by
  have hnumeral (n : Int) : b ∉ Bytes.ofInt n := by
    intro hb
    rcases Bytes.isDigit_of_mem_ofInt b hb with h | h
    · exact hhyphen h
    · cases hdigit.symm.trans h
  have hdots : b ∉ Bytes.ofString ".." := by
    change b ∉ [Ascii.dot, Ascii.dot]
    simp [hdot]
  unfold render
  split
  · exact hnumeral _
  · simp only [List.mem_append, not_or]
    exact ⟨⟨hnumeral _, hdots⟩, hnumeral _⟩

/-- Spans that are written the same are the same. -/
theorem render_injective : Function.Injective render := by
  have hdot (n : Int) : Ascii.dot ∉ Bytes.ofInt n := by
    intro hb
    rcases Bytes.isDigit_of_mem_ofInt _ hb with h | h <;> exact absurd h (by decide)
  have hdots (a b : Int) : Bytes.ofInt a ++ ".." ++ Bytes.ofInt b =
      Bytes.ofInt a ++ Ascii.dot :: Ascii.dot :: Bytes.ofInt b := List.append_assoc _ _ _
  have hapart (n a b : Int) : Bytes.ofInt n ≠ Bytes.ofInt a ++ ".." ++ Bytes.ofInt b := by
    intro h
    rw [hdots] at h
    exact hdot n (h ▸ by simp)
  rintro ⟨a, b⟩ ⟨c, d⟩ h
  unfold render at h
  split at h <;> split at h
  · next hab hcd =>
    obtain rfl : a = b := hab
    obtain rfl : c = d := hcd
    obtain rfl := Bytes.ofInt_injective h
    rfl
  · exact absurd h (hapart a c d)
  · exact absurd h.symm (hapart c a b)
  · rw [hdots, hdots] at h
    obtain ⟨hstart, hstop⟩ := eq_of_append_first_eq (hdot a) (hdot c) h
    obtain rfl := Bytes.ofInt_injective hstart
    obtain rfl := Bytes.ofInt_injective (List.cons.inj hstop).2
    rfl

end Span

namespace Value

/-- Values without notes, with an identifier for the name of every node. -/
inductive Plain : Value → Prop where
  | text {content : Bytes} {span : Span} : Plain (.text content span [])
  | node {name : Bytes} {span : Span} {items : List Value} (hn : isIdentifier name = true)
    (h : ∀ v ∈ items, Plain v) : Plain (.node name span items [])

/-- What the line of a value begins with. -/
def title : Value → Bytes
  | .text content _ _ => Quoted.quote content
  | .node name _ _ _ => name

/-- The lines of a drawn value. -/
def drawn (v : Value) : List Bytes := v.outline.lines fun _ text => text

/-- The lines of values that are drawn as the items of a node. -/
def drawnBelow (vs : List Value) : List Bytes :=
  Outline.linesBelow (fun _ text => text) (vs.map outline)

private theorem outlines_eq_map (vs : List Value) : outlines vs = vs.map outline := by
  induction vs with
  | nil => rfl
  | cons v vs ih => rw [outlines, ih, List.map_cons]

private theorem pretty_eq_join (vs : List Value) :
    pretty vs = Bytes.join Bytes.newline (vs.flatMap drawn) := by
  have hne : ∀ group ∈ vs.map drawn, group ≠ [] := by
    intro group hgroup
    obtain ⟨v, -, rfl⟩ := List.mem_map.1 hgroup
    obtain ⟨first, below, hlines⟩ := Outline.exists_lines (fun _ text => text) v.outline
    rw [drawn, hlines]
    exact List.cons_ne_nil _ _
  rw [List.flatMap_def, ← Bytes.join_map_join _ hne, List.map_map]
  rfl

namespace Plain

variable {v w : Value}

/-- What a plain value has if all its items have it, all plain values have. -/
@[elab_as_elim] theorem induct {motive : Value → Prop}
    (h : ∀ v : Value, v.Plain → (∀ item ∈ v.items, motive item) → motive v) (hv : v.Plain) :
    motive v := by
  induction hv with
  | text => exact h _ .text nofun
  | node hn hitems ih => exact h _ (.node hn hitems) ih

private theorem of_mem_items (h : v.Plain) : ∀ item ∈ v.items, item.Plain := by
  cases h with
  | text => nofun
  | node _ hitems => exact hitems

/-- The title tells text from nodes, and one text or name from another. -/
theorem ext (hv : v.Plain) (hw : w.Plain) (htitle : v.title = w.title) (hspan : v.span = w.span)
    (hitems : v.items = w.items) : v = w := by
  have hquote (content : Bytes) : isIdentifier (Quoted.quote content) = false := rfl
  cases hv with
  | @text content =>
    cases hw with
    | text =>
      obtain rfl := Quoted.quote_injective htitle
      obtain rfl := hspan
      rfl
    | node hn =>
      have hname := (congrArg isIdentifier htitle).trans hn
      cases (hquote content).symm.trans hname
  | node hn =>
    cases hw with
    | @text content =>
      have hname := (congrArg isIdentifier htitle).symm.trans hn
      cases (hquote content).symm.trans hname
    | node =>
      obtain rfl := htitle
      obtain rfl := hspan
      obtain rfl := hitems
      rfl

/-- A title begins with a quote or with the first byte of a name, and has no newline. -/
theorem exists_title_eq (h : v.Plain) : ∃ b rest, v.title = b :: rest ∧ b ≠ 0xE2 ∧ b ≠ Ascii.blank ∧
    Ascii.newline ∉ v.title := by
  cases h with
  | text => exact ⟨_, _, rfl, by decide, by decide, Quoted.newline_not_mem_quote _⟩
  | @node name _ _ hn =>
    cases name with
    | nil => cases hn
    | cons b rest =>
      simp only [isIdentifier, Bool.and_eq_true, List.all_eq_true] at hn
      have hword {x : UInt8} (hx : Ascii.isWord x = false) : x ∉ b :: rest := by
        intro hmem
        cases hx.symm.trans (hn.2 x hmem)
      have hfirst {x : UInt8} (hx : Ascii.isWord x = false) : b ≠ x := by
        rintro rfl
        exact hword hx List.mem_cons_self
      exact ⟨b, rest, rfl, hfirst (by decide), hfirst (by decide), hword (by decide)⟩

/-- The first line of a plain value has its title and its span, and its items hang below. -/
theorem drawn_eq (h : v.Plain) :
    v.drawn = (v.title ++ (" (" ++ v.span.render ++ ")")) :: drawnBelow v.items := by
  cases h <;> simp [drawn, drawnBelow, title, items, span, outline, outlines_eq_map, trailer,
    Outline.lines, Outline.linesBelow]

private theorem isLine_of_mem_drawn (h : v.Plain) : ∀ line ∈ v.drawn, Bytes.IsLine line := by
  refine Plain.induct (fun v hv ih => ?_) h
  obtain ⟨b, rest, htitle, -, -, hnewline⟩ := hv.exists_title_eq
  have hspan : Ascii.newline ∉ v.span.render :=
    Span.not_mem_render (by decide) (by decide) (by decide) _
  have hopen : Ascii.newline ∉ Bytes.ofString " (" := by decide
  have hclose : Ascii.newline ∉ Bytes.ofString ")" := by decide
  rw [hv.drawn_eq, List.forall_mem_cons]
  refine ⟨⟨by simp [htitle], by simp [hnewline, hspan, hopen, hclose]⟩, ?_⟩
  refine Outline.isLine_of_mem_linesBelow fun child hchild => ?_
  obtain ⟨item, hitem, rfl⟩ := List.mem_map.1 hchild
  exact ih item hitem

/-- From the lines of a value, its title, its span and the lines of its items can be told. -/
theorem parts_eq_of_drawn_eq (hv : v.Plain) (hw : w.Plain) (h : v.drawn = w.drawn) :
    v.title = w.title ∧ v.span = w.span ∧ drawnBelow v.items = drawnBelow w.items := by
  rw [hv.drawn_eq, hw.drawn_eq] at h
  obtain ⟨hfirst, hbelow⟩ := List.cons.inj h
  -- the text may hold any number of blanks, but the last one of the line is in front of the span
  have hblank (s : Span) : Ascii.blank ∉ Ascii.code '(' :: (s.render ++ ")") := by
    have hspan : Ascii.blank ∉ s.render :=
      Span.not_mem_render (by decide) (by decide) (by decide) _
    have hclose : Ascii.blank ∉ Bytes.ofString ")" := by decide
    have hopen : Ascii.blank ≠ Ascii.code '(' := by decide
    simp [hspan, hclose, hopen]
  obtain ⟨htitle, hspan⟩ := eq_of_append_last_eq (hblank v.span) (hblank w.span) hfirst
  have hrender := List.append_cancel_right (List.cons.inj hspan).2
  exact ⟨htitle, Span.render_injective hrender, hbelow⟩

end Plain

/-- Items that are told apart by their lines are told apart by them below a node, too. -/
theorem eq_of_drawnBelow_eq {vs ws : List Value}
    (hv : ∀ v ∈ vs, ∀ w : Value, w.Plain → v.drawn = w.drawn → v = w) (hw : ∀ w ∈ ws, w.Plain)
    (h : drawnBelow vs = drawnBelow ws) : vs = ws := by
  induction vs generalizing ws with
  | nil =>
    cases ws with
    | nil => rfl
    | cons w ws => exact absurd h.symm Outline.linesBelow_ne_nil
  | cons v vs ih =>
    cases ws with
    | nil => exact absurd h Outline.linesBelow_ne_nil
    | cons w ws =>
      obtain ⟨hfirst, hrest⟩ := Outline.linesBelow_cons_inj h
      obtain ⟨hv, hvs⟩ := List.forall_mem_cons.1 hv
      obtain ⟨hw, hws⟩ := List.forall_mem_cons.1 hw
      obtain rfl := hv w hw hfirst
      obtain rfl := ih hvs hws hrest
      rfl

/-- A value is determined by its lines. -/
theorem Plain.eq_of_drawn_eq {v : Value} (hv : v.Plain) :
    ∀ w : Value, w.Plain → v.drawn = w.drawn → v = w := by
  refine Plain.induct (fun v hv ih w hw h => ?_) hv
  obtain ⟨htitle, hspan, hbelow⟩ := hv.parts_eq_of_drawn_eq hw h
  exact hv.ext hw htitle hspan (eq_of_drawnBelow_eq ih hw.of_mem_items hbelow)

/-- Values drawn one below the other do not begin on a line inside of another value. -/
theorem isHung_head_drawn {vs : List Value} (h : ∀ v ∈ vs, v.Plain) :
    ∀ line ∈ (vs.flatMap drawn).head?, Outline.isHung line = false := by
  intro line hline
  cases vs with
  | nil => cases hline
  | cons v vs =>
    have hv := h v List.mem_cons_self
    obtain ⟨b, rest, htitle, hglyph, hblank, -⟩ := hv.exists_title_eq
    rw [List.flatMap_cons, hv.drawn_eq, htitle] at hline
    cases hline
    exact Outline.isHung_cons hglyph hblank _

/-- Values drawn one below the other are determined by their lines. -/
theorem eq_of_flatMap_drawn_eq {vs ws : List Value} (hv : ∀ v ∈ vs, v.Plain)
    (hw : ∀ w ∈ ws, w.Plain) (h : vs.flatMap drawn = ws.flatMap drawn) : vs = ws := by
  induction vs generalizing ws with
  | nil =>
    cases ws with
    | nil => rfl
    | cons w ws =>
      rw [List.flatMap_cons, (hw w List.mem_cons_self).drawn_eq] at h
      cases h
  | cons v vs ih =>
    cases ws with
    | nil =>
      rw [List.flatMap_cons, (hv v List.mem_cons_self).drawn_eq] at h
      cases h
    | cons w ws =>
      obtain ⟨hv, hvs⟩ := List.forall_mem_cons.1 hv
      obtain ⟨hw, hws⟩ := List.forall_mem_cons.1 hw
      obtain ⟨hfirst, hrest⟩ := Outline.lines_append_inj (isHung_head_drawn hvs)
        (isHung_head_drawn hws) h
      obtain rfl := hv.eq_of_drawn_eq w hw hfirst
      obtain rfl := ih hvs hws hrest
      rfl

/-- Values that are drawn alike are the same: they have the same shape, names, texts and spans. -/
theorem eq_of_pretty_eq {vs ws : List Value} (hvs : ∀ v ∈ vs, v.Plain) (hws : ∀ w ∈ ws, w.Plain)
    (h : pretty vs = pretty ws) : vs = ws := by
  have hlines {vs : List Value} (hvs : ∀ v ∈ vs, v.Plain) :
      ∀ line ∈ vs.flatMap drawn, Bytes.IsLine line := by
    intro line hline
    obtain ⟨v, hv, hline⟩ := List.mem_flatMap.1 hline
    exact (hvs v hv).isLine_of_mem_drawn line hline
  rw [pretty_eq_join, pretty_eq_join] at h
  exact eq_of_flatMap_drawn_eq hvs hws (Bytes.eq_of_join_eq (hlines hvs) (hlines hws) h)

/-- A list in a list, below a text that looks as if it were two lines of its own. -/
def nested (last : Bytes) : List Value :=
  [.text "a\" (1)\n\"b" ⟨0, 9⟩ [],
    .node "list" ⟨9, 12⟩ [
      .node "pair" ⟨9, 11⟩ [.text "c" ⟨9, 10⟩ [], .node "_" ⟨-1, -1⟩ [] []] [],
      .text last ⟨11, 12⟩ []] []]

/-- The list with its last item put in afterwards. -/
def completed : List Value := (updateAt? (fun _ => .ofText "d" ⟨11, 12⟩) (nested "") [1, 1]).getD []

theorem eq_of_pretty_eq_nested :
    (∀ v ∈ nested "d", v.Plain) ∧ (∀ w ∈ completed, w.Plain) ∧
      pretty (nested "d") = pretty completed ∧ nested "d" = completed := by
  have hplain (last : Bytes) : ∀ v ∈ nested last, v.Plain := by
    have hpair : ∀ item ∈ [Value.text "c" ⟨9, 10⟩ [], .node "_" ⟨-1, -1⟩ [] []], item.Plain :=
      List.forall_mem_cons.2 ⟨.text, List.forall_mem_singleton.2 (.node rfl nofun)⟩
    have hlist : ∀ item ∈ [Value.node "pair" ⟨9, 11⟩ [.text "c" ⟨9, 10⟩ [],
        .node "_" ⟨-1, -1⟩ [] []] [], .text last ⟨11, 12⟩ []], item.Plain :=
      List.forall_mem_cons.2 ⟨.node rfl hpair, List.forall_mem_singleton.2 .text⟩
    exact List.forall_mem_cons.2 ⟨.text, List.forall_mem_singleton.2 (.node rfl hlist)⟩
  have hcompleted : ∀ w ∈ completed, w.Plain := hplain "d"
  have hpretty : pretty (nested "d") = pretty completed := rfl
  exact ⟨hplain "d", hcompleted, hpretty, eq_of_pretty_eq (hplain "d") hcompleted hpretty⟩

/-- A name that is no identifier can look like two values. -/
example : pretty [.node "a (0)\nb" ⟨1, 1⟩ [] []] =
    pretty [.node "a" ⟨0, 0⟩ [] [], .node "b" ⟨1, 1⟩ [] []] := by
  decide

end Value

end PegMachine
