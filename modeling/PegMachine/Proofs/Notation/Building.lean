import PegMachine.Proofs.Notation.Phrases

namespace PegMachine.Notation

/-- The errors that tell of a flaw in the text: a literal with an escape that stands for nothing, a
bound that is too large, and bounds without a number. -/
inductive BuildError.IsFlaw : BuildError → Prop
  | literal {text : Bytes} (h : 2 ≤ text.length)
    (hu : Quoted.unquote? (text.headD 0) (text.drop 1).dropLast = none) :
    IsFlaw (.invalidLiteral text)
  | bound {text : Bytes} (hd : ∀ b ∈ text, Ascii.isDigit b = true)
    (hr : Decimal.read text = .error (.outOfRange text)) :
    IsFlaw (.invalidBound text (.outOfRange text))
  | bounds : IsFlaw .emptyBounds

/-- The builder gives something, or it names a flaw. -/
def Understood {α : Type} (r : Except BuildError α) : Prop := ∀ e, r = .error e → e.IsFlaw

namespace Understood

variable {α β : Type}

theorem ok (a : α) : Understood (.ok a) := nofun

theorem bind {r : Except BuildError α} {f : α → Except BuildError β} (h : Understood r)
    (hf : ∀ a, Understood (f a)) : Understood (r.bind f) := by
  cases r with
  | error e =>
    intro e' he
    cases he
    exact h e rfl
  | ok a => exact hf a

theorem foldlM {f : β → α → Except BuildError β} {items : List α}
    (h : ∀ item ∈ items, ∀ b, Understood (f b item)) (b : β) : Understood (items.foldlM f b) := by
  induction items generalizing b with
  | nil => exact .ok b
  | cons item items ih =>
    obtain ⟨hitem, hitems⟩ := List.forall_mem_cons.1 h
    rw [List.foldlM_cons]
    exact (hitem b).bind (ih hitems)

end Understood

variable {span : Span} {v item : Value} {items : List Value} {w : Bytes}

theorem inside_of_two_le (h : 2 ≤ w.length) : inside w = .ok (w.drop 1).dropLast :=
  if_neg (Nat.not_lt.2 h)

theorem understood_buildAll (h : ∀ v ∈ items, Understood (build v)) :
    Understood (buildAll items) := by
  induction items with
  | nil => exact .ok []
  | cons item items ih =>
    obtain ⟨hitem, hitems⟩ := List.forall_mem_cons.1 h
    have hb : buildAll (item :: items) =
        (build item).bind fun e => (buildAll items).bind fun es => .ok (e :: es) := rfl
    rw [hb]
    exact hitem.bind fun e => (ih hitems).bind fun es => .ok (e :: es)

theorem understood_choice (h : ∀ v ∈ items, Understood (build v)) :
    Understood (build (Value.ofItems "Choice" span items)) := by
  rw [Value.ofItems, build.eq_def]
  simp only [if_true]
  refine (understood_buildAll h).bind fun es => ?_
  split <;> exact .ok _

theorem understood_sequence (h : ∀ v ∈ items, Understood (build v)) :
    Understood (build (Value.ofItems "Sequence" span items)) := by
  have hname : ("Sequence" : Bytes) ≠ "Choice" := by decide
  rw [Value.ofItems, build.eq_def]
  simp only [hname, if_false, if_true]
  refine (understood_buildAll h).bind fun es => ?_
  split <;> exact .ok _

theorem understood_not (h : Understood (build item)) :
    Understood (build (Value.ofItems "Not" span [item])) := by
  have hb : build (Value.ofItems "Not" span [item]) =
      (build item).bind fun e => .ok (Expr.not [e]) := rfl
  rw [hb]
  exact h.bind fun e => .ok _

theorem understood_hide (h : Understood (build item)) :
    Understood (build (Value.ofItems "Hide" span [item])) := by
  have hb : build (Value.ofItems "Hide" span [item]) =
      (build item).bind fun e => .ok (.hide [e]) := rfl
  rw [hb]
  exact h.bind fun e => .ok _

theorem understood_plain (h : Understood (build item)) :
    Understood (build (Value.ofItems "Suffix" span [item])) := h

theorem understood_repeated {op : Value} (h : Understood (build item))
    (hop : Understood (suffix op)) :
    Understood (build (Value.ofItems "Suffix" span [item, op])) := by
  have hb : build (Value.ofItems "Suffix" span [item, op]) =
      (build item).bind fun e => (suffix op).bind fun kind => .ok (.iterate kind e) := rfl
  rw [hb]
  exact h.bind fun e => hop.bind fun kind => .ok _

theorem understood_label (label : Value) (h : Understood (build item)) :
    Understood (build (Value.ofItems "Label" span [label, item])) := by
  have hb : build (Value.ofItems "Label" span [label, item]) =
      (build item).bind fun e => .ok (.wrap label.content [e]) := rfl
  rw [hb]
  exact h.bind fun e => .ok _

theorem understood_identifier (h : IsToken "Identifier" w v) : Understood (build v) := by
  rw [build_identifier h]
  exact .ok _

theorem understood_class (h : IsToken "Class" w v) : Understood (build v) := by
  obtain ⟨span, inner, rfl⟩ := h
  exact .ok _

theorem understood_any (h : IsToken "Any" w v) : Understood (build v) := by
  obtain ⟨span, inner, rfl⟩ := h
  exact .ok _

theorem understood_literal (h : IsToken "Literal" w v) (hw : 2 ≤ w.length) :
    Understood (build v) := by
  have hc := h.content_eq
  obtain ⟨span, inner, rfl⟩ := h
  have hb : build (Value.ofItems "Literal" span [Value.ofText w inner]) =
      literal (Value.ofItems "Literal" span [Value.ofText w inner]).content := rfl
  intro e he
  rw [hb, hc, literal, inside_of_two_le hw] at he
  simp only [bind, Except.bind] at he
  cases hu : Quoted.unquote? (w.headD 0) (w.drop 1).dropLast with
  | none =>
    rw [hu] at he
    cases he
    exact .literal hw hu
  | some body =>
    rw [hu] at he
    cases he

theorem understood_regex (h : IsToken "Regex" w v) (hw : 2 ≤ w.length) : Understood (build v) := by
  have hc := h.content_eq
  obtain ⟨span, inner, rfl⟩ := h
  have hb : build (Value.ofItems "Regex" span [Value.ofText w inner]) =
      (inside (Value.ofItems "Regex" span [Value.ofText w inner]).content).bind
        fun source => .ok (.pattern (Pattern.ofSource source)) := rfl
  rw [hb, hc, inside_of_two_le hw]
  exact .ok _

theorem understood_sign (h : IsToken "Op" w v) : Understood (suffix v) := by
  rw [suffix_sign h]
  exact .ok _

/-- Digits are a bound, or they are too many. -/
theorem understood_numeral {name : Bytes} (h : IsToken name w v) (hname : name ≠ "Comma")
    (hne : w ≠ []) (hd : ∀ b ∈ w, Ascii.isDigit b = true) (b : Bounds) : Understood (b.add v) := by
  cases hr : Decimal.read w with
  | ok n =>
    rw [add_numeral h hname hr]
    exact .ok _
  | error refusal =>
    obtain rfl := Decimal.outOfRange_of_digits hne hd hr
    have hc := h.content_eq
    obtain ⟨span, inner, rfl⟩ := h
    intro e he
    simp only [Value.ofItems] at hc
    simp only [Value.ofItems, Bounds.add, hname, if_false, hc, hr] at he
    cases he
    exact .bound hd hr

theorem understood_comma (h : IsToken "Comma" w v) (b : Bounds) : Understood (b.add v) := by
  rw [add_comma b h]
  exact .ok _

theorem understood_bounds (h : ∀ v ∈ items, ∀ b : Bounds, Understood (b.add v)) :
    Understood (suffix (Value.ofItems "Bounds" span items)) := by
  have hb : suffix (Value.ofItems "Bounds" span items) =
      (items.foldlM Bounds.add {}).bind Bounds.repetition := rfl
  rw [hb]
  refine (Understood.foldlM h {}).bind ?_
  intro b e he
  unfold Bounds.repetition at he
  split at he
  · cases he
  · split at he <;> cases he
    exact .bounds

end PegMachine.Notation
