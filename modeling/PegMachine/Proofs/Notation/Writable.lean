import PegMachine.Proofs.Grammar.Defined
import PegMachine.Proofs.Text.Utf8
import PegMachine.Text.Decimal

namespace PegMachine

namespace Expr

/-- What an expression adds to a sequence in which it is written. -/
def sequenceItems : Expr → List Expr
  | .sequence (item :: items) => item :: items
  | e => [e]

/-- What an expression adds to a choice in which it is written. -/
def choiceItems : Expr → List Expr
  | .choice items => items
  | e => [e]

mutual

/-- The expression with sequences that are not empty taken apart inside of sequences, and choices
inside of choices. -/
def flatten : Expr → Expr
  | .sequence items => .sequence ((flattenEach items).flatMap sequenceItems)
  | .choice items => .choice ((flattenEach items).flatMap choiceItems)
  | .iterate kind item => .iterate kind (flatten item)
  | .wrap name items => .wrap name (flattenEach items)
  | .hide items => .hide (flattenEach items)
  | e => e

def flattenEach : List Expr → List Expr
  | [] => []
  | item :: items => flatten item :: flattenEach items

end

end Expr

namespace Notation

/-- Letters, digits and underscores, with no digit in front. -/
def isIdentifier : Bytes → Bool
  | [] => false
  | b :: rest => !Ascii.isDigit b && (b :: rest).all Ascii.isWord

def backtick : UInt8 := 0x60

end Notation

open Notation

/-- The repetitions of the notation. Bounds are words and fit together. -/
def Repetition.Writable : Repetition → Prop
  | .bounded min max =>
    Expr.boundsFlaws min max = [] ∧ min < Decimal.halfWords ∧ max < Decimal.halfWords
  | .unknown .. => False
  | _ => True

/-- The expressions of the notation. -/
inductive Expr.Writable : Expr → Prop where
  | literal {w : Bytes} (hw : Utf8.isWellFormed w = true) : Writable (.literal w)
  | pattern {p : Pattern} (hp : backtick ∉ p.source) : Writable (.pattern p)
  | rule {name : Bytes} (hn : isIdentifier name = true) : Writable (.rule name)
  | sequence {items : List Expr} (hl : items.length ≠ 1) (h : ∀ item ∈ items, Writable item) :
    Writable (.sequence items)
  | choice {items : List Expr} (hl : 2 ≤ items.length) (h : ∀ item ∈ items, Writable item) :
    Writable (.choice items)
  | iterate {kind : Repetition} {item : Expr} (hk : kind.Writable) (h : Writable item) :
    Writable (.iterate kind item)
  | wrap {name : Bytes} {item : Expr} (hn : isIdentifier name = true) (h : Writable item) :
    Writable (.wrap name [item])
  | hide {item : Expr} (h : Writable item) : Writable (.hide [item])

namespace Expr

def alternatives : List Expr → Expr
  | [item] => item
  | items => .choice items

private theorem group_of_two {items : List Expr} (h : items.length ≠ 1) :
    group items = .sequence items := by
  match items, h with
  | [], _ => rfl
  | _ :: _ :: _, _ => rfl

private theorem alternatives_of_two {items : List Expr} (h : items.length ≠ 1) :
    alternatives items = .choice items := by
  match items, h with
  | [], _ => rfl
  | _ :: _ :: _, _ => rfl

private theorem mem_flattenEach {e : Expr} {items : List Expr} :
    e ∈ flattenEach items ↔ ∃ item ∈ items, item.flatten = e := by
  induction items with
  | nil => simp [flattenEach]
  | cons item items ih => simp [flattenEach, ih, eq_comm]

theorem sequenceItems_pos (e : Expr) : 1 ≤ e.sequenceItems.length := by
  unfold sequenceItems
  split <;> simp

theorem le_length_flatMap {items : List Expr} {parts : Expr → List Expr}
    (h : ∀ item ∈ items, 1 ≤ (parts item.flatten).length) :
    items.length ≤ ((flattenEach items).flatMap parts).length := by
  induction items with
  | nil => simp
  | cons item items ih =>
    have hitem := h item (by simp)
    have hitems := ih fun e he => h e (by simp [he])
    simp only [flattenEach, List.flatMap_cons, List.length_append, List.length_cons]
    omega

private theorem choiceItems_pos {e : Expr} (h : e.Writable) : 1 ≤ e.flatten.choiceItems.length := by
  induction h with
  | choice hl _ ih =>
    have hle := le_length_flatMap ih
    simp only [flatten, choiceItems]
    omega
  | literal | pattern | rule | sequence | iterate | wrap | hide => exact Nat.le_refl 1

/-- A sequence that is not empty adds its flattened items to a sequence around it. -/
theorem sequenceItems_flatten {items : List Expr} (h : items ≠ []) :
    (Expr.sequence items).flatten.sequenceItems = (flattenEach items).flatMap sequenceItems := by
  have hle := le_length_flatMap fun item (_ : item ∈ items) => sequenceItems_pos item.flatten
  have hpos := List.length_pos_iff.2 h
  rw [flatten]
  cases hs : (flattenEach items).flatMap sequenceItems with
  | nil =>
    rw [hs, List.length_nil] at hle
    omega
  | cons first rest => rfl

theorem group_sequenceItems {e : Expr} (h : e.Writable) :
    group e.flatten.sequenceItems = e.flatten := by
  cases h with
  | @sequence items hl h =>
    cases items with
    | nil => rfl
    | cons item items =>
      have hle := le_length_flatMap fun e (_ : e ∈ item :: items) => sequenceItems_pos e.flatten
      rw [sequenceItems_flatten (by simp), group_of_two (by simp only [List.length_cons] at *; omega)]
      rfl
  | literal | pattern | rule | choice | iterate | wrap | hide => rfl

theorem alternatives_choiceItems {e : Expr} (h : e.Writable) :
    alternatives e.flatten.choiceItems = e.flatten := by
  cases h with
  | @choice items hl h =>
    have hle := le_length_flatMap fun item hi => choiceItems_pos (h item hi)
    simp only [flatten, choiceItems]
    exact alternatives_of_two (by omega)
  | literal | pattern | rule | sequence | iterate | wrap | hide => rfl

private theorem flaws_of_items
    {items : List Expr} {flaw : Flaw} (h : ∀ item ∈ items, item.Flawless) :
    (if items.any isMissing then [flaw] else flawsAll items) = [] := by
  have hno : items.any isMissing = false := by
    rw [List.any_eq_false]
    intro item hi
    rw [(h item hi).present]
    decide
  rw [hno, if_neg (by decide)]
  induction items with
  | nil => rfl
  | cons item items ih =>
    rw [flawsAll, (h item (by simp)).flaws_eq, List.nil_append]
    rw [List.any_cons, Bool.or_eq_false_iff] at hno
    exact ih (fun e he => h e (by simp [he])) hno.2

theorem Flawless.sequenceItems {e : Expr} (h : e.Flawless) :
    ∀ item ∈ e.sequenceItems, item.Flawless := by
  intro item hi
  unfold Expr.sequenceItems at hi
  split at hi
  · exact h.child hi
  · exact List.mem_singleton.1 hi ▸ h

theorem Flawless.choiceItems {e : Expr} (h : e.Flawless) :
    ∀ item ∈ e.choiceItems, item.Flawless := by
  intro item hi
  unfold Expr.choiceItems at hi
  split at hi
  · exact h.child hi
  · exact List.mem_singleton.1 hi ▸ h

private theorem flawless_parts {items : List Expr} {parts : Expr → List Expr}
    (hp : ∀ {e : Expr}, e.Flawless → ∀ part ∈ parts e, part.Flawless)
    (h : ∀ item ∈ items, item.flatten.Flawless) :
    ∀ part ∈ (flattenEach items).flatMap parts, part.Flawless := by
  intro part hpart
  obtain ⟨e, he, hpe⟩ := List.mem_flatMap.1 hpart
  obtain ⟨item, hi, rfl⟩ := mem_flattenEach.1 he
  exact hp (h item hi) part hpe

theorem Flawless.flatten {e : Expr} (hw : e.Writable) (h : e.Flawless) : e.flatten.Flawless := by
  induction hw with
  | literal | pattern | rule => exact h
  | sequence hl _ ih =>
    have hitems := flawless_parts Flawless.sequenceItems fun item hi => ih item hi (h.child hi)
    exact ⟨rfl, flaws_of_items hitems⟩
  | choice hl _ ih =>
    have hitems := flawless_parts Flawless.choiceItems fun item hi => ih item hi (h.child hi)
    exact ⟨rfl, flaws_of_items hitems⟩
  | @iterate kind item hk _ ih =>
    have hchild : item.Flawless := h.child (by simp [children])
    have hitem := ih hchild
    refine ⟨rfl, ?_⟩
    have hf := h.flaws_eq
    simp only [flaws, hchild.present, hchild.flaws_eq, Bool.false_eq_true, if_false] at hf
    simp only [Expr.flatten, flaws, hitem.present, hitem.flaws_eq, Bool.false_eq_true, if_false]
    exact hf
  | @wrap name item hn _ ih =>
    have hitem := ih (h.child (by simp [children]))
    refine ⟨rfl, ?_⟩
    have hf := h.flaws_eq
    rw [flaws] at hf
    rw [Expr.flatten, flaws, (List.append_eq_nil_iff.1 hf).1, List.nil_append]
    exact flaws_of_items (by simpa [flattenEach] using hitem)
  | @hide item _ ih =>
    have hitem := ih (h.child (by simp [children]))
    exact ⟨rfl, flaws_of_items (by simpa [flattenEach] using hitem)⟩

end Expr

end PegMachine
