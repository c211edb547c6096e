import PegMachine.Proofs.Notation.Braces
import PegMachine.Proofs.Text.Lines

namespace PegMachine.Notation

/-- Something stands there that spacing does not go on with. -/
def Solid (u : Bytes) : Prop := ∃ b v, u = b :: v ∧ isBlank b = false ∧ b ≠ hash

/-- Something solid is not spacing. -/
theorem Solid.not_spacing {u v s : Bytes} (hu : Solid u) (hs : Spacing s) (hne : s ≠ []) :
    u ≠ s ++ v := by
  obtain ⟨b, w, rfl, hblank, hhash⟩ := hu
  cases hs with
  | nil => exact absurd rfl hne
  | blank hb =>
    intro h
    obtain ⟨rfl, -⟩ := List.cons.inj h
    cases hb.symm.trans hblank
  | comment =>
    intro h
    exact hhash (List.cons.inj h).1

/-- A blank is no digit. -/
theorem isDigit_of_isBlank {b : UInt8} (h : isBlank b = true) : Ascii.isDigit b = false := by
  by_contra hd
  simp only [isBlank, CharClass.contains, List.any_cons, List.any_nil, Bool.or_false, Bool.or_eq_true,
    Bool.and_eq_true, decide_eq_true_eq] at h
  simp only [Ascii.isDigit, Bool.not_eq_false, Bool.and_eq_true, decide_eq_true_eq,
    UInt8.le_iff_toNat_le, UInt8.reduceToNat] at hd
  omega

/-- No spacing begins with a digit. -/
theorem Spacing.no_digit {s u : Bytes} (hs : Spacing s)
    (hu : s = [] → ∀ b ∈ u.head?, Ascii.isDigit b = false) :
    ∀ b ∈ (s ++ u).head?, Ascii.isDigit b = false := by
  cases hs with
  | nil => exact hu rfl
  | blank hb =>
    rintro _ ⟨⟩
    exact isDigit_of_isBlank hb
  | comment =>
    rintro _ ⟨⟩
    decide

/-- Spacing goes up to where something solid stands. -/
theorem Spacing.eq_of_append_eq {s s' u u' : Bytes} (hs : Spacing s) (hs' : Spacing s')
    (hu : Solid u) (hu' : Solid u') (h : s ++ u = s' ++ u') : s = s' ∧ u = u' := by
  induction hs generalizing s' with
  | nil =>
    by_cases hne : s' = []
    · subst hne
      exact ⟨rfl, h⟩
    · exact absurd h (hu.not_spacing hs' hne)
  | @blank b s hb hs ih =>
    cases hs' with
    | nil => exact absurd h.symm (hu'.not_spacing (.blank hb hs) (by simp))
    | blank hb' hs' =>
      obtain ⟨rfl, hrest⟩ := List.cons.inj h
      obtain ⟨rfl, rfl⟩ := ih hs' hrest
      exact ⟨rfl, rfl⟩
    | comment =>
      obtain ⟨rfl, -⟩ := List.cons.inj h
      cases hb
  | @comment c s hc hs ih =>
    cases hs' with
    | nil => exact absurd h.symm (hu'.not_spacing (.comment hc hs) (by simp))
    | blank hb' =>
      obtain ⟨rfl, -⟩ := List.cons.inj h
      cases hb'
    | @comment c' s' hc' hs' =>
      have hlines : c ++ Ascii.newline :: (s ++ u) = c' ++ Ascii.newline :: (s' ++ u') := by
        simpa using (List.cons.inj h).2
      obtain ⟨rfl, hrest⟩ := eq_of_append_first_eq hc hc' hlines
      obtain ⟨rfl, rfl⟩ := ih hs' hrest
      exact ⟨rfl, rfl⟩

theorem Numeral.eq_of_append_eq {n n' : Numeral} {u u' : Bytes} (hu : Solid u) (hu' : Solid u')
    (hn : n.gap = [] → ∀ b ∈ u.head?, Ascii.isDigit b = false)
    (hn' : n'.gap = [] → ∀ b ∈ u'.head?, Ascii.isDigit b = false)
    (h : n.text ++ u = n'.text ++ u') : n = n' ∧ u = u' := by
  simp only [Numeral.text, List.append_assoc] at h
  obtain ⟨hdigits, hrest⟩ := run_eq_of_append_eq n.isDigit n'.isDigit (n.spacing.no_digit hn)
    (n'.spacing.no_digit hn') h
  obtain ⟨hgap, rfl⟩ := n.spacing.eq_of_append_eq n'.spacing hu hu' hrest
  refine ⟨?_, rfl⟩
  cases n
  cases n'
  cases hdigits
  cases hgap
  rfl

/-- A part that may be left out, and that begins with a byte that nothing else begins with. -/
theorem elim_eq_of_append_eq {α : Type} {text : α → Bytes} {p : UInt8 → Bool} {x y : Option α}
    {u v : Bytes} (hstart : ∀ a, ∃ b ∈ (text a).head?, p b = true)
    (hu : x = none → ∀ b ∈ u.head?, p b = false) (hv : y = none → ∀ b ∈ v.head?, p b = false)
    (hsome : ∀ a ∈ x, ∀ c ∈ y, text a ++ u = text c ++ v → a = c ∧ u = v)
    (h : x.elim [] text ++ u = y.elim [] text ++ v) : x = y ∧ u = v := by
  have hboth {a : α} {u v : Bytes} (hu : ∀ b ∈ u.head?, p b = false) : u ≠ text a ++ v := by
    rintro rfl
    obtain ⟨b, hb, hp⟩ := hstart a
    rw [hu b (by simp [List.head?_append, Option.mem_def.1 hb])] at hp
    cases hp
  cases x with
  | none =>
    cases y with
    | none => exact ⟨rfl, h⟩
    | some c => exact absurd h (hboth (hu rfl))
  | some a =>
    cases y with
    | none => exact absurd h.symm (hboth (hv rfl))
    | some c =>
      obtain ⟨rfl, rfl⟩ := hsome a rfl c rfl h
      exact ⟨rfl, rfl⟩

theorem Numeral.exists_digit (n : Numeral) : ∃ b ∈ n.text.head?, Ascii.isDigit b = true := by
  obtain ⟨b, digits, hd⟩ := List.exists_cons_of_ne_nil n.ne_nil
  exact ⟨b, by simp [Numeral.text, hd], n.isDigit b (hd ▸ List.mem_cons_self)⟩

theorem solid_of_isDigit {u : Bytes} (h : ∃ b ∈ u.head?, Ascii.isDigit b = true) (v : Bytes) :
    Solid (u ++ v) := by
  obtain ⟨b, hb, hd⟩ := h
  obtain ⟨w, rfl⟩ := List.head?_eq_some_iff.1 hb
  refine ⟨b, w ++ v, rfl, ?_, ?_⟩
  · by_contra hblank
    rw [isDigit_of_isBlank (by simpa using hblank)] at hd
    cases hd
  · rintro rfl
    exact absurd hd (by decide)

namespace Braces

variable {b c : Braces} {u v : Bytes}

/-- The numeral behind the comma, the closing brace and what follows. -/
def fromUpper (b : Braces) (u : Bytes) : Bytes :=
  b.upper.elim [] Numeral.text ++ Ascii.closeBrace :: u

/-- The comma and what follows. -/
def fromComma (b : Braces) (u : Bytes) : Bytes :=
  b.comma.elim [] (Ascii.comma :: ·) ++ b.fromUpper u

/-- The numeral in front of the comma and what follows. -/
def fromLower (b : Braces) (u : Bytes) : Bytes := b.lower.elim [] Numeral.text ++ b.fromComma u

private theorem text_append : b.text ++ u = Ascii.openBrace :: (b.gap ++ b.fromLower u) := by
  simp [text, fromLower, fromComma, fromUpper]

private theorem head_fromUpper : ∀ x ∈ (b.fromUpper u).head?,
    x = Ascii.closeBrace ∨ Ascii.isDigit x = true := by
  intro x hx
  cases hn : b.upper with
  | none =>
    simp only [fromUpper, hn, Option.elim_none, List.nil_append, List.head?_cons] at hx
    exact .inl (Option.mem_some_iff.1 hx).symm
  | some n =>
    obtain ⟨d, hd, hdigit⟩ := n.exists_digit
    simp only [fromUpper, hn, Option.elim_some, List.head?_append, Option.mem_def.1 hd,
      Option.some_or] at hx
    exact .inr (Option.mem_some_iff.1 hx ▸ hdigit)

theorem solid_fromUpper : Solid (b.fromUpper u) := by
  cases hn : b.upper with
  | none =>
    rw [fromUpper, hn]
    exact ⟨_, _, rfl, by decide, by decide⟩
  | some n =>
    rw [fromUpper, hn]
    exact solid_of_isDigit n.exists_digit _

theorem solid_fromComma : Solid (b.fromComma u) := by
  cases hs : b.comma with
  | none =>
    rw [fromComma, hs]
    exact solid_fromUpper
  | some s =>
    rw [fromComma, hs]
    exact ⟨_, _, rfl, by decide, by decide⟩

private theorem solid_fromLower : Solid (b.fromLower u) := by
  cases hn : b.lower with
  | none =>
    rw [fromLower, hn]
    exact solid_fromComma
  | some n =>
    rw [fromLower, hn]
    exact solid_of_isDigit n.exists_digit _

/-- In place of the comma there is a digit only where it is left out and a numeral follows. -/
theorem isDigit_fromComma (h : b.comma.isSome ∨ b.upper = none) :
    ∀ x ∈ (b.fromComma u).head?, Ascii.isDigit x = false := by
  intro x hx
  cases hs : b.comma with
  | some s =>
    simp only [fromComma, hs, Option.elim_some, List.cons_append, List.head?_cons] at hx
    rw [← Option.mem_some_iff.1 hx]
    decide
  | none =>
    have hn : b.upper = none := h.resolve_left (by simp [hs])
    simp only [fromComma, fromUpper, hs, hn, Option.elim_none, List.nil_append,
      List.head?_cons] at hx
    rw [← Option.mem_some_iff.1 hx]
    decide

private theorem isDigit_behind_lower {n : Numeral} (hn : n ∈ b.lower) (hgap : n.gap = []) :
    ∀ x ∈ (b.fromComma u).head?, Ascii.isDigit x = false := by
  refine isDigit_fromComma ?_
  cases hs : b.comma with
  | some s => exact .inl rfl
  | none =>
    cases hm : b.upper with
    | none => exact .inr rfl
    | some m => exact absurd hgap (b.apart n hn m hm hs)

private theorem isDigit_without_lower (h : b.lower.isSome ∨ b.comma.isSome) (hn : b.lower = none) :
    ∀ x ∈ (b.fromComma u).head?, Ascii.isDigit x = false :=
  isDigit_fromComma (.inl (h.resolve_left (by simp [hn])))

private theorem ne_comma_fromUpper : ∀ x ∈ (b.fromUpper u).head?, (x == Ascii.comma) = false := by
  intro x hx
  rw [beq_eq_false_iff_ne]
  rintro rfl
  rcases head_fromUpper _ hx with hx | hx
  · exact absurd hx (by decide)
  · exact absurd hx (by decide)

/-- Braces are read in one way only, if there is a comma or a numeral in front of it. -/
theorem eq_of_append_eq (hb : b.lower.isSome ∨ b.comma.isSome)
    (hc : c.lower.isSome ∨ c.comma.isSome) (h : b.text ++ u = c.text ++ v) : b = c := by
  rw [text_append, text_append] at h
  obtain ⟨hgap, hrest⟩ := b.spacing.eq_of_append_eq c.spacing solid_fromLower solid_fromLower
    (List.cons.inj h).2
  obtain ⟨hlower, hrest⟩ := elim_eq_of_append_eq Numeral.exists_digit (isDigit_without_lower hb)
    (isDigit_without_lower hc) (fun n hn m hm => Numeral.eq_of_append_eq solid_fromComma
      solid_fromComma (isDigit_behind_lower hn) (isDigit_behind_lower hm)) hrest
  obtain ⟨hcomma, hrest⟩ := elim_eq_of_append_eq (p := (· == Ascii.comma))
    (fun s => ⟨Ascii.comma, rfl, by decide⟩) (fun _ => ne_comma_fromUpper)
    (fun _ => ne_comma_fromUpper) (fun s hs t ht hst => (b.spacing_comma s hs).eq_of_append_eq
      (c.spacing_comma t ht) solid_fromUpper solid_fromUpper (List.cons.inj hst).2) hrest
  have hclose (u : Bytes) : Solid (Ascii.closeBrace :: u) := ⟨_, u, rfl, by decide, by decide⟩
  have hdigit (u : Bytes) : ∀ x ∈ (Ascii.closeBrace :: u).head?, Ascii.isDigit x = false := by
    rintro _ ⟨⟩
    decide
  obtain ⟨hupper, -⟩ := elim_eq_of_append_eq Numeral.exists_digit (fun _ => hdigit u)
    (fun _ => hdigit v) (fun n _ m _ => Numeral.eq_of_append_eq (hclose u) (hclose v)
      (fun _ => hdigit u) fun _ => hdigit v) hrest
  cases b
  cases c
  cases hgap
  cases hlower
  cases hcomma
  cases hupper
  rfl

end Braces

end PegMachine.Notation
