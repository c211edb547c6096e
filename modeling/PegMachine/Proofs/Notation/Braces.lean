import PegMachine.Proofs.Notation.Suffixes

namespace PegMachine

namespace Notation

def hash : UInt8 := 0x23

def isBlank (b : UInt8) : Bool := CharClass.contains [(9, 10), (12, 13), (32, 32)] b.toNat

/-- Blanks, and comments up to the ends of their lines. -/
inductive Spacing : Bytes → Prop where
  | nil : Spacing []
  | blank {b : UInt8} {s : Bytes} (hb : isBlank b = true) (h : Spacing s) : Spacing (b :: s)
  | comment {c s : Bytes} (hc : Ascii.newline ∉ c) (h : Spacing s) :
    Spacing (hash :: (c ++ Ascii.newline :: s))

/-- A numeral with the spacing behind it. -/
structure Numeral where
  digits : Bytes
  gap : Bytes
  ne_nil : digits ≠ []
  isDigit : ∀ b ∈ digits, Ascii.isDigit b = true
  spacing : Spacing gap

namespace Numeral

def text (n : Numeral) : Bytes := n.digits ++ n.gap

def value (n : Numeral) : Nat := Decimal.value n.digits

/-- The numeral without zeros in front and spacing behind. -/
def tidy (n : Numeral) : Numeral where
  digits := Bytes.ofNat n.value
  gap := []
  ne_nil := Bytes.ofNat_ne_nil _
  isDigit := Bytes.isDigit_of_mem_ofNat
  spacing := .nil

end Numeral

/-- A pair of braces: the spacing behind the opening one, a numeral, a comma with the spacing behind
it, and another numeral. Numerals that stand side by side have something between them. -/
structure Braces where
  gap : Bytes
  lower : Option Numeral
  comma : Option Bytes
  upper : Option Numeral
  spacing : Spacing gap
  spacing_comma : ∀ s ∈ comma, Spacing s
  apart : ∀ m ∈ lower, ∀ n ∈ upper, comma = none → m.gap ≠ []

namespace Braces

def text (b : Braces) : Bytes :=
  Ascii.openBrace :: (b.gap ++ b.lower.elim [] Numeral.text ++
    b.comma.elim [] (Ascii.comma :: ·) ++ b.upper.elim [] Numeral.text ++ [Ascii.closeBrace])

/-- The numeral in front of the comma, or the one without a comma, is the lower bound. -/
def min (b : Braces) : Int := b.lower.elim Repetition.unbounded fun n => n.value

/-- The numeral behind the comma is the upper bound. Without a comma the bounds are the same, and a
second numeral does not count. -/
def max (b : Braces) : Int :=
  if b.comma.isSome then b.upper.elim Repetition.unbounded fun n => n.value else b.min

/-- The braces without spacing and without what does not count: zeros in front, a numeral that is
no bound, and the second one of equal bounds. -/
def tidy (b : Braces) : Braces :=
  if b.min = b.max ∧ b.min ≠ Repetition.unbounded then
    { gap := [], lower := b.lower.map Numeral.tidy, comma := none, upper := none
      spacing := .nil, spacing_comma := nofun, apart := nofun }
  else
    { gap := [], lower := b.lower.map Numeral.tidy, comma := some []
      upper := b.upper.map Numeral.tidy
      spacing := .nil, spacing_comma := by rintro _ ⟨⟩; exact .nil, apart := nofun }

end Braces

/-- A numeral is a token with this name, if there is one. -/
def IsNumeral (name : Bytes) (n : Option Numeral) (vs : List Value) : Prop :=
  n.elim (vs = []) fun n => ∃ v, vs = [v] ∧ IsToken name n.digits v

/-- The parts of bounds, as the notation puts them out. -/
def Braces.Parts (b : Braces) (vs : List Value) : Prop :=
  ∃ least comma most, vs = least ++ (comma ++ most) ∧ IsNumeral "Min" b.lower least ∧
    b.comma.elim (comma = []) (fun _ => ∃ v, comma = [v] ∧ IsToken "Comma" [Ascii.comma] v) ∧
    IsNumeral "Max" b.upper most

theorem IsNumeral.forall_mem {name : Bytes} {n : Option Numeral} {vs : List Value}
    {P : Value → Prop} (h : IsNumeral name n vs)
    (hp : ∀ (n : Numeral) v, IsToken name n.digits v → P v) : ∀ v ∈ vs, P v := by
  cases n with
  | none =>
    obtain rfl : vs = [] := h
    simp
  | some n =>
    obtain ⟨v, rfl, hv⟩ := h
    simpa using hp n v hv

/-- The parts of bounds are numerals and a comma. -/
theorem Braces.Parts.forall_mem {b : Braces} {vs : List Value} {P : Value → Prop} (h : b.Parts vs)
    (hnumeral : ∀ name ∈ (["Min", "Max"] : List Bytes), ∀ (n : Numeral) v,
      IsToken name n.digits v → P v)
    (hcomma : ∀ v, IsToken "Comma" [Ascii.comma] v → P v) : ∀ v ∈ vs, P v := by
  obtain ⟨least, comma, most, rfl, hlower, hbetween, hupper⟩ := h
  have hcommas : ∀ v ∈ comma, P v := by
    cases hc : b.comma with
    | none =>
      rw [hc] at hbetween
      obtain rfl : comma = [] := hbetween
      simp
    | some gap =>
      rw [hc] at hbetween
      obtain ⟨v, rfl, hv⟩ := hbetween
      simpa using hcomma v hv
  simp only [List.forall_mem_append]
  exact ⟨hlower.forall_mem (hnumeral "Min" (by simp)), hcommas,
    hupper.forall_mem (hnumeral "Max" (by simp))⟩

namespace Numeral

/-- Taking the zeros away leaves the same number. -/
theorem digits_eq (n : Numeral) :
    ∃ k, n.digits = List.replicate k Ascii.zero ++ n.tidy.digits :=
  Decimal.exists_zeros n.ne_nil n.isDigit

private theorem read_eq (n : Numeral) :
    (Decimal.read n.digits = .ok n.value ∧ n.value < Decimal.halfWords) ∨
      Decimal.read n.digits = .error (.outOfRange n.digits) := by
  cases hr : Decimal.read n.digits with
  | ok m =>
    obtain ⟨rfl, hlt⟩ := Decimal.eq_value_of_read n.ne_nil n.isDigit hr
    exact .inl ⟨rfl, hlt⟩
  | error refusal =>
    obtain rfl := Decimal.outOfRange_of_digits n.ne_nil n.isDigit hr
    exact .inr rfl

private theorem ofInt_value (n : Numeral) : Bytes.ofInt n.value = n.tidy.digits :=
  Bytes.ofInt_of_nonneg (Int.natCast_nonneg _)

theorem value_ne_unbounded (n : Numeral) : (n.value : Int) ≠ Repetition.unbounded := by
  simp only [Repetition.unbounded]
  omega

end Numeral

/-- All of the numerals are 64-bit integers. -/
def Braces.Fit (b : Braces) : Prop :=
  ∀ n, n ∈ b.lower ∨ n ∈ b.upper → n.value < Decimal.halfWords

section

variable {b : Braces} {n : Option Numeral} {vs : List Value} {x y : Bounds}

theorem exists_of_bind_eq_ok {ε α β : Type} {r : Except ε α} {f : α → Except ε β} {c : β}
    (h : r.bind f = .ok c) : ∃ a, r = .ok a ∧ f a = .ok c := by
  cases r with
  | error e => cases h
  | ok a => exact ⟨a, rfl, h⟩

theorem foldlM_one {v : Value} : [v].foldlM Bounds.add x = x.add v := by
  simp

/-- A numeral sets the side it is named for. -/
theorem fold_numeral {name : Bytes} (hname : name ≠ "Comma") (h : IsNumeral name n vs)
    (hy : vs.foldlM Bounds.add x = .ok y) :
    (∀ m ∈ n, m.value < Decimal.halfWords) ∧
      y = n.elim x fun n => if name = "Min" then { x with min := some (n.value : Int) }
        else if name = "Max" then { x with max := some (n.value : Int) } else x := by
  cases n with
  | none =>
    obtain rfl : vs = [] := h
    cases hy
    exact ⟨nofun, rfl⟩
  | some n =>
    obtain ⟨v, rfl, hv⟩ := h
    rw [foldlM_one] at hy
    obtain ⟨hread, hlt⟩ | hrefused := n.read_eq
    · rw [add_numeral hv hname hread] at hy
      refine ⟨?_, (Except.ok.inj hy).symm⟩
      rintro m ⟨⟩
      exact hlt
    · have hc := hv.content_eq
      obtain ⟨span, inner, rfl⟩ := hv
      simp only [Value.ofItems] at hc
      simp only [Value.ofItems, Bounds.add, hname, if_false, hc, hrefused] at hy
      cases hy

private theorem fold_comma {comma : Option Bytes}
    (h : comma.elim (vs = []) fun _ => ∃ v, vs = [v] ∧ IsToken "Comma" [Ascii.comma] v)
    (hy : vs.foldlM Bounds.add x = .ok y) : y = { x with comma := comma.isSome || x.comma } := by
  cases comma with
  | none =>
    obtain rfl : vs = [] := h
    cases hy
    rfl
  | some s =>
    obtain ⟨v, rfl, hv⟩ := h
    rw [foldlM_one, add_comma x hv] at hy
    exact (Except.ok.inj hy).symm

private theorem fold_parts (h : b.Parts vs) (hy : vs.foldlM Bounds.add {} = .ok y) :
    b.Fit ∧ y = ⟨b.lower.map (·.value), b.comma.isSome, b.upper.map (·.value)⟩ := by
  obtain ⟨least, comma, most, rfl, hleast, hcomma, hmost⟩ := h
  rw [List.foldlM_append] at hy
  obtain ⟨y₁, h₁, hy⟩ := exists_of_bind_eq_ok hy
  rw [List.foldlM_append] at hy
  obtain ⟨y₂, h₂, hy⟩ := exists_of_bind_eq_ok hy
  obtain ⟨hlower, rfl⟩ := fold_numeral (by decide) hleast h₁
  obtain rfl := fold_comma hcomma h₂
  obtain ⟨hupper, rfl⟩ := fold_numeral (by decide) hmost hy
  refine ⟨fun n hn => hn.elim (hlower n) (hupper n), ?_⟩
  have hname : ("Max" : Bytes) ≠ "Min" := by decide
  cases hl : b.lower <;> cases hu : b.upper <;> simp [hname]

/-- The builder makes the bounds of the braces, if it makes any. -/
theorem suffix_parts {span : Span} {kind : Repetition} (h : b.Parts vs)
    (hk : suffix (Value.ofItems "Bounds" span vs) = .ok kind) :
    b.Fit ∧ (b.lower.isSome ∨ b.comma.isSome) ∧ kind = .bounded b.min b.max := by
  have hsuffix : suffix (Value.ofItems "Bounds" span vs) =
      (vs.foldlM Bounds.add {}).bind Bounds.repetition := rfl
  rw [hsuffix] at hk
  obtain ⟨y, hy, hk⟩ := exists_of_bind_eq_ok hk
  obtain ⟨hfit, rfl⟩ := fold_parts h hy
  refine ⟨hfit, ?_⟩
  unfold Bounds.repetition at hk
  cases hcomma : b.comma with
  | some s =>
    rw [hcomma] at hk
    cases hk
    refine ⟨.inr rfl, ?_⟩
    rw [Braces.min, Braces.max, hcomma]
    cases b.lower <;> cases b.upper <;> rfl
  | none =>
    rw [hcomma] at hk
    cases hlower : b.lower with
    | none =>
      rw [hlower] at hk
      cases hk
    | some n =>
      rw [hlower] at hk
      cases hk
      refine ⟨.inl rfl, ?_⟩
      rw [Braces.max, hcomma, Braces.min, hlower]
      rfl

private theorem side_elim (n : Option Numeral) :
    side (n.elim Repetition.unbounded fun n => n.value) =
      (n.map Numeral.tidy).elim [] Numeral.text := by
  cases n with
  | none => rfl
  | some n =>
    have hdigits : n.tidy.text = n.tidy.digits := List.append_nil _
    simp only [Option.elim_some, Option.map_some, hdigits]
    rw [side, if_neg n.value_ne_unbounded, n.ofInt_value]

/-- The bounds of braces are printed as the braces are written, in their tidy form. -/
theorem bounds_tidy (h : b.lower.isSome ∨ b.comma.isSome) :
    Repetition.bounds b.min b.max = b.tidy.text := by
  have hlower : side b.min = (b.lower.map Numeral.tidy).elim [] Numeral.text := side_elim b.lower
  by_cases hexact : b.min = b.max ∧ b.min ≠ Repetition.unbounded
  · have hne : ¬(b.min = Repetition.unbounded ∧ b.max = Repetition.unbounded) :=
      fun hb => hexact.2 hb.1
    rw [side, if_neg hexact.2] at hlower
    rw [Braces.tidy, if_pos hexact, Repetition.bounds, if_neg hne, if_pos hexact.1, hlower]
    simp only [Braces.text, Option.elim_none, List.nil_append, List.append_nil]
    rfl
  · have hrange : b.min ≠ b.max ∨ b.min = Repetition.unbounded := by
      by_cases hsame : b.min = b.max
      · exact .inr (not_not.1 fun hne => hexact ⟨hsame, hne⟩)
      · exact .inl hsame
    have hcomma : b.comma.isSome := by
      by_contra hno
      obtain ⟨n, hn⟩ := Option.isSome_iff_exists.1 (h.resolve_right hno)
      have hmin : b.min = n.value := by rw [Braces.min, hn, Option.elim_some]
      have hmax : b.max = b.min := if_neg hno
      exact hexact ⟨hmax.symm, hmin ▸ n.value_ne_unbounded⟩
    have hupper : side b.max = (b.upper.map Numeral.tidy).elim [] Numeral.text := by
      rw [Braces.max, if_pos hcomma, side_elim]
    rw [bounds_eq hrange, Braces.tidy, if_neg hexact, hlower, hupper]
    simp only [Braces.text, Option.elim_some, List.nil_append]
    rfl

end

end Notation

end PegMachine
