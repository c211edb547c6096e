import Mathlib.Data.List.Induction
import PegMachine.Text.Decimal

namespace PegMachine

theorem Ascii.digit_of_char {c : Char} (h : c.isDigit = true) :
    isDigit c.toNat.toUInt8 = true ∧ digitValue c.toNat.toUInt8 = c.toNat - 0x30 := by
  simp only [Char.isDigit, Bool.and_eq_true, decide_eq_true_eq, ge_iff_le,
    UInt32.le_iff_toNat_le] at h
  have hlo : 0x30 ≤ c.toNat := h.1
  have hhi : c.toNat ≤ 0x39 := h.2
  have hbyte : c.toNat.toUInt8.toNat = c.toNat := by
    rw [Nat.toUInt8_eq, UInt8.toNat_ofNat_of_lt' (by simp only [UInt8.size]; omega)]
  simp [isDigit, digitValue, UInt8.le_iff_toNat_le, hbyte, hlo, hhi]

namespace Bytes

theorem isDigit_of_mem_ofNat {n : Nat} : ∀ b ∈ ofNat n, Ascii.isDigit b = true := by
  intro b hb
  obtain ⟨c, hc, rfl⟩ := List.mem_map.1 hb
  exact (Ascii.digit_of_char (Nat.isDigit_of_mem_toDigits (by decide) (by decide) hc)).1

theorem ofNat_ne_nil (n : Nat) : ofNat n ≠ [] := by
  simp [ofNat, Nat.toDigits_ne_nil]

theorem ofInt_of_nonneg {n : Int} (h : 0 ≤ n) : ofInt n = ofNat n.natAbs := if_neg (by omega)

theorem ofInt_of_neg {n : Int} (h : n < 0) : ofInt n = Ascii.hyphen :: ofNat n.natAbs := if_pos h

theorem isDigit_of_mem_ofInt {n : Int} :
    ∀ b ∈ ofInt n, b = Ascii.hyphen ∨ Ascii.isDigit b = true := by
  intro b hb
  rcases Int.lt_or_le n 0 with hneg | hpos
  · rw [ofInt_of_neg hneg] at hb
    exact (List.mem_cons.1 hb).imp_right (isDigit_of_mem_ofNat b)
  · rw [ofInt_of_nonneg hpos] at hb
    exact .inr (isDigit_of_mem_ofNat b hb)

end Bytes

namespace Decimal

private theorem le_ofDigitChars (digits : List Char) (n : Nat) :
    n ≤ Nat.ofDigitChars 10 digits n := by
  have hone := Nat.one_le_pow digits.length 10 (by decide)
  have hle : 1 * n ≤ 10 ^ digits.length * n := Nat.mul_le_mul_right n hone
  rw [Nat.ofDigitChars_eq_ofDigitChars_zero]
  omega

private theorem digitsFrom_map {digits : List Char} (hd : ∀ c ∈ digits, c.isDigit = true) {n : Nat}
    (h : Nat.ofDigitChars 10 digits n < words) :
    digitsFrom n (digits.map fun c => c.toNat.toUInt8) = .value (Nat.ofDigitChars 10 digits n) := by
  induction digits generalizing n with
  | nil => simp [digitsFrom]
  | cons c digits ih =>
    obtain ⟨hdigit, hvalue⟩ := Ascii.digit_of_char (hd c (by simp))
    have hnext : 10 * n + (c.toNat - '0'.toNat) = n * 10 + (c.toNat - 0x30) := by
      rw [Nat.mul_comm]
      rfl
    rw [Nat.ofDigitChars_cons, hnext] at h ⊢
    have hsmall := Nat.lt_of_le_of_lt (le_ofDigitChars digits _) h
    rw [List.map_cons, digitsFrom, hdigit, hvalue]
    rw [if_neg (by decide), if_neg (by omega)]
    exact ih (fun c hc => hd c (by simp [hc])) h

private theorem digitsFrom_ofNat {n : Nat} (h : n < words) :
    digitsFrom 0 (Bytes.ofNat n) = .value n := by
  have hd : ∀ c ∈ Nat.toDigits 10 n, c.isDigit = true :=
    fun c hc => Nat.isDigit_of_mem_toDigits (by decide) (by decide) hc
  have hmap := digitsFrom_map (n := 0) hd (by rwa [Nat.ofDigitChars_ten_toDigits])
  rwa [Nat.ofDigitChars_ten_toDigits] at hmap

/-- A numeral that begins with a digit has no sign. -/
theorem read_of_digits {text : Bytes} (hne : text ≠ [])
    (hd : ∀ b ∈ text, Ascii.isDigit b = true) :
    read text = match digitsFrom 0 text with
      | .notANumeral => .error (.notANumeral text)
      | .overflow => .error (.outOfRange text)
      | .value n => if n < halfWords then .ok n else .error (.outOfRange text) := by
  cases text with
  | nil => exact absurd rfl hne
  | cons b rest =>
    have hb := hd b (by simp)
    have hsign : b ≠ Ascii.hyphen ∧ b ≠ Ascii.plus := by
      constructor <;> rintro rfl <;> exact absurd hb (by decide)
    rw [read.eq_def]
    split
    next negative digits hmatch =>
      split at hmatch
      · next heq =>
        cases heq
        exact absurd rfl hsign.1
      · next heq =>
        cases heq
        exact absurd rfl hsign.2
      · cases hmatch
        rfl

private theorem digitsFrom_ne_notANumeral {text : Bytes} (hd : ∀ b ∈ text, Ascii.isDigit b = true)
    (n : Nat) : digitsFrom n text ≠ .notANumeral := by
  induction text generalizing n with
  | nil => nofun
  | cons b rest ih =>
    obtain ⟨hb, hrest⟩ := List.forall_mem_cons.1 hd
    simp only [digitsFrom, hb, Bool.not_true, Bool.false_eq_true, if_false]
    split
    · nofun
    · exact ih hrest _

/-- Digits are refused only for their range. -/
theorem outOfRange_of_digits {text : Bytes} (hne : text ≠ [])
    (hd : ∀ b ∈ text, Ascii.isDigit b = true) {refusal : Refusal}
    (h : read text = .error refusal) : refusal = .outOfRange text := by
  rw [read_of_digits hne hd] at h
  cases hdigits : digitsFrom 0 text with
  | notANumeral => exact absurd hdigits (digitsFrom_ne_notANumeral hd 0)
  | overflow =>
    rw [hdigits] at h
    cases h
    rfl
  | value n =>
    simp only [hdigits] at h
    split at h <;> cases h
    rfl

/-- Reading the numeral of a number that fits gives the number. -/
theorem read_ofInt {n : Int} (h : 0 ≤ n) (h' : n < halfWords) : read (Bytes.ofInt n) = .ok n := by
  have hn : n.natAbs < halfWords := by omega
  have hwords : n.natAbs < words := Nat.lt_trans hn (by decide)
  rw [Bytes.ofInt_of_nonneg h, read_of_digits (Bytes.ofNat_ne_nil _) Bytes.isDigit_of_mem_ofNat,
    digitsFrom_ofNat hwords]
  simp only [hn, if_true]
  rw [Int.natAbs_of_nonneg h]

/-- The number that digits are written for. -/
def value (digits : Bytes) : Nat := digits.foldl (fun n b => n * 10 + Ascii.digitValue b) 0

private theorem eq_of_digitsFrom {n m : Nat} {digits : Bytes} (h : digitsFrom n digits = .value m) :
    m = digits.foldl (fun n b => n * 10 + Ascii.digitValue b) n := by
  induction digits generalizing n with
  | nil =>
    cases h
    rfl
  | cons b digits ih =>
    rw [digitsFrom] at h
    split at h
    · cases h
    · split at h
      · cases h
      · exact ih h

/-- Digits that are read are read as the number they are written for. -/
theorem eq_value_of_read {digits : Bytes} (hne : digits ≠ [])
    (hd : ∀ b ∈ digits, Ascii.isDigit b = true) {n : Int} (h : read digits = .ok n) :
    n = value digits ∧ value digits < halfWords := by
  rw [read_of_digits hne hd] at h
  cases hdigits : digitsFrom 0 digits with
  | notANumeral => simp [hdigits] at h
  | overflow => simp [hdigits] at h
  | value m =>
    have hm : m = value digits := eq_of_digitsFrom hdigits
    simp only [hdigits] at h
    split at h
    · next hlt =>
      cases h
      exact ⟨congrArg Int.ofNat hm, hm ▸ hlt⟩
    · cases h

/-- A digit is the numeral of its value. -/
theorem ofNat_digitValue {b : UInt8} (h : Ascii.isDigit b = true) :
    Bytes.ofNat (Ascii.digitValue b) = [b] ∧ Ascii.digitValue b < 10 := by
  have hall : ∀ n : Fin 256, Ascii.isDigit (.ofFin n) = true →
      Bytes.ofNat (Ascii.digitValue (.ofFin n)) = [.ofFin n] ∧ Ascii.digitValue (.ofFin n) < 10 := by
    decide +kernel
  exact hall b.toFin h

private theorem ofNat_append {n d : Nat} (hn : 0 < n) (hd : d < 10) :
    Bytes.ofNat (n * 10 + d) = Bytes.ofNat n ++ Bytes.ofNat d := by
  rw [Nat.mul_comm, Bytes.ofNat, ← Nat.toDigits_append_toDigits (by decide) hn hd, List.map_append]
  rfl

/-- Digits are the numeral of their number, behind some zeros. -/
theorem exists_zeros {digits : Bytes} (hne : digits ≠ [])
    (hd : ∀ b ∈ digits, Ascii.isDigit b = true) :
    ∃ k, digits = List.replicate k Ascii.zero ++ Bytes.ofNat (value digits) := by
  induction digits using List.reverseRecOn with
  | nil => exact absurd rfl hne
  | append_singleton digits b ih =>
    obtain ⟨hb, hlt⟩ := ofNat_digitValue (hd b (by simp))
    have hvalue : value (digits ++ [b]) = value digits * 10 + Ascii.digitValue b := by
      rw [value, List.foldl_append]
      rfl
    rw [hvalue]
    by_cases hnil : digits = []
    · subst hnil
      exact ⟨0, by simpa [value] using hb.symm⟩
    · obtain ⟨k, hk⟩ := ih hnil fun b hb => hd b (by simp [hb])
      rcases Nat.eq_zero_or_pos (value digits) with hzero | hpos
      · rw [hzero] at hk ⊢
        refine ⟨k + 1, ?_⟩
        rw [Nat.zero_mul, Nat.zero_add, hb, hk, List.replicate_succ']
        rfl
      · refine ⟨k, ?_⟩
        rw [ofNat_append hpos hlt, hb, ← List.append_assoc, ← hk]

private theorem foldl_digitValue
    {digits : List Char} (hd : ∀ c ∈ digits, c.isDigit = true) (n : Nat) :
    (digits.map fun c => c.toNat.toUInt8).foldl (fun n b => n * 10 + Ascii.digitValue b) n =
      Nat.ofDigitChars 10 digits n := by
  induction digits generalizing n with
  | nil => simp
  | cons c digits ih =>
    obtain ⟨hc, hdigits⟩ := List.forall_mem_cons.1 hd
    rw [List.map_cons, List.foldl_cons, ih hdigits, Nat.ofDigitChars_cons,
      (Ascii.digit_of_char hc).2, Nat.mul_comm]
    rfl

/-- The numeral of a number is written for that number, however large. -/
theorem value_ofNat (n : Nat) : value (Bytes.ofNat n) = n := by
  rw [value, Bytes.ofNat, foldl_digitValue, Nat.ofDigitChars_ten_toDigits]
  exact fun c hc => Nat.isDigit_of_mem_toDigits (by decide) (by decide) hc

end Decimal

namespace Bytes

private theorem ofNat_injective : Function.Injective ofNat :=
  Function.LeftInverse.injective Decimal.value_ofNat

private theorem ofInt_ne_of_sign {a b : Int} (ha : a < 0) (hb : 0 ≤ b) : ofInt a ≠ ofInt b := by
  intro h
  rw [ofInt_of_neg ha, ofInt_of_nonneg hb] at h
  have hdigit := isDigit_of_mem_ofNat (n := b.natAbs) Ascii.hyphen (h ▸ List.mem_cons_self)
  exact absurd hdigit (by decide)

/-- Numbers with the same numeral are the same. -/
theorem ofInt_injective : Function.Injective ofInt := by
  intro a b h
  rcases Int.lt_or_le a 0 with ha | ha <;> rcases Int.lt_or_le b 0 with hb | hb
  · rw [ofInt_of_neg ha, ofInt_of_neg hb] at h
    have habs := ofNat_injective (List.cons.inj h).2
    omega
  · exact absurd h (ofInt_ne_of_sign ha hb)
  · exact absurd h.symm (ofInt_ne_of_sign hb ha)
  · rw [ofInt_of_nonneg ha, ofInt_of_nonneg hb] at h
    have habs := ofNat_injective h
    omega

end Bytes

end PegMachine
