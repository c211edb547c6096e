import PegMachine.Proofs.Text.Utf8

namespace PegMachine.Utf8

/-- The offsets at which the characters of a text end, if the next of them starts at `offset` and
after `skip` bytes. -/
def endsFrom (offset : Nat) : Nat → Bytes → List Nat
  | _, [] => []
  | skip + 1, _ :: rest => endsFrom offset skip rest
  | 0, b :: rest =>
    (offset + (decodeAt b rest).2) ::
      endsFrom (offset + (decodeAt b rest).2) ((decodeAt b rest).2 - 1) rest

/-- The offsets at which the characters of a text end. -/
def ends (text : Bytes) : List Nat := endsFrom 0 0 text

/-- The number of characters that end at an offset or before it. -/
def runesUpTo (text : Bytes) (offset : Nat) : Nat := (ends text).countP (· ≤ offset)

/-- The first `n` bytes of a text are exactly `count` characters. -/
inductive Whole : Nat → Nat → Bytes → Prop where
  | zero {text : Bytes} : Whole 0 0 text
  | next {count n : Nat} {b : UInt8} {rest : Bytes}
    (h : Whole count n ((b :: rest).drop (decodeAt b rest).2)) :
    Whole (count + 1) ((decodeAt b rest).2 + n) (b :: rest)

theorem width_pos (b : UInt8) (rest : Bytes) : 0 < (decodeAt b rest).2 := by
  by_cases h : b < 0x80
  · rw [decodeAt_of_lt h]
    exact Nat.one_pos
  · rcases finds_decodeAt (UInt8.not_lt.1 h) rest with hone | ⟨more, after, c, -, -, hfound⟩
    · rw [hone]
      exact Nat.one_pos
    · rw [hfound]
      exact Nat.succ_pos _

/-- The bytes of a character, the first one apart, are no ASCII characters. -/
theorem ge_of_lt_width {b x : UInt8} {rest : Bytes} {i : Nat} (hx : rest[i]? = some x)
    (hi : i + 1 < (decodeAt b rest).2) : 0x80 ≤ x.toNat := by
  by_cases h : b < 0x80
  · rw [decodeAt_of_lt h] at hi
    have hone : i + 1 < 1 := hi
    omega
  · rcases finds_decodeAt (UInt8.not_lt.1 h) rest with hone | ⟨more, after, c, rfl, hw, hfound⟩
    · rw [hone] at hi
      have hone : i + 1 < 1 := hi
      omega
    · rw [hfound] at hi
      have hlt : i < more.length := Nat.lt_of_succ_lt_succ hi
      rw [List.getElem?_append_left hlt] at hx
      exact hw.ge_of_mem x (List.mem_of_getElem? hx)

private theorem endsFrom_eq (offset skip : Nat) (text : Bytes) :
    endsFrom offset skip text = (ends (text.drop skip)).map (offset + ·) := by
  induction text generalizing offset skip with
  | nil => simp [ends, endsFrom]
  | cons b rest ih =>
    cases skip with
    | succ skip => exact ih offset skip
    | zero =>
      have hshift : ends (b :: rest) = (decodeAt b rest).2 ::
          (ends (rest.drop ((decodeAt b rest).2 - 1))).map ((decodeAt b rest).2 + ·) := by
        rw [ends, endsFrom, ih, Nat.zero_add]
      rw [endsFrom, ih, List.drop_zero, hshift, List.map_cons, List.map_map]
      simp [Function.comp_def, Nat.add_assoc]

/-- The first character ends after its width, and the others where they do in the text after it. -/
theorem ends_cons (b : UInt8) (rest : Bytes) : ends (b :: rest) =
    (decodeAt b rest).2 ::
      (ends ((b :: rest).drop (decodeAt b rest).2)).map ((decodeAt b rest).2 + ·) := by
  have hdrop : (b :: rest).drop (decodeAt b rest).2 = rest.drop ((decodeAt b rest).2 - 1) :=
    List.drop_cons (width_pos b rest)
  rw [hdrop, ends, endsFrom, endsFrom_eq, Nat.zero_add]

private theorem countP_shift (width offset : Nat) (places : List Nat) (h : width ≤ offset) :
    (places.map (width + ·)).countP (· ≤ offset) = places.countP (· ≤ offset - width) := by
  rw [List.countP_map]
  apply List.countP_congr
  intro place _
  have hle : width + place ≤ offset ↔ place ≤ offset - width := by omega
  simpa using hle

theorem runesUpTo_nil (offset : Nat) : runesUpTo [] offset = 0 := rfl

theorem runesUpTo_cons_of_le {b : UInt8} {rest : Bytes} {offset : Nat}
    (h : (decodeAt b rest).2 ≤ offset) : runesUpTo (b :: rest) offset =
      1 + runesUpTo ((b :: rest).drop (decodeAt b rest).2) (offset - (decodeAt b rest).2) := by
  rw [runesUpTo, ends_cons, List.countP_cons, countP_shift _ _ _ h]
  simp [h, runesUpTo, Nat.add_comm]

/-- Before the first character ends there is none to count. -/
theorem runesUpTo_cons_of_lt {b : UInt8} {rest : Bytes} {offset : Nat}
    (h : offset < (decodeAt b rest).2) : runesUpTo (b :: rest) offset = 0 := by
  rw [runesUpTo, ends_cons, List.countP_eq_zero]
  intro place hplace
  have hle : (decodeAt b rest).2 ≤ place := by
    rcases List.mem_cons.1 hplace with rfl | hplace
    · exact Nat.le_refl _
    · obtain ⟨later, -, rfl⟩ := List.mem_map.1 hplace
      exact Nat.le_add_right _ _
  simp only [decide_eq_true_eq]
  omega

theorem runesUpTo_zero (text : Bytes) : runesUpTo text 0 = 0 := by
  cases text with
  | nil => rfl
  | cons b rest => exact runesUpTo_cons_of_lt (width_pos b rest)

namespace Whole

variable {count n : Nat} {text : Bytes}

/-- Characters are counted up to a cut, and from there on as in a text of its own. -/
theorem runesUpTo_eq (h : Whole count n text) {offset : Nat} (hn : n ≤ offset) :
    runesUpTo text offset = count + runesUpTo (text.drop n) (offset - n) := by
  induction h generalizing offset with
  | zero => simp
  | @next count n b rest h ih =>
    have hwidth : (decodeAt b rest).2 ≤ offset := by omega
    have hrest := @ih (offset - (decodeAt b rest).2) (by omega)
    rw [runesUpTo_cons_of_le hwidth, hrest, List.drop_drop, Nat.sub_sub]
    omega

/-- A text that can be cut can be cut after the next character, too. -/
theorem snoc (h : Whole count n text) {b : UInt8} {rest : Bytes} (hb : text.drop n = b :: rest) :
    Whole (count + 1) (n + (decodeAt b rest).2) text := by
  induction h with
  | zero =>
    have htext := hb
    rw [List.drop_zero] at htext
    subst htext
    have hnext : Whole 1 ((decodeAt b rest).2 + 0) (b :: rest) := .next .zero
    rwa [Nat.add_comm] at hnext
  | @next count n c after h ih =>
    have hafter : ((c :: after).drop (decodeAt c after).2).drop n = b :: rest := by
      rw [List.drop_drop]
      exact hb
    have hnext := Whole.next (ih hafter)
    rwa [← Nat.add_assoc] at hnext

end Whole

/-- A newline is a character of its own, wherever it stands. -/
theorem whole_of_newline {text : Bytes} {i : Nat} (h : text[i]? = some Ascii.newline) :
    ∃ count, Whole count (i + 1) text := by
  induction i using Nat.strongRecOn generalizing text with
  | ind i ih =>
    cases text with
    | nil => simp at h
    | cons b rest =>
      have hpos := width_pos b rest
      by_cases hi : i < (decodeAt b rest).2
      · -- only the first byte of a character can be a newline
        cases i with
        | zero =>
          obtain rfl : b = Ascii.newline := by simpa using h
          have hwidth : (decodeAt Ascii.newline rest).2 = 1 := by
            rw [decodeAt_of_lt (by decide)]
          have hnext : Whole 1 ((decodeAt Ascii.newline rest).2 + 0) (Ascii.newline :: rest) :=
            .next .zero
          rw [hwidth] at hnext
          exact ⟨1, hnext⟩
        | succ i =>
          have hx : rest[i]? = some Ascii.newline := by simpa using h
          have hge : 0x80 ≤ Ascii.newline.toNat := ge_of_lt_width hx hi
          exact absurd hge (by decide)
      · have hi : (decodeAt b rest).2 ≤ i := Nat.le_of_not_lt hi
        have hlater : ((b :: rest).drop (decodeAt b rest).2)[i - (decodeAt b rest).2]? =
            some Ascii.newline := by
          rw [List.getElem?_drop, Nat.add_sub_cancel' hi]
          exact h
        obtain ⟨count, hcount⟩ := ih (i - (decodeAt b rest).2) (by omega) hlater
        have hplace : (decodeAt b rest).2 + (i - (decodeAt b rest).2 + 1) = i + 1 := by omega
        have hnext := Whole.next hcount
        rw [hplace] at hnext
        exact ⟨count + 1, hnext⟩

end PegMachine.Utf8
