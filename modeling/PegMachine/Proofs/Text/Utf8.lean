import PegMachine.Text.Utf8

namespace PegMachine.Utf8

/-- Whether every character of a text, after the first `skip` bytes, is well-formed. -/
def isWellFormedFrom : Nat → Bytes → Bool
  | _, [] => true
  | skip + 1, _ :: rest => isWellFormedFrom skip rest
  | 0, b :: rest => !isIllFormed b rest && isWellFormedFrom ((decodeAt b rest).2 - 1) rest

def isWellFormed (text : Bytes) : Bool := isWellFormedFrom 0 text

/-- Bytes that continue a character. -/
def Tail (b : UInt8) : Prop := 0x80 ≤ b.toNat ∧ b.toNat ≤ 0xBF

/-- The character `c` is written as the byte `b` and some more. -/
inductive Wide (b : UInt8) : Bytes → Nat → Prop where
  | two {x : UInt8} (lo : 0xC2 ≤ b.toNat) (hi : b.toNat ≤ 0xDF) (hx : Tail x) :
    Wide b [x] ((b.toNat - 0xC0) * 64 + (x.toNat - 0x80))
  | three {x y : UInt8} (lo : 0xE0 ≤ b.toNat) (hi : b.toNat ≤ 0xEF) (hx : Tail x) (hy : Tail y)
    (short : b.toNat = 0xE0 → 0xA0 ≤ x.toNat) (surrogate : b.toNat = 0xED → x.toNat ≤ 0x9F) :
    Wide b [x, y] ((b.toNat - 0xE0) * 4096 + (x.toNat - 0x80) * 64 + (y.toNat - 0x80))
  | four {x y z : UInt8} (lo : 0xF0 ≤ b.toNat) (hi : b.toNat ≤ 0xF4) (hx : Tail x) (hy : Tail y)
    (hz : Tail z) (short : b.toNat = 0xF0 → 0x90 ≤ x.toNat)
    (large : b.toNat = 0xF4 → x.toNat ≤ 0x8F) :
    Wide b [x, y, z] ((b.toNat - 0xF0) * 262144 + (x.toNat - 0x80) * 4096
      + (y.toNat - 0x80) * 64 + (z.toNat - 0x80))

theorem within_iff {lo hi b : UInt8} :
    within lo hi b = true ↔ lo.toNat ≤ b.toNat ∧ b.toNat ≤ hi.toNat := by
  simp [within, UInt8.le_iff_toNat_le]

theorem isTail_iff {b : UInt8} : isTail b = true ↔ Tail b := within_iff

/-- The second byte of a character has a narrower range after two of the first bytes. -/
theorem within_iff_tail {b x short lo long hi : UInt8} (hlo : 0x80 ≤ lo.toNat)
    (hhi : hi.toNat ≤ 0xBF) :
    within (if b = short then lo else 0x80) (if b = long then hi else 0xBF) x = true ↔
      Tail x ∧ (b = short → lo.toNat ≤ x.toNat) ∧ (b = long → x.toNat ≤ hi.toNat) := by
  rw [within_iff]
  constructor
  · rintro ⟨h₁, h₂⟩
    refine ⟨⟨?_, ?_⟩, ?_, ?_⟩
    · split at h₁
      · exact Nat.le_trans hlo h₁
      · exact h₁
    · split at h₂
      · exact Nat.le_trans h₂ hhi
      · exact h₂
    · intro hb
      rwa [if_pos hb] at h₁
    · intro hb
      rwa [if_pos hb] at h₂
  · rintro ⟨⟨h₁, h₂⟩, h₃, h₄⟩
    constructor
    · split
      · next hb => exact h₃ hb
      · exact h₁
    · split
      · next hb => exact h₄ hb
      · exact h₂

theorem decodeAt_of_lt {b : UInt8} (h : b < 0x80) (rest : Bytes) :
    decodeAt b rest = (b.toNat, 1) := if_pos h

/-- What decoding at a byte outside of ASCII may find: the byte stands on its own, or a well-formed
character begins with it. -/
def Finds (b : UInt8) (rest : Bytes) (found : Nat × Nat) : Prop :=
  found = (replacement, 1) ∨
    ∃ more after c, rest = more ++ after ∧ Wide b more c ∧ found = (c, more.length + 1)

private theorem finds_two {b : UInt8} (h : within 0xC2 0xDF b = true) (rest : Bytes) :
    Finds b rest (match rest with
      | x :: _ =>
        if isTail x then ((b.toNat - 0xC0) * 64 + (x.toNat - 0x80), 2) else (replacement, 1)
      | [] => (replacement, 1)) := by
  obtain ⟨lo, hi⟩ := within_iff.1 h
  match rest with
  | [] => exact .inl rfl
  | x :: after =>
    cases hx : isTail x with
    | false => exact .inl (by simp [hx])
    | true => exact .inr ⟨[x], after, _, rfl, .two lo hi (isTail_iff.1 hx), by simp [hx]⟩

private theorem finds_three {b : UInt8} (h : within 0xE0 0xEF b = true) (rest : Bytes) :
    Finds b rest (match rest with
      | x :: y :: _ =>
        if within (if b = 0xE0 then 0xA0 else 0x80) (if b = 0xED then 0x9F else 0xBF) x
            && isTail y then
          ((b.toNat - 0xE0) * 4096 + (x.toNat - 0x80) * 64 + (y.toNat - 0x80), 3)
        else (replacement, 1)
      | _ => (replacement, 1)) := by
  obtain ⟨lo, hi⟩ := within_iff.1 h
  match rest with
  | [] | [_] => exact .inl rfl
  | x :: y :: after =>
    cases hxy : within (if b = 0xE0 then 0xA0 else 0x80) (if b = 0xED then 0x9F else 0xBF) x
      && isTail y with
    | false => exact .inl (by simp only [hxy]; rfl)
    | true =>
      obtain ⟨hx, hy⟩ := Bool.and_eq_true_iff.1 hxy
      obtain ⟨ht, hshort, hlong⟩ := (within_iff_tail (by decide) (by decide)).1 hx
      refine .inr ⟨[x, y], after, _, rfl, .three lo hi ht (isTail_iff.1 hy) ?_ ?_, ?_⟩
      · exact fun hb => hshort (UInt8.toNat.inj hb)
      · exact fun hb => hlong (UInt8.toNat.inj hb)
      · simp only [hxy, if_true, List.length_cons, List.length_nil]

private theorem finds_four {b : UInt8} (h : within 0xF0 0xF4 b = true) (rest : Bytes) :
    Finds b rest (match rest with
      | x :: y :: z :: _ =>
        if within (if b = 0xF0 then 0x90 else 0x80) (if b = 0xF4 then 0x8F else 0xBF) x
            && isTail y && isTail z then
          ((b.toNat - 0xF0) * 262144 + (x.toNat - 0x80) * 4096 + (y.toNat - 0x80) * 64
            + (z.toNat - 0x80), 4)
        else (replacement, 1)
      | _ => (replacement, 1)) := by
  obtain ⟨lo, hi⟩ := within_iff.1 h
  match rest with
  | [] | [_] | [_, _] => exact .inl rfl
  | x :: y :: z :: after =>
    cases hxyz : within (if b = 0xF0 then 0x90 else 0x80) (if b = 0xF4 then 0x8F else 0xBF) x
      && isTail y && isTail z with
    | false => exact .inl (by simp only [hxyz]; rfl)
    | true =>
      obtain ⟨hxy, hz⟩ := Bool.and_eq_true_iff.1 hxyz
      obtain ⟨hx, hy⟩ := Bool.and_eq_true_iff.1 hxy
      obtain ⟨ht, hshort, hlong⟩ := (within_iff_tail (by decide) (by decide)).1 hx
      refine .inr ⟨[x, y, z], after, _, rfl,
        .four lo hi ht (isTail_iff.1 hy) (isTail_iff.1 hz) ?_ ?_, ?_⟩
      · exact fun hb => hshort (UInt8.toNat.inj hb)
      · exact fun hb => hlong (UInt8.toNat.inj hb)
      · simp only [hxyz, if_true, List.length_cons, List.length_nil]

theorem finds_decodeAt {b : UInt8} (h : 0x80 ≤ b) (rest : Bytes) :
    Finds b rest (decodeAt b rest) := by
  rw [decodeAt.eq_def, if_neg (UInt8.not_lt.2 h)]
  split
  · next h₂ => exact finds_two h₂ rest
  split
  · next h₃ => exact finds_three h₃ rest
  split
  · next h₄ => exact finds_four h₄ rest
  · exact .inl rfl

namespace Wide

variable {b : UInt8} {more : Bytes} {c : Nat}

theorem ge_of_mem (h : Wide b more c) : ∀ x ∈ more, 0x80 ≤ x.toNat := by
  cases h with
  | two lo hi hx => simpa using hx.1
  | three lo hi hx hy => simpa using ⟨hx.1, hy.1⟩
  | four lo hi hx hy hz => simpa using ⟨hx.1, hy.1, hz.1⟩

theorem bounds (h : Wide b more c) : 0x80 ≤ c ∧ c ≤ maxRune := by
  cases h <;> simp only [Tail, maxRune] at * <;> omega

theorem ge (h : Wide b more c) : 0x80 ≤ b.toNat := by
  cases h <;> omega

theorem isScalar_eq (h : Wide b more c) : isScalar c = true := by
  have hrange : c < 0xD800 ∨ 0xDFFF < c := by
    cases h <;> simp only [Tail] at * <;> omega
  simp only [isScalar, decide_eq_true h.bounds.2, Bool.true_and, Bool.not_eq_true',
    Bool.and_eq_false_iff, decide_eq_false_iff_not]
  omega

theorem encode_eq (h : Wide b more c) : encode c = b :: more := by
  have byte (n : Nat) {x : UInt8} (hn : n = x.toNat) : n.toUInt8 = x := by
    rw [hn, Nat.toUInt8_eq, UInt8.ofNat_toNat]
  have hs := h.isScalar_eq
  rw [encode, hs]
  simp only [Bool.not_true, Bool.false_eq_true, if_false]
  cases h with
  | @two x lo hi hx =>
    simp only [Tail] at hx
    rw [if_neg (by omega), if_pos (by omega), byte (x := b) _ (by omega),
      byte (x := x) _ (by omega)]
  | @three x y lo hi hx hy short surrogate =>
    simp only [Tail] at hx hy
    rw [if_neg (by omega), if_neg (by omega), if_pos (by omega), byte (x := b) _ (by omega),
      byte (x := x) _ (by omega), byte (x := y) _ (by omega)]
  | @four x y z lo hi hx hy hz short large =>
    simp only [Tail] at hx hy hz
    rw [if_neg (by omega), if_neg (by omega), if_neg (by omega), byte (x := b) _ (by omega),
      byte (x := x) _ (by omega), byte (x := y) _ (by omega), byte (x := z) _ (by omega)]

theorem decodeAt_eq (h : Wide b more c) (after : Bytes) :
    decodeAt b (more ++ after) = (c, more.length + 1) := by
  have hlt : ¬b < 0x80 := UInt8.not_lt.2 (UInt8.le_iff_toNat_le.2 h.ge)
  have below {lo hi : UInt8} (ho : hi.toNat < b.toNat) : ¬within lo hi b = true := by
    rw [within_iff]
    omega
  rw [decodeAt.eq_def, if_neg hlt]
  cases h with
  | @two x lo hi hx =>
    have hb : within 0xC2 0xDF b = true := within_iff.2 ⟨lo, hi⟩
    rw [if_pos hb]
    exact if_pos (isTail_iff.2 hx)
  | @three x y lo hi hx hy short surrogate =>
    have hb : within 0xE0 0xEF b = true := within_iff.2 ⟨lo, hi⟩
    rw [if_neg (below (Nat.lt_of_lt_of_le (by decide) lo)), if_pos hb]
    have hx' : within (if b = 0xE0 then 0xA0 else 0x80) (if b = 0xED then 0x9F else 0xBF) x = true :=
      (within_iff_tail (by decide) (by decide)).2 ⟨hx, fun hb => short (congrArg UInt8.toNat hb),
        fun hb => surrogate (congrArg UInt8.toNat hb)⟩
    exact if_pos (Bool.and_eq_true_iff.2 ⟨hx', isTail_iff.2 hy⟩)
  | @four x y z lo hi hx hy hz short large =>
    have hb : within 0xF0 0xF4 b = true := within_iff.2 ⟨lo, hi⟩
    rw [if_neg (below (Nat.lt_of_lt_of_le (by decide) lo)),
      if_neg (below (Nat.lt_of_lt_of_le (by decide) lo)), if_pos hb]
    have hx' : within (if b = 0xF0 then 0x90 else 0x80) (if b = 0xF4 then 0x8F else 0xBF) x = true :=
      (within_iff_tail (by decide) (by decide)).2
        ⟨hx, fun hb => short (congrArg UInt8.toNat hb), fun hb => large (congrArg UInt8.toNat hb)⟩
    refine if_pos (Bool.and_eq_true_iff.2 ⟨Bool.and_eq_true_iff.2 ⟨hx', ?_⟩, isTail_iff.2 hz⟩)
    exact isTail_iff.2 hy

theorem isIllFormed_eq (h : Wide b more c) (after : Bytes) :
    isIllFormed b (more ++ after) = false := by
  have hpos : more ≠ [] := by
    cases h <;> exact List.cons_ne_nil _ _
  simp [isIllFormed, h.decodeAt_eq, hpos]

end Wide

theorem isIllFormed_of_lt {b : UInt8} (h : b < 0x80) (rest : Bytes) :
    isIllFormed b rest = false := by
  simp [isIllFormed, UInt8.not_le.2 h]

private theorem isWellFormedFrom_eq (skip : Nat) (text : Bytes) :
    isWellFormedFrom skip text = isWellFormed (text.drop skip) := by
  induction skip generalizing text with
  | zero => rfl
  | succ skip ih =>
    cases text with
    | nil => rfl
    | cons b rest => exact ih rest

private theorem isWellFormed_cons_eq (b : UInt8) (rest : Bytes) : isWellFormed (b :: rest) =
    (!isIllFormed b rest && isWellFormed (rest.drop ((decodeAt b rest).2 - 1))) := by
  rw [← isWellFormedFrom_eq]
  rfl

/-- The characters of a text, encoded again. A byte that starts no well-formed character becomes
the replacement character. -/
def repair (text : Bytes) : Bytes := (runes text).flatMap encode

private theorem runesFrom_eq (skip : Nat) (text : Bytes) :
    runesFrom skip text = runes (text.drop skip) := by
  induction skip generalizing text with
  | zero => rfl
  | succ skip ih =>
    cases text with
    | nil => rfl
    | cons b rest => exact ih rest

theorem repair_cons (b : UInt8) (rest : Bytes) : repair (b :: rest) =
    encode (decodeAt b rest).1 ++ repair (rest.drop ((decodeAt b rest).2 - 1)) := by
  rw [repair, runes, runesFrom, List.flatMap_cons, runesFrom_eq]
  rfl

theorem isScalar_of_lt {b : UInt8} (h : b < 0x80) : isScalar b.toNat = true := by
  have hlt : b.toNat < 0x80 := UInt8.lt_iff_toNat_lt.1 h
  have hmax : b.toNat ≤ maxRune := Nat.le_trans (Nat.le_of_lt hlt) (by decide)
  simp only [isScalar, decide_eq_true hmax, Bool.true_and, Bool.not_eq_true',
    Bool.and_eq_false_iff, decide_eq_false_iff_not]
  omega

theorem encode_of_lt {b : UInt8} (h : b < 0x80) : encode b.toNat = [b] := by
  have hlt : b.toNat < 0x80 := UInt8.lt_iff_toNat_lt.1 h
  simp [encode, isScalar_of_lt h, hlt]

/-- No byte on its own is read as the first one of the replacement character. -/
theorem encode_replacement_ne {b : UInt8} {rest : Bytes}
    (h : decodeAt b rest = (replacement, 1)) (after : Bytes) :
    encode replacement ++ after ≠ b :: rest := by
  intro heq
  obtain ⟨rfl, rfl⟩ := List.cons.inj heq
  cases h

/-- Encoding the characters of a text again gives the text where it is well-formed, and only
there. -/
theorem repair_eq_self_iff (text : Bytes) : repair text = text ↔ isWellFormed text = true := by
  induction hl : text.length using Nat.strongRecOn generalizing text with
  | ind length ih =>
    cases text with
    | nil => exact ⟨fun _ => rfl, fun _ => rfl⟩
    | cons b rest =>
      rw [List.length_cons] at hl
      rw [repair_cons, isWellFormed_cons_eq]
      rcases UInt8.lt_or_le b 0x80 with hlt | hge
      · have hrest := ih rest.length (by omega) rest rfl
        rw [decodeAt_of_lt hlt, encode_of_lt hlt, isIllFormed_of_lt hlt]
        simpa using hrest
      rcases finds_decodeAt hge rest with hone | ⟨more, after, c, rfl, hw, hd⟩
      · have hill : isIllFormed b rest = true := by simp [isIllFormed, hge, hone]
        rw [hill, hone]
        exact ⟨fun h => absurd h (encode_replacement_ne hone _), nofun⟩
      · rw [List.length_append] at hl
        have hafter := ih after.length (by omega) after rfl
        rw [hw.isIllFormed_eq, hd, hw.encode_eq, Nat.add_sub_cancel, List.drop_left]
        simpa using hafter

end PegMachine.Utf8
