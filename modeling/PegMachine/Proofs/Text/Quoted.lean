import PegMachine.Text.Quoted
import PegMachine.Proofs.Text.Utf8

namespace PegMachine.Quoted

theorem escapeByte_cases (b : UInt8) :
    (b ≠ Ascii.backslash ∧ b ≠ Ascii.apostrophe ∧ escapeByte b = [b]) ∨
      ∃ x, escapeByte b = [Ascii.backslash, x] ∧ x < 0x80 ∧ x ≠ Ascii.newline ∧
        ∀ rest, unescape? Ascii.apostrophe (x :: rest) = some ([b], rest) := by
  unfold escapeByte
  split
  · next h =>
    subst h
    exact .inr ⟨Ascii.backslash, by decide, by decide, by decide, fun _ => rfl⟩
  split
  · next h =>
    subst h
    exact .inr ⟨Ascii.apostrophe, by decide, by decide, by decide, fun _ => rfl⟩
  split
  · next h =>
    subst h
    exact .inr ⟨Ascii.code 'n', by decide, by decide, by decide, fun _ => rfl⟩
  split
  · next h =>
    subst h
    exact .inr ⟨Ascii.code 'r', by decide, by decide, by decide, fun _ => rfl⟩
  split
  · next h =>
    subst h
    exact .inr ⟨Ascii.code 't', by decide, by decide, by decide, fun _ => rfl⟩
  · next hbackslash hquote _ _ _ => exact .inl ⟨hbackslash, hquote, rfl⟩

theorem escapeByte_of_ge {b : UInt8} (h : 0x80 ≤ b.toNat) : escapeByte b = [b] := by
  have differs {x : UInt8} (hx : x.toNat < 0x80) : b ≠ x := by
    rintro rfl
    omega
  unfold escapeByte
  rw [if_neg (differs (by decide)), if_neg (differs (by decide)), if_neg (differs (by decide)),
    if_neg (differs (by decide)), if_neg (differs (by decide))]

theorem escape_cons (b : UInt8) (rest : Bytes) : escape (b :: rest) = escapeByte b ++ escape rest :=
  rfl

theorem escape_append (s t : Bytes) : escape (s ++ t) = escape s ++ escape t :=
  List.flatMap_append

theorem escape_of_ge {more : Bytes} (h : ∀ x ∈ more, 0x80 ≤ x.toNat) : escape more = more := by
  induction more with
  | nil => rfl
  | cons x more ih =>
    rw [escape_cons, escapeByte_of_ge (h x (by simp)), ih fun y hy => h y (by simp [hy])]
    rfl

private theorem unquoteRune?_escapeByte {b : UInt8} (h : b < 0x80) (rest : Bytes) :
    unquoteRune? Ascii.apostrophe (escapeByte b ++ rest) = some ([b], rest) := by
  rcases escapeByte_cases b with ⟨hb, hq, he⟩ | ⟨x, he, -, -, hu⟩
  · rw [he]
    simp only [List.cons_append, List.nil_append, unquoteRune?]
    rw [if_neg hq, if_neg (UInt8.not_le.2 h), if_pos hb]
  · rw [he]
    exact hu rest

/-- Bytes outside of ASCII at the start of what is written are those of the text. -/
theorem escape_split {more after rest : Bytes} (hm : ∀ x ∈ more, 0x80 ≤ x.toNat)
    (h : escape rest = more ++ after) : ∃ rest', rest = more ++ rest' ∧ after = escape rest' := by
  induction more generalizing rest with
  | nil => exact ⟨rest, rfl, h.symm⟩
  | cons x more ih =>
    have hx := hm x (by simp)
    cases rest with
    | nil => cases h
    | cons b rest =>
      rw [escape_cons] at h
      rcases UInt8.lt_or_le b 0x80 with hlt | hge
      · exfalso
        have hfirst : ∃ y ys, escapeByte b = y :: ys ∧ y < 0x80 := by
          rcases escapeByte_cases b with ⟨-, -, he⟩ | ⟨y, he, -⟩
          · exact ⟨b, [], he, hlt⟩
          · exact ⟨Ascii.backslash, [y], he, by decide⟩
        obtain ⟨y, ys, he, hy⟩ := hfirst
        rw [he] at h
        obtain rfl : y = x := (List.cons.inj h).1
        exact Nat.not_lt.2 hx (UInt8.lt_iff_toNat_lt.1 hy)
      · rw [escapeByte_of_ge (UInt8.le_iff_toNat_le.1 hge)] at h
        obtain ⟨rfl, htail⟩ := List.cons.inj h
        obtain ⟨rest', rfl, hafter⟩ := ih (fun y hy => hm y (by simp [hy])) htail
        exact ⟨rest', rfl, hafter⟩

/-- Escaping what comes behind a byte does not change the character that starts there. -/
theorem decodeAt_escape {b : UInt8} (h : 0x80 ≤ b) (rest : Bytes) :
    Utf8.decodeAt b (escape rest) = Utf8.decodeAt b rest := by
  rcases Utf8.finds_decodeAt h (escape rest) with hone | ⟨more, after, c, hmore, hw, hd⟩
  · rcases Utf8.finds_decodeAt h rest with hone' | ⟨more, after, c, rfl, hw, hd⟩
    · rw [hone, hone']
    · rw [hd, escape_append, escape_of_ge hw.ge_of_mem, hw.decodeAt_eq]
  · obtain ⟨rest', rfl, -⟩ := escape_split hw.ge_of_mem hmore
    rw [hd, hw.decodeAt_eq]

private theorem drop_escape {b : UInt8} (h : 0x80 ≤ b) (rest : Bytes) :
    (b :: escape rest).drop (Utf8.decodeAt b rest).2 =
      escape (rest.drop ((Utf8.decodeAt b rest).2 - 1)) := by
  rcases Utf8.finds_decodeAt h rest with hone | ⟨more, after, c, rfl, hw, hd⟩
  · rw [hone]
    rfl
  · rw [hd, escape_append, escape_of_ge hw.ge_of_mem, List.drop_succ_cons, Nat.add_sub_cancel,
      List.drop_left, List.drop_left]

/-- The first character of a literal is read, and the rest is still to be read. -/
theorem unquoteRune?_escape (b : UInt8) (rest : Bytes) :
    unquoteRune? Ascii.apostrophe (escape (b :: rest)) =
      some (Utf8.encode (Utf8.decodeAt b rest).1,
        escape (rest.drop ((Utf8.decodeAt b rest).2 - 1))) := by
  rcases UInt8.lt_or_le b 0x80 with hlt | hge
  · rw [escape_cons, unquoteRune?_escapeByte hlt, Utf8.decodeAt_of_lt hlt, Utf8.encode_of_lt hlt]
    rfl
  · have hq : b ≠ Ascii.apostrophe := by
      rintro rfl
      exact absurd hge (by decide)
    rw [escape_cons, escapeByte_of_ge (UInt8.le_iff_toNat_le.1 hge), List.singleton_append,
      unquoteRune?, if_neg hq, if_pos hge, decodeAt_escape hge, drop_escape hge]

private theorem length_escape_drop_lt (b : UInt8) (rest : Bytes) (n : Nat) :
    (escape (rest.drop n)).length < (escape (b :: rest)).length := by
  have hsplit : escape rest = escape (rest.take n) ++ escape (rest.drop n) := by
    rw [← escape_append, List.take_append_drop]
  have hpos : 0 < (escapeByte b).length := by
    rcases escapeByte_cases b with ⟨-, -, he⟩ | ⟨x, he, -⟩ <;> simp [he]
  rw [escape_cons, hsplit]
  simp only [List.length_append]
  omega

private theorem unquoteWith_escape {fuel : Nat} {text : Bytes} (hf : (escape text).length ≤ fuel) :
    unquoteWith Ascii.apostrophe fuel (escape text) = some (Utf8.repair text) := by
  induction fuel generalizing text with
  | zero =>
    cases text with
    | nil => rfl
    | cons b rest =>
      have hlt := length_escape_drop_lt b rest 0
      omega
  | succ fuel ih =>
    cases text with
    | nil => rfl
    | cons b rest =>
      have hlt := length_escape_drop_lt b rest ((Utf8.decodeAt b rest).2 - 1)
      have hrune := unquoteRune?_escape b rest
      cases he : escape (b :: rest) with
      | nil => simp [he] at hlt
      | cons x body =>
        have hrest := ih (Nat.le_of_lt_succ (Nat.lt_of_lt_of_le hlt hf))
        rw [he] at hrune
        simp only [unquoteWith, hrune, hrest, Option.map_some, Utf8.repair_cons]

/-- What a text is written as denotes that text, with its characters encoded again. -/
theorem unquote?_escape (text : Bytes) :
    unquote? Ascii.apostrophe (escape text) = some (Utf8.repair text) :=
  unquoteWith_escape (Nat.le_refl _)

end PegMachine.Quoted
