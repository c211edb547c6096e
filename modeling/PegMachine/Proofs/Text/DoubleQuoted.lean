import Mathlib.Algebra.Group.Nat.Defs
import PegMachine.Proofs.Text.Quoted

namespace PegMachine.Quoted

/-- A hexadecimal digit stands for the last four bits that it was written for. -/
theorem hexValue?_hexDigit (n : Nat) : Ascii.hexValue? (Ascii.hexDigit n) = some (n % 16) := by
  have hall : ∀ d : Fin 16, Ascii.hexValue? (Ascii.hexDigit d) = some d.val := by decide
  have hlast : Ascii.hexDigit n = Ascii.hexDigit (n % 16) := by
    rw [Ascii.hexDigit, Ascii.hexDigit, Nat.mod_mod]
  rw [hlast]
  exact hall ⟨n % 16, Nat.mod_lt n (by decide)⟩

private theorem hexDigit_ne_newline (n : Nat) : Ascii.hexDigit n ≠ Ascii.newline := by
  intro h
  have hvalue := hexValue?_hexDigit n
  rw [h] at hvalue
  cases hvalue

private theorem newline_not_mem_hex (count n : Nat) : Ascii.newline ∉ hex count n := by
  induction count generalizing n with
  | zero => exact List.not_mem_nil
  | succ count ih =>
    rw [hex, List.mem_append, not_or, List.mem_singleton]
    exact ⟨ih _, (hexDigit_ne_newline n).symm⟩

/-- Digits can be read in two parts. -/
theorem number?_add (base : Nat) (digit? : UInt8 → Option Nat) (j k value : Nat) (text : Bytes) :
    number? base digit? (j + k) value text =
      (number? base digit? j value text).bind fun found =>
        number? base digit? k found.1 found.2 := by
  induction j generalizing value text with
  | zero => rw [Nat.zero_add, number?, Option.bind_some]
  | succ j ih =>
    rw [Nat.succ_add]
    cases text with
    | nil => rfl
    | cons b rest =>
      simp only [number?]
      cases digit? b with
      | none => rfl
      | some d => exact ih _ _

/-- Hexadecimal digits are read as what they were written for, as far as there were digits. -/
theorem number?_hex (count n value : Nat) (rest : Bytes) :
    number? 16 Ascii.hexValue? count value (hex count n ++ rest) =
      some (value * 16 ^ count + n % 16 ^ count, rest) := by
  induction count generalizing n rest with
  | zero => simp [hex, number?, Nat.mod_one]
  | succ count ih =>
    have hlast : (value * 16 ^ count + n / 16 % 16 ^ count) * 16 + n % 16 =
        value * 16 ^ (count + 1) + n % 16 ^ (count + 1) := by
      rw [Nat.pow_succ, Nat.mul_comm (16 ^ count) 16, Nat.mod_mul, Nat.mul_left_comm]
      omega
    rw [number?_add, hex, List.append_assoc, ih, Option.bind_some]
    simp only [List.singleton_append, number?, hexValue?_hexDigit, hlast]

theorem number?_hex_of_lt {count n : Nat} (h : n < 16 ^ count) (rest : Bytes) :
    number? 16 Ascii.hexValue? count 0 (hex count n ++ rest) = some (n, rest) := by
  rw [number?_hex, Nat.zero_mul, Nat.zero_add, Nat.mod_eq_of_lt h]

/-- How a character, or a byte that starts none, is written between double quotes, where `plain`
are the characters that are written as they are. -/
inductive Piece (plain : Nat → Bool) : Bytes → Bytes → Prop where
  | ascii {b : UInt8} (hb : b < 0x80) (hp : plain b.toNat = true) (hquote : b ≠ Ascii.quote)
    (hslash : b ≠ Ascii.backslash) : Piece plain [b] [b]
  | wide {b : UInt8} {more : Bytes} {c : Nat} (h : Utf8.Wide b more c) :
    Piece plain (b :: more) (b :: more)
  | escape {letters taken : Bytes}
    (hr : ∀ rest, unescape? Ascii.quote (letters ++ rest) = some (taken, rest))
    (hn : Ascii.newline ∉ letters) : Piece plain (Ascii.backslash :: letters) taken

variable {plain : Nat → Bool}

theorem Piece.read {piece taken : Bytes} (h : Piece plain piece taken) (rest : Bytes) :
    unquoteRune? Ascii.quote (piece ++ rest) = some (taken, rest) := by
  cases h with
  | @ascii b hb _ hquote hslash =>
    rw [List.singleton_append, unquoteRune?, if_neg hquote, if_neg (UInt8.not_le.2 hb),
      if_pos hslash]
  | @wide b more c hw =>
    have hge : b ≥ 0x80 := UInt8.le_iff_toNat_le.2 hw.ge
    have hquote : b ≠ Ascii.quote := by
      rintro rfl
      exact absurd hge (by decide)
    rw [List.cons_append, unquoteRune?, if_neg hquote, if_pos hge, hw.decodeAt_eq, hw.encode_eq,
      List.drop_succ_cons, List.drop_left]
  | escape hr => exact hr rest

theorem Piece.ne_nil {piece taken : Bytes} (h : Piece plain piece taken) : piece ≠ [] := by
  cases h <;> exact List.cons_ne_nil _ _

private theorem Piece.newline_not_mem
    {piece taken : Bytes} (hplain : plain Ascii.newline.toNat = false)
    (h : Piece plain piece taken) : Ascii.newline ∉ piece := by
  cases h with
  | ascii _ hp =>
    rw [List.mem_singleton]
    rintro rfl
    cases hplain.symm.trans hp
  | @wide b more c hw =>
    have hge : ∀ x ∈ b :: more, 0x80 ≤ x.toNat := List.forall_mem_cons.2 ⟨hw.ge, hw.ge_of_mem⟩
    exact fun hmem => absurd (hge _ hmem) (by decide)
  | escape _ hn =>
    rw [List.mem_cons, not_or]
    exact ⟨by decide, hn⟩

/-- A letter and hexadecimal digits behind a backslash. -/
theorem piece_hex {letter : UInt8} {count n : Nat} {taken : Bytes} (hl : letter ≠ Ascii.newline)
    (hr : ∀ rest, unescape? Ascii.quote (letter :: (hex count n ++ rest)) = some (taken, rest)) :
    Piece plain (Ascii.backslash :: letter :: hex count n) taken := by
  refine .escape hr ?_
  rw [List.mem_cons, not_or]
  exact ⟨hl.symm, newline_not_mem_hex count n⟩

/-- Two digits are a byte. -/
theorem piece_byte {n : Nat} (h : n < 0x100) : Piece plain ("\\x" ++ hex 2 n) [n.toUInt8] := by
  refine piece_hex (by decide) fun rest => ?_
  change (number? 16 Ascii.hexValue? 2 0 (hex 2 n ++ rest)).map _ = _
  rw [number?_hex_of_lt h, Option.map_some]

/-- Four digits are a character. -/
theorem piece_short {c : Nat} (hs : Utf8.isScalar c = true) (h : c < 0x10000) :
    Piece plain ("\\u" ++ hex 4 c) (Utf8.encode c) := by
  refine piece_hex (by decide) fun rest => ?_
  change (number? 16 Ascii.hexValue? 4 0 (hex 4 c ++ rest)).bind _ = _
  rw [number?_hex_of_lt h, Option.bind_some]
  exact if_pos hs

/-- Eight digits are a character, however large. -/
theorem piece_long {c : Nat} (hs : Utf8.isScalar c = true) :
    Piece plain ("\\U" ++ hex 8 c) (Utf8.encode c) := by
  have hmax : c ≤ Utf8.maxRune := by
    simp only [Utf8.isScalar, Bool.and_eq_true, decide_eq_true_eq] at hs
    exact hs.1
  refine piece_hex (by decide) fun rest => ?_
  change (number? 16 Ascii.hexValue? 8 0 (hex 8 c ++ rest)).bind _ = _
  rw [number?_hex_of_lt (Nat.lt_of_le_of_lt hmax (by decide)), Option.bind_some]
  exact if_pos hs

/-- A letter behind a backslash stands for its control character. -/
theorem piece_control {c : Nat} {letter : UInt8} (h : controlLetter? c = some letter) :
    Piece plain [Ascii.backslash, letter] (Utf8.encode c) := by
  unfold controlLetter? at h
  split at h <;> cases h <;> exact .escape (fun _ => rfl) (by decide)

/-- A character between double quotes stands for its bytes. -/
theorem piece_quoteRune {c : Nat} (hs : Utf8.isScalar c = true)
    (hraw : plain c = true → c ≠ Ascii.quote.toNat → c ≠ Ascii.backslash.toNat →
      Piece plain (Utf8.encode c) (Utf8.encode c)) :
    Piece plain (quoteRune plain c) (Utf8.encode c) := by
  unfold quoteRune
  split
  · next hmark =>
    rcases hmark with rfl | rfl <;> exact .escape (fun _ => rfl) (by decide)
  next hmark =>
  split
  · next hp => exact hraw hp (fun h => hmark (.inl h)) (fun h => hmark (.inr h))
  split
  · next hletter => exact piece_control hletter
  split
  · next hcontrol =>
    have hbyte : Utf8.encode c = [c.toUInt8] := by
      rw [Utf8.encode, hs, if_pos (show c < 0x80 by omega)]
      rfl
    rw [hbyte]
    exact piece_byte (by omega)
  split
  · next hshort => exact piece_short hs hshort
  · exact piece_long hs

private theorem quoteFrom_eq (skip : Nat) (text : Bytes) :
    quoteFrom plain skip text = quoteFrom plain 0 (text.drop skip) := by
  induction skip generalizing text with
  | zero => rfl
  | succ skip ih =>
    cases text with
    | nil => rfl
    | cons b rest => exact ih rest

/-- The first piece of a quoted text is written for the bytes that the text begins with, and the
others for the text behind them. -/
theorem quoteFrom_cons (plain : Nat → Bool) (b : UInt8) (rest : Bytes) :
    ∃ piece taken after, b :: rest = taken ++ after ∧ taken ≠ [] ∧ Piece plain piece taken ∧
      quoteFrom plain 0 (b :: rest) = piece ++ quoteFrom plain 0 after := by
  rcases UInt8.lt_or_le b 0x80 with hlt | hge
  · refine ⟨quoteRune plain b.toNat, [b], rest, rfl, by simp, ?_, ?_⟩
    · have hraw (hp : plain b.toNat = true) (hquote : b.toNat ≠ Ascii.quote.toNat)
          (hslash : b.toNat ≠ Ascii.backslash.toNat) : Piece plain [b] [b] :=
        .ascii hlt hp (fun h => hquote (congrArg _ h)) fun h => hslash (congrArg _ h)
      have hpiece := piece_quoteRune (Utf8.isScalar_of_lt hlt) (by rwa [Utf8.encode_of_lt hlt])
      rwa [Utf8.encode_of_lt hlt] at hpiece
    · rw [quoteFrom, Utf8.isIllFormed_of_lt hlt, Utf8.decodeAt_of_lt hlt]
      rfl
  rcases Utf8.finds_decodeAt hge rest with hone | ⟨more, after, c, rfl, hw, hd⟩
  · refine ⟨"\\x" ++ hex 2 b.toNat, [b], rest, rfl, by simp, ?_, ?_⟩
    · have hpiece : Piece plain _ _ := piece_byte b.toNat_lt
      rwa [Nat.toUInt8_eq, UInt8.ofNat_toNat] at hpiece
    · have hill : Utf8.isIllFormed b rest = true := by simp [Utf8.isIllFormed, hge, hone]
      rw [quoteFrom, hill, if_pos rfl]
  · refine ⟨quoteRune plain c, b :: more, after, rfl, by simp, ?_, ?_⟩
    · have hraw : Piece plain (Utf8.encode c) (Utf8.encode c) := by
        rw [hw.encode_eq]
        exact .wide hw
      have hpiece := piece_quoteRune hw.isScalar_eq fun _ _ _ => hraw
      rwa [hw.encode_eq] at hpiece
    · rw [quoteFrom, hw.isIllFormed_eq, hd, Nat.add_sub_cancel, quoteFrom_eq more.length,
        List.drop_left]
      rfl

/-- A text as it is written between double quotes, piece by piece, and the text itself. -/
inductive Quotes (plain : Nat → Bool) : Bytes → Bytes → Prop where
  | nil : Quotes plain [] []
  | cons {piece taken quoted text : Bytes} (hp : Piece plain piece taken)
    (h : Quotes plain quoted text) : Quotes plain (piece ++ quoted) (taken ++ text)

theorem quotes_quoteFrom (plain : Nat → Bool) (text : Bytes) :
    Quotes plain (quoteFrom plain 0 text) text := by
  induction hl : text.length using Nat.strongRecOn generalizing text with
  | ind length ih =>
    cases text with
    | nil => exact .nil
    | cons b rest =>
      obtain ⟨piece, taken, after, htext, htaken, hpiece, hquote⟩ := quoteFrom_cons plain b rest
      have hpos := List.length_pos_iff.2 htaken
      have hsplit := congrArg List.length htext
      rw [List.length_append] at hsplit
      rw [hquote, htext]
      exact .cons hpiece (ih after.length (by omega) after rfl)

theorem Quotes.read {quoted text : Bytes} (h : Quotes plain quoted text) {fuel : Nat}
    (hf : quoted.length ≤ fuel) : unquoteWith Ascii.quote fuel quoted = some text := by
  induction h generalizing fuel with
  | nil => rw [unquoteWith]
  | @cons piece taken quoted text hp h ih =>
    have hrune := hp.read quoted
    obtain ⟨x, body, rfl⟩ := List.exists_cons_of_ne_nil hp.ne_nil
    cases fuel with
    | zero => simp at hf
    | succ fuel =>
      simp only [List.cons_append, List.length_cons, List.length_append] at hf hrune ⊢
      have hrest : unquoteWith Ascii.quote fuel quoted = some text := ih (by omega)
      simp only [unquoteWith, hrune, hrest, Option.map_some]

private theorem Quotes.newline_not_mem
    {quoted text : Bytes} (hplain : plain Ascii.newline.toNat = false)
    (h : Quotes plain quoted text) : Ascii.newline ∉ quoted := by
  induction h with
  | nil => exact List.not_mem_nil
  | cons hp h ih =>
    rw [List.mem_append, not_or]
    exact ⟨hp.newline_not_mem hplain, ih⟩

/-- What stands between the double quotes denotes the text that was quoted. -/
theorem unquote?_quoteFrom (plain : Nat → Bool) (text : Bytes) :
    unquote? Ascii.quote (quoteFrom plain 0 text) = some text :=
  (quotes_quoteFrom plain text).read (Nat.le_refl _)

private theorem quoteWith_injective (plain : Nat → Bool) :
    Function.Injective (quoteWith plain) := by
  intro text text' h
  have hbody := List.append_cancel_right (List.cons.inj h).2
  have hread := unquote?_quoteFrom plain text
  rw [hbody, unquote?_quoteFrom] at hread
  exact (Option.some.inj hread).symm

/-- A quoted text stands on one line. -/
theorem newline_not_mem_quote (text : Bytes) : Ascii.newline ∉ quote text := by
  have hplain : Unicode.isPrintable Ascii.newline.toNat = false := by decide
  have hbody := (quotes_quoteFrom Unicode.isPrintable text).newline_not_mem hplain
  simp only [quote, quoteWith, List.mem_cons, List.mem_append, List.not_mem_nil, or_false, not_or]
  exact ⟨by decide, hbody, by decide⟩

/-- Texts that look the same in double quotes are the same. -/
theorem quote_injective : Function.Injective quote := quoteWith_injective Unicode.isPrintable

end PegMachine.Quoted
