import PegMachine.Proofs.Regex.Suffixes
import PegMachine.Proofs.Text.Utf8

namespace PegMachine

theorem Utf8.decodeAt_bounds {b : UInt8} (h : 0x80 ≤ b) (rest : Bytes) :
    0x80 ≤ (decodeAt b rest).1 ∧ (decodeAt b rest).1 ≤ maxRune := by
  rcases finds_decodeAt h rest with hone | ⟨more, after, c, -, hw, hd⟩
  · rw [hone]
    decide
  · rw [hd]
    exact hw.bounds

namespace CharClass

private theorem contains_append (as bs : CharClass) (c : Nat) :
    contains (as ++ bs) c = (as.contains c || bs.contains c) := List.any_append

theorem contains_iff {cls : CharClass} {c : Nat} :
    cls.contains c = true ↔ ∃ range ∈ cls, range.1 ≤ c ∧ c ≤ range.2 := by
  simp [contains, List.any_eq_true]

theorem contains_single {n c : Nat} : contains [(n, n)] c = true ↔ c = n := by
  simp only [contains, List.any_cons, List.any_nil, Bool.or_false, Bool.and_eq_true,
    decide_eq_true_eq]
  omega

theorem not_contains_of_isDisjoint {as bs : CharClass} (h : as.isDisjoint bs = true) {c : Nat}
    (hc : as.contains c = true) : bs.contains c = false := by
  rw [← Bool.not_eq_true, contains_iff]
  rintro ⟨b, hb, hlo, hhi⟩
  obtain ⟨a, ha, hlo', hhi'⟩ := contains_iff.1 hc
  have hab := List.all_eq_true.1 (List.all_eq_true.1 h a ha) b hb
  simp only [Bool.or_eq_true, decide_eq_true_eq] at hab
  omega

/-- Whether each range of the first set is part of one of the second. -/
def isPartOf (as bs : CharClass) : Bool :=
  as.all fun a => bs.any fun b => decide (b.1 ≤ a.1) && decide (a.2 ≤ b.2)

theorem contains_of_isPartOf {as bs : CharClass} (h : as.isPartOf bs = true) {c : Nat}
    (hc : as.contains c = true) : bs.contains c = true := by
  obtain ⟨a, ha, hlo, hhi⟩ := contains_iff.1 hc
  obtain ⟨b, hb, hab⟩ := List.any_eq_true.1 (List.all_eq_true.1 h a ha)
  simp only [Bool.and_eq_true, decide_eq_true_eq] at hab
  exact contains_iff.2 ⟨b, hb, Nat.le_trans hab.1 hlo, Nat.le_trans hhi hab.2⟩

end CharClass

/-- The text is at its end, or it starts with a character of ASCII that is in the class. -/
def StartsIn (cls : CharClass) (s : Bytes) : Prop :=
  ∀ b ∈ s.head?, b < 0x80 ∧ cls.contains b.toNat = true

namespace StartsIn

variable {cls : CharClass} {s : Bytes}

theorem nil : StartsIn cls [] := by
  intro b hb
  cases hb

theorem cons {b : UInt8} (h : b < 0x80) (hc : cls.contains b.toNat = true) :
    StartsIn cls (b :: s) := by
  rintro b' ⟨⟩
  exact ⟨h, hc⟩

theorem mono (h : StartsIn cls s) {more : CharClass} (hm : cls.isPartOf more = true) :
    StartsIn more s := by
  intro b hb
  obtain ⟨hlt, hc⟩ := h b hb
  exact ⟨hlt, CharClass.contains_of_isPartOf hm hc⟩

end StartsIn

namespace Regex

def isSolid : Regex → Bool
  | .one _ => true
  | .seq first _ => isSolid first
  | .alt left right => isSolid left && isSolid right
  | .times least _ item => decide (0 < least) && isSolid item
  | _ => false

/-- The characters with which a match may begin. -/
def firsts : Regex → CharClass
  | .one cls => cls
  | .seq first _ => firsts first
  | .alt left right => firsts left ++ firsts right
  | .times _ _ item => firsts item
  | _ => []

theorem Takes.firsts {r : Regex} (hs : r.isSolid = true) {s t : Bytes} (h : r.Takes s t) :
    ∃ b rest, s = b :: rest ∧ r.firsts.contains (Utf8.decodeAt b rest).1 = true := by
  induction r generalizing s t with
  | empty => cases hs
  | one cls =>
    obtain ⟨b, rest, hb, hc, -⟩ := h
    exact ⟨b, rest, hb, hc⟩
  | written c => cases hs
  | look anchor => cases hs
  | seq first second ih₁ =>
    obtain ⟨m, hm, -⟩ := h
    exact ih₁ hs hm
  | alt left right ih₁ ih₂ =>
    obtain ⟨h₁, h₂⟩ := Bool.and_eq_true_iff.1 hs
    simp only [Regex.firsts, CharClass.contains_append, Bool.or_eq_true]
    rcases h with h | h
    · obtain ⟨b, rest, hb, hc⟩ := ih₁ h₁ h
      exact ⟨b, rest, hb, .inl hc⟩
    · obtain ⟨b, rest, hb, hc⟩ := ih₂ h₂ h
      exact ⟨b, rest, hb, .inr hc⟩
  | times least most item ih =>
    obtain ⟨hleast, hi⟩ := Bool.and_eq_true_iff.1 hs
    have hpos := of_decide_eq_true hleast
    obtain ⟨n, hle, -, hn⟩ := h
    obtain ⟨n, rfl⟩ := Nat.exists_eq_succ_of_ne_zero (Nat.ne_of_gt (Nat.lt_of_lt_of_le hpos hle))
    obtain ⟨m, hm, -⟩ := hn
    exact ih hi hm

theorem not_takes {r : Regex} (hs : r.isSolid = true) {cls : CharClass} {s : Bytes}
    (h : StartsIn cls s) (hd : cls.isDisjoint r.firsts = true) (t : Bytes) : ¬r.Takes s t := by
  intro ht
  obtain ⟨b, rest, rfl, hb⟩ := ht.firsts hs
  obtain ⟨hlt, hc⟩ := h b rfl
  rw [Utf8.decodeAt_of_lt hlt, CharClass.not_contains_of_isDisjoint hd hc] at hb
  cases hb

theorem takes_one_iff {cls : CharClass} {b : UInt8} (h : b < 0x80) {s t : Bytes} :
    (one cls).Takes (b :: s) t ↔ cls.contains b.toNat = true ∧ s = t := by
  constructor
  · rintro ⟨b', rest, hs, hc, rfl⟩
    cases hs
    rw [Utf8.decodeAt_of_lt h] at hc ⊢
    exact ⟨hc, rfl⟩
  · rintro ⟨hc, rfl⟩
    refine ⟨b, s, rfl, ?_, ?_⟩
    · rwa [Utf8.decodeAt_of_lt h]
    · rw [Utf8.decodeAt_of_lt h]
      rfl

theorem takes_one_wide
    {cls : CharClass} (hc : ∀ c, 0x80 ≤ c → c ≤ Utf8.maxRune → cls.contains c = true)
    {b : UInt8} (h : 0x80 ≤ b) {s t : Bytes} :
    (one cls).Takes (b :: s) t ↔ (b :: s).drop (Utf8.decodeAt b s).2 = t := by
  obtain ⟨hlo, hhi⟩ := Utf8.decodeAt_bounds h s
  constructor
  · rintro ⟨b', rest, hs, -, rfl⟩
    cases hs
    rfl
  · rintro rfl
    exact ⟨b, s, rfl, hc _ hlo hhi, rfl⟩

theorem not_takes_one_wide {cls : CharClass} (hc : ∀ c, 0x80 ≤ c → cls.contains c = false)
    {b : UInt8} (h : 0x80 ≤ b) {s t : Bytes} : ¬(one cls).Takes (b :: s) t := by
  rintro ⟨b', rest, hs, ht, -⟩
  cases hs
  rw [hc _ (Utf8.decodeAt_bounds h s).1] at ht
  cases ht

/-- The least number of characters in a match. -/
def shortest : Regex → Nat
  | .one _ => 1
  | .seq first second => shortest first + shortest second
  | .alt left right => min (shortest left) (shortest right)
  | .times least _ item => least * shortest item
  | _ => 0

theorem Takes.shortest_le {r : Regex} {s t : Bytes} (h : r.Takes s t) :
    t.length + r.shortest ≤ s.length := by
  induction r generalizing s t with
  | empty => exact Nat.le_of_eq (congrArg List.length h).symm
  | one cls =>
    obtain ⟨b, rest, rfl, -, rfl⟩ := h
    have hw := Utf8.width_decodeAt b rest
    simp only [shortest, List.length_drop, List.length_cons]
    omega
  | written c => exact h.elim
  | look anchor => exact h.elim
  | seq first second ih₁ ih₂ =>
    obtain ⟨m, hm, ht⟩ := h
    have hfirst := ih₁ hm
    have hsecond := ih₂ ht
    simp only [shortest]
    omega
  | alt left right ih₁ ih₂ =>
    simp only [shortest]
    rcases h with h | h
    · have hleft := ih₁ h
      omega
    · have hright := ih₂ h
      omega
  | times least most item ih =>
    obtain ⟨n, hle, -, hn⟩ := h
    have hrounds : t.length + n * item.shortest ≤ s.length := by
      clear hle
      induction n generalizing s with
      | zero => simpa using Nat.le_of_eq (congrArg List.length hn).symm
      | succ n ihn =>
        obtain ⟨m, hm, ht⟩ := hn
        have hround := ih hm
        have hrest := ihn ht
        rw [Nat.succ_mul]
        omega
    have hleast := Nat.mul_le_mul_right item.shortest hle
    simp only [shortest]
    omega

/-- A run of characters of ASCII is a word of bytes of the class. -/
theorem Takes.run {cls : CharClass} (hcls : ∀ c, 0x80 ≤ c → cls.contains c = false) {least : Nat}
    {most : Option Nat} {s t : Bytes} (h : (times least most (.one cls)).Takes s t) :
    ∃ word, s = word ++ t ∧ least ≤ word.length ∧ ∀ b ∈ word, cls.contains b.toNat = true := by
  obtain ⟨n, hle, -, hn⟩ := h
  have hword : ∃ word, s = word ++ t ∧ word.length = n ∧
      ∀ b ∈ word, cls.contains b.toNat = true := by
    clear hle
    induction n generalizing s with
    | zero => exact ⟨[], hn, rfl, by simp⟩
    | succ n ih =>
      obtain ⟨m, hm, ht⟩ := hn
      obtain ⟨word, rfl, hlen, hw⟩ := ih ht
      obtain ⟨b, rest, rfl, -⟩ := id hm
      rcases UInt8.lt_or_le b 0x80 with hlt | hge
      · obtain ⟨hc, rfl⟩ := (takes_one_iff hlt).1 hm
        exact ⟨b :: word, rfl, by simp [hlen], List.forall_mem_cons.2 ⟨hc, hw⟩⟩
      · exact absurd hm (not_takes_one_wide hcls hge)
  obtain ⟨word, hs, hlen, hw⟩ := hword
  exact ⟨word, hs, hlen ▸ hle, hw⟩

/-- An item behind as many of them as wanted is one more. -/
theorem Takes.again {least : Nat} {item : Regex} {s t u : Bytes}
    (h : (times least none item).Takes s t) (hi : item.Takes t u) :
    (times least none item).Takes s u := by
  obtain ⟨n, hle, -, hn⟩ := h
  exact ⟨n + 1, Nat.le_succ_of_le hle, nofun, hn.snoc hi⟩

namespace Leaves

variable {r : Regex} {cls : CharClass} {b : UInt8} {s t : Bytes}

/-- Nothing that would make the longest match longer stands behind it. -/
theorem not_takes_behind {item : Regex} (h : r.Leaves s t) (hitem : 0 < item.shortest)
    (hmore : ∀ u, item.Takes t u → r.Takes s u) (u : Bytes) : ¬item.Takes t u := by
  intro hu
  have hle := h.least u (hmore u hu)
  have hlt := hu.shortest_le
  omega

theorem one (h : b < 0x80) (hc : cls.contains b.toNat = true) :
    (Regex.one cls).Leaves (b :: s) s := by
  refine ⟨(takes_one_iff h).2 ⟨hc, rfl⟩, ?_⟩
  intro t ht
  exact ((takes_one_iff h).1 ht).2 ▸ Nat.le_refl _

theorem seq_one (h : b < 0x80) (hc : cls.contains b.toNat = true) (hr : r.Leaves s t) :
    (seq (.one cls) r).Leaves (b :: s) t := by
  refine ⟨⟨s, (takes_one_iff h).2 ⟨hc, rfl⟩, hr.takes⟩, ?_⟩
  rintro t' ⟨m, hm, ht⟩
  obtain ⟨-, rfl⟩ := (takes_one_iff h).1 hm
  exact hr.least t' ht

theorem alt_left {other : Regex} (hr : r.Leaves s t) (ho : ∀ t', ¬other.Takes s t') :
    (alt r other).Leaves s t :=
  ⟨.inl hr.takes, fun t' ht => ht.elim (hr.least t') fun ht => absurd ht (ho t')⟩

theorem run {least : Nat} {word : Bytes}
    (hw : ∀ b ∈ word, b < 0x80 ∧ cls.contains b.toNat = true) (hl : least ≤ word.length)
    {next : CharClass} (ht : StartsIn next t) (hd : next.isDisjoint cls = true) :
    (times least none (.one cls)).Leaves (word ++ t) t := by
  constructor
  · refine ⟨word.length, hl, by simp, ?_⟩
    clear hl
    induction word with
    | nil => rfl
    | cons b word ih =>
      obtain ⟨hb, hc⟩ := hw b (by simp)
      exact ⟨word ++ t, (takes_one_iff hb).2 ⟨hc, rfl⟩, ih fun b hb => hw b (by simp [hb])⟩
  · rintro t' ⟨n, -, -, hn⟩
    clear hl
    -- a match that goes past the word would start with what stands behind it
    induction word generalizing n with
    | nil =>
      cases n with
      | zero => exact Nat.le_of_eq (congrArg List.length hn)
      | succ n =>
        obtain ⟨m, hm, -⟩ := hn
        exact absurd hm (not_takes (r := .one cls) rfl ht hd m)
    | cons b word ih =>
      cases n with
      | zero =>
        obtain rfl : b :: word ++ t = t' := hn
        simp only [List.length_append]
        omega
      | succ n =>
        obtain ⟨m, hm, hn⟩ := hn
        obtain ⟨-, rfl⟩ := (takes_one_iff (hw b (by simp)).1).1 hm
        exact ih (fun b hb => hw b (by simp [hb])) n hn

end Leaves

/-- A way to write the bytes of a text between two marks, such that `item` matches what is written
for one character at a time, and never the mark. Outside of ASCII bytes are written as they are. -/
structure Writes (item : Regex) (mark : UInt8) (write : UInt8 → Bytes) (text : Bytes) : Prop where
  ascii : ∀ b ∈ text, b < 0x80 → (∃ x more, write b = x :: more ∧ x < 0x80 ∧ x ≠ mark) ∧
    ∀ s m, item.Takes (write b ++ s) m ↔ s = m
  wide : ∀ b, 0x80 ≤ b → write b = [b] ∧
    ∀ s m, item.Takes (b :: s) m ↔ (b :: s).drop (Utf8.decodeAt b s).2 = m
  mark_lt : mark < 0x80
  mark_not : ∀ s m, ¬item.Takes (mark :: s) m

namespace Writes

variable {item : Regex} {mark : UInt8} {write : UInt8 → Bytes} {text after : Bytes}

theorem mono (h : Writes item mark write text) {part : Bytes} (hp : ∀ b ∈ part, b ∈ text) :
    Writes item mark write part :=
  ⟨fun b hb => h.ascii b (hp b hb), h.wide, h.mark_lt, h.mark_not⟩

/-- Bytes outside of ASCII at the start of what is written are those of the text. -/
theorem split (h : Writes item mark write text) {u more after : Bytes}
    (hm : ∀ x ∈ more, 0x80 ≤ x.toNat) (he : text.flatMap write ++ mark :: u = more ++ after) :
    ∃ rest, text = more ++ rest ∧ after = rest.flatMap write ++ mark :: u := by
  induction more generalizing text with
  | nil => exact ⟨text, rfl, he.symm⟩
  | cons x more ih =>
    have hx := hm x (by simp)
    cases text with
    | nil =>
      have hmark := UInt8.lt_iff_toNat_lt.1 h.mark_lt
      have hxm : mark = x := (List.cons.inj he).1
      rw [hxm] at hmark
      exact absurd hmark (Nat.not_lt.2 hx)
    | cons b text =>
      rcases UInt8.lt_or_le b 0x80 with hlt | hge
      · obtain ⟨⟨y, ys, hw, hy, -⟩, -⟩ := h.ascii b (by simp) hlt
        simp only [List.flatMap_cons, hw, List.cons_append, List.cons.injEq] at he
        rw [he.1, UInt8.lt_iff_toNat_lt] at hy
        exact absurd hy (Nat.not_lt.2 hx)
      · simp only [List.flatMap_cons, (h.wide b hge).1, List.cons_append, List.nil_append,
          List.cons.injEq] at he
        obtain ⟨rest, rfl, hr⟩ := ih (h.mono fun _ => List.mem_cons_of_mem _)
          (fun y hy => hm y (by simp [hy])) he.2
        exact ⟨rest, by rw [he.1]; rfl, hr⟩

/-- One match leads past the first character that is written, and nowhere else. -/
theorem step {b : UInt8} (h : Writes item mark write (b :: text)) (u : Bytes) :
    ∃ rest, Writes item mark write rest ∧ rest.length ≤ text.length ∧
      ∀ m, item.Takes ((b :: text).flatMap write ++ mark :: u) m ↔
        rest.flatMap write ++ mark :: u = m := by
  have htext : Writes item mark write text := h.mono fun _ => List.mem_cons_of_mem _
  rcases UInt8.lt_or_le b 0x80 with hlt | hge
  · refine ⟨text, htext, Nat.le_refl _, ?_⟩
    intro m
    rw [List.flatMap_cons, List.append_assoc]
    exact (h.ascii b (by simp) hlt).2 _ m
  · obtain ⟨hw, hi⟩ := h.wide b hge
    rw [List.flatMap_cons, hw]
    rcases Utf8.finds_decodeAt hge (text.flatMap write ++ mark :: u) with
      hone | ⟨more, after, c, hmore, hwide, hd⟩
    · refine ⟨text, htext, Nat.le_refl _, ?_⟩
      intro m
      rw [List.append_assoc, List.singleton_append, hi, hone]
      rfl
    · obtain ⟨rest, rfl, rfl⟩ := htext.split hwide.ge_of_mem hmore
      refine ⟨rest, htext.mono fun _ => List.mem_append_right _, by simp, ?_⟩
      intro m
      rw [List.append_assoc, List.singleton_append, hi, hd, hmore]
      simp

private theorem not_mark {b : UInt8} (h : Writes item mark write (b :: text)) {u t : Bytes} :
    ¬(Regex.one [(mark.toNat, mark.toNat)]).Takes ((b :: text).flatMap write ++ mark :: u) t := by
  have hmark := UInt8.lt_iff_toNat_lt.1 h.mark_lt
  rcases UInt8.lt_or_le b 0x80 with hlt | hge
  · obtain ⟨⟨x, more, hw, hx, hne⟩, -⟩ := h.ascii b (by simp) hlt
    rw [List.flatMap_cons, hw, List.cons_append, List.cons_append, takes_one_iff hx,
      CharClass.contains_single]
    exact fun ht => hne (UInt8.toNat.inj ht.1)
  · rw [List.flatMap_cons, (h.wide b hge).1]
    rintro ⟨b', rest, hs, hc, -⟩
    obtain rfl : b = b' := (List.cons.inj hs).1
    have hbounds := (Utf8.decodeAt_bounds hge rest).1
    rw [CharClass.contains_single.1 hc] at hbounds
    exact absurd hmark (Nat.not_lt.2 hbounds)

theorem reaches (h : Writes item mark write text) (u : Bytes) :
    ∃ n, Power item.Takes n (text.flatMap write ++ mark :: u) (mark :: u) := by
  induction hl : text.length using Nat.strongRecOn generalizing text with
  | ind len ih =>
    cases text with
    | nil => exact ⟨0, rfl⟩
    | cons b text =>
      obtain ⟨rest, hrest, hlen, hi⟩ := h.step u
      simp only [List.length_cons] at hl
      obtain ⟨n, hn⟩ := ih rest.length (by omega) hrest rfl
      exact ⟨n + 1, _, (hi _).2 rfl, hn⟩

theorem ends (h : Writes item mark write text) {n : Nat} {u s t : Bytes}
    (hn : Power item.Takes n (text.flatMap write ++ mark :: u) s)
    (ht : (Regex.one [(mark.toNat, mark.toNat)]).Takes s t) : u = t := by
  induction n generalizing text with
  | zero =>
    cases hn
    cases text with
    | nil => exact ((takes_one_iff h.mark_lt).1 ht).2
    | cons b text => exact absurd ht h.not_mark
  | succ n ih =>
    obtain ⟨m, hm, hn⟩ := hn
    cases text with
    | nil => exact absurd hm (h.mark_not _ _)
    | cons b text =>
      obtain ⟨rest, hrest, -, hi⟩ := h.step u
      rw [← (hi m).1 hm] at hn
      exact ih hrest hn

/-- The item as often as possible and then the mark leave what stands behind the mark. -/
theorem leaves (h : Writes item mark write text) (u : Bytes) :
    (seq (times 0 none item) (.one [(mark.toNat, mark.toNat)])).Leaves
      (text.flatMap write ++ mark :: u) u := by
  obtain ⟨n, hn⟩ := h.reaches u
  refine ⟨⟨mark :: u, ⟨n, Nat.zero_le n, by simp, hn⟩, ?_⟩, ?_⟩
  · exact (takes_one_iff h.mark_lt).2 ⟨CharClass.contains_single.2 rfl, rfl⟩
  · rintro t ⟨m, ⟨k, -, -, hk⟩, ht⟩
    exact h.ends hk ht ▸ Nat.le_refl _

end Writes

end Regex

end PegMachine
