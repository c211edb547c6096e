import PegMachine.Proofs.Regex.Longest

namespace PegMachine.Regex

/-- Whether an expression is made of classes of characters. -/
def isPlain : Regex → Bool
  | .empty => true
  | .one _ => true
  | .written _ => false
  | .look _ => false
  | .seq first second => isPlain first && isPlain second
  | .alt left right => isPlain left && isPlain right
  | .times _ _ item => isPlain item

/-- The second text is left of the first one after a match of a plain expression. -/
def Takes : Regex → Bytes → Bytes → Prop
  | .empty => fun s t => s = t
  | .one cls => fun s t => ∃ b rest, s = b :: rest ∧
    cls.contains (Utf8.decodeAt b rest).1 = true ∧ s.drop (Utf8.decodeAt b rest).2 = t
  | .written _ => fun _ _ => False
  | .look _ => fun _ _ => False
  | .seq first second => fun s t => ∃ m, Takes first s m ∧ Takes second m t
  | .alt left right => fun s t => Takes left s t ∨ Takes right s t
  | .times least most item => fun s t =>
    ∃ n, least ≤ n ∧ (∀ m, most = some m → n ≤ max least m) ∧ Power (Takes item) n s t

theorem Power.map {α β : Type} {R : α → α → Prop} {S : β → β → Prop} {f : α → β}
    (h : ∀ a b, R a b → S (f a) (f b)) {n : Nat} {a b : α} (hp : Power R n a b) :
    Power S n (f a) (f b) := by
  induction n generalizing a with
  | zero => exact congrArg f hp
  | succ n ih =>
    obtain ⟨m, hm, hb⟩ := hp
    exact ⟨f m, h a m hm, ih hb⟩

theorem Power.lift {α β : Type} {R : α → α → Prop} {S : β → β → Prop} {f : α → β}
    (h : ∀ a t, S (f a) t → ∃ b, R a b ∧ f b = t) {n : Nat} {a : α} {t : β}
    (hp : Power S n (f a) t) : ∃ b, Power R n a b ∧ f b = t := by
  induction n generalizing a with
  | zero => exact ⟨a, rfl, hp⟩
  | succ n ih =>
    obtain ⟨m, hm, ht⟩ := hp
    obtain ⟨b, hb, rfl⟩ := h a m hm
    obtain ⟨c, hc, hct⟩ := ih ht
    exact ⟨c, ⟨b, hb, hc⟩, hct⟩

theorem Matches.takes {r : Regex} (h : r.isPlain = true) {p q : Position} (hm : r.Matches p q) :
    r.Takes p.rest q.rest := by
  induction r generalizing p q with
  | empty => exact congrArg Position.rest hm
  | one cls =>
    simp only [Matches, Position.take?] at hm
    cases hr : p.rest with
    | nil => simp [Position.next?, hr] at hm
    | cons b rest =>
      rw [p.next?_cons hr] at hm
      simp only [Option.ite_none_right_eq_some, Option.some.injEq] at hm
      obtain ⟨hc, rfl⟩ := hm
      exact ⟨b, rest, rfl, hc, rfl⟩
  | written c => cases h
  | look anchor => cases h
  | seq first second ih₁ ih₂ =>
    obtain ⟨h₁, h₂⟩ := Bool.and_eq_true_iff.1 h
    obtain ⟨m, hpm, hmq⟩ := hm
    exact ⟨m.rest, ih₁ h₁ hpm, ih₂ h₂ hmq⟩
  | alt left right ih₁ ih₂ =>
    obtain ⟨h₁, h₂⟩ := Bool.and_eq_true_iff.1 h
    exact hm.imp (ih₁ h₁) (ih₂ h₂)
  | times least most item ih =>
    obtain ⟨n, hle, hmost, hn⟩ := hm
    exact ⟨n, hle, hmost, hn.map (f := Position.rest) fun _ _ => ih h⟩

theorem Takes.matches {r : Regex} (h : r.isPlain = true) {p : Position} {t : Bytes}
    (ht : r.Takes p.rest t) : ∃ q, r.Matches p q ∧ q.rest = t := by
  induction r generalizing p t with
  | empty => exact ⟨p, rfl, ht⟩
  | one cls =>
    obtain ⟨b, rest, hr, hc, rfl⟩ := ht
    refine ⟨⟨p.offset + (Utf8.decodeAt b rest).2, some (Utf8.decodeAt b rest).1, _⟩, ?_, rfl⟩
    simp only [Matches, Position.take?]
    rw [p.next?_cons hr]
    simp only [hc, if_true, hr]
  | written c => cases h
  | look anchor => cases h
  | seq first second ih₁ ih₂ =>
    obtain ⟨h₁, h₂⟩ := Bool.and_eq_true_iff.1 h
    obtain ⟨m, hm, hmt⟩ := ht
    obtain ⟨p', hp', rfl⟩ := ih₁ h₁ hm
    obtain ⟨q, hq, rfl⟩ := ih₂ h₂ hmt
    exact ⟨q, ⟨p', hp', hq⟩, rfl⟩
  | alt left right ih₁ ih₂ =>
    obtain ⟨h₁, h₂⟩ := Bool.and_eq_true_iff.1 h
    rcases ht with ht | ht
    · obtain ⟨q, hq, hqt⟩ := ih₁ h₁ ht
      exact ⟨q, .inl hq, hqt⟩
    · obtain ⟨q, hq, hqt⟩ := ih₂ h₂ ht
      exact ⟨q, .inr hq, hqt⟩
  | times least most item ih =>
    obtain ⟨n, hle, hmost, hn⟩ := ht
    obtain ⟨q, hq, hqt⟩ := hn.lift fun _ _ => ih h
    exact ⟨q, ⟨n, hle, hmost, hq⟩, hqt⟩

/-- A match leaves the end of a text. -/
theorem Takes.suffix {r : Regex} {s t : Bytes} (h : r.Takes s t) : t <:+ s := by
  induction r generalizing s t with
  | empty => exact h ▸ List.suffix_refl s
  | one cls =>
    obtain ⟨b, rest, -, -, rfl⟩ := h
    exact List.drop_suffix _ s
  | written c => exact h.elim
  | look anchor => exact h.elim
  | seq first second ih₁ ih₂ =>
    obtain ⟨m, hm, ht⟩ := h
    exact (ih₂ ht).trans (ih₁ hm)
  | alt left right ih₁ ih₂ => exact h.elim ih₁ ih₂
  | times least most item ih =>
    obtain ⟨n, -, -, hn⟩ := h
    induction n generalizing s with
    | zero => exact hn ▸ List.suffix_refl s
    | succ n ihn =>
      obtain ⟨m, hm, ht⟩ := hn
      exact (ihn ht).trans (ih hm)

/-- The longest match from `s` on leaves `t`. -/
structure Leaves (r : Regex) (s t : Bytes) : Prop where
  takes : r.Takes s t
  least : ∀ t', r.Takes s t' → t.length ≤ t'.length

def anchored (r : Regex) : Regex := .seq (.look .textStart) r

theorem search_anchored {r : Regex} (s : Bytes) :
    r.anchored.search s = ((r.advance [Position.start s]).head?).map Position.offset := rfl

theorem search_eq_some {r : Regex} (h : r.isPlain = true) {s t : Bytes} (hl : r.Leaves s t) :
    r.anchored.search s = some (s.length - t.length) := by
  obtain ⟨q, hq, rfl⟩ := Takes.matches (p := Position.start s) h hl.takes
  have hlength := hq.length_eq
  have hhead : (r.advance [Position.start s]).head? = some q := by
    refine head?_advance_iff.2 ⟨hq, fun q' hq' => ?_⟩
    have hlength' := hq'.length_eq
    have hleast := hl.least _ (hq'.takes h)
    omega
  rw [search_anchored, hhead, Option.map_some, Option.some.injEq]
  omega

/-- What is found at the start of a text is the longest match. -/
theorem leaves_of_search {r : Regex} (h : r.isPlain = true) {s : Bytes} {n : Nat}
    (hn : r.anchored.search s = some n) : ∃ t, r.Leaves s t ∧ n + t.length = s.length := by
  rw [search_anchored] at hn
  obtain ⟨q, hq, rfl⟩ := Option.map_eq_some_iff.1 hn
  obtain ⟨hm, hall⟩ := head?_advance_iff.1 hq
  refine ⟨q.rest, ⟨hm.takes h, fun t' ht' => ?_⟩, hm.length_eq⟩
  obtain ⟨q', hq', rfl⟩ := Takes.matches (p := Position.start s) h ht'
  have hle := hall q' hq'
  have hlength := hm.length_eq
  have hlength' := hq'.length_eq
  omega

theorem search_eq_none {r : Regex} (h : r.isPlain = true) {s : Bytes}
    (hn : ∀ t, ¬r.Takes s t) : r.anchored.search s = none := by
  have hnil : r.advance [Position.start s] = [] := by
    refine List.eq_nil_iff_forall_not_mem.2 fun q hq => ?_
    exact hn _ ((mem_advance_iff.1 hq).takes h)
  rw [search_anchored, hnil]
  rfl

end PegMachine.Regex
