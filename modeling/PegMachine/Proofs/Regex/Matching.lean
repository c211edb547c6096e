import PegMachine.Regex.Basic

namespace PegMachine

namespace Utf8

/-- A character has at least one byte, and no more bytes than there are. -/
theorem width_decodeAt (b : UInt8) (rest : Bytes) :
    1 ≤ (decodeAt b rest).2 ∧ (decodeAt b rest).2 ≤ rest.length + 1 := by
  unfold decodeAt
  repeat' split
  all_goals simp [List.length]

end Utf8

namespace Regex

/-- `R` as many times in a row as it says. -/
def Power {α : Type} (R : α → α → Prop) : Nat → α → α → Prop
  | 0, p, q => p = q
  | n + 1, p, q => ∃ m, R p m ∧ Power R n m q

/-- A match may begin at the first position and end at the second. -/
def Matches : Regex → Position → Position → Prop
  | .empty => fun p q => p = q
  | .one cls => fun p q => p.take? cls = some q
  | .written c => fun p q => p.takeWritten? c = some q
  | .look anchor => fun p q => p.satisfies anchor = true ∧ p = q
  | .seq first second => fun p q => ∃ m, Matches first p m ∧ Matches second m q
  | .alt left right => fun p q => Matches left p q ∨ Matches right p q
  | .times least most item => fun p q =>
    ∃ n, least ≤ n ∧ (∀ m, most = some m → n ≤ max least m) ∧ Power (Matches item) n p q

namespace Power

variable {α : Type} {R : α → α → Prop}

theorem trans {n m : Nat} {p q r : α} (h : Power R n p q) (h' : Power R m q r) :
    Power R (n + m) p r := by
  induction n generalizing p with
  | zero =>
    cases h
    rwa [Nat.zero_add]
  | succ n ih =>
    obtain ⟨s, hs, hq⟩ := h
    rw [Nat.add_right_comm]
    exact ⟨s, hs, ih hq⟩

theorem snoc {n : Nat} {p q r : α} (h : Power R n p q) (h' : R q r) :
    Power R (n + 1) p r :=
  h.trans ⟨r, h', rfl⟩

theorem keeps {P : α → α → Prop} (refl : ∀ p, P p p)
    (step : ∀ p m q, R p m → P m q → P p q) {n : Nat} {p q : α} (h : Power R n p q) :
    P p q := by
  induction n generalizing p with
  | zero => exact h ▸ refl p
  | succ n ih =>
    obtain ⟨m, hm, hq⟩ := h
    exact step p m q hm (ih hq)

end Power

namespace Positions

theorem mem_unionWith {p q : Position} {more : Positions → Positions} {qs ps : Positions}
    (hmore : ∀ rest, q ∈ more rest → q ∈ ps ∨ q ∈ rest) (h : q ∈ unionWith p more qs) :
    q ∈ p :: ps ∨ q ∈ qs := by
  induction qs with
  | nil =>
    rcases List.mem_cons.1 h with rfl | h
    · exact .inl (List.mem_cons_self ..)
    · exact (hmore _ h).imp_left (List.mem_cons_of_mem _)
  | cons r qs ih =>
    simp only [unionWith] at h
    split at h
    · rcases List.mem_cons.1 h with rfl | h
      · exact .inl (List.mem_cons_self ..)
      · exact (hmore _ h).imp_left (List.mem_cons_of_mem _)
    split at h
    · rcases List.mem_cons.1 h with rfl | h
      · exact .inr (List.mem_cons_self ..)
      · exact (ih h).imp_right (List.mem_cons_of_mem _)
    · rcases List.mem_cons.1 h with rfl | h
      · exact .inl (List.mem_cons_self ..)
      · exact (hmore _ h).imp (List.mem_cons_of_mem _) (List.mem_cons_of_mem _)

theorem mem_or_mem_of_mem_union {q : Position} {ps qs : Positions} (h : q ∈ union ps qs) :
    q ∈ ps ∨ q ∈ qs := by
  induction ps generalizing qs with
  | nil => exact .inr h
  | cons p ps ih => exact mem_unionWith (fun _ h => ih h) h

/-- Moving a set of positions finds only what `R` leads to. -/
def Sound (R : Position → Position → Prop) (move : Positions → Positions) : Prop :=
  ∀ {ps : Positions} {q : Position}, q ∈ move ps → ∃ p ∈ ps, R p q

section

variable {R : Position → Position → Prop} {move : Positions → Positions}

private theorem sound_power (h : Sound R move) (n : Nat) : Sound (Power R n) (power move n) := by
  induction n with
  | zero => exact fun hq => ⟨_, hq, rfl⟩
  | succ n ih =>
    intro ps q hq
    obtain ⟨m, hm, hmq⟩ := ih hq
    obtain ⟨p, hp, hpm⟩ := h hm
    exact ⟨p, hp, m, hpm, hmq⟩

private theorem sound_upTo (h : Sound R move) (n : Nat) :
    Sound (fun p q => ∃ k, k ≤ n ∧ Power R k p q) (upTo move n) := by
  induction n with
  | zero => exact fun hq => ⟨_, hq, 0, Nat.le_refl 0, rfl⟩
  | succ n ih =>
    intro ps q hq
    simp only [upTo] at hq
    split at hq
    · cases hq
    · rcases mem_or_mem_of_mem_union hq with hq | hq
      · obtain ⟨m, hm, k, hk, hmq⟩ := ih hq
        obtain ⟨p, hp, hpm⟩ := h hm
        exact ⟨p, hp, k + 1, by omega, m, hpm, hmq⟩
      · exact ⟨q, hq, 0, by omega, rfl⟩

/-- The closure adds only what can be reached from `ps` by `R`. -/
theorem sound_closure (h : Sound R move) {ps : Positions} (fuel : Bytes) {fresh seen : Positions}
    (hfresh : ∀ q ∈ fresh, ∃ p ∈ ps, ∃ n, Power R n p q)
    (hseen : ∀ q ∈ seen, ∃ p ∈ ps, ∃ n, Power R n p q) :
    ∀ q ∈ closure move fuel fresh seen, ∃ p ∈ ps, ∃ n, Power R n p q := by
  induction fuel generalizing fresh seen with
  | nil => exact hseen
  | cons _ fuel ih =>
    have hnew : ∀ q ∈ (move fresh).without seen, ∃ p ∈ ps, ∃ n, Power R n p q := by
      intro q hq
      obtain ⟨m, hm, hmq⟩ := h (List.mem_filter.1 hq).1
      obtain ⟨p, hp, n, hpm⟩ := hfresh m hm
      exact ⟨p, hp, n + 1, hpm.snoc hmq⟩
    intro q hq
    simp only [closure] at hq
    split at hq
    · exact hseen q hq
    · refine ih hnew ?_ q hq
      intro q hq
      rcases mem_or_mem_of_mem_union hq with hq | hq
      · exact hnew q hq
      · exact hseen q hq

end

end Positions

open Positions in
/-- The positions that an expression moves to are ends of matches. -/
theorem sound_advance (r : Regex) : Sound r.Matches r.advance := by
  induction r with
  | empty => exact fun hq => ⟨_, hq, rfl⟩
  | one cls => exact fun hq => List.mem_filterMap.1 hq
  | written c => exact fun hq => List.mem_filterMap.1 hq
  | look anchor =>
    intro ps q hq
    obtain ⟨hm, hs⟩ := List.mem_filter.1 hq
    exact ⟨q, hm, hs, rfl⟩
  | seq first second ih₁ ih₂ =>
    intro ps q hq
    obtain ⟨m, hm, hmq⟩ := ih₂ hq
    obtain ⟨p, hp, hpm⟩ := ih₁ hm
    exact ⟨p, hp, m, hpm, hmq⟩
  | alt left right ih₁ ih₂ =>
    intro ps q hq
    rcases mem_or_mem_of_mem_union hq with hq | hq
    · obtain ⟨p, hp, hpq⟩ := ih₁ hq
      exact ⟨p, hp, .inl hpq⟩
    · obtain ⟨p, hp, hpq⟩ := ih₂ hq
      exact ⟨p, hp, .inr hpq⟩
  | times least most item ih =>
    intro ps q hq
    cases most with
    | none =>
      have hstart : ∀ q ∈ power item.advance least ps,
          ∃ p ∈ power item.advance least ps, ∃ n, Power item.Matches n p q :=
        fun q hq => ⟨q, hq, 0, rfl⟩
      obtain ⟨m, hm, n, hmq⟩ := sound_closure ih _ hstart hstart q hq
      obtain ⟨p, hp, hpm⟩ := sound_power ih least hm
      exact ⟨p, hp, least + n, by omega, by simp, hpm.trans hmq⟩
    | some most =>
      obtain ⟨m, hm, n, hn, hmq⟩ := sound_upTo ih _ hq
      obtain ⟨p, hp, hpm⟩ := sound_power ih least hm
      refine ⟨p, hp, least + n, by omega, ?_, hpm.trans hmq⟩
      intro k hk
      cases hk
      omega

/-- The second position is not before the first one, and the text ends for both at one place. -/
def Ahead (p q : Position) : Prop :=
  p.offset ≤ q.offset ∧ q.offset + q.rest.length = p.offset + p.rest.length

theorem Ahead.refl (p : Position) : Ahead p p := ⟨Nat.le_refl _, rfl⟩

theorem Ahead.trans {p q r : Position} (h : Ahead p q) (h' : Ahead q r) : Ahead p r :=
  ⟨Nat.le_trans h.1 h'.1, h'.2.trans h.2⟩

/-- The next character is the one that the rest of the text starts with. -/
theorem Position.next?_cons (p : Position) {b : UInt8} {rest : Bytes} (h : p.rest = b :: rest) :
    p.next? = some ((Utf8.decodeAt b rest).1, ⟨p.offset + (Utf8.decodeAt b rest).2,
      some (Utf8.decodeAt b rest).1, (b :: rest).drop (Utf8.decodeAt b rest).2⟩) := by
  simp only [next?, h]

theorem ahead_next {p q : Position} {c : Nat} (h : p.next? = some (c, q)) : Ahead p q := by
  cases hrest : p.rest with
  | nil => simp [Position.next?, hrest] at h
  | cons b rest =>
    have hw := Utf8.width_decodeAt b rest
    rw [p.next?_cons hrest] at h
    obtain ⟨-, rfl⟩ := Prod.mk.inj (Option.some.inj h)
    simp only [Ahead, hrest, List.length_drop, List.length_cons]
    omega

theorem Matches.ahead {r : Regex} {p q : Position} (h : r.Matches p q) : Ahead p q := by
  induction r generalizing p q with
  | empty => exact h ▸ Ahead.refl p
  | one cls =>
    simp only [Matches, Position.take?] at h
    split at h
    · next hn =>
      split at h
      · cases h
        exact ahead_next hn
      · cases h
    · cases h
  | written c =>
    simp only [Matches, Position.takeWritten?] at h
    split at h
    · obtain ⟨⟨c, q⟩, hn, rfl⟩ := Option.map_eq_some_iff.1 h
      exact ahead_next hn
    · cases h
  | look anchor => exact h.2 ▸ Ahead.refl p
  | seq first second ih₁ ih₂ =>
    obtain ⟨m, hm, hq⟩ := h
    exact (ih₁ hm).trans (ih₂ hq)
  | alt left right ih₁ ih₂ => exact h.elim ih₁ ih₂
  | times least most item ih =>
    obtain ⟨n, -, -, hn⟩ := h
    exact hn.keeps Ahead.refl fun p m q hm hq => (ih hm).trans hq

theorem offset_le_of_advance {r : Regex} {p q : Position} {qs : Positions}
    (h : r.advance [p] = q :: qs) : q.offset ≤ p.offset + p.rest.length := by
  have hmem : q ∈ r.advance [p] := by simp [h]
  obtain ⟨p', hp, hm⟩ := sound_advance r hmem
  obtain rfl := List.mem_singleton.1 hp
  have ha := hm.ahead
  simp only [Ahead] at ha
  omega

private theorem searchFrom_le {r : Regex} {fuel : Bytes} {p : Position} {n : Nat}
    (h : r.searchFrom fuel p = some n) : n ≤ p.offset + p.rest.length := by
  induction fuel generalizing p with
  | nil =>
    cases hq : r.advance [p] with
    | nil => simp [searchFrom, hq] at h
    | cons q qs =>
      rw [searchFrom.eq_1 r p _ q qs hq, Option.some.injEq] at h
      exact h ▸ offset_le_of_advance hq
  | cons _ fuel ih =>
    cases hq : r.advance [p] with
    | nil =>
      cases hn : p.next? with
      | none => simp [searchFrom, hq, hn] at h
      | some next =>
        simp only [searchFrom, hq, hn] at h
        have ha := ahead_next hn
        have hle := ih h
        simp only [Ahead] at ha
        omega
    | cons q qs =>
      rw [searchFrom.eq_1 r p _ q qs hq, Option.some.injEq] at h
      exact h ▸ offset_le_of_advance hq

theorem search_le {r : Regex} {text : Bytes} {n : Nat} (h : r.search text = some n) :
    n ≤ text.length := by
  have hstart : (Position.start text).offset + (Position.start text).rest.length = text.length := by
    simp [Position.start]
  rw [← hstart]
  unfold search at h
  split at h
  · cases hq : r.advance [Position.start text] with
    | nil => simp [hq] at h
    | cons q qs =>
      simp only [hq, List.head?_cons, Option.map_some, Option.some.injEq] at h
      exact h ▸ offset_le_of_advance hq
  · exact searchFrom_le h

end Regex

end PegMachine
