import PegMachine.Proofs.Regex.Matching

namespace PegMachine.Regex

/-- The second position comes right after the next character. -/
def Next (p q : Position) : Prop := ∃ c, p.next? = some (c, q)

/-- A position between two characters of a text. -/
def Reached (text : Bytes) (p : Position) : Prop := ∃ n, Power Next n (Position.start text) p

theorem Next.unique {p q q' : Position} (h : Next p q) (h' : Next p q') : q = q' := by
  obtain ⟨c, hc⟩ := h
  obtain ⟨c', hc'⟩ := h'
  rw [hc] at hc'
  exact (Prod.mk.inj (Option.some.inj hc')).2

theorem Next.offset_lt {p q : Position} (h : Next p q) : p.offset < q.offset := by
  obtain ⟨c, hc⟩ := h
  cases hrest : p.rest with
  | nil => simp [Position.next?, hrest] at hc
  | cons b rest =>
    have hw := Utf8.width_decodeAt b rest
    rw [p.next?_cons hrest] at hc
    obtain ⟨-, rfl⟩ := Prod.mk.inj (Option.some.inj hc)
    simp only
    omega

private theorem next_of_take? {cls : CharClass} {p q : Position} (h : p.take? cls = some q) :
    Next p q := by
  simp only [Position.take?] at h
  split at h
  · next c q' hn =>
    split at h
    · cases h
      exact ⟨c, hn⟩
    · cases h
  · cases h

private theorem next_of_takeWritten? {c : Nat} {p q : Position} (h : p.takeWritten? c = some q) :
    Next p q := by
  simp only [Position.takeWritten?] at h
  split at h
  · obtain ⟨⟨c, q'⟩, hn, rfl⟩ := Option.map_eq_some_iff.1 h
    exact ⟨c, hn⟩
  · cases h

theorem Power.offset_le {n : Nat} {p q : Position} (h : Power Next n p q) :
    p.offset + n ≤ q.offset := by
  induction n generalizing p with
  | zero => exact Nat.le_of_eq (congrArg Position.offset h)
  | succ n ih =>
    obtain ⟨m, hm, hq⟩ := h
    have := hm.offset_lt
    have := ih hq
    omega

theorem Power.unique {n : Nat} {p q q' : Position} (h : Power Next n p q)
    (h' : Power Next n p q') : q = q' := by
  induction n generalizing p with
  | zero => exact h.symm.trans h'
  | succ n ih =>
    obtain ⟨m, hm, hq⟩ := h
    obtain ⟨m', hm', hq'⟩ := h'
    rw [hm.unique hm'] at hq
    exact ih hq hq'

theorem Power.split {R : Position → Position → Prop} {n k : Nat} {p q : Position}
    (h : Power R (n + k) p q) : ∃ m, Power R n p m ∧ Power R k m q := by
  induction n generalizing p with
  | zero =>
    rw [Nat.zero_add] at h
    exact ⟨p, rfl, h⟩
  | succ n ih =>
    rw [Nat.add_right_comm] at h
    obtain ⟨s, hs, hq⟩ := h
    obtain ⟨m, hm, hmq⟩ := ih hq
    exact ⟨m, ⟨s, hs, hm⟩, hmq⟩

namespace Reached

variable {text : Bytes} {p q q' : Position}

theorem start (text : Bytes) : Reached text (Position.start text) := ⟨0, rfl⟩

theorem next (h : Reached text p) (hn : Next p q) : Reached text q := by
  obtain ⟨n, hp⟩ := h
  exact ⟨n + 1, hp.snoc hn⟩

theorem compare (hp : Reached text p) (hq : Reached text q) :
    (∃ k, Power Next k p q) ∨ ∃ k, Power Next k q p := by
  obtain ⟨n, hp⟩ := hp
  obtain ⟨m, hq⟩ := hq
  rcases Nat.le_total n m with hle | hle
  · obtain ⟨k, rfl⟩ := Nat.exists_eq_add_of_le hle
    obtain ⟨p', hp', hk⟩ := hq.split
    exact .inl ⟨k, hp.unique hp' ▸ hk⟩
  · obtain ⟨k, rfl⟩ := Nat.exists_eq_add_of_le hle
    obtain ⟨q', hq', hk⟩ := hp.split
    exact .inr ⟨k, hq.unique hq' ▸ hk⟩

theorem eq_of_offset (hp : Reached text p) (hq : Reached text q) (h : p.offset = q.offset) :
    p = q := by
  rcases hp.compare hq with ⟨k, hk⟩ | ⟨k, hk⟩
  · have hle := hk.offset_le
    obtain rfl : k = 0 := by omega
    exact hk
  · have hle := hk.offset_le
    obtain rfl : k = 0 := by omega
    exact hk.symm

private theorem next_le (hp : Reached text p) (hq : Reached text q) (h : p.offset < q.offset)
    (hn : Next p q') : q'.offset ≤ q.offset := by
  rcases hp.compare hq with ⟨k, hk⟩ | ⟨k, hk⟩
  · cases k with
    | zero =>
      cases hk
      omega
    | succ k =>
      obtain ⟨m, hm, hmq⟩ := hk
      rw [hn.unique hm]
      have := hmq.offset_le
      omega
  · have := hk.offset_le
    omega

theorem length_eq (h : Reached text p) : p.offset + p.rest.length = text.length := by
  obtain ⟨n, hn⟩ := h
  have ha : Ahead (Position.start text) p :=
    hn.keeps Ahead.refl fun _ _ _ hm hq => (ahead_next hm.choose_spec).trans hq
  simp only [Ahead, Position.start] at ha
  omega

end Reached

/-- Positions of a text, the furthest first, each once. -/
structure Ordered (text : Bytes) (ps : Positions) : Prop where
  sorted : ps.Pairwise fun p q => q.offset < p.offset
  reached : ∀ p ∈ ps, Reached text p

namespace Ordered

variable {text : Bytes} {p : Position} {ps qs : Positions}

theorem nil : Ordered text [] := ⟨.nil, by simp⟩

theorem cons (hp : Reached text p) (hlt : ∀ q ∈ ps, q.offset < p.offset) (h : Ordered text ps) :
    Ordered text (p :: ps) := by
  refine ⟨List.pairwise_cons.2 ⟨hlt, h.sorted⟩, ?_⟩
  intro q hq
  rcases List.mem_cons.1 hq with rfl | hq
  · exact hp
  · exact h.reached q hq

theorem tail (h : Ordered text (p :: ps)) : Ordered text ps :=
  ⟨(List.pairwise_cons.1 h.sorted).2, fun q hq => h.reached q (by simp [hq])⟩

theorem head_lt (h : Ordered text (p :: ps)) : ∀ q ∈ ps, q.offset < p.offset :=
  (List.pairwise_cons.1 h.sorted).1

/-- The furthest position comes first. -/
theorem offset_le_head (h : Ordered text (p :: ps)) {q : Position} (hq : q ∈ p :: ps) :
    q.offset ≤ p.offset := by
  rcases List.mem_cons.1 hq with rfl | hq
  · exact Nat.le_refl _
  · exact Nat.le_of_lt (h.head_lt q hq)

theorem filter (h : Ordered text ps) (keep : Position → Bool) : Ordered text (ps.filter keep) :=
  ⟨h.sorted.filter keep, fun p hp => h.reached p (List.mem_filter.1 hp).1⟩

/-- Positions that all move past their next character stay in order. -/
theorem filterMap (h : Ordered text ps) {move : Position → Option Position}
    (hmove : ∀ p q, move p = some q → Next p q) : Ordered text (ps.filterMap move) := by
  induction ps with
  | nil => exact nil
  | cons p ps ih =>
    cases hm : move p with
    | none =>
      rw [List.filterMap_cons_none hm]
      exact ih h.tail
    | some q =>
      rw [List.filterMap_cons_some hm]
      have hn := hmove p q hm
      refine cons ((h.reached p (by simp)).next hn) (fun q' hq' => ?_) (ih h.tail)
      obtain ⟨p', hp', hm'⟩ := List.mem_filterMap.1 hq'
      have hle := (h.reached p' (by simp [hp'])).next_le (h.reached p (by simp))
        (h.head_lt p' hp') (hmove p' q' hm')
      have := hn.offset_lt
      omega

end Ordered

namespace Positions

variable {text : Bytes} {R : Position → Position → Prop} {move : Positions → Positions}

/-- The positions of either set, in order. -/
theorem union_ordered {ps qs : Positions} (hp : Ordered text ps) (hq : Ordered text qs) :
    Ordered text (union ps qs) ∧ ∀ x, x ∈ ps ∨ x ∈ qs → x ∈ union ps qs := by
  induction ps generalizing qs with
  | nil => exact ⟨hq, fun x hx => hx.resolve_left List.not_mem_nil⟩
  | cons p ps ih =>
    rw [union]
    -- what is left of the first set goes before `rest` when all of that is behind `p`
    have before {rest : Positions} (hr : Ordered text rest) (hlt : ∀ x ∈ rest, x.offset < p.offset) :
        Ordered text (p :: union ps rest) ∧
          ∀ x, x ∈ p :: ps ∨ x ∈ rest → x ∈ p :: union ps rest := by
      obtain ⟨ho, hm⟩ := ih hp.tail hr
      refine ⟨.cons (hp.reached p (by simp)) (fun x hx => ?_) ho, fun x hx => ?_⟩
      · exact (mem_or_mem_of_mem_union hx).elim (hp.head_lt x) (hlt x)
      · rcases hx with hx | hx
        · rcases List.mem_cons.1 hx with rfl | hx
          · exact List.mem_cons_self ..
          · exact List.mem_cons_of_mem _ (hm x (.inl hx))
        · exact List.mem_cons_of_mem _ (hm x (.inr hx))
    induction qs with
    | nil => exact before .nil (by simp)
    | cons q qs ihq =>
      have hq' := hq.head_lt
      rw [unionWith]
      split
      · next hlt =>
        refine before hq ?_
        intro x hx
        rcases List.mem_cons.1 hx with rfl | hx
        · exact hlt
        · have := hq' x hx
          omega
      split
      · next hlt =>
        obtain ⟨ho, hm⟩ := ihq hq.tail
        refine ⟨.cons (hq.reached q (by simp)) (fun x hx => ?_) ho, fun x hx => ?_⟩
        · rcases mem_unionWith (fun _ h => mem_or_mem_of_mem_union h) hx with hx | hx
          · rcases List.mem_cons.1 hx with rfl | hx
            · exact hlt
            · have := hp.head_lt x hx
              omega
          · exact hq' x hx
        · rcases hx with hx | hx
          · exact List.mem_cons_of_mem _ (hm x (.inl hx))
          · rcases List.mem_cons.1 hx with rfl | hx
            · exact List.mem_cons_self ..
            · exact List.mem_cons_of_mem _ (hm x (.inr hx))
      · next hle hle' =>
        obtain rfl : p = q := (hp.reached p (by simp)).eq_of_offset (hq.reached q (by simp)) (by omega)
        obtain ⟨ho, hm⟩ := before hq.tail hq'
        refine ⟨ho, ?_⟩
        intro x hx
        rcases hx with hx | hx
        · exact hm x (.inl hx)
        · rcases List.mem_cons.1 hx with rfl | hx
          · exact List.mem_cons_self ..
          · exact hm x (.inr hx)

/-- Moving positions in order leaves them in order, and finds all that `R` leads to. -/
def Complete (text : Bytes) (R : Position → Position → Prop) (move : Positions → Positions) : Prop :=
  ∀ {ps : Positions}, Ordered text ps →
    Ordered text (move ps) ∧ ∀ p ∈ ps, ∀ q, R p q → q ∈ move ps

private theorem complete_power (h : Complete text R move) (n : Nat) :
    Complete text (Power R n) (power move n) := by
  induction n with
  | zero => exact fun ho => ⟨ho, fun p hp q hq => hq ▸ hp⟩
  | succ n ih =>
    intro ps ho
    obtain ⟨ho', hm⟩ := h ho
    obtain ⟨hfinal, hall⟩ := ih ho'
    refine ⟨hfinal, ?_⟩
    rintro p hp q ⟨m, hpm, hmq⟩
    exact hall m (hm p hp m hpm) q hmq

private theorem complete_upTo (h : Complete text R move) (n : Nat) :
    Complete text (fun p q => ∃ k, k ≤ n ∧ Power R k p q) (upTo move n) := by
  induction n with
  | zero =>
    refine fun ho => ⟨ho, ?_⟩
    rintro p hp q ⟨k, hk, hq⟩
    obtain rfl : k = 0 := by omega
    exact hq ▸ hp
  | succ n ih =>
    intro ps ho
    rw [upTo]
    split
    · next hempty =>
      obtain rfl := List.isEmpty_iff.1 hempty
      exact ⟨.nil, by simp⟩
    · obtain ⟨ho', hm⟩ := h ho
      obtain ⟨hrest, hall⟩ := ih ho'
      obtain ⟨hu, hmem⟩ := union_ordered hrest ho
      refine ⟨hu, ?_⟩
      rintro p hp q ⟨k, hk, hq⟩
      cases k with
      | zero => exact hmem q (.inr (hq ▸ hp))
      | succ k =>
        obtain ⟨m, hpm, hmq⟩ := hq
        exact hmem q (.inl (hall m (hm p hp m hpm) q ⟨k, by omega, hmq⟩))

theorem holds_iff {ps : Positions} (h : Ordered text ps) (offset : Nat) :
    holds offset ps = true ↔ ∃ p ∈ ps, p.offset = offset := by
  induction ps with
  | nil => simp [holds]
  | cons p ps ih =>
    simp only [holds, List.mem_cons, exists_eq_or_imp]
    split
    · next hlt =>
      simp only [Bool.false_eq_true, false_iff]
      rintro (heq | ⟨q, hq, heq⟩)
      · omega
      · have := h.head_lt q hq
        omega
    · rw [Bool.or_eq_true, beq_iff_eq, ih h.tail]

private theorem mem_or_mem_without
    {ps seen : Positions} (hp : Ordered text ps) (hs : Ordered text seen)
    {q : Position} (hq : q ∈ ps) : q ∈ seen ∨ q ∈ ps.without seen := by
  cases hh : holds q.offset seen with
  | true =>
    obtain ⟨p, hm, heq⟩ := (holds_iff hs _).1 hh
    obtain rfl := (hs.reached p hm).eq_of_offset (hp.reached q hq) heq
    exact .inl hm
  | false => exact .inr (List.mem_filter.2 ⟨hq, by simp [hh]⟩)

/-- The number of offsets from `first` to the end of the text that no position of a set has. -/
def missing (text : Bytes) (first : Nat) (seen : Positions) : Nat :=
  ((List.range (text.length + 1)).filter fun o => decide (first ≤ o) && !holds o seen).length

/-- A set that has the positions of another one and a new one misses less. -/
theorem missing_lt {first : Nat} {seen seen' : Positions} (hs : Ordered text seen)
    (hs' : Ordered text seen') (hsub : ∀ p ∈ seen, p ∈ seen') {q : Position} (hq : q ∈ seen')
    (hfirst : first ≤ q.offset) (hnew : holds q.offset seen = false) :
    missing text first seen' < missing text first seen := by
  have hmono (o : Nat) (ho : holds o seen = true) : holds o seen' = true := by
    obtain ⟨p, hp, heq⟩ := (holds_iff hs o).1 ho
    exact (holds_iff hs' o).2 ⟨p, hsub p hp, heq⟩
  have hfilter : (List.range (text.length + 1)).filter
        (fun o => decide (first ≤ o) && !holds o seen') =
      ((List.range (text.length + 1)).filter
        fun o => decide (first ≤ o) && !holds o seen).filter fun o => !holds o seen' := by
    rw [List.filter_filter]
    refine List.filter_congr ?_
    intro o _
    cases ho : holds o seen with
    | true => simp [hmono o ho]
    | false => simp [Bool.and_comm]
  rw [missing, hfilter]
  refine List.length_filter_lt_length_iff_exists.2 ⟨q.offset, ?_, ?_⟩
  · have := (hs'.reached q hq).length_eq
    simp only [List.mem_filter, List.mem_range, hfirst, decide_true, hnew]
    exact ⟨by omega, rfl⟩
  · have hheld : holds q.offset seen' = true := (holds_iff hs' _).2 ⟨q, hq, rfl⟩
    simp [hheld]

/-- Where the closure stands before a round: only the fresh ones of the seen positions have not
been moved, and none lies before `first`. -/
structure Round (text : Bytes) (R : Position → Position → Prop) (first : Nat)
    (fresh seen : Positions) : Prop where
  fresh_ordered : Ordered text fresh
  seen_ordered : Ordered text seen
  first_le : ∀ p ∈ seen, first ≤ p.offset
  fresh_seen : ∀ p ∈ fresh, p ∈ seen
  moved : ∀ p ∈ seen, p ∉ fresh → ∀ q, R p q → q ∈ seen

namespace Round

variable {first : Nat} {fresh seen : Positions}

theorem found (h : Round text R first fresh seen) (hc : Complete text R move) {p q : Position}
    (hp : p ∈ seen) (hpq : R p q) : q ∈ seen ∨ q ∈ (move fresh).without seen := by
  by_cases hf : p ∈ fresh
  · obtain ⟨hmove, hall⟩ := hc h.fresh_ordered
    exact mem_or_mem_without hmove h.seen_ordered (hall p hf q hpq)
  · exact .inl (h.moved p hp hf q hpq)

theorem next (h : Round text R first fresh seen) (hc : Complete text R move)
    (hs : Sound R move) (hR : ∀ p q, R p q → p.offset ≤ q.offset) :
    Round text R first ((move fresh).without seen) (union ((move fresh).without seen) seen) := by
  obtain ⟨hmove, -⟩ := hc h.fresh_ordered
  have hnew := hmove.filter fun p => !holds p.offset seen
  obtain ⟨hunion, hmem⟩ := union_ordered hnew h.seen_ordered
  refine ⟨hnew, hunion, fun q hq => ?_, fun q hq => hmem q (.inl hq), fun p hp hno q hpq => ?_⟩
  · rcases mem_or_mem_of_mem_union hq with hq | hq
    · obtain ⟨p, hp, hpq⟩ := hs (List.mem_filter.1 hq).1
      exact Nat.le_trans (h.first_le p (h.fresh_seen p hp)) (hR p q hpq)
    · exact h.first_le q hq
  · have hp := (mem_or_mem_of_mem_union hp).resolve_left hno
    exact hmem q (h.found hc hp hpq).symm

/-- A round that finds something leaves less to find. -/
theorem missing_next (h : Round text R first fresh seen) (hc : Complete text R move)
    (hs : Sound R move) (hR : ∀ p q, R p q → p.offset ≤ q.offset) {q : Position}
    (hq : q ∈ (move fresh).without seen) :
    missing text first (union ((move fresh).without seen) seen) < missing text first seen := by
  have hnext := h.next hc hs hR
  have hmem := (union_ordered hnext.fresh_ordered h.seen_ordered).2
  refine missing_lt h.seen_ordered hnext.seen_ordered (fun p hp => hmem p (.inr hp))
    (hmem q (.inl hq)) (hnext.first_le q (hmem q (.inl hq))) ?_
  simpa using (List.mem_filter.1 hq).2

theorem closure (h : Round text R first fresh seen) (hc : Complete text R move)
    (hs : Sound R move) (hR : ∀ p q, R p q → p.offset ≤ q.offset) (fuel : Bytes)
    (hroom : missing text first seen ≤ fuel.length) :
    Ordered text (closure move fuel fresh seen) ∧
      (∀ p ∈ seen, p ∈ closure move fuel fresh seen) ∧
      ∀ p ∈ closure move fuel fresh seen, ∀ q, R p q → q ∈ closure move fuel fresh seen := by
  induction fuel generalizing fresh seen with
  | nil =>
    refine ⟨h.seen_ordered, fun p hp => hp, ?_⟩
    intro p hp q hpq
    refine (h.found hc hp hpq).resolve_right ?_
    intro hq
    have := h.missing_next hc hs hR hq
    simp only [List.length_nil] at hroom
    omega
  | cons b fuel ih =>
    rw [Positions.closure]
    cases hnew : (move fresh).without seen with
    | nil =>
      refine ⟨h.seen_ordered, fun p hp => hp, ?_⟩
      intro p hp q hpq
      refine (h.found hc hp hpq).resolve_right ?_
      intro hq
      simp [hnew] at hq
    | cons q new =>
      have hnext := h.next hc hs hR
      have hless := h.missing_next (q := q) hc hs hR (by simp [hnew])
      rw [hnew] at hnext hless
      have hmem := (union_ordered hnext.fresh_ordered h.seen_ordered).2
      simp only [List.length_cons] at hroom
      obtain ⟨ho, hsub, hall⟩ := ih hnext (by omega)
      exact ⟨ho, fun p hp => hsub p (hmem p (.inr hp)), hall⟩

end Round

private theorem countP_range (first n : Nat) :
    (List.range n).countP (fun o => decide (first ≤ o)) = n - first := by
  induction n with
  | zero => simp
  | succ n ih =>
    rw [List.range_succ, List.countP_append, ih, List.countP_singleton]
    split
    · next h =>
      have := of_decide_eq_true h
      omega
    · next h =>
      have : ¬first ≤ n := by simpa using h
      omega

private theorem missing_le
    {seen : Positions} (hs : Ordered text seen) {p : Position} (hp : p ∈ seen) :
    missing text p.offset seen ≤ p.rest.length := by
  have hlength := (hs.reached p hp).length_eq
  have hle : (List.range (text.length + 1)).countP
        (fun o => decide (p.offset ≤ o) && !holds o seen) ≤
      (List.range (text.length + 1)).countP fun o => decide (p.offset + 1 ≤ o) := by
    refine List.countP_mono_left ?_
    intro o _ ho
    simp only [Bool.and_eq_true, decide_eq_true_eq, Bool.not_eq_true'] at ho ⊢
    have hne : o ≠ p.offset := by
      rintro rfl
      have := (holds_iff hs p.offset).2 ⟨p, hp, rfl⟩
      simp [this] at ho
    omega
  rw [countP_range] at hle
  rw [missing, ← List.countP_eq_length_filter]
  omega

/-- The earliest of some positions is the one that `tail` looks at. -/
theorem exists_first {ps : Positions} (h : Ordered text ps) (hne : ps ≠ []) :
    ∃ p ∈ ps, ps.tail = p.rest ∧ ∀ q ∈ ps, p.offset ≤ q.offset := by
  obtain ⟨p, hp⟩ := Option.ne_none_iff_exists'.1 (mt List.getLast?_eq_none_iff.1 hne)
  refine ⟨p, List.mem_of_getLast? hp, by simp [Positions.tail, hp], ?_⟩
  intro q hq
  obtain ⟨init, rfl⟩ := List.getLast?_eq_some_iff.1 hp
  rcases List.mem_append.1 hq with hq | hq
  · have := (List.pairwise_append.1 h.sorted).2.2 q hq p (by simp)
    omega
  · obtain rfl := List.mem_singleton.1 hq
    exact Nat.le_refl _

/-- Started from positions in order, the closure finds all that `R` leads to. -/
theorem closure_start {ps : Positions} (h : Ordered text ps) (hc : Complete text R move)
    (hs : Sound R move) (hR : ∀ p q, R p q → p.offset ≤ q.offset) :
    Ordered text (closure move ps.tail ps ps) ∧ (∀ p ∈ ps, p ∈ closure move ps.tail ps ps) ∧
      ∀ p ∈ closure move ps.tail ps ps, ∀ q, R p q → q ∈ closure move ps.tail ps ps := by
  cases ps with
  | nil => exact ⟨.nil, by simp, by simp [Positions.tail, closure]⟩
  | cons p ps =>
    obtain ⟨first, hm, htail, hle⟩ := exists_first h (by simp)
    have hround : Round text R first.offset (p :: ps) (p :: ps) :=
      ⟨h, h, hle, fun _ hp => hp, fun _ hp hno => absurd hp hno⟩
    refine hround.closure hc hs hR _ ?_
    rw [htail]
    exact missing_le h hm

end Positions

open Positions

/-- Every match is found. -/
theorem complete_advance (text : Bytes) (r : Regex) : Complete text r.Matches r.advance := by
  induction r with
  | empty => exact fun ho => ⟨ho, fun p hp q hq => hq ▸ hp⟩
  | one cls =>
    exact fun ho => ⟨ho.filterMap fun _ _ => next_of_take?,
      fun p hp q hq => List.mem_filterMap.2 ⟨p, hp, hq⟩⟩
  | written c =>
    exact fun ho => ⟨ho.filterMap fun _ _ => next_of_takeWritten?,
      fun p hp q hq => List.mem_filterMap.2 ⟨p, hp, hq⟩⟩
  | look anchor =>
    refine fun ho => ⟨ho.filter _, ?_⟩
    rintro p hp q ⟨hs, rfl⟩
    exact List.mem_filter.2 ⟨hp, hs⟩
  | seq first second ih₁ ih₂ =>
    intro ps ho
    obtain ⟨ho₁, hm₁⟩ := ih₁ ho
    obtain ⟨ho₂, hm₂⟩ := ih₂ ho₁
    refine ⟨ho₂, ?_⟩
    rintro p hp q ⟨m, hpm, hmq⟩
    exact hm₂ m (hm₁ p hp m hpm) q hmq
  | alt left right ih₁ ih₂ =>
    intro ps ho
    obtain ⟨ho₁, hm₁⟩ := ih₁ ho
    obtain ⟨ho₂, hm₂⟩ := ih₂ ho
    obtain ⟨hu, hm⟩ := union_ordered ho₁ ho₂
    refine ⟨hu, fun p hp q hq => hm q ?_⟩
    exact hq.imp (hm₁ p hp q) (hm₂ p hp q)
  | times least most item ih =>
    intro ps ho
    obtain ⟨hp, hpower⟩ := complete_power ih least ho
    cases most with
    | some most =>
      obtain ⟨hu, hm⟩ := complete_upTo ih (most - least) hp
      refine ⟨hu, ?_⟩
      rintro p hps q ⟨n, hle, hmost, hn⟩
      have := hmost most rfl
      obtain ⟨k, rfl⟩ := Nat.exists_eq_add_of_le hle
      obtain ⟨m, hpm, hmq⟩ := hn.split
      exact hm m (hpower p hps m hpm) q ⟨k, by omega, hmq⟩
    | none =>
      have hahead (p q : Position) (h : item.Matches p q) : p.offset ≤ q.offset := h.ahead.1
      obtain ⟨hc, hsub, hall⟩ := closure_start hp ih (sound_advance item) hahead
      refine ⟨hc, ?_⟩
      rintro p hps q ⟨n, hle, -, hn⟩
      obtain ⟨k, rfl⟩ := Nat.exists_eq_add_of_le hle
      obtain ⟨m, hpm, hmq⟩ := hn.split
      have hm := hsub m (hpower p hps m hpm)
      clear hpm hn
      -- behind the least number of rounds each further one stays in the closure
      induction k generalizing m with
      | zero => exact hmq ▸ hm
      | succ k ihk =>
        obtain ⟨m', hm', hq⟩ := hmq
        exact ihk (Nat.le_add_right _ _) m' hq (hall m hm m' hm')

section

variable {text : Bytes} {r : Regex} {q : Position}

/-- Where a match from the start of a text ends, the rest of that text begins. -/
theorem Matches.length_eq (h : r.Matches (Position.start text) q) :
    q.offset + q.rest.length = text.length := by
  simpa [Position.start] using h.ahead.2

theorem ordered_start (text : Bytes) : Ordered text [Position.start text] :=
  .cons (.start text) (by simp) .nil

private theorem ordered_advance (r : Regex) (text : Bytes) :
    Ordered text (r.advance [Position.start text]) :=
  (complete_advance text r (ordered_start text)).1

/-- From the start of a text an expression moves to the ends of all its matches there. -/
theorem mem_advance_iff : q ∈ r.advance [Position.start text] ↔
    r.Matches (Position.start text) q := by
  constructor
  · intro hq
    obtain ⟨p, hp, hm⟩ := sound_advance r hq
    exact List.mem_singleton.1 hp ▸ hm
  · exact (complete_advance text r (ordered_start text)).2 _ (List.mem_singleton_self _) q

/-- The longest match comes first. -/
theorem head?_advance_iff : (r.advance [Position.start text]).head? = some q ↔
    r.Matches (Position.start text) q ∧
      ∀ q', r.Matches (Position.start text) q' → q'.offset ≤ q.offset := by
  have hordered := ordered_advance r text
  simp only [← mem_advance_iff (r := r)]
  cases hps : r.advance [Position.start text] with
  | nil => simp
  | cons p ps =>
    rw [hps] at hordered
    rw [List.head?_cons, Option.some.injEq]
    constructor
    · rintro rfl
      exact ⟨List.mem_cons_self, fun q' hq' => hordered.offset_le_head hq'⟩
    · rintro ⟨hq, hall⟩
      refine (hordered.reached p List.mem_cons_self).eq_of_offset (hordered.reached q hq) ?_
      exact Nat.le_antisymm (hall p List.mem_cons_self) (hordered.offset_le_head hq)

end

end PegMachine.Regex
