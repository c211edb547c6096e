import Mathlib.Data.List.GetD
import PegMachine.Location
import PegMachine.Proofs.Text.Characters

namespace PegMachine.Location

/-- Where the line of an offset starts: right after the last newline before it. -/
def lineStart (text : Bytes) : Nat → Nat
  | 0 => 0
  | c + 1 => if text[c]? = some Ascii.newline then c + 1 else lineStart text c

/-- The location of an offset, counted: the newlines before it, and the characters that end at it
or before it when decoding starts at the line. -/
def counted (text : Bytes) (c : Nat) : Location where
  line := 1 + (text.take c).count Ascii.newline
  column := 1 + Utf8.runesUpTo (text.drop (lineStart text c)) (c - lineStart text c)
  offset := c

section Bisection

variable {entry : Nat → Nat} {limit size fuel lo hi : Nat}

/-- Bisection stops right after an entry that is at most the limit, and right before one that is
past it. The interval has such ends from the beginning; that the entries are sorted only matters
for there being one such place. -/
theorem bisect_between (hfuel : hi - lo ≤ fuel) (hle : lo ≤ hi) (hlo : entry (lo - 1) ≤ limit)
    (hhi : hi < size → limit < entry hi) :
    bisect entry limit fuel lo hi ≤ hi ∧ entry (bisect entry limit fuel lo hi - 1) ≤ limit ∧
      (bisect entry limit fuel lo hi < size → limit < entry (bisect entry limit fuel lo hi)) := by
  induction fuel generalizing lo hi with
  | zero =>
    have heq : lo = hi := by omega
    subst heq
    exact ⟨Nat.le_refl _, hlo, hhi⟩
  | succ fuel ih =>
    rw [bisect]
    by_cases hlt : lo < hi
    · rw [if_pos hlt]
      by_cases hmid : entry ((lo + hi) / 2) ≤ limit
      · rw [if_pos hmid]
        exact ih (by omega) (by omega) hmid hhi
      · rw [if_neg hmid]
        have hrec := @ih lo ((lo + hi) / 2) (by omega) (by omega) hlo
          (fun _ => Nat.lt_of_not_le hmid)
        exact ⟨by omega, hrec.2⟩
    · rw [if_neg hlt]
      have heq : lo = hi := by omega
      subst heq
      exact ⟨Nat.le_refl _, hlo, hhi⟩

/-- Bisection between all entries, of which the first is at most the limit. -/
theorem bisect_all (entry : Nat → Nat) (size : Nat) (hzero : entry 0 ≤ limit) :
    bisect entry limit size 0 size ≤ size ∧ entry (bisect entry limit size 0 size - 1) ≤ limit ∧
      (bisect entry limit size 0 size < size → limit < entry (bisect entry limit size 0 size)) := by
  apply bisect_between
  · exact Nat.le_refl _
  · exact Nat.zero_le _
  · exact hzero
  · intro hlt
    exact absurd hlt (Nat.lt_irrefl _)

/-- When the entries up to the limit come first, bisection finds where they end. -/
theorem bisect_append {first : Nat} {before after : List Nat}
    (hbefore : ∀ place ∈ first :: before, place ≤ limit) (hafter : ∀ place ∈ after, limit < place) :
    bisect (fun i => (first :: before ++ after).getD i 0) limit (first :: before ++ after).length 0
      (first :: before ++ after).length = (first :: before).length := by
  have hfirst : (first :: before ++ after).getD 0 0 ≤ limit := hbefore first List.mem_cons_self
  obtain ⟨hle, hbelow, habove⟩ := bisect_all (fun i => (first :: before ++ after).getD i 0)
    (first :: before ++ after).length hfirst
  generalize bisect _ limit _ 0 _ = found at hle hbelow habove ⊢
  rw [List.length_append] at hle
  apply Nat.le_antisymm
  -- a place further on would be after an entry past the limit, and an earlier one before an entry
  -- that is not
  · apply Nat.le_of_not_lt
    intro hlt
    have hplace : found - 1 - (first :: before).length < after.length := by omega
    have hpast := hafter _ (List.getElem_mem hplace)
    rw [List.getD_append_right _ _ _ _ (by omega), List.getD_eq_getElem _ _ hplace] at hbelow
    omega
  · apply Nat.le_of_not_lt
    intro hlt
    have hupto := hbefore _ (List.getElem_mem hlt)
    have hpast := habove (by rw [List.length_append]; omega)
    rw [List.getD_append _ _ _ _ hlt, List.getD_eq_getElem _ _ hlt] at hpast
    omega

end Bisection

section Lines

variable {text : Bytes} {c : Nat}

theorem breaksFrom_append (offset : Nat) (before after : Bytes) :
    breaksFrom offset (before ++ after) =
      breaksFrom offset before ++ breaksFrom (offset + before.length) after := by
  induction before generalizing offset with
  | nil => simp [breaksFrom]
  | cons b before ih =>
    have hplace : offset + 1 + before.length = offset + (b :: before).length := by
      rw [List.length_cons]
      omega
    simp only [List.cons_append, breaksFrom, ih, hplace]
    split <;> rfl

private theorem mem_breaksFrom {offset place : Nat} (h : place ∈ breaksFrom offset text) :
    offset < place ∧ place ≤ offset + text.length := by
  induction text generalizing offset with
  | nil => simp [breaksFrom] at h
  | cons b rest ih =>
    have hlater : place ∈ breaksFrom (offset + 1) rest →
        offset < place ∧ place ≤ offset + (b :: rest).length := by
      intro hmem
      have hbounds := ih hmem
      rw [List.length_cons]
      omega
    rw [breaksFrom] at h
    split at h
    · rcases List.mem_cons.1 h with rfl | hmem
      · rw [List.length_cons]
        omega
      · exact hlater hmem
    · exact hlater h

private theorem length_breaksFrom (offset : Nat) (text : Bytes) :
    (breaksFrom offset text).length = text.count Ascii.newline := by
  induction text generalizing offset with
  | nil => rfl
  | cons b rest ih =>
    rw [breaksFrom, List.count_cons]
    split
    · next h => simp [h, ih]
    · next h => simp [h, ih]

/-- The lines that start at an offset or before it. -/
def startsUpTo (text : Bytes) (c : Nat) : List Nat := 0 :: breaksFrom 0 (text.take c)

private theorem startsUpTo_succ (text : Bytes) (c : Nat) : startsUpTo text (c + 1) =
    startsUpTo text c ++ if text[c]? = some Ascii.newline then [c + 1] else [] := by
  rw [startsUpTo, List.take_add_one, breaksFrom_append, Nat.zero_add, startsUpTo, List.cons_append]
  cases hb : text[c]? with
  | none => simp [breaksFrom]
  | some b =>
    have hlength : (text.take c).length = c := by
      obtain ⟨hlt, -⟩ := List.getElem?_eq_some_iff.1 hb
      simp [Nat.le_of_lt hlt]
    rw [hlength]
    simp [breaksFrom]

/-- The line of an offset is the last of those that start at it or before it. -/
theorem getLast?_startsUpTo (text : Bytes) (c : Nat) :
    (startsUpTo text c).getLast? = some (lineStart text c) := by
  induction c with
  | zero => simp [startsUpTo, breaksFrom, lineStart]
  | succ c ih =>
    rw [startsUpTo_succ, lineStart]
    split
    · exact List.getLast?_concat
    · rw [List.append_nil]
      exact ih

private theorem lineStart_le (text : Bytes) (c : Nat) : lineStart text c ≤ c := by
  induction c with
  | zero => exact Nat.le_refl _
  | succ c ih =>
    rw [lineStart]
    split
    · exact Nat.le_refl _
    · exact Nat.le_succ_of_le ih

/-- A line starts between two characters. -/
theorem whole_lineStart (text : Bytes) (c : Nat) :
    ∃ count, Utf8.Whole count (lineStart text c) text := by
  induction c with
  | zero => exact ⟨0, .zero⟩
  | succ c ih =>
    rw [lineStart]
    split
    · next h => exact Utf8.whole_of_newline h
    · exact ih

theorem lineStarts_eq (hc : c ≤ text.length) : (Index.ofText text).lineStarts =
    (startsUpTo text c ++ breaksFrom c (text.drop c)).toArray := by
  have hsplit := breaksFrom_append 0 (text.take c) (text.drop c)
  rw [List.take_append_drop, List.length_take_of_le hc, Nat.zero_add] at hsplit
  show (0 :: breaksFrom 0 text).toArray = _
  rw [hsplit]
  rfl

/-- Bisection over the line starts of a text goes past those up to the offset. -/
theorem bisect_lineStarts (hc : c ≤ text.length) :
    bisect (fun i => (Index.ofText text).lineStarts.getD i 0) c
      (Index.ofText text).lineStarts.size 0 (Index.ofText text).lineStarts.size =
        (startsUpTo text c).length := by
  have hupto : ∀ place ∈ startsUpTo text c, place ≤ c := by
    intro place hplace
    rcases List.mem_cons.1 hplace with rfl | hplace
    · exact Nat.zero_le c
    · have hbounds := mem_breaksFrom hplace
      rw [List.length_take_of_le hc] at hbounds
      omega
  have hlater : ∀ place ∈ breaksFrom c (text.drop c), c < place := by
    intro place hplace
    exact (mem_breaksFrom hplace).1
  have hfound := bisect_append hupto hlater
  rw [lineStarts_eq hc]
  simpa [startsUpTo] using hfound

/-- The last of those starts is the one of the line. -/
theorem getD_lineStarts (hc : c ≤ text.length) :
    (Index.ofText text).lineStarts.getD ((startsUpTo text c).length - 1) 0 = lineStart text c := by
  have hlast := getLast?_startsUpTo text c
  have hindex : (startsUpTo text c).length - 1 < (startsUpTo text c).length :=
    Nat.sub_one_lt (by simp [startsUpTo])
  rw [List.getLast?_eq_getElem?] at hlast
  rw [lineStarts_eq hc, Array.getD_eq_getD_getElem?, List.getElem?_toArray,
    List.getElem?_append_left hindex, hlast]
  rfl

end Lines

section Columns

/-- Each checkpoint is between two characters, and counts those before it. -/
theorem checkpointsFrom_whole {text rest : Bytes} {stride offset count since skip : Nat}
    (hwhole : Utf8.Whole count offset text) (hrest : text.drop offset = rest.drop skip)
    (e : Nat × Nat) (he : e ∈ checkpointsFrom stride offset count since skip rest) :
    Utf8.Whole e.2 e.1 text := by
  induction rest generalizing offset count since skip with
  | nil => simp [checkpointsFrom] at he
  | cons b rest ih =>
    cases skip with
    | succ skip => exact ih hwhole hrest he
    | zero =>
      have hnext : Utf8.Whole (count + 1) (offset + (Utf8.decodeAt b rest).2) text :=
        hwhole.snoc hrest
      have hlater : text.drop (offset + (Utf8.decodeAt b rest).2) =
          rest.drop ((Utf8.decodeAt b rest).2 - 1) := by
        rw [← List.drop_drop, hrest, List.drop_zero]
        exact List.drop_cons (Utf8.width_pos b rest)
      rw [checkpointsFrom] at he
      split at he
      · rcases List.mem_cons.1 he with rfl | he
        · exact hnext
        · exact ih hnext hlater he
      · exact ih hnext hlater he

private theorem runesWithin_eq (room skip : Nat) (text : Bytes) :
    runesWithin room skip text = Utf8.runesUpTo (text.drop skip) room := by
  induction text generalizing room skip with
  | nil => simp [runesWithin, Utf8.runesUpTo_nil]
  | cons b rest ih =>
    cases skip with
    | succ skip => exact ih room skip
    | zero =>
      rw [runesWithin, List.drop_zero]
      by_cases h : (Utf8.decodeAt b rest).2 ≤ room
      · rw [if_pos h, ih, Utf8.runesUpTo_cons_of_le h, List.drop_cons (Utf8.width_pos b rest)]
      · rw [if_neg h, Utf8.runesUpTo_cons_of_lt (Nat.lt_of_not_le h)]

private theorem checkpoint_whole (text : Bytes) (i : Nat) :
    Utf8.Whole ((Index.ofText text).checkpoints.getD i (0, 0)).2
      ((Index.ofText text).checkpoints.getD i (0, 0)).1 text := by
  by_cases hi : i < (Index.ofText text).checkpoints.size
  · have hmem := Array.mem_toList_iff.2 (Array.getElem_mem hi)
    rw [Array.getElem_eq_getD (0, 0)] at hmem
    rcases List.mem_cons.1 hmem with hzero | hmem
    · rw [hzero]
      exact .zero
    · exact checkpointsFrom_whole .zero rfl _ hmem
  · rw [Array.getD_eq_getD_getElem?, Array.getElem?_eq_none (Nat.le_of_not_lt hi)]
    exact .zero

/-- Counting from a checkpoint gives what decoding from the beginning gives. -/
theorem runesBefore_eq (text : Bytes) (c : Nat) :
    (Index.ofText text).runesBefore c = Utf8.runesUpTo text c := by
  have hfirst : ((Index.ofText text).checkpoints.getD 0 (0, 0)).1 ≤ c := Nat.zero_le c
  obtain ⟨-, hbefore, -⟩ := bisect_all
    (fun i => ((Index.ofText text).checkpoints.getD i (0, 0)).1)
    (Index.ofText text).checkpoints.size hfirst
  have hcount := (checkpoint_whole text _).runesUpTo_eq hbefore
  rw [Index.runesBefore]
  simp only
  rw [hcount, runesWithin_eq, List.drop_zero]
  rfl

end Columns

/-- The column of an offset, as the difference of two counts from the beginning, is one count that
starts at its line. -/
theorem runesUpTo_lineStart (text : Bytes) (c : Nat) :
    (Utf8.runesUpTo text c : Int) - Utf8.runesUpTo text (lineStart text c) + 1 =
      1 + Utf8.runesUpTo (text.drop (lineStart text c)) (c - lineStart text c) := by
  obtain ⟨count, hwhole⟩ := whole_lineStart text c
  rw [hwhole.runesUpTo_eq (lineStart_le text c), hwhole.runesUpTo_eq (Nat.le_refl _), Nat.sub_self,
    Utf8.runesUpTo_zero]
  omega

/-- The index of a text locates an offset, moved to the nearest end when it is outside of the text,
where counting finds it; its checkpoints change no count. -/
theorem locate_eq_counted (text : Bytes) (offset : Int) :
    locate text offset = counted text (min offset.toNat text.length) ∧
      ∀ c, (Index.ofText text).runesBefore c = Utf8.runesUpTo text c := by
  refine ⟨?_, runesBefore_eq text⟩
  have hc : min offset.toNat text.length ≤ text.length := Nat.min_le_right _ _
  have htext : (Index.ofText text).text = text := rfl
  simp only [locate, Index.locate, htext]
  generalize min offset.toNat text.length = c at hc
  have hline : (startsUpTo text c).length - 1 = (text.take c).count Ascii.newline := by
    rw [startsUpTo, List.length_cons, length_breaksFrom, Nat.add_sub_cancel]
  rw [bisect_lineStarts hc, getD_lineStarts hc, runesBefore_eq, runesBefore_eq,
    runesUpTo_lineStart, hline, Int.add_comm]
  rfl

end PegMachine.Location
