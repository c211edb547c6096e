import PegMachine.Input
import PegMachine.Proofs.Regex.Matching

namespace PegMachine

/-- The outcome of trying a leaf at `cursor` is no fault and stays within the first `size` items. -/
def Attempt.Within (cursor size : Int) : Attempt → Prop
  | .fault => False
  | .mismatch => True
  | .success _ next => cursor ≤ next ∧ next ≤ size

namespace Input

theorem size_nonneg (input : Input) : 0 ≤ input.size := by
  cases input <;> simp [size]

theorem rest?_eq {source : Bytes} {cursor : Int} (h : 0 ≤ cursor) (h' : cursor ≤ source.length) :
    rest? source cursor = some (source.drop cursor.toNat) := if_pos ⟨h, h'⟩

theorem tryToken_within {stream : List Token} {cursor : Int} (accepts : Bytes → Bool)
    (h : 0 ≤ cursor) : (tryToken stream cursor accepts).Within cursor stream.length := by
  unfold tryToken
  rw [if_neg (by omega)]
  cases ht : stream[cursor.toNat]? with
  | none => trivial
  | some token =>
    simp only
    obtain ⟨hlt, -⟩ := List.getElem?_eq_some_iff.1 ht
    split
    · simp only [Attempt.Within]
      omega
    · trivial

theorem tryLiteral_within {input : Input} {cursor : Int} (literal : Bytes) (h : 0 ≤ cursor)
    (h' : cursor ≤ input.size) : (input.tryLiteral cursor literal).Within cursor input.size := by
  cases input with
  | text source =>
    simp only [tryLiteral, rest?_eq h h']
    split
    · next hp =>
      have hle := (List.isPrefixOf_iff_prefix.1 hp).length_le
      simp only [size] at h'
      simp only [List.length_drop] at hle
      simp only [Attempt.Within, size]
      omega
    · trivial
  | tokens source stream => exact tryToken_within (· == literal) h

theorem tryPattern_within {input : Input} {cursor : Int} (p : Pattern) (h : 0 ≤ cursor)
    (h' : cursor ≤ input.size) : (input.tryPattern cursor p).Within cursor input.size := by
  cases input with
  | text source =>
    simp only [tryPattern, rest?_eq h h']
    split
    · trivial
    · next n hn =>
      obtain ⟨r, -, hr⟩ := Option.bind_eq_some_iff.1 hn
      have hle := Regex.search_le hr
      simp only [size] at h'
      simp only [List.length_drop] at hle
      simp only [Attempt.Within, size]
      omega
  | tokens source stream => exact tryToken_within _ h

theorem offset?_isSome (input : Input) {cursor : Int} (h : 0 ≤ cursor) :
    (input.offset? cursor).isSome := by
  cases input with
  | text source => rfl
  | tokens source stream =>
    simp only [offset?]
    rw [if_neg (by omega)]
    repeat' split
    all_goals rfl

theorem span?_isSome {input : Input} {start stop : Int} (h : 0 ≤ start) (h' : stop ≤ input.size) :
    (input.span? start stop).isSome := by
  cases input with
  | text source => rfl
  | tokens source stream =>
    simp only [span?]
    split
    · rw [Option.isSome_map]
      exact offset?_isSome _ h
    · rw [if_neg (by omega)]
      simp only [size] at h'
      have hstart : start.toNat < stream.length := by omega
      have hstop : (stop - 1).toNat < stream.length := by omega
      rw [List.getElem?_eq_getElem hstart, List.getElem?_eq_getElem hstop]
      rfl

end Input

end PegMachine
