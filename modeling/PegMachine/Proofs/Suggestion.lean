import PegMachine.Grammar.Basic

namespace PegMachine

namespace Search

/-- What was found so far is a candidate below the limit. -/
private theorem closest_foldl {distance : Bytes → Nat} {limit : Nat} {all candidates : List Bytes}
    (hsub : candidates ⊆ all) {best : Option Bytes × Nat} (hlimit : best.2 ≤ limit)
    (hbest : ∀ name, best.1 = some name → name ∈ all ∧ distance name < limit) {name : Bytes}
    (h : (candidates.foldl
      (fun (best : Option Bytes × Nat) candidate =>
        if distance candidate < best.2 then (some candidate, distance candidate) else best)
      best).1 = some name) : name ∈ all ∧ distance name < limit := by
  induction candidates generalizing best with
  | nil => exact hbest name h
  | cons candidate candidates ih =>
    obtain ⟨hmem, hsub⟩ := List.cons_subset.1 hsub
    rw [List.foldl_cons] at h
    by_cases hcloser : distance candidate < best.2
    · rw [if_pos hcloser] at h
      have hbelow : distance candidate < limit := Nat.lt_of_lt_of_le hcloser hlimit
      refine ih hsub (Nat.le_of_lt hbelow) (fun found hfound => ?_) h
      obtain rfl := Option.some.inj hfound
      exact ⟨hmem, hbelow⟩
    · rw [if_neg hcloser] at h
      exact ih hsub hlimit hbest h

private theorem closest_eq_some {distance : Bytes → Nat} {limit : Nat} {candidates : List Bytes}
    {name : Bytes} (h : closest distance limit candidates = some name) :
    name ∈ candidates ∧ distance name < limit :=
  closest_foldl (List.Subset.refl _) (Nat.le_refl limit) (by simp) h

variable (search : Search) (name : Bytes) (names : List Bytes)

/-- A suggestion is one of the names, and it resembles the one that it is for: of those that contain
its characters in order it is one of the closest, and if there are none its edit distance is at most
a third of the length. -/
theorem suggest_cases : search.suggest name names = [] ∨ search.suggest name names ∈ names ∧
    ((∀ rank ∈ search.ranks name names,
        search.distance name (search.suggest name names) ≤ rank.distance) ∧
      (search.ranks name names = [] → search.distance (LowerCase.ofText name)
        (LowerCase.ofText (search.suggest name names)) ≤ name.length / 3)) := by
  unfold suggest
  split
  · exact .inl rfl
  have hperm := search.sort_perm (search.ranks name names)
  have hsorted := search.sort_sorted (search.ranks name names)
  split
  · next best rest hsort =>
    rw [hsort] at hperm hsorted
    have hbest : best ∈ search.ranks name names := hperm.mem_iff.1 List.mem_cons_self
    refine .inr ⟨search.target_mem name names best hbest, fun rank hrank => ?_, fun hnone => ?_⟩
    · rw [← search.distance_eq name names best hbest]
      obtain rfl | hrest := List.mem_cons.1 (hperm.mem_iff.2 hrank)
      · exact Nat.le_refl _
      · exact List.rel_of_pairwise_cons hsorted hrest
    · rw [hnone] at hbest
      cases hbest
  · next hsort =>
    rw [hsort] at hperm
    have hnone : search.ranks name names = [] := hperm.symm.eq_nil
    simp only
    cases hclosest : closest _ (name.length / 3 + 1) names with
    | none => exact .inl rfl
    | some found =>
      obtain ⟨hmem, hbelow⟩ := closest_eq_some hclosest
      exact .inr ⟨hmem, by simp [hnone], fun _ => Nat.le_of_lt_succ hbelow⟩

end Search

/-- What is suggested for a rule that is not defined is a rule of the grammar. -/
theorem Grammar.undefined_suggestion (g : Grammar) (name referrer : Bytes) (search : Search) :
    (g.undefined name referrer).suggestion search = [] ∨
      (g.undefined name referrer).suggestion search ∈ g.names :=
  (search.suggest_cases name g.names).imp_right And.left

end PegMachine
