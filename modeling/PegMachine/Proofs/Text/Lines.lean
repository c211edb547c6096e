import PegMachine.Text.Bytes

namespace PegMachine

section Cuts

variable {α : Type} {u v u' v' : List α}

/-- Where a run of items with a property ends, there is only one way to cut it off. -/
theorem run_eq_of_append_eq {p : α → Bool} (hu : ∀ a ∈ u, p a = true) (hu' : ∀ a ∈ u', p a = true)
    (hv : ∀ a ∈ v.head?, p a = false) (hv' : ∀ a ∈ v'.head?, p a = false)
    (h : u ++ v = u' ++ v') : u = u' ∧ v = v' := by
  induction u generalizing u' with
  | nil =>
    cases u' with
    | nil => exact ⟨rfl, h⟩
    | cons b u' =>
      have hhead : v.head? = some b := congrArg List.head? h
      have hb := hv b hhead
      rw [hu' b (by simp)] at hb
      cases hb
  | cons a u ih =>
    cases u' with
    | nil =>
      have hhead : v'.head? = some a := congrArg List.head? h.symm
      have ha := hv' a hhead
      rw [hu a (by simp)] at ha
      cases ha
    | cons b u' =>
      obtain ⟨rfl, hrest⟩ := List.cons.inj h
      obtain ⟨rfl, rfl⟩ := ih (fun b hb => hu b (List.mem_cons_of_mem _ hb))
        (fun b hb => hu' b (List.mem_cons_of_mem _ hb)) hrest
      exact ⟨rfl, rfl⟩

variable [DecidableEq α] {a : α}

/-- A list is cut in one way at the first item of a kind. -/
theorem eq_of_append_first_eq (hu : a ∉ u) (hu' : a ∉ u') (h : u ++ a :: v = u' ++ a :: v') :
    u = u' ∧ v = v' := by
  have hrun {w : List α} (hw : a ∉ w) : ∀ b ∈ w, (b != a) = true := by
    intro b hb
    simpa using fun hba : b = a => hw (hba ▸ hb)
  obtain ⟨rfl, hrest⟩ := run_eq_of_append_eq (hrun hu) (hrun hu') (by simp) (by simp) h
  exact ⟨rfl, (List.cons.inj hrest).2⟩

/-- A list is cut in one way at the last item of a kind. -/
theorem eq_of_append_last_eq (hv : a ∉ v) (hv' : a ∉ v') (h : u ++ a :: v = u' ++ a :: v') :
    u = u' ∧ v = v' := by
  have hreverse : v.reverse ++ a :: u.reverse = v'.reverse ++ a :: u'.reverse := by
    simpa using congrArg List.reverse h
  obtain ⟨hbehind, hbefore⟩ :=
    eq_of_append_first_eq (by simpa using hv) (by simpa using hv') hreverse
  exact ⟨List.reverse_inj.1 hbefore, List.reverse_inj.1 hbehind⟩

end Cuts

namespace Bytes

private theorem join_eq_intercalate (sep : Bytes) (parts : List Bytes) :
    join sep parts = sep.intercalate parts := by
  induction parts with
  | nil => rfl
  | cons part parts ih =>
    cases parts with
    | nil => simp [join]
    | cons next parts => rw [join, ih, List.intercalate_cons_cons]

private theorem join_append
    (sep : Bytes) {parts parts' : List Bytes} (h : parts ≠ []) (h' : parts' ≠ []) :
    join sep (parts ++ parts') = join sep parts ++ (sep ++ join sep parts') := by
  induction parts with
  | nil => exact absurd rfl h
  | cons part parts ih =>
    cases parts with
    | nil =>
      obtain ⟨next, rest, rfl⟩ := List.exists_cons_of_ne_nil h'
      simp [join]
    | cons next parts =>
      have hrest := ih (by simp)
      simp only [List.cons_append] at hrest ⊢
      simp only [join, hrest, List.append_assoc]

/-- Joining what is joined already is joining all of it. -/
theorem join_map_join (sep : Bytes) {groups : List (List Bytes)}
    (h : ∀ group ∈ groups, group ≠ []) :
    join sep (groups.map (join sep)) = join sep groups.flatten := by
  induction groups with
  | nil => rfl
  | cons group groups ih =>
    obtain ⟨hgroup, hgroups⟩ := List.forall_mem_cons.1 h
    cases groups with
    | nil => simp [join]
    | cons next groups =>
      have hne : (next :: groups).flatten ≠ [] := by simp [hgroups next (by simp)]
      rw [List.flatten_cons, join_append sep hgroup hne, ← ih hgroups, List.map_cons, List.map_cons,
        join, List.append_assoc]

/-- A line with something on it. -/
def IsLine (text : Bytes) : Prop := text ≠ [] ∧ Ascii.newline ∉ text

theorem splitOn_join {lines : List Bytes} (hl : ∀ line ∈ lines, IsLine line) (hne : lines ≠ []) :
    (join newline lines).splitOn Ascii.newline = lines := by
  rw [join_eq_intercalate]
  exact List.splitOn_intercalate Ascii.newline (fun line hline => (hl line hline).2) hne

private theorem join_ne_nil
    {lines : List Bytes} (hl : ∀ line ∈ lines, IsLine line) (hne : lines ≠ []) :
    join newline lines ≠ [] := by
  intro hnil
  have hsplit := splitOn_join hl hne
  rw [hnil] at hsplit
  exact (hl [] (hsplit ▸ List.mem_singleton_self [])).1 rfl

/-- The lines of a text are found again in it. -/
theorem eq_of_join_eq {lines lines' : List Bytes} (hl : ∀ line ∈ lines, IsLine line)
    (hl' : ∀ line ∈ lines', IsLine line) (h : join newline lines = join newline lines') :
    lines = lines' := by
  by_cases hne : lines = []
  · subst hne
    cases lines' with
    | nil => rfl
    | cons line rest => exact absurd h.symm (join_ne_nil hl' (by simp))
  · have hne' : lines' ≠ [] := by
      rintro rfl
      exact join_ne_nil hl hne h
    rw [← splitOn_join hl hne, h, splitOn_join hl' hne']

end Bytes

end PegMachine
