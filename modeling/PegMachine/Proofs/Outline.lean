import PegMachine.Outline
import PegMachine.Proofs.Text.Lines

namespace PegMachine.Outline

/-- A line on which a child begins. -/
def opens (line : Bytes) : Bool :=
  (marks false).1.isPrefixOf line || (marks true).1.isPrefixOf line

/-- A line inside of a tree: it begins with a mark. -/
def isHung (line : Bytes) : Bool :=
  opens line || (marks false).2.isPrefixOf line || (marks true).2.isPrefixOf line

private theorem opens_first (last : Bool) (line : Bytes) :
    opens ((marks last).1 ++ line) = true := by
  cases last <;> rfl

private theorem opens_below (last : Bool) (line : Bytes) :
    opens ((marks last).2 ++ line) = false := by
  cases last <;> rfl

private theorem isHung_first (last : Bool) (line : Bytes) :
    isHung ((marks last).1 ++ line) = true := by
  cases last <;> rfl

private theorem isHung_below (last : Bool) (line : Bytes) :
    isHung ((marks last).2 ++ line) = true := by
  cases last <;> rfl

/-- A line that begins like none of the marks does is not inside of a tree. -/
theorem isHung_cons {b : UInt8} (hglyph : b ≠ 0xE2) (hblank : b ≠ Ascii.blank) (rest : Bytes) :
    isHung (b :: rest) = false := by
  have hmark {mark : Bytes} (hm : ∃ x ∈ mark.head?, b ≠ x) :
      mark.isPrefixOf (b :: rest) = false := by
    obtain ⟨x, hx, hne⟩ := hm
    obtain ⟨more, rfl⟩ := List.head?_eq_some_iff.1 hx
    rw [List.isPrefixOf, beq_false_of_ne hne.symm, Bool.false_and]
  have hfirst (last : Bool) : (marks last).1.isPrefixOf (b :: rest) = false := by
    refine hmark ⟨0xE2, ?_, hglyph⟩
    cases last <;> rfl
  rw [isHung, opens, hfirst, hfirst, hmark ⟨0xE2, rfl, hglyph⟩, hmark ⟨Ascii.blank, rfl, hblank⟩]
  rfl

/-- The marks of the last child and of the others are told apart. -/
theorem eq_of_first_eq {last last' : Bool} {line line' : Bytes}
    (h : (marks last).1 ++ line = (marks last').1 ++ line') : last = last' ∧ line = line' := by
  have hlength : ∀ last, (marks last).1.length = 10 := by decide
  have hmarks : ∀ last last', (marks last).1 = (marks last').1 → last = last' := by decide
  obtain ⟨hfirst, hline⟩ := List.append_inj h ((hlength last).trans (hlength last').symm)
  exact ⟨hmarks last last' hfirst, hline⟩

variable {ρ : Type} {paint : ρ → Bytes → Bytes}

theorem exists_lines (paint : ρ → Bytes → Bytes) (tree : Outline ρ) :
    ∃ first below, lines paint tree = first :: below := by
  cases tree
  exact ⟨_, _, rfl⟩

theorem linesBelow_cons (child : Outline ρ) (children : List (Outline ρ)) :
    linesBelow paint (child :: children) =
      hang children.isEmpty (lines paint child) ++ linesBelow paint children := rfl

private theorem isHung_of_mem_hang {last : Bool} {below : List Bytes} :
    ∀ line ∈ hang last below, isHung line = true := by
  intro line hline
  cases below with
  | nil => cases hline
  | cons first below =>
    rcases List.mem_cons.1 hline with rfl | hline
    · exact isHung_first last first
    · obtain ⟨line, -, rfl⟩ := List.mem_map.1 hline
      exact isHung_below last line

/-- Every line of a tree but the first one begins with a mark. -/
theorem isHung_of_mem_linesBelow {children : List (Outline ρ)} :
    ∀ line ∈ linesBelow paint children, isHung line = true := by
  induction children with
  | nil => nofun
  | cons child children ih =>
    intro line hline
    rw [linesBelow_cons] at hline
    exact (List.mem_append.1 hline).elim (isHung_of_mem_hang line) (ih line)

/-- Marks in front of a line leave it a line. -/
theorem isLine_of_mem_hang {last : Bool} {below : List Bytes}
    (h : ∀ line ∈ below, Bytes.IsLine line) : ∀ line ∈ hang last below, Bytes.IsLine line := by
  have hmarks : ∀ last, Ascii.newline ∉ (marks last).1 ∧ Ascii.newline ∉ (marks last).2 := by decide
  have happend {mark line : Bytes} (hmark : Ascii.newline ∉ mark) (hline : Bytes.IsLine line) :
      Bytes.IsLine (mark ++ line) :=
    ⟨by simp [hline.1], by simp [hmark, hline.2]⟩
  intro line hline
  cases below with
  | nil => cases hline
  | cons first below =>
    obtain ⟨hfirst, hbelow⟩ := List.forall_mem_cons.1 h
    rcases List.mem_cons.1 hline with rfl | hline
    · exact happend (hmarks last).1 hfirst
    · obtain ⟨rest, hrest, rfl⟩ := List.mem_map.1 hline
      exact happend (hmarks last).2 (hbelow rest hrest)

theorem isLine_of_mem_linesBelow {children : List (Outline ρ)}
    (h : ∀ child ∈ children, ∀ line ∈ lines paint child, Bytes.IsLine line) :
    ∀ line ∈ linesBelow paint children, Bytes.IsLine line := by
  induction children with
  | nil => nofun
  | cons child children ih =>
    obtain ⟨hchild, hchildren⟩ := List.forall_mem_cons.1 h
    intro line hline
    rw [linesBelow_cons] at hline
    exact (List.mem_append.1 hline).elim (isLine_of_mem_hang hchild line) (ih hchildren line)

private theorem opens_head_linesBelow {children : List (Outline ρ)} :
    ∀ line ∈ (linesBelow paint children).head?, opens line = true := by
  intro line hline
  cases children with
  | nil => cases hline
  | cons child children =>
    obtain ⟨first, below, hlines⟩ := exists_lines paint child
    rw [linesBelow_cons, hlines] at hline
    cases hline
    exact opens_first _ first

theorem linesBelow_ne_nil {child : Outline ρ} {children : List (Outline ρ)} :
    linesBelow paint (child :: children) ≠ [] := by
  obtain ⟨first, below, hlines⟩ := exists_lines paint child
  rw [linesBelow_cons, hlines]
  exact List.cons_ne_nil _ _

/-- The lines of the first child are told apart from those of the others. -/
theorem linesBelow_cons_inj {c d : Outline ρ} {cs ds : List (Outline ρ)}
    (h : linesBelow paint (c :: cs) = linesBelow paint (d :: ds)) :
    lines paint c = lines paint d ∧ linesBelow paint cs = linesBelow paint ds := by
  obtain ⟨first, below, hc⟩ := exists_lines paint c
  obtain ⟨first', below', hd⟩ := exists_lines paint d
  rw [linesBelow_cons, linesBelow_cons, hc, hd] at h
  obtain ⟨hfirst, hrest⟩ := List.cons.inj h
  obtain ⟨hlast, rfl⟩ := eq_of_first_eq hfirst
  rw [hlast] at hrest
  -- what hangs below the first line of a child goes on up to where the next child begins
  have hbelow (below : List Bytes) : ∀ line ∈ below.map ((marks ds.isEmpty).2 ++ ·),
      (!opens line) = true := by
    intro line hline
    obtain ⟨line, -, rfl⟩ := List.mem_map.1 hline
    rw [opens_below]
    rfl
  have hnext (children : List (Outline ρ)) : ∀ line ∈ (linesBelow paint children).head?,
      (!opens line) = false := by
    intro line hline
    rw [opens_head_linesBelow line hline]
    rfl
  obtain ⟨hmap, hchildren⟩ := run_eq_of_append_eq (hbelow below) (hbelow below') (hnext cs)
    (hnext ds) hrest
  have hinj : Function.Injective ((marks ds.isEmpty).2 ++ ·) := fun _ _ => List.append_cancel_left
  rw [hc, hd, (List.map_inj_right hinj).1 hmap]
  exact ⟨rfl, hchildren⟩

/-- The lines of a tree are told apart from those of the trees below it. -/
theorem lines_append_inj {t u : Outline ρ} {after after' : List Bytes}
    (ha : ∀ line ∈ after.head?, isHung line = false)
    (ha' : ∀ line ∈ after'.head?, isHung line = false)
    (h : lines paint t ++ after = lines paint u ++ after') :
    lines paint t = lines paint u ∧ after = after' := by
  cases t with
  | node label children =>
    cases u with
    | node label' children' =>
      obtain ⟨hlabel, hrest⟩ := List.cons.inj h
      obtain ⟨hbelow, rfl⟩ := run_eq_of_append_eq isHung_of_mem_linesBelow isHung_of_mem_linesBelow
        ha ha' hrest
      refine ⟨?_, rfl⟩
      rw [lines, lines, hlabel, hbelow]

end PegMachine.Outline
