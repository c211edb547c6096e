import Mathlib.Data.List.Forall2
import PegMachine.Machine.Run
import PegMachine.Proofs.Inlining.Qualify
import PegMachine.Proofs.Machine.Effects

namespace PegMachine.Machine

/-- A frame, with the grammar of its run, and whether it is at the bottom of that run. -/
structure Placed where
  grammar : Nat
  bottom : Bool
  frame : Frame

def placed (id : Nat) : List Frame → List Placed
  | [] => []
  | f :: frames => ⟨id, frames.isEmpty, f⟩ :: placed id frames

/-- The frames of runs, the innermost run first. -/
def stacked : List Run → List Placed
  | [] => []
  | r :: runs => placed r.grammar r.stack.frames ++ stacked runs

/-- The kind of a frame of grammar `id` inside of the single grammar. -/
def Kind.qualify (q : Naming) (id : Nat) : Kind → Kind
  | .loop quota item mark => .loop quota (item.qualify q id) mark
  | kind => kind

/-- The kinds that may stand for one another. -/
def Kind.Alike (q : Naming) (id : Nat) (kind kind' : Kind) : Prop :=
  kind' = kind.qualify q id ∨ kind = .root ∧ kind' = .sequence

/-- A frame of the single run that stands for one of the family. -/
def Alike (q : Naming) (x : Placed) (g : Frame) : Prop :=
  (x.bottom = true → x.frame.kind = .root) ∧
    ∃ kind, x.frame.kind.Alike q x.grammar kind ∧
      g = x.frame.recast kind (Expr.qualifyAll q x.grammar x.frame.pending)

section

variable {q : Naming} {id : Nat} {bottom : Bool} {f g : Frame}

theorem Alike.cursor_eq (h : Alike q ⟨id, bottom, f⟩ g) : g.cursor = f.cursor := by
  obtain ⟨-, kind, -, rfl⟩ := h
  rfl

theorem Alike.failed_eq (h : Alike q ⟨id, bottom, f⟩ g) : g.failed = f.failed := by
  obtain ⟨-, kind, -, rfl⟩ := h
  rfl

theorem Alike.output_eq (h : Alike q ⟨id, bottom, f⟩ g) : g.output = f.output := by
  obtain ⟨-, kind, -, rfl⟩ := h
  rfl

theorem Alike.pending_eq (h : Alike q ⟨id, bottom, f⟩ g) :
    g.pending = Expr.qualifyAll q id f.pending := by
  obtain ⟨-, kind, -, rfl⟩ := h
  rfl

/-- Frames stay alike under a change that has nothing to do with their kinds and items. -/
theorem Alike.change (h : Alike q ⟨id, bottom, f⟩ g) (c : Frame → Frame)
    (hkind : (c f).kind = f.kind) (hpending : (c f).pending = f.pending)
    (hc : ∀ kind items, c (f.recast kind items) = (c f).recast kind items) :
    Alike q ⟨id, bottom, c f⟩ (c g) := by
  obtain ⟨hb, kind, hk, rfl⟩ := h
  refine ⟨fun hbot => hkind.trans (hb hbot), kind, ?_, ?_⟩
  · rw [hkind]
    exact hk
  · rw [hc, hpending]

/-- Frames stay alike when their items change alike. -/
theorem Alike.await (h : Alike q ⟨id, bottom, f⟩ g) (items : List Expr) :
    Alike q ⟨id, bottom, { f with pending := items }⟩
      { g with pending := Expr.qualifyAll q id items } := by
  obtain ⟨hb, kind, hk, rfl⟩ := h
  exact ⟨hb, kind, hk, rfl⟩

private theorem isEmpty_qualifyAll (items : List Expr) :
    (Expr.qualifyAll q id items).isEmpty = items.isEmpty := by
  cases items <;> simp [Expr.qualifyAll]

theorem Alike.isComplete_eq (h : Alike q ⟨id, bottom, f⟩ g) (size : Int) :
    g.isComplete size = f.isComplete size := by
  obtain ⟨-, kind, hk, rfl⟩ := h
  obtain hk | ⟨hroot, hseq⟩ := hk
  · cases hf : f.kind <;>
      simp [Frame.isComplete, Frame.recast, hk, hf, Kind.qualify, isEmpty_qualifyAll]
  · simp [Frame.isComplete, Frame.recast, show f.kind = .root from hroot, hseq, isEmpty_qualifyAll]

theorem Alike.restart (h : Alike q ⟨id, bottom, f⟩ g) :
    Alike q ⟨id, bottom, f.restart⟩ g.restart := by
  obtain ⟨hb, kind, hk, rfl⟩ := h
  cases hf : f.kind with
  | loop quota item mark =>
    have hb' : bottom ≠ true := fun hbot => by
      have := hb hbot
      simp [hf] at this
    obtain rfl : kind = .loop quota (item.qualify q id) mark := by
      obtain hk | ⟨hroot, -⟩ := hk
      · simpa [hf, Kind.qualify] using hk
      · simp [hf] at hroot
    cases hp : f.pending with
    | nil =>
      simp only [Frame.restart, Frame.recast, hf, hp, Expr.qualifyAll]
      exact ⟨fun hbot => absurd hbot hb', _, .inl rfl, rfl⟩
    | cons e items =>
      rw [restart_of_pending (by simp [hp]),
        restart_of_pending (by simp [Frame.recast, Expr.qualifyAll])]
      exact ⟨hb, _, hk, by simp [hp]⟩
  | root | sequence | choice | optional | not | wrap | hide | unknown =>
    have hkind (quota : Quota) (item : Expr) (mark : Int) : kind ≠ .loop quota item mark := by
      obtain hk | ⟨-, hseq⟩ := hk
      · simp [hk, hf, Kind.qualify]
      · simp [hseq]
    rw [restart_of_kind (by simp [hf]), restart_of_kind hkind]
    exact ⟨hb, kind, hk, rfl⟩

theorem Kind.Alike.similar {kind kind' : Kind} (h : kind.Alike q id kind') :
    kind.Similar kind' := by
  obtain rfl | ⟨rfl, rfl⟩ := h
  · cases kind with
    | loop quota item mark => exact .loop quota item _ mark
    | root | sequence | choice | optional | not | wrap | hide | unknown => exact .same _
  · exact .root

theorem Alike.fold {input : Input} {id' : Nat} {bottom' : Bool} {child parent child' parent' : Frame}
    (hc : Alike q ⟨id, bottom, child⟩ child') (hp : Alike q ⟨id', bottom', parent⟩ parent')
    (h : Frame.fold? input child parent = some f) :
    ∃ g, Frame.fold? input child' parent' = some g ∧ Alike q ⟨id', bottom', f⟩ g := by
  obtain ⟨-, kind, hk, rfl⟩ := hc
  obtain ⟨hb, kind', hk', rfl⟩ := hp
  obtain ⟨hkind, hpending⟩ := fold?_keeps h
  refine ⟨f.recast kind' (Expr.qualifyAll q id' parent.pending), ?_, ?_, kind', ?_, ?_⟩
  · rw [fold?_recast hk.similar, h]
    rfl
  · exact fun hbot => hkind.trans (hb hbot)
  · exact hkind ▸ hk'
  · rw [hpending]

end

/-- Frames of one list that are at the end of it have the same cursor. -/
theorem getLast?_alike {q : Naming} {frames : List Placed} {frames' : List Frame}
    (h : List.Forall₂ (Alike q) frames frames') :
    frames'.getLast?.map (·.cursor) = frames.getLast?.map (·.frame.cursor) := by
  induction h with
  | nil => rfl
  | cons hx hs ih =>
    cases hs with
    | nil => simpa using hx.cursor_eq
    | cons hy hs => simpa [List.getLast?_cons_cons] using ih

theorem getLast?_placed (id : Nat) (frames : List Frame) :
    (placed id frames).getLast?.map (·.frame) = frames.getLast? := by
  induction frames with
  | nil => rfl
  | cons f frames ih =>
    cases frames with
    | nil => rfl
    | cons g frames => simpa [placed, List.getLast?_cons_cons] using ih

end PegMachine.Machine
