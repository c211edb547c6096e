import PegMachine.Proofs.Machine.Effects
import PegMachine.Proofs.Unrolling.Calls

namespace PegMachine.Machine

/-- Kinds of frames with related items. A frame that the host pushed stands for a sequence. -/
inductive Kind.Unrolled (R : Expr → Expr → Prop) : Kind → Kind → Prop where
  | same (kind : Kind) (h : ∀ quota item mark, kind ≠ .loop quota item mark) :
    Unrolled R kind kind
  | loop {quota : Quota} {item item' : Expr} {mark : Int} (h : R item item') :
    Unrolled R (.loop quota item mark) (.loop quota item' mark)
  | root : Unrolled R .root .sequence

/-- Frames that are the same but for their kinds and items, which are related. -/
def Frame.Unrolled (R : Expr → Expr → Prop) (f g : Frame) : Prop :=
  ∃ kind pending, f.kind.Unrolled R kind ∧ List.Forall₂ R f.pending pending ∧
    g = f.recast kind pending

/-- Runs that are the same but for their frames. -/
def Run.Unrolled (R : Nat → Expr → Expr → Prop) (r r' : Run) : Prop :=
  ∃ frames, List.Forall₂ (Frame.Unrolled (R r.grammar)) r.stack.frames frames ∧
    r' = r.withFrames frames

theorem Kind.Unrolled.similar {R : Expr → Expr → Prop} {kind kind' : Kind}
    (h : kind.Unrolled R kind') : kind.Similar kind' := by
  cases h with
  | same => exact .same kind
  | loop => exact .loop _ _ _ _
  | root => exact .root

theorem Kind.Unrolled.ofRepetition {R : Expr → Expr → Prop} {item item' : Expr} (h : R item item')
    (kind : Repetition) (cursor : Int) :
    (Kind.ofRepetition kind item cursor).Unrolled R (Kind.ofRepetition kind item' cursor) := by
  cases kind with
  | zeroOrMore | oneOrMore | bounded => exact .loop h
  | optional | not | unknown => exact .same _ nofun

namespace Frame.Unrolled

variable {R : Expr → Expr → Prop} {f g child child' : Frame}

theorem cursor_eq (h : f.Unrolled R g) : g.cursor = f.cursor := by
  obtain ⟨kind, pending, -, -, rfl⟩ := h
  rfl

theorem failed_eq (h : f.Unrolled R g) : g.failed = f.failed := by
  obtain ⟨kind, pending, -, -, rfl⟩ := h
  rfl

theorem output_eq (h : f.Unrolled R g) : g.output = f.output := by
  obtain ⟨kind, pending, -, -, rfl⟩ := h
  rfl

theorem pending (h : f.Unrolled R g) : List.Forall₂ R f.pending g.pending := by
  obtain ⟨kind, pending, -, hp, rfl⟩ := h
  exact hp

/-- Frames stay related under a change that has nothing to do with their kinds and items. -/
theorem change (h : f.Unrolled R g) (c : Frame → Frame) (hkind : (c f).kind = f.kind)
    (hpending : (c f).pending = f.pending)
    (hc : ∀ kind items, c (f.recast kind items) = (c f).recast kind items) :
    (c f).Unrolled R (c g) := by
  obtain ⟨kind, pending, hk, hp, rfl⟩ := h
  exact ⟨kind, pending, hkind ▸ hk, hpending ▸ hp, hc kind pending⟩

/-- They stay related when they get related items. -/
theorem await (h : f.Unrolled R g) {items items' : List Expr} (hi : List.Forall₂ R items items') :
    Frame.Unrolled R { f with pending := items } { g with pending := items' } := by
  obtain ⟨kind, pending, hk, -, rfl⟩ := h
  exact ⟨kind, items', hk, hi, rfl⟩

theorem enter {kind kind' : Kind} (hk : kind.Unrolled R kind') {items items' : List Expr}
    (hi : List.Forall₂ R items items') (cursor : Int) :
    Frame.Unrolled R (Frame.enter kind cursor items) (Frame.enter kind' cursor items') :=
  ⟨kind', items', hk, hi, rfl⟩

private theorem isEmpty_eq {items items' : List Expr} (h : List.Forall₂ R items items') :
    items'.isEmpty = items.isEmpty := by
  cases h <;> rfl

theorem isComplete_eq (h : f.Unrolled R g) (size : Int) :
    g.isComplete size = f.isComplete size := by
  obtain ⟨own, start, cursor, items, failed, matched, output⟩ := f
  obtain ⟨kind, items', hk, hi, rfl⟩ := h
  have hempty : items'.isEmpty = items.isEmpty := isEmpty_eq hi
  -- the kinds make no difference, and of the items it counts only whether there are any
  have hitems : ∀ kind' : Kind, Frame.isComplete size ⟨kind', start, cursor, items', failed, matched,
      output⟩ = Frame.isComplete size ⟨kind', start, cursor, items, failed, matched, output⟩ := by
    intro kind'
    unfold Frame.isComplete
    rw [hempty]
  cases hk with
  | same => exact hitems own
  | loop => exact hitems _
  | root => exact hitems .sequence

/-- Related loops begin their next rounds with related items. -/
theorem restart (h : f.Unrolled R g) : f.restart.Unrolled R g.restart := by
  obtain ⟨own, start, cursor, pending, failed, matched, output⟩ := f
  obtain ⟨kind, pending', hk, hp, rfl⟩ := h
  cases hk with
  | same _ hk =>
    rw [restart_of_kind hk, restart_of_kind (by exact hk)]
    exact ⟨own, pending', .same own hk, hp, rfl⟩
  | root => exact ⟨.sequence, pending', .root, hp, rfl⟩
  | loop hitem =>
    cases hp with
    | nil => exact ⟨_, _, .loop hitem, .cons hitem .nil, rfl⟩
    | cons he hrest => exact ⟨_, _, .loop hitem, .cons he hrest, rfl⟩

/-- Taking in related children leaves related frames. -/
theorem fold (hc : child.Unrolled R child') (h : f.Unrolled R g) (input : Input) :
    Option.Rel (Frame.Unrolled R) (Frame.fold? input child f) (Frame.fold? input child' g) := by
  obtain ⟨kind, pending, hk, -, rfl⟩ := hc
  obtain ⟨kind', pending', hk', hp', rfl⟩ := h
  rw [fold?_recast hk.similar]
  cases hfold : Frame.fold? input child f with
  | none => exact .none
  | some folded =>
    obtain ⟨hkind, hpending⟩ := fold?_keeps hfold
    exact .some ⟨kind', pending', hkind ▸ hk', hpending ▸ hp', rfl⟩

end Frame.Unrolled

private theorem getLast?_unrolled {R : Expr → Expr → Prop} {frames frames' : List Frame}
    (h : List.Forall₂ (Frame.Unrolled R) frames frames') :
    frames'.getLast?.map (·.cursor) = frames.getLast?.map (·.cursor) := by
  induction h with
  | nil => rfl
  | cons hf hs ih =>
    cases hs with
    | nil => simpa using hf.cursor_eq
    | cons hg hs => simpa [List.getLast?_cons_cons] using ih

namespace Run.Unrolled

variable {R : Nat → Expr → Expr → Prop} {r r' : Run} {callers callers' : List Run}

theorem grammar_eq (h : r.Unrolled R r') : r'.grammar = r.grammar := by
  obtain ⟨frames, -, rfl⟩ := h
  rfl

theorem exact_eq (h : r.Unrolled R r') : r'.exact = r.exact := by
  obtain ⟨frames, -, rfl⟩ := h
  rfl

theorem terms_eq (h : r.Unrolled R r') : r'.terms = r.terms := by
  obtain ⟨frames, -, rfl⟩ := h
  rfl

theorem furthest_eq (h : r.Unrolled R r') : r'.furthest = r.furthest := by
  obtain ⟨frames, -, rfl⟩ := h
  rfl

theorem frames (h : r.Unrolled R r') :
    List.Forall₂ (Frame.Unrolled (R r.grammar)) r.stack.frames r'.stack.frames := by
  obtain ⟨frames, hframes, rfl⟩ := h
  exact hframes

theorem withFrames (h : r.Unrolled R r') {frames frames' : List Frame}
    (hf : List.Forall₂ (Frame.Unrolled (R r.grammar)) frames frames') :
    (r.withFrames frames).Unrolled R (r'.withFrames frames') := by
  obtain ⟨_, -, rfl⟩ := h
  exact ⟨frames', hf, rfl⟩

theorem reach (h : r.Unrolled R r') (cursor : Int) :
    (r.reach cursor).Unrolled R (r'.reach cursor) := by
  obtain ⟨frames, hframes, rfl⟩ := h
  exact ⟨frames, hframes, rfl⟩

theorem start {id : Nat} {main : Bytes} (h : R id (.rule main) (.rule main)) {exact : Bool}
    {terms : Terms} {cursor : Int} : (Run.start id main exact terms cursor).Unrolled R
      (Run.start id main exact terms cursor) := by
  have hroot : Kind.Unrolled (R id) .root .root := .same .root nofun
  exact ⟨_, .cons (.enter hroot (.cons h .nil) cursor) .nil, rfl⟩

theorem updateTop (h : r.Unrolled R r') {change change' : Frame → Frame}
    (hchange : ∀ f g, f.Unrolled (R r.grammar) g → (change f).Unrolled (R r.grammar) (change' g)) :
    Run.Unrolled R { r with stack := r.stack.updateTop change }
      { r' with stack := r'.stack.updateTop change' } := by
  obtain ⟨frames', hframes, rfl⟩ := h
  obtain ⟨grammar, main, exact, terms, ⟨frames, popped⟩, furthest⟩ := r
  cases hframes with
  | nil => exact ⟨[], .nil, rfl⟩
  | cons hf hs => exact ⟨_, .cons (hchange _ _ hf) hs, rfl⟩

theorem rootCursor_eq (h : r.Unrolled R r') : r'.stack.rootCursor = r.stack.rootCursor := by
  obtain ⟨frames, hframes, rfl⟩ := h
  have hlast := getLast?_unrolled hframes
  unfold Stack.rootCursor
  rw [withFrames_frames]
  cases hl : r.stack.frames.getLast? with
  | none =>
    rw [hl, Option.map_none, Option.map_eq_none_iff] at hlast
    rw [hlast]
    rfl
  | some f =>
    rw [hl] at hlast
    obtain ⟨g, hg, hcursor⟩ := Option.map_eq_some_iff.1 hlast
    rw [hg]
    exact hcursor

theorem position?_eq (h : r.Unrolled R r') (input : Input) :
    r'.position? input = r.position? input := by
  rw [Run.position?, Run.position?, h.rootCursor_eq, h.furthest_eq]

theorem outermost (h : r.Unrolled R r') (hc : List.Forall₂ (Run.Unrolled R) callers callers') :
    (outermost r callers).Unrolled R (outermost r' callers') := by
  induction hc generalizing r r' with
  | nil => exact h
  | cons hcaller _ ih =>
    rw [Machine.outermost, Machine.outermost, h.furthest_eq]
    exact ih (hcaller.reach r.furthest)

/-- Related runs report a payload alike. -/
theorem raise? (h : r.Unrolled R r') (hc : List.Forall₂ (Run.Unrolled R) callers callers')
    (input : Input) (payload : Payload) :
    Option.Rel (fun x y => y.1 = x.1 ∧ x.2.Unrolled R y.2)
      (raise? input payload r callers) (raise? input payload r' callers') := by
  induction hc generalizing r r' with
  | nil =>
    rw [Machine.raise?, Machine.raise?, h.position?_eq]
    cases r.position? input with
    | none => exact .none
    | some position => exact .some ⟨rfl, h⟩
  | cons hcaller _ ih =>
    rw [Machine.raise?, Machine.raise?, h.position?_eq, h.furthest_eq]
    cases r.position? input with
    | none => exact .none
    | some position => exact ih (hcaller.reach r.furthest)

end Run.Unrolled

end PegMachine.Machine
