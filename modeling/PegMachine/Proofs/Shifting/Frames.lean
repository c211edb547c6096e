import PegMachine.Machine.Step

namespace PegMachine

namespace Span

/-- The same stretch, `d` bytes further on. -/
def shift (d : Int) (s : Span) : Span := ⟨s.start + d, s.stop + d⟩

end Span

namespace Value

mutual

def shift (d : Int) : Value → Value
  | .text content span notes => .text content (span.shift d) notes
  | .node name span items notes => .node name (span.shift d) (shiftAll d items) notes

def shiftAll (d : Int) : List Value → List Value
  | [] => []
  | v :: vs => shift d v :: shiftAll d vs

end

private theorem shiftAll_eq (d : Int) (vs : List Value) : shiftAll d vs = vs.map (shift d) := by
  induction vs with
  | nil => rfl
  | cons v vs ih => rw [shiftAll, ih, List.map_cons]

theorem shift_annotate (d : Int) (key : Bytes) (datum : Payload) (v : Value) :
    (v.annotate key datum).shift d = (v.shift d).annotate key datum := by
  cases v <;> rfl

end Value

/-- Actions that put no values with places of their own into the output, and do not look at the
places of those that are there. -/
def Action.IgnoresPlaces : Action → Prop
  | .insert _ | .convert _ | .modify _ | .custom _ => False
  | _ => True

/-- The failure of a run that is `d` bytes further on in a text; its line and column are those of
its offset there. -/
def Failure.shift (source : Bytes) (d : Int) (f : Failure) : Failure :=
  { f with
    offset := f.offset + d
    line := (locate source (f.offset + d)).line
    column := (locate source (f.offset + d)).column
    furthest := f.furthest + d }

def Error.shift (source : Bytes) (d : Int) : Error → Error
  | .failure f => .failure (f.shift source d)
  | e => e

def Attempt.shift (d : Int) : Attempt → Attempt
  | .success value next => .success (value.shift d) (next + d)
  | attempt => attempt

namespace Input

variable {source : Bytes} {c : Nat} {cursor : Int}

theorem size_drop (hc : c ≤ source.length) :
    (Input.text source).size = (Input.text (source.drop c)).size + c := by
  simp only [size, List.length_drop]
  omega

theorem rest?_drop (hc : c ≤ source.length) (h : 0 ≤ cursor) :
    rest? source (cursor + c) = rest? (source.drop c) cursor := by
  have hbounds : (0 ≤ cursor + c ∧ cursor + c ≤ source.length) ↔
      0 ≤ cursor ∧ cursor ≤ (source.drop c).length := by
    rw [List.length_drop]
    omega
  have hplace : (cursor + c).toNat = c + cursor.toNat := by omega
  simp only [rest?, hbounds, hplace, List.drop_drop]

theorem tryLiteral_drop (hc : c ≤ source.length) (h : 0 ≤ cursor) (literal : Bytes) :
    (Input.text source).tryLiteral (cursor + c) literal =
      ((Input.text (source.drop c)).tryLiteral cursor literal).shift c := by
  simp only [tryLiteral, rest?_drop hc h]
  cases rest? (source.drop c) cursor with
  | none => rfl
  | some rest =>
    have hnext : cursor + c + literal.length = cursor + literal.length + c := by omega
    simp only [hnext]
    split <;> rfl

theorem tryPattern_drop (hc : c ≤ source.length) (h : 0 ≤ cursor) (p : Pattern) :
    (Input.text source).tryPattern (cursor + c) p =
      ((Input.text (source.drop c)).tryPattern cursor p).shift c := by
  simp only [tryPattern, rest?_drop hc h]
  cases rest? (source.drop c) cursor with
  | none => rfl
  | some rest =>
    simp only
    cases p.matchStart rest with
    | none => rfl
    | some n =>
      have hnext : cursor + c + n = cursor + n + c := by omega
      simp only [hnext]
      rfl

end Input

namespace Machine

/-- A loop remembers the cursor at which its round began. -/
def Kind.shift (d : Int) : Kind → Kind
  | .loop quota item mark => .loop quota item (mark + d)
  | kind => kind

def Frame.shift (d : Int) (f : Frame) : Frame :=
  { f with
    kind := f.kind.shift d
    start := f.start + d
    cursor := f.cursor + d
    output := f.output.map (Value.shift d) }

def Run.shift (d : Int) (r : Run) : Run :=
  { r with
    stack := { r.stack with frames := r.stack.frames.map (Frame.shift d) }
    furthest := r.furthest + d }

def Ending.shift (source : Bytes) (d : Int) : Ending → Ending
  | .values vs cursor => .values (vs.map (Value.shift d)) (cursor + d)
  | .error e cursor => .error (e.shift source d) (cursor + d)
  | .fault => .fault

section

variable {d : Int} {f : Frame}

theorem shift_succeed (cursor : Int) (output : List Value) :
    (f.shift d).succeed (cursor + d) (output.map (Value.shift d)) =
      (f.succeed cursor output).shift d := by
  simp [Frame.succeed, Frame.shift]

theorem shift_ofRepetition (kind : Repetition) (item : Expr) (cursor : Int) :
    Kind.ofRepetition kind item (cursor + d) = (Kind.ofRepetition kind item cursor).shift d := by
  cases kind <;> rfl

theorem shift_isComplete (size : Int) : (f.shift d).isComplete (size + d) = f.isComplete size := by
  have hless : f.cursor + d < size + d ↔ f.cursor < size := by omega
  have hsame (mark : Int) : (f.cursor + d != mark + d) = (f.cursor != mark) := by
    rw [Bool.eq_iff_iff, bne_iff_ne, bne_iff_ne]
    omega
  cases hk : f.kind <;> simp [Frame.isComplete, Frame.shift, Kind.shift, hk, hless, hsame]

theorem shift_restart : (f.shift d).restart = f.restart.shift d := by
  cases hk : f.kind with
  | loop quota item mark =>
    cases hp : f.pending with
    | nil => simp [Frame.restart, Frame.shift, Kind.shift, hk, hp]
    | cons e rest => simp [Frame.restart, Frame.shift, Kind.shift, hk, hp]
  | root | sequence | choice | optional | not | wrap | hide | unknown =>
    simp [Frame.restart, Frame.shift, Kind.shift, hk]

/-- A complete frame is taken in alike; in a text the span of a node is where it begins and ends. -/
theorem shift_fold? (source rest : Bytes) (child parent : Frame) :
    Frame.fold? (.text source) (child.shift d) (parent.shift d) =
      (Frame.fold? (.text rest) child parent).map (Frame.shift d) := by
  have htaken : (parent.shift d).succeed (child.shift d).cursor (child.shift d).output =
      (parent.succeed child.cursor child.output).shift d := shift_succeed _ _
  have hempty (cursor : Int) : (parent.shift d).succeed (cursor + d) [] =
      (parent.succeed cursor []).shift d := shift_succeed cursor []
  have hfailed : (child.shift d).failed = child.failed := rfl
  have hmatched : (child.shift d).matched = child.matched := rfl
  have hkind : (child.shift d).kind = child.kind.shift d := rfl
  unfold Frame.fold?
  rw [hkind, htaken, hfailed, hmatched]
  cases child.kind with
  | root | sequence =>
    simp only [Kind.shift]
    split <;> rfl
  | choice =>
    simp only [Kind.shift]
    split <;> rfl
  | loop quota item mark =>
    simp only [Kind.shift]
    split <;> rfl
  | optional =>
    simp only [Kind.shift]
    split
    · exact congrArg some (hempty child.start)
    · rfl
  | not =>
    simp only [Kind.shift]
    split <;> rfl
  | wrap name =>
    simp only [Kind.shift]
    split
    · rfl
    · have hnode : Value.ofItems name ⟨child.start + d, child.cursor + d⟩
          (child.output.map (Value.shift d)).reverse =
            (Value.ofItems name ⟨child.start, child.cursor⟩ child.output.reverse).shift d := by
        simp [Value.ofItems, Value.shift, Value.shiftAll_eq, Span.shift]
      have htop := shift_succeed (d := d) (f := parent) child.cursor
        [Value.ofItems name ⟨child.start, child.cursor⟩ child.output.reverse]
      rw [List.map_singleton, ← hnode] at htop
      exact congrArg some htop
  | hide =>
    simp only [Kind.shift]
    split
    · rfl
    · exact congrArg some (hempty child.cursor)
  | unknown => rfl

theorem shift_rootCursor {r : Run} (h : r.stack.frames ≠ []) :
    (r.shift d).stack.rootCursor = r.stack.rootCursor + d := by
  simp only [Stack.rootCursor, Run.shift, List.getLast?_map]
  cases hf : r.stack.frames.getLast? with
  | none => exact absurd (List.getLast?_eq_none_iff.1 hf) h
  | some f => rfl

theorem shift_reach (r : Run) (cursor : Int) :
    (r.shift d).reach (cursor + d) = (r.reach cursor).shift d := by
  have hmax : max (r.furthest + d) (cursor + d) = max r.furthest cursor + d := by omega
  simp only [Run.reach, Run.shift, hmax]

theorem shift_reach_furthest (caller r : Run) :
    (caller.shift d).reach (r.shift d).furthest = (caller.reach r.furthest).shift d :=
  shift_reach caller r.furthest

theorem shift_outermost (r : Run) (callers : List Run) :
    outermost (r.shift d) (callers.map (Run.shift d)) = (outermost r callers).shift d := by
  induction callers generalizing r with
  | nil => rfl
  | cons caller callers ih =>
    rw [List.map_cons, outermost, shift_reach_furthest, ih]
    rfl

/-- No stack is empty, so that each run stands somewhere. -/
def Nonempty (runs : List Run) : Prop := ∀ r ∈ runs, r.stack.frames ≠ []

theorem Nonempty.caller {r caller : Run} {callers : List Run}
    (h : Nonempty (r :: caller :: callers)) (cursor : Int) :
    Nonempty (caller.reach cursor :: callers) := by
  have hcallers := (List.forall_mem_cons.1 h).2
  exact List.forall_mem_cons.2 ⟨hcallers caller (.head _), (List.forall_mem_cons.1 hcallers).2⟩

theorem Nonempty.outermost {r : Run} {callers : List Run} (h : Nonempty (r :: callers)) :
    (outermost r callers).stack.frames ≠ [] := by
  induction callers generalizing r with
  | nil => exact h r (.head _)
  | cons caller callers ih => exact ih (h.caller r.furthest)

theorem shift_position? (source rest : Bytes) {r : Run} (h : r.stack.frames ≠ []) :
    (r.shift d).position? (.text source) =
      (r.position? (.text rest)).map fun position => (position.1 + d, position.2 + d) := by
  have hroot := shift_rootCursor (d := d) h
  simp only [Run.position?, Input.offset?, hroot, Option.map_some]
  rfl

/-- A payload is reported from where the outermost run stands, further on by the distance. -/
theorem shift_raise? (source rest : Bytes) (payload : Payload) {r : Run} {callers : List Run}
    (h : Nonempty (r :: callers)) :
    raise? (.text source) payload (r.shift d) (callers.map (Run.shift d)) =
      (raise? (.text rest) payload r callers).map fun (f, r) => (f.shift source d, r.shift d) := by
  induction callers generalizing r with
  | nil =>
    rw [List.map_nil, raise?, raise?, shift_position? source rest (h r (.head _))]
    cases r.position? (.text rest) <;> rfl
  | cons caller callers ih =>
    rw [List.map_cons, raise?, raise?, shift_position? source rest (h r (.head _)),
      shift_reach_furthest]
    cases r.position? (.text rest) with
    | none => rfl
    | some position => exact ih (h.caller r.furthest)

theorem Nonempty.raise? {input : Input} {payload : Payload} {r run : Run} {callers : List Run}
    {f : Failure} (h : Nonempty (r :: callers))
    (hraise : raise? input payload r callers = some (f, run)) : run.stack.frames ≠ [] := by
  induction callers generalizing r with
  | nil =>
    obtain ⟨position, -, heq⟩ := Option.map_eq_some_iff.1 hraise
    cases heq
    exact h _ (.head _)
  | cons caller callers ih =>
    rw [Machine.raise?] at hraise
    split at hraise
    · cases hraise
    · exact ih (h.caller r.furthest) hraise

end

end Machine

end PegMachine
