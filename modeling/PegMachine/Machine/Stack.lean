import PegMachine.Machine.Frame

namespace PegMachine.Machine

/-- Frames, the top one first, and the cursor with which the last bottom frame left. -/
structure Stack where
  frames : List Frame := []
  popped : Int := 0

namespace Stack

def push (s : Stack) (f : Frame) : Stack := { s with frames := f :: s.frames }

def pop? (s : Stack) : Option (Frame × Stack) :=
  match s.frames with
  | [] => none
  | [f] => some (f, { frames := [], popped := f.cursor })
  | f :: frames => some (f, { s with frames := frames })

/-- The frame `depth` positions below the top. -/
def peek? (s : Stack) (depth : Int) : Option Frame :=
  if depth < 0 then none else s.frames[depth.toNat]?

/-- Changes the frame `depth` positions below the top. -/
def update? (s : Stack) (depth : Int) (change : Frame → Frame) : Option Stack :=
  (s.peek? depth).map fun f => { s with frames := s.frames.set depth.toNat (change f) }

def updateTop (s : Stack) (change : Frame → Frame) : Stack :=
  match s.frames with
  | [] => s
  | f :: frames => { s with frames := change f :: frames }

/-- Where the run stands: the cursor of the bottom frame, or the one it was popped with. -/
def rootCursor (s : Stack) : Int :=
  match s.frames.getLast? with
  | some f => f.cursor
  | none => s.popped

end Stack

end PegMachine.Machine
