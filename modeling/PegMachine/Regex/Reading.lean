import PegMachine.Regex.Error
import PegMachine.Regex.Tree

namespace PegMachine.Regex

/-- A group that is still open: the flags that hold again after it, the alternatives that are done
and the pieces of the one being read, both last first. -/
structure Group where
  restore : Flags := {}
  captures : Bool := false
  branches : List Tree := []
  pieces : List Tree := []

/-- What was used up: the number of nodes, the sizes of those that are free again, the number of
characters written down, the number of copies that counted repetitions ask for, and whether nodes
are measured. -/
structure Usage where
  nodes : Nat := 0
  free : List (Option Nat) := []
  runes : Nat := 0
  copies : Nat := 1
  measuring : Bool := false

/-- Where reading stands. `lastRepeat` is the text from the repetition operator on, if the piece
read last was one. -/
structure Reading where
  flags : Flags := {}
  current : Group := {}
  enclosing : List Group := []
  lastRepeat : Option Bytes := none
  usage : Usage := {}

/-- A step of reading: it may go on from another state or exceed a limit. -/
abbrev Build := StateT Reading (Except Fault)

def maxHeight : Nat := 1000
def maxSize : Nat := 3355443
def maxRunes : Nat := 33554432

namespace Group

/-- All complete parts of the group, measured. -/
def measure (g : Group) : Group :=
  { g with branches := g.branches.map Tree.measure, pieces := g.pieces.map Tree.measure }

def isTooLarge (g : Group) : Bool :=
  (g.branches ++ g.pieces).any fun t => decide (t.size?.getD 0 > maxSize)

end Group

/-- The number of copies after one more counted repetition was looked at, up to the limit. -/
def Usage.copiesWith (u : Usage) : Tree → Nat
  | .wrap _ _ (.count least most _) _ =>
    let copies := max 1 (most.getD least)
    if maxSize / u.copies < copies then maxSize else u.copies * copies
  | _ => u.copies

namespace Build

/-- Takes a node, a free one if there is any, and gives the size it carries. -/
def node : Build (Option Nat) := fun r =>
  match r.usage.free with
  | [] => .ok (none, { r with usage := { r.usage with nodes := r.usage.nodes + 1 } })
  | size :: free => .ok (size, { r with usage := { r.usage with free := free } })

def release (size : Option Nat) : Build Unit :=
  modify fun r => { r with usage := { r.usage with free := size :: r.usage.free } }

def setPieces (pieces : List Tree) : Build Unit :=
  modify fun r => { r with current := { r.current with pieces := pieces } }

def measured (t : Tree) : Build Tree := do
  let t := t.measure
  if t.size?.getD 0 > maxSize then throw .size
  return t

/-- Begins to measure, with all that was read so far. -/
def startMeasuring : Build Unit := do
  modify fun r => { r with
    usage := { r.usage with measuring := true }
    current := r.current.measure
    enclosing := r.enclosing.map Group.measure }
  let r ← get
  if (r.current :: r.enclosing).any Group.isTooLarge then throw .size

/-- Refuses a tree that is too large, once there are so many nodes that it may be. -/
def checkSize (t : Tree) : Build Tree := do
  let usage := (← get).usage
  if usage.measuring then measured t
  else
    let copies := usage.copiesWith t
    modify fun r => { r with usage := { usage with copies := copies } }
    if usage.nodes < maxSize / copies then return t
    startMeasuring
    measured t

def check (t : Tree) : Build Tree := do
  if (← get).usage.runes > maxRunes then throw .size
  let t ← checkSize t
  if t.height > maxHeight then throw .nesting
  return t

end Build

end PegMachine.Regex
