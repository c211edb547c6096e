import PegMachine.Text.Utf8

namespace PegMachine

/-- A byte offset with its 1-based line and column. -/
structure Location where
  line : Int
  column : Int
  offset : Int
  deriving Repr, DecidableEq

namespace Location

def render (l : Location) : Bytes := Bytes.ofInt l.line ++ ":" ++ Bytes.ofInt l.column

/-- The offsets just after a newline, in a text that starts at `offset`. -/
def breaksFrom (offset : Nat) : Bytes → List Nat
  | [] => []
  | b :: rest =>
    if b = Ascii.newline then (offset + 1) :: breaksFrom (offset + 1) rest
    else breaksFrom (offset + 1) rest

/-- Checkpoints: an offset between two characters, and the number of characters before it. One is
set as soon as `stride` bytes have passed since the last. -/
def checkpointsFrom (stride offset count since : Nat) : Nat → Bytes → List (Nat × Nat)
  | _, [] => []
  | skip + 1, _ :: rest => checkpointsFrom stride offset count since skip rest
  | 0, b :: rest =>
    let width := (Utf8.decodeAt b rest).2
    if stride ≤ since + width then
      (offset + width, count + 1) ::
        checkpointsFrom stride (offset + width) (count + 1) 0 (width - 1) rest
    else checkpointsFrom stride (offset + width) (count + 1) (since + width) (width - 1) rest

/-- The number of characters that end within the first `room` bytes. -/
def runesWithin (room : Nat) : Nat → Bytes → Nat
  | _, [] => 0
  | skip + 1, _ :: rest => runesWithin room skip rest
  | 0, b :: rest =>
    let width := (Utf8.decodeAt b rest).2
    if width ≤ room then 1 + runesWithin (room - width) (width - 1) rest else 0

structure Index where
  text : Bytes
  lineStarts : Array Nat
  checkpoints : Array (Nat × Nat)

def stride : Nat := 64

def Index.ofText (text : Bytes) : Index where
  text := text
  lineStarts := (0 :: breaksFrom 0 text).toArray
  checkpoints := ((0, 0) :: checkpointsFrom stride 0 0 0 0 text).toArray

/-- How many of the first entries of a sorted array are at most `limit`, by bisection between `lo`
and `hi`. The interval shrinks in each of the `fuel` rounds. -/
def bisect (entry : Nat → Nat) (limit : Nat) : Nat → Nat → Nat → Nat
  | 0, lo, _ => lo
  | fuel + 1, lo, hi =>
    if lo < hi then
      if entry ((lo + hi) / 2) ≤ limit then bisect entry limit fuel ((lo + hi) / 2 + 1) hi
      else bisect entry limit fuel lo ((lo + hi) / 2)
    else lo

/-- The number of characters that end at or before `offset`. -/
def Index.runesBefore (ix : Index) (offset : Nat) : Nat :=
  let i := bisect (fun i => (ix.checkpoints.getD i (0, 0)).1) offset ix.checkpoints.size 0
    ix.checkpoints.size - 1
  let (start, count) := ix.checkpoints.getD i (0, 0)
  count + runesWithin (offset - start) 0 (ix.text.drop start)

/-- The location of an offset; offsets outside of the text are moved to its nearest end. -/
def Index.locate (ix : Index) (offset : Int) : Location :=
  let clamped := min offset.toNat ix.text.length
  let i := bisect (fun i => ix.lineStarts.getD i 0) clamped ix.lineStarts.size 0 ix.lineStarts.size - 1
  let lineStart := ix.lineStarts.getD i 0
  { line := i + 1
    column := (ix.runesBefore clamped : Int) - ix.runesBefore lineStart + 1
    offset := clamped }

end Location

def locate (text : Bytes) (offset : Int) : Location := (Location.Index.ofText text).locate offset

end PegMachine
