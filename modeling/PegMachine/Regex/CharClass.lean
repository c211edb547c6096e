import PegMachine.Text.Utf8

namespace PegMachine

/-- A set of characters: inclusive ranges in increasing order with gaps between them. -/
abbrev CharClass := List (Nat × Nat)

namespace CharClass

def contains (cls : CharClass) (c : Nat) : Bool :=
  cls.any fun range => decide (range.1 ≤ c) && decide (c ≤ range.2)

/-- Adds the characters from `lo` to `hi`, joining them with the ranges they touch. -/
def insert (lo hi : Nat) : CharClass → CharClass
  | [] => [(lo, hi)]
  | (a, b) :: rest =>
    if hi + 1 < a then (lo, hi) :: (a, b) :: rest
    else if b + 1 < lo then (a, b) :: insert lo hi rest
    else insert (min lo a) (max hi b) rest

def ofRanges (ranges : List (Nat × Nat)) : CharClass :=
  ranges.foldr (fun range cls => insert range.1 range.2 cls) []

def union (as bs : CharClass) : CharClass :=
  as.foldr (fun range cls => insert range.1 range.2 cls) bs

/-- The characters from `next` on that are not in the set. -/
def complementFrom (next : Nat) : CharClass → CharClass
  | [] => if next ≤ Utf8.maxRune then [(next, Utf8.maxRune)] else []
  | (a, b) :: rest =>
    if next < a then (next, a - 1) :: complementFrom (b + 1) rest
    else complementFrom (b + 1) rest

def complement (cls : CharClass) : CharClass := complementFrom 0 cls

def isDisjoint (as bs : CharClass) : Bool :=
  as.all fun a => bs.all fun b => decide (a.2 < b.1) || decide (b.2 < a.1)

end CharClass

end PegMachine
