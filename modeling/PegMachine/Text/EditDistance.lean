import PegMachine.Text.LowerCase

namespace PegMachine.EditDistance

/-- The next row of the distance table. `diagonal` is the entry above and to the left, `left` the
entry just written. -/
def nextRow (a : Nat) (diagonal left : Nat) : List Nat → List Nat → List Nat
  | b :: bs, above :: row =>
    let entry := min (min (above + 1) (left + 1)) (if a = b then diagonal else diagonal + 1)
    entry :: nextRow a above entry bs row
  | _, _ => []

/-- The last row of the distance table, whose first entry is `done` plus the length of `as`. -/
def lastRow (bs : List Nat) : Nat → List Nat → List Nat → List Nat
  | _, row, [] => row
  | done, row, a :: as =>
    match row with
    | [] => []
    | diagonal :: above => lastRow bs (done + 1) ((done + 1) :: nextRow a diagonal (done + 1) bs above) as

/-- The least number of insertions, deletions and substitutions that turn `as` into `bs`. -/
def distance (as bs : List Nat) : Nat :=
  ((lastRow bs 0 (List.range (bs.length + 1)) as).getLast?).getD 0

/-- Whether `short` is left when some elements of `long` are dropped. -/
def isSubsequence : List Nat → List Nat → Bool
  | [], _ => true
  | _ :: _, [] => false
  | a :: as, b :: bs => if a = b then isSubsequence as bs else isSubsequence (a :: as) bs

/-- Whether `long` contains the characters of `short` in order, case aside, and is no shorter. -/
def extends? (short long : Bytes) : Bool :=
  let (short, long) := (LowerCase.fold short, LowerCase.fold long)
  decide (short.length ≤ long.length) && isSubsequence (Utf8.runes short) (Utf8.runes long)

end PegMachine.EditDistance
