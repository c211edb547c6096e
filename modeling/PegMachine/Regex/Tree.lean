import PegMachine.Regex.Basic
import PegMachine.Regex.Flags

namespace PegMachine.Regex

/-- An expression without parts. The characters of a string come last first. -/
inductive Leaf where
  | empty
  | string (runes : List Nat) (flags : Flags)
  | members (cls : CharClass)
  | notNewline
  | anything
  | look (anchor : Anchor)
  deriving Repr, DecidableEq, Inhabited

inductive Wrap where
  | capture
  | star (lazy : Bool)
  | plus (lazy : Bool)
  | option (lazy : Bool)
  | count (least : Nat) (most : Option Nat) (lazy : Bool)
  deriving Repr, DecidableEq

inductive Join where
  | seq
  | alt
  deriving Repr, DecidableEq

/-- An expression as it is read: neighbouring characters are strings, and sequences and alternatives
have any number of parts. Each part knows how deep it nests; `size` is what was found when it was
measured last, and a part that changed since keeps it. -/
inductive Tree where
  | leaf (size : Option Nat) (content : Leaf)
  | wrap (size : Option Nat) (height : Nat) (kind : Wrap) (item : Tree)
  | join (size : Option Nat) (height : Nat) (kind : Join) (items : List Tree)
  deriving Inhabited

namespace Leaf

def notNewlineClass : CharClass := [(0, 0x09), (0x0B, Utf8.maxRune)]

def anythingClass : CharClass := [(0, Utf8.maxRune)]

def size : Leaf → Nat
  | .string runes _ => max 1 runes.length
  | _ => 1

def runes : Leaf → Nat
  | .string runes _ => runes.length
  | .members cls => 2 * cls.length
  | _ => 0

def rune (flags : Flags) (c : Nat) : Regex :=
  .one (CharClass.ofRanges ((flags.members c).map fun c => (c, c)))

def regex : Leaf → Regex
  | .empty => .empty
  | .string [] _ => .empty
  | .string (c :: before) flags =>
    before.foldl (fun r c => .seq (rune flags c) r) (rune flags c)
  | .members cls => .one cls
  | .notNewline => .one notNewlineClass
  | .anything => .one anythingClass
  | .look anchor => .look anchor

end Leaf

namespace Wrap

def size (item : Nat) : Wrap → Nat
  | .capture | .star _ => item + 2
  | .plus _ | .option _ => item + 1
  | .count 0 none _ => item + 2
  | .count least none _ => 1 + least * item
  | .count least (some most) _ => max 1 (most * item + (most - least))

def isMultiple : Wrap → Bool
  | .count least most _ => decide (least ≥ 2) || most.any (· ≥ 2)
  | _ => false

def regex (item : Regex) : Wrap → Regex
  | .capture => item
  | .star _ => .times 0 none item
  | .plus _ => .times 1 none item
  | .option _ => .times 0 (some 1) item
  | .count least most _ => .times least most item

end Wrap

def Join.size (items : List Nat) : Join → Nat
  | .seq => max 1 (items.foldl (· + ·) 0)
  | .alt => max 1 (items.foldl (· + ·) (items.length - 1))

/-- The meaning, given those of the parts, which come last first. -/
def Join.regex (parts : List Regex) (kind : Join) : Regex :=
  match parts with
  | [] => .empty
  | last :: before =>
    match kind with
    | .seq => before.foldl (fun r part => .seq part r) last
    | .alt => before.foldl (fun r part => .alt part r) last

namespace Tree

def height : Tree → Nat
  | .leaf .. => 1
  | .wrap _ height _ _ => height
  | .join _ height _ _ => height

def size? : Tree → Option Nat
  | .leaf size _ => size
  | .wrap size _ _ _ => size
  | .join size _ _ _ => size

def inside (size : Option Nat) (kind : Wrap) (item : Tree) : Tree :=
  .wrap size (item.height + 1) kind item

def joined (size : Option Nat) (kind : Join) (items : List Tree) : Tree :=
  .join size (items.foldl (fun h item => max h item.height) 0 + 1) kind items

mutual

/-- Measures an expression again, and those of its parts that were never measured. -/
def measure : Tree → Tree
  | .leaf _ content => .leaf (some content.size) content
  | .wrap _ height kind item =>
    let item := if item.size?.isSome then item else measure item
    .wrap (some (kind.size (item.size?.getD 0))) height kind item
  | .join _ height kind items =>
    let items := measureNew items
    .join (some (kind.size (items.map fun item => item.size?.getD 0))) height kind items

/-- Measures the expressions that were never measured. -/
def measureNew : List Tree → List Tree
  | [] => []
  | item :: items => (if item.size?.isSome then item else measure item) :: measureNew items

end

mutual

/-- The number of nodes and characters. -/
def weight : Tree → Nat
  | .leaf _ (.string runes _) => runes.length + 1
  | .leaf .. => 1
  | .wrap _ _ _ item => weight item + 1
  | .join _ _ _ items => weightOf items + 1

def weightOf : List Tree → Nat
  | [] => 0
  | item :: items => weight item + weightOf items

end

mutual

def regex : Tree → Regex
  | .leaf _ content => content.regex
  | .wrap _ _ kind item => kind.regex (regex item)
  | .join _ _ kind items => kind.regex (regexesOnto [] items)

/-- The meanings of the expressions, last first, in front of `done`. -/
def regexesOnto (done : List Regex) : List Tree → List Regex
  | [] => done
  | item :: items => regexesOnto (regex item :: done) items

end

/-- The most copies that a nest of counted repetitions may ask for. -/
def maxCount : Nat := 1000

mutual

/-- Whether no nest of counted repetitions asks for more than `budget` copies. -/
def countsWithin (budget : Nat) : Tree → Bool
  | .leaf .. => true
  | .wrap _ _ (.count least most _) item =>
    let copies := most.getD least
    if most = some 0 then true
    else if copies > budget then false
    else countsWithin (if copies > 0 then budget / copies else budget) item
  | .wrap _ _ _ item => countsWithin budget item
  | .join _ _ _ items => allCountsWithin budget items

def allCountsWithin (budget : Nat) : List Tree → Bool
  | [] => true
  | item :: items => countsWithin budget item && allCountsWithin budget items

end

end Tree

end PegMachine.Regex
