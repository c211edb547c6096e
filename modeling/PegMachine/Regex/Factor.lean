import PegMachine.Regex.Reading

namespace PegMachine.Regex

namespace Leaf

def isSingle : Leaf → Bool
  | .string [_] _ | .members _ | .notNewline | .anything => true
  | _ => false

/-- How much a leaf that stands for single characters can take in. -/
def rank : Leaf → Nat
  | .members _ => 1
  | .notNewline => 2
  | .anything => 3
  | _ => 0

/-- Whether the second leaf is to take in the first one. -/
def isBelow (a b : Leaf) : Bool :=
  decide (a.rank < b.rank) || (a.rank == b.rank && decide (a.runes < b.runes))

def chars : Leaf → CharClass
  | .string [c] flags => CharClass.ofRanges ((flags.members c).map fun c => (c, c))
  | .members cls => cls
  | .notNewline => notNewlineClass
  | .anything => anythingClass
  | _ => []

def hasNewline : Leaf → Bool
  | .string [c] _ => c == Ascii.newline.toNat
  | .members cls => cls.contains Ascii.newline.toNat
  | .anything => true
  | _ => false

/-- The leaf together with another one of no higher rank. -/
def absorb (into other : Leaf) : Leaf :=
  match into with
  | .string .. => if into = other then into else .members (into.chars.union other.chars)
  | .members cls => .members (cls.union other.chars)
  | .notNewline => if other.hasNewline then .anything else .notNewline
  | _ => into

/-- A class that is the same as a dot is written as one. -/
def tidy : Leaf → Leaf
  | .members cls =>
    if cls = anythingClass then .anything
    else if cls = notNewlineClass then .notNewline
    else .members cls
  | other => other

def isSame : Leaf → Leaf → Bool
  | .string a _, .string b _ => a == b
  | a, b => a == b

end Leaf

namespace Tree

def isSingle : Tree → Bool
  | .leaf _ content => content.isSingle
  | _ => false

def isEmpty : Tree → Bool
  | .leaf _ .empty => true
  | _ => false

def tidy : Tree → Tree
  | .leaf size content => .leaf size content.tidy
  | other => other

def content : Tree → Leaf
  | .leaf _ content => content
  | _ => .empty

/-- The string that an expression consists of, in order, and whether it ignores case. -/
def ownString : Tree → List Nat × Bool
  | .leaf _ (.string runes flags) => (runes.reverse, flags.fold)
  | _ => ([], false)

def leadingString : Tree → List Nat × Bool
  | .join _ _ .seq (first :: _) => first.ownString
  | t => t.ownString

def leading? : Tree → Option Tree
  | .join _ _ .seq (first :: _) => if first.isEmpty then none else some first
  | t => if t.isEmpty then none else some t

/-- Whether two expressions are the same single characters, or the same fixed number of them. -/
def isSameSingle : Tree → Tree → Bool
  | .leaf _ a, .leaf _ b => a.isSingle && a.isSame b
  | .wrap _ _ (.count least most lazy) (.leaf _ a), .wrap _ _ kind (.leaf _ b) =>
    most == some least && kind == .count least most lazy && a.isSingle && a.isSame b
  | _, _ => false

end Tree

def sharedStart : List Nat → List Nat → List Nat
  | a :: as, b :: bs => if a = b then a :: sharedStart as bs else []
  | _, _ => []

/-- Neighbours that share something: `start` gives what an item has to share, and `share` what is
left of it when the next item joins, if anything is. -/
def chunks {α β : Type} (start : α → β) (share : β → α → Option β) :
    List α → List (β × List α)
  | [] => []
  | item :: items =>
    let (shared, run, rest) := items.foldl
      (fun (shared, run, rest) next =>
        match share shared next with
        | some less => (less, next :: run, rest)
        | none => (start next, [next], (shared, run.reverse) :: rest))
      (start item, [item], [])
    ((shared, run.reverse) :: rest).reverse

def byString (items : List Tree) : List ((List Nat × Bool) × List Tree) :=
  chunks Tree.leadingString
    (fun (shared, fold) next =>
      let (runes, nextFold) := next.leadingString
      let less := if nextFold = fold then sharedStart shared runes else []
      if less.isEmpty then none else some (less, fold))
    items

def byFirst (items : List Tree) : List (Option Tree × List Tree) :=
  chunks Tree.leading?
    (fun shared next =>
      match shared, next.leading? with
      | some a, some b => if a.isSameSingle b then some shared else none
      | _, _ => none)
    items

/-- Alternatives in runs of single characters and of others. -/
def bySingle (items : List Tree) : List (Bool × List Tree) :=
  chunks Tree.isSingle (fun single next => if single && next.isSingle then some single else none)
    items

namespace Build

/-- The rest of an expression after a string of `n` characters that it starts with. -/
def dropString (n : Nat) (t : Tree) : Build Tree := do
  match t with
  | .leaf size (.string runes flags) => return .leaf size (shorten runes flags)
  | .join size _ .seq (.leaf first (.string runes flags) :: items) =>
    match shorten runes flags, items with
    | .empty, [] => do
      release first
      return .leaf size .empty
    | .empty, [item] => do
      release first
      release size
      return item
    | .empty, items => do
      release first
      return .joined size .seq items
    | content, items => return .joined size .seq (.leaf first content :: items)
  | t => return t
where
  shorten (runes : List Nat) (flags : Flags) : Leaf :=
    if runes.length ≤ n then .empty else .string (runes.take (runes.length - n)) flags

/-- The rest of an expression after the one that it starts with, whose node becomes free unless it
is kept. -/
def dropFirst (keep : Bool) (t : Tree) : Build Tree := do
  match t with
  | .join size _ .seq (first :: items) => do
    if !keep then release first.size?
    match items with
    | [] => return .leaf size .empty
    | [item] => do
      release size
      return item
    | items => return .joined size .seq items
  | t => do
    if !keep then release t.size?
    return .leaf (← node) .empty

/-- Alternatives as one expression, `lead` followed by what is left of them. -/
def withLead (collapse : List Tree → Build Tree) (lead : Tree) (rests : List Tree) :
    Build Tree := do
  let rest ← collapse rests
  return .joined (← node) .seq [lead, rest]

def factorString (collapse : List Tree → Build Tree) :
    (List Nat × Bool) × List Tree → Build Tree
  | (_, [item]) => return item
  | ((shared, fold), items) => do
    let lead := .leaf (← node) (.string shared.reverse { fold := fold })
    withLead collapse lead (← items.mapM fun t => do check (← dropString shared.length t))

def factorFirst (collapse : List Tree → Build Tree) : Option Tree × List Tree → Build Tree
  | (some lead, first :: second :: items) => do
    let first ← check (← dropFirst true first)
    let others ← (second :: items).mapM fun t => do check (← dropFirst false t)
    withLead collapse lead (first :: others)
  | (_, items) => return items.head?.getD default

/-- Joins single characters into one class. The one that can take in the most is exchanged with
the first one and takes in the others. -/
def mergeSingles : Bool × List Tree → Build (List Tree)
  | (true, first :: second :: items) => do
    let items := first :: second :: items
    let most := items.foldl
      (fun (most, i) item =>
        (if (items[most]?.getD first).content.isBelow item.content then i else most, i + 1))
      (0, 0) |>.1
    let into := items[most]?.getD first
    let others := (items.set most first).drop 1
    others.forM fun t => release t.size?
    let content := others.foldl (fun content t => content.absorb t.content) into.content
    return [.leaf into.size? content.tidy]
  | (_, items) => return items

/-- Of alternatives next to each other that match the empty text, the last one is enough. -/
def dropEmpties : List Tree → List Tree
  | [] => []
  | [item] => [item]
  | item :: next :: items =>
    if item.isEmpty && next.isEmpty then dropEmpties (next :: items)
    else item :: dropEmpties (next :: items)

def factor (collapse : List Tree → Build Tree) (items : List Tree) : Build (List Tree) := do
  let items ← (byString items).mapM (factorString collapse)
  let items ← (byFirst items).mapM (factorFirst collapse)
  let items ← (bySingle items).mapM mergeSingles
  return dropEmpties items.flatten

/-- The parts of several expressions that are joined in the same way, whose nodes become free. -/
def flatten (kind : Join) (items : List Tree) : Build (List Tree) := do
  let parts ← items.mapM fun t => do
    match t with
    | .join size _ inner parts =>
      if inner = kind then
        release size
        return parts
      return [t]
    | t => return [t]
  return parts.flatten

def alternativeWith : Nat → List Tree → Build Tree
  | 0, items => return .joined (← node) .alt items
  | fuel + 1, items => do
    let size ← node
    let items ← flatten .alt items
    match ← factor (alternativeWith fuel) items with
    | [item] => do
      release size
      return item
    | items => return .joined size .alt items

/-- Several expressions as one that matches either. What is left of alternatives weighs less than
they do, so their weight bounds the depth. -/
def alternative : List Tree → Build Tree
  | [item] => return item
  | items => alternativeWith (Tree.weightOf items) items

def sequence : List Tree → Build Tree
  | [item] => return item
  | items => do
    let size ← node
    return .joined size .seq (← flatten .seq items)

end Build

end PegMachine.Regex
