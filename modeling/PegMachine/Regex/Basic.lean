import PegMachine.Regex.CharClass

namespace PegMachine

inductive Anchor where
  | textStart | textEnd | lineStart | lineEnd | wordEdge | notWordEdge
  deriving Repr, DecidableEq

/-- A regular expression over characters. `written` is a character as it is written in a text: for
one that cannot be written, that is a replacement character in full. -/
inductive Regex where
  | empty
  | one (cls : CharClass)
  | written (c : Nat)
  | look (anchor : Anchor)
  | seq (first second : Regex)
  | alt (left right : Regex)
  | times (least : Nat) (most : Option Nat) (item : Regex)
  deriving Repr, DecidableEq, Inhabited

namespace Regex

/-- A place between two characters of a text: the number of bytes before it, the character right
before it and the bytes after it. -/
structure Position where
  offset : Nat
  previous : Option Nat
  rest : Bytes
  deriving Repr, DecidableEq

namespace Position

def start (text : Bytes) : Position := ⟨0, none, text⟩

def next? (p : Position) : Option (Nat × Position) :=
  match p.rest with
  | [] => none
  | b :: rest =>
    let (c, width) := Utf8.decodeAt b rest
    some (c, ⟨p.offset + width, some c, (b :: rest).drop width⟩)

/-- Letters, digits and the underscore of ASCII. -/
def isWord (c : Nat) : Bool := decide (c < 0x80) && Ascii.isWord c.toUInt8

/-- Whether exactly one side of the position is a word character. -/
def isWordEdge (p : Position) : Bool :=
  (p.previous.any isWord) != (p.rest.head?.any Ascii.isWord)

def satisfies (p : Position) : Anchor → Bool
  | .textStart => p.previous.isNone
  | .textEnd => p.rest.isEmpty
  | .lineStart => p.previous.isNone || p.previous == some Ascii.newline.toNat
  | .lineEnd => p.rest.isEmpty || p.rest.head? == some Ascii.newline
  | .wordEdge => p.isWordEdge
  | .notWordEdge => !p.isWordEdge

/-- The position after the next character, if it is in the class. -/
def take? (cls : CharClass) (p : Position) : Option Position :=
  match p.next? with
  | some (c, q) => if cls.contains c then some q else none
  | none => none

/-- The position after a character, if the text goes on as it is written. -/
def takeWritten? (c : Nat) (p : Position) : Option Position :=
  if (Utf8.encode c).isPrefixOf p.rest then p.next?.map (·.2) else none

end Position

/-- Positions of one text, the furthest first, each once. -/
abbrev Positions := List Position

namespace Positions

def holds (offset : Nat) : Positions → Bool
  | [] => false
  | p :: ps => if p.offset < offset then false else p.offset == offset || holds offset ps

/-- Adds `p` and then what `more` adds to the positions behind it. -/
def unionWith (p : Position) (more : Positions → Positions) : Positions → Positions
  | [] => p :: more []
  | q :: qs =>
    if q.offset < p.offset then p :: more (q :: qs)
    else if p.offset < q.offset then q :: unionWith p more qs
    else p :: more qs

def union : Positions → Positions → Positions
  | [], qs => qs
  | p :: ps, qs => unionWith p (union ps) qs

/-- The positions of the first set that the second does not hold. -/
def without (ps seen : Positions) : Positions := ps.filter fun p => !holds p.offset seen

/-- All positions reached from `fresh` by moving any number of times. Each round but the last
finds a new one, so as many rounds as there are bytes are enough. -/
def closure (move : Positions → Positions) : Bytes → Positions → Positions → Positions
  | [], _, seen => seen
  | _ :: fuel, fresh, seen =>
    match (move fresh).without seen with
    | [] => seen
    | new => closure move fuel new (union new seen)

def power (move : Positions → Positions) : Nat → Positions → Positions
  | 0, ps => ps
  | n + 1, ps => power move n (move ps)

def upTo (move : Positions → Positions) : Nat → Positions → Positions
  | 0, ps => ps
  | n + 1, ps => if ps.isEmpty then [] else union (upTo move n (move ps)) ps

def tail (ps : Positions) : Bytes := (ps.getLast?.map Position.rest).getD []

end Positions

/-- The positions at which matches that start in `ps` end. -/
def advance : Regex → Positions → Positions
  | .empty, ps => ps
  | .one cls, ps => ps.filterMap (Position.take? cls)
  | .written c, ps => ps.filterMap (Position.takeWritten? c)
  | .look anchor, ps => ps.filter (·.satisfies anchor)
  | .seq first second, ps => advance second (advance first ps)
  | .alt left right, ps => Positions.union (advance left ps) (advance right ps)
  | .times least none item, ps =>
    let ps := Positions.power (advance item) least ps
    Positions.closure (advance item) ps.tail ps ps
  | .times least (some most) item, ps =>
    Positions.upTo (advance item) (most - least) (Positions.power (advance item) least ps)

/-- Whether every match has to start at the beginning of the text. -/
def isAnchored : Regex → Bool
  | .look .textStart => true
  | .seq first _ => first.isAnchored
  | .alt left right => left.isAnchored && right.isAnchored
  | _ => false

/-- The offset at which the longest of the earliest matches ends, searching from `p` on. -/
def searchFrom (r : Regex) : Bytes → Position → Option Nat
  | fuel, p =>
    match r.advance [p], fuel with
    | q :: _, _ => some q.offset
    | [], [] => none
    | [], _ :: fuel =>
      match p.next? with
      | none => none
      | some (_, next) => searchFrom r fuel next

/-- The offset at which the longest of the earliest matches in a text ends. -/
def search (r : Regex) (text : Bytes) : Option Nat :=
  if r.isAnchored then ((r.advance [Position.start text]).head?).map Position.offset
  else searchFrom r text (Position.start text)

end Regex

end PegMachine
