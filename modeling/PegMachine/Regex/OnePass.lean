import PegMachine.Regex.Program

namespace PegMachine.Regex

namespace Program

/-- Whether every match starts at the beginning of the text, as the first instruction says. -/
def startsAnchored (p : Program) : Bool :=
  match p.instr p.start with
  | .look .textStart _ => true
  | _ => false

def isDone (p : Program) (n : Nat) : Bool := p.instr n == .done

def isSplit (p : Program) (n : Nat) : Bool := (p.instr n).isSplit

/-- Whether a match ends right after an instruction only if it may: where there are two ways, only
the end of the text may end it. -/
def endsClearly (p : Program) : Bool :=
  let splits := p.code.any Instr.isSplit
  p.code.all fun i =>
    match i with
    | .split left right => !p.isDone left && !p.isDone right
    | .look anchor next => !p.isDone next || anchor == .textEnd
    | .pass next | .chars _ next => !p.isDone next || !splits
    | .done | .fail => true

/-- Simplifies a split one of whose ways is another split: a way that leads back is cut short, and
a way that both have is taken only once. -/
def straighten (p : Program) (n : Nat) : Program :=
  match p.instr n with
  | .split left right =>
    let swapped := !p.isSplit right
    let (other, inner) := if swapped then (right, left) else (left, right)
    match p.instr inner with
    | .split a b =>
      if p.isSplit other then p
      else
        let back := decide (a = n ∨ b = n)
        let (shared, rest) := if a ≠ n ∧ b = n then (b, a) else (a, b)
        let shared := if back then other else shared
        let code := if back then
            p.code.modify inner (Instr.redirect (decide (a ≠ n)) other)
          else p.code
        let code := if shared = other then code.modify n (Instr.redirect (!swapped) rest) else code
        { p with code := code }
    | _ => p
  | _ => p

def straightened (p : Program) : Program := (List.range p.code.size).foldl straighten p

end Program

/-- What is known of the instructions of a program: whether a match can end there without another
character, the characters that it can go on with, and which ones a character leads to. `visited`
are those looked at since the last character. -/
structure Survey where
  ends : Array Bool
  firsts : Array CharClass
  seen : Array Bool
  queue : List Nat
  visited : Array Bool

namespace Survey

def endsAt (s : Survey) (n : Nat) : Bool := s.ends[n]?.getD false

def firstsAt (s : Survey) (n : Nat) : CharClass := s.firsts[n]?.getD []

def has (marks : Array Bool) (n : Nat) : Bool := marks[n]?.getD false

def note (s : Survey) (n : Nat) (ends : Bool) (firsts : CharClass) : Survey :=
  { s with ends := s.ends.set! n ends, firsts := s.firsts.set! n firsts }

end Survey

namespace Program

/-- Looks at an instruction and those reached from it without a character; there is no answer if
two ways cannot be told apart. Each is looked at once, so `fuel` is their number. -/
def survey (p : Program) : Nat → Nat → Survey → Option Survey
  | 0, _, s => some s
  | fuel + 1, n, s =>
    if Survey.has s.visited n then some s
    else
      let s := { s with visited := s.visited.set! n true }
      match p.instr n with
      | .done => some (s.note n true (s.firstsAt n))
      | .fail => some (s.note n false (s.firstsAt n))
      | .pass next | .look _ next => do
        let s ← survey p fuel next s
        some (s.note n (s.endsAt next) (s.firstsAt next))
      | .chars cls next =>
        if Survey.has s.seen n then some { s with ends := s.ends.set! n false }
        else
          let s := { s with seen := s.seen.set! n true }
          let s := if s.queue.contains next then s else { s with queue := s.queue ++ [next] }
          some (s.note n false cls)
      | .split left right => do
        let s ← survey p fuel left s
        let s ← survey p fuel right s
        let (a, b) := (s.firstsAt left, s.firstsAt right)
        if (s.endsAt left && s.endsAt right) || !a.isDisjoint b then none
        else some (s.note n (s.endsAt n || s.endsAt left || s.endsAt right) (a.union b))

/-- Looks at the instructions that a character leads to, from the one with number `i` in the queue
on. -/
def surveyQueue (p : Program) : Nat → Nat → Survey → Bool
  | 0, _, _ => true
  | fuel + 1, i, s =>
    match s.queue[i]? with
    | none => true
    | some n =>
      let s := { s with visited := Array.replicate p.code.size false }
      match p.survey (p.code.size + 1) n s with
      | none => false
      | some s => surveyQueue p fuel (i + 1) s

/-- The number of instructions that a program must stay below to be looked at. -/
def maxSurvey : Nat := 1000

/-- Whether the next character always tells which way to take. -/
def isOnePass (p : Program) : Bool :=
  let size := p.code.size
  p.startsAnchored && p.endsClearly && decide (size < maxSurvey)
    && p.straightened.surveyQueue (size + 1) 0
      { ends := Array.replicate size false
        firsts := Array.replicate size []
        seen := Array.replicate size false
        queue := [p.start]
        visited := #[] }

end Program

namespace Tree

/-- Whether a character can be compared as it is written. A replacement character cannot, for it
also stands for bytes that are no character. -/
def isWritten (flags : Flags) (c : Nat) : Bool := flags.members c == [c] && c != Utf8.replacement

/-- The meaning of a string whose characters are compared as they are written, up to the first one
for which this cannot be, and whether there is no such one. -/
def leadString (flags : Flags) : List Nat → Regex × Bool
  | [] => (.empty, true)
  | c :: runes =>
    if isWritten flags c then
      let (rest, goesOn) := leadString flags runes
      (.seq (.written c) rest, goesOn)
    else (Leaf.regex (.string (c :: runes).reverse flags), false)

mutual

/-- The meaning of an expression whose leading string is compared as it is written. The answer
tells whether the string may go on after the expression, and whether it has started. -/
def lead (started : Bool) : Tree → Regex × Bool × Bool
  | .leaf _ (.string runes flags) =>
    let (r, goesOn) := leadString flags runes.reverse
    (r, goesOn, true)
  | .leaf _ .empty => (.empty, !started, started)
  | .wrap _ _ (.plus _) item =>
    let (first, _, _) := lead started item
    (.seq first (.times 0 none item.regex), false, true)
  | .join _ _ .seq items => leadAll started items
  | t => (t.regex, false, true)

def leadAll (started : Bool) : List Tree → Regex × Bool × Bool
  | [] => (.empty, true, started)
  | item :: items =>
    let (first, goesOn, started) := lead started item
    if goesOn then
      let (rest, goesOn, started) := leadAll started items
      (.seq first rest, goesOn, started)
    else (.seq first (Join.regex (regexesOnto [] items) .seq), false, started)

end

mutual

def hasUnwritable : Tree → Bool
  | .leaf _ (.string runes _) => runes.any fun c => !Utf8.isScalar c
  | .leaf .. => false
  | .wrap _ _ _ item => hasUnwritable item
  | .join _ _ _ items => anyUnwritable items

def anyUnwritable : List Tree → Bool
  | [] => false
  | item :: items => hasUnwritable item || anyUnwritable items

end

/-- The meaning of a whole expression. For one that starts at the beginning of the text the string
after that condition may be compared as it is written. -/
def compile (t : Tree) : Regex :=
  if t.hasUnwritable && (Program.ofTree t.expand).isOnePass then
    match t.expand with
    | .join _ _ .seq (.leaf _ (.look .textStart) :: items) =>
      .seq (.look .textStart) (leadAll false items).1
    | t => t.regex
  else t.regex

end Tree

end PegMachine.Regex
