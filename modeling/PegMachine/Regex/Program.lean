import PegMachine.Regex.Tree

namespace PegMachine.Regex

/-- An instruction: the end of a match, no match at all, a step without a condition, a condition on
the position, a character out of a class, or two ways to go on. -/
inductive Instr where
  | done
  | fail
  | pass (next : Nat)
  | look (anchor : Anchor) (next : Nat)
  | chars (cls : CharClass) (next : Nat)
  | split (left right : Nat)
  deriving Repr, DecidableEq, Inhabited

namespace Instr

def isSplit : Instr → Bool
  | .split .. => true
  | _ => false

/-- The instruction with another way on: the right one of two, or the only one. -/
def redirect (right : Bool) (target : Nat) : Instr → Instr
  | .pass _ => .pass target
  | .look anchor _ => .look anchor target
  | .chars cls _ => .chars cls target
  | .split left other => if right then .split left target else .split target other
  | i => i

end Instr

namespace Tree

/-- A repetition that is not counted. Repeating the empty expression, or repeating twice in the
same way, changes nothing. -/
def again (kind : Wrap) (item : Tree) : Tree :=
  match item with
  | .leaf _ .empty => item
  | .wrap _ _ inner _ => if inner = kind then item else .inside none kind item
  | _ => .inside none kind item

def upTo (lazy : Bool) (item : Tree) : Nat → Tree
  | 0 => again (.option lazy) item
  | n + 1 => again (.option lazy) (.joined none .seq [item, upTo lazy item n])

def copies (least : Nat) (most : Option Nat) (lazy : Bool) (item : Tree) : Tree :=
  match most with
  | none =>
    match least with
    | 0 => again (.star lazy) item
    | 1 => again (.plus lazy) item
    | n + 1 => .joined none .seq (List.replicate n item ++ [again (.plus lazy) item])
  | some most =>
    if most = 0 then .leaf none .empty
    else if least = 1 ∧ most = 1 then item
    else
      match most - least with
      | 0 => .joined none .seq (List.replicate least item)
      | n + 1 =>
        if least = 0 then upTo lazy item n
        else .joined none .seq (List.replicate least item ++ [upTo lazy item n])

mutual

/-- The expression with all counted repetitions written out. -/
def expand : Tree → Tree
  | .leaf size content => .leaf size content
  | .wrap _ _ (.count least most lazy) item => copies least most lazy (expand item)
  | .wrap _ _ .capture item => .inside none .capture (expand item)
  | .wrap _ _ kind item => again kind (expand item)
  | .join _ _ kind items => .joined none kind (expandAll items)

def expandAll : List Tree → List Tree
  | [] => []
  | item :: items => expand item :: expandAll items

end

end Tree

/-- A part of a program: where it is entered, its ways out (an instruction, and whether its right
way is meant) and whether it can be passed without a character. -/
structure Fragment where
  entry : Nat
  exits : List (Nat × Bool)
  nullable : Bool

abbrev Emit := StateM (Array Instr)

namespace Emit

def add (i : Instr) : Emit Nat := fun code => (code.size, code.push i)

def connect (exits : List (Nat × Bool)) (target : Nat) : Emit Unit :=
  modify fun code => exits.foldl
    (fun code (n, right) => code.modify n (Instr.redirect right target)) code

def single (i : Instr) (nullable : Bool) : Emit Fragment := do
  let n ← add i
  return ⟨n, [(n, false)], nullable⟩

def both (a b : Fragment) : Emit Fragment := do
  connect a.exits b.entry
  return ⟨a.entry, b.exits, a.nullable && b.nullable⟩

def either (a b : Fragment) : Emit Fragment := do
  let n ← add (.split a.entry b.entry)
  return ⟨n, a.exits ++ b.exits, a.nullable || b.nullable⟩

/-- A split that leads to a fragment or past it; the left way is the preferred one. -/
def detour (lazy : Bool) (a : Fragment) : Emit (Nat × (Nat × Bool)) := do
  let n ← add (if lazy then .split 0 a.entry else .split a.entry 0)
  return (n, (n, !lazy))

def option (lazy : Bool) (a : Fragment) : Emit Fragment := do
  let (n, exit) ← detour lazy a
  return ⟨n, exit :: a.exits, true⟩

/-- The fragment any number of times, entered at the split. -/
def loop (lazy : Bool) (a : Fragment) : Emit Fragment := do
  let (n, exit) ← detour lazy a
  connect a.exits n
  return ⟨n, [exit], true⟩

def plus (lazy : Bool) (a : Fragment) : Emit Fragment := do
  let around ← loop lazy a
  return ⟨a.entry, around.exits, a.nullable⟩

def star (lazy : Bool) (a : Fragment) : Emit Fragment := do
  if a.nullable then option lazy (← plus lazy a) else loop lazy a

def string (flags : Flags) : List Nat → Emit Fragment
  | [] => single (.pass 0) true
  | [c] => character flags c
  | c :: runes => do
    let first ← character flags c
    both first (← string flags runes)
where
  character (flags : Flags) (c : Nat) : Emit Fragment :=
    single (.chars (CharClass.ofRanges ((flags.members c).map fun c => (c, c))) 0) false

def leaf : Leaf → Emit Fragment
  | .empty => single (.pass 0) true
  | .string runes flags => string flags runes.reverse
  | .members cls => single (.chars cls 0) false
  | .notNewline => single (.chars Leaf.notNewlineClass 0) false
  | .anything => single (.chars Leaf.anythingClass 0) false
  | .look anchor => single (.look anchor 0) true

mutual

/-- Adds the instructions of an expression without counted repetitions. -/
def tree : Tree → Emit Fragment
  | .leaf _ content => leaf content
  | .wrap _ _ kind item => do
    match kind with
    | .star lazy => star lazy (← tree item)
    | .plus lazy => plus lazy (← tree item)
    | .option lazy => option lazy (← tree item)
    | .capture | .count .. => do
      let before ← single (.pass 0) true
      let inner ← both before (← tree item)
      both inner (← single (.pass 0) true)
  | .join _ _ kind items =>
    match items with
    | [] => single (.pass 0) true
    | first :: items => do trees kind (← tree first) items

def trees (kind : Join) (done : Fragment) : List Tree → Emit Fragment
  | [] => return done
  | item :: items => do
    let next ← tree item
    match kind with
    | .seq => trees kind (← both done next) items
    | .alt => trees kind (← either done next) items

end

end Emit

/-- Instructions and the number of the first one. -/
structure Program where
  code : Array Instr
  start : Nat

namespace Program

/-- The program of an expression without counted repetitions. -/
def ofTree (t : Tree) : Program :=
  let (start, code) := (do
    discard (Emit.add .fail)
    let whole ← Emit.tree t
    let last ← Emit.add .done
    Emit.connect whole.exits last
    return whole.entry : Emit Nat) #[]
  ⟨code, start⟩

def instr (p : Program) (n : Nat) : Instr := p.code[n]?.getD .fail

end Program

end PegMachine.Regex
