import PegMachine.Regex.Factor

namespace PegMachine.Regex

namespace Build

/-- Joins the two strings read last, if both treat case in the same way. A character that is given
takes the place of the second one; otherwise its node becomes free. -/
def joinStrings (next : Option (Nat × Flags)) : Build Bool := do
  match (← get).current.pieces, next with
  | .leaf last (.string runes flags) :: .leaf size (.string before treat) :: pieces, next =>
    if flags.fold ≠ treat.fold then return false
    let joined := .leaf size (.string (runes ++ before) treat)
    match next with
    | some (c, flags) => do
      setPieces (.leaf last (.string [c] flags) :: joined :: pieces)
      return true
    | none => do
      setPieces (joined :: pieces)
      release last
      return false
  | _, _ => return false

/-- The character that a class stands for, and whether it ignores case, if a string says the
same. -/
def character? : CharClass → Option (Nat × Bool)
  | [(a, b)] =>
    if a = b then some (a, false)
    else if a + 1 = b ∧ Unicode.orbit a = [a, b] then some (a, true)
    else none
  | [(a, b), (c, d)] =>
    if a = b ∧ c = d ∧ Unicode.orbit a = [a, c] then some (a, true) else none
  | _ => none

def append (t : Tree) : Build Unit := do
  let t ← check t
  setPieces (t :: (← get).current.pieces)

def push (t : Tree) : Build Unit := do
  modify fun r => { r with usage := { r.usage with runes := r.usage.runes + t.content.runes } }
  match t with
  | .leaf size (.members cls) =>
    match character? cls with
    | some (c, fold) => do
      let flags := { (← get).flags with fold := fold }
      unless ← joinStrings (some (c, flags)) do append (.leaf size (.string [c] flags))
    | none => do
      discard (joinStrings none)
      append t
  | t => do
    discard (joinStrings none)
    append t

def pushLeaf (content : Leaf) : Build Unit := do push (.leaf (← node) content)

def pushLiteral (c : Nat) : Build Unit := do
  let flags := (← get).flags
  pushLeaf (.string [flags.literal c] flags)

/-- Opens a group whose end brings the current flags back. -/
def openGroup (captures : Bool) : Build Unit := do
  let size ← node
  discard (joinStrings none)
  discard (check (.leaf size .empty))
  modify fun r => { r with
    current := { restore := r.flags, captures := captures }
    enclosing := r.current :: r.enclosing }

def endSequence : Build Unit := do
  discard (joinStrings none)
  let pieces := (← get).current.pieces.reverse
  setPieces []
  if pieces.isEmpty then pushLeaf .empty else push (← sequence pieces)

/-- Adds the alternative read last to those before it. Two that stand for single characters next to
each other become one. -/
def addBranch (branch : Tree) : Build Unit := do
  match (← get).current.branches with
  | last :: branches => do
    if branch.isSingle && last.isSingle then
      let (into, other) :=
        if last.content.rank < branch.content.rank then (branch, last) else (last, branch)
      setBranches (.leaf into.size? (into.content.absorb other.content) :: branches)
      release other.size?
    else setBranches (branch :: last.tidy :: branches)
  | [] => setBranches [branch]
where
  setBranches (branches : List Tree) : Build Unit :=
    modify fun r => { r with current := { r.current with branches := branches, pieces := [] } }

/-- Ends the alternative being read where another one follows. The first bar of a group takes a
node of its own. -/
def endBranch : Build Unit := do
  endSequence
  let group := (← get).current
  if group.branches.isEmpty then discard (check (.leaf (← node) .empty))
  match (← get).current.pieces with
  | branch :: _ => addBranch branch
  | [] => return

def endGroup : Build Unit := do
  endSequence
  let group := (← get).current
  match group.pieces with
  | [] => return
  | branch :: _ => do
    addBranch branch
    let branches := match (← get).current.branches with
      | last :: branches => (last.tidy :: branches).reverse
      | [] => []
    modify fun r => { r with current := { r.current with branches := [], pieces := [] } }
    push (← alternative branches)

def repeatPiece (kind : Wrap) (item : Tree) (pieces : List Tree) : Build Unit := do
  let repeated := .inside (← node) kind item
  setPieces (repeated :: pieces)
  setPieces ((← check repeated) :: (← get).current.pieces.drop 1)

end Build

end PegMachine.Regex
