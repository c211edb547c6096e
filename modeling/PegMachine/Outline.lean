import PegMachine.Text.Bytes

namespace PegMachine

/-- A tree to draw: the pieces of a node's line, each with the role it plays, and the subtrees. -/
inductive Outline (ρ : Type) where
  | node (label : List (ρ × Bytes)) (children : List (Outline ρ))

namespace Outline

variable {ρ : Type}

/-- The marks in front of the first line of a child and of the lines below it. -/
def marks (last : Bool) : Bytes × Bytes :=
  if last then ("└── ", "    ") else ("├── ", "│   ")

def hang (last : Bool) : List Bytes → List Bytes
  | [] => []
  | first :: below => ((marks last).1 ++ first) :: below.map ((marks last).2 ++ ·)

mutual

/-- The lines of a tree, where `paint` decorates the pieces. -/
def lines (paint : ρ → Bytes → Bytes) : Outline ρ → List Bytes
  | .node label children =>
    label.flatMap (fun piece => paint piece.1 piece.2) :: linesBelow paint children

def linesBelow (paint : ρ → Bytes → Bytes) : List (Outline ρ) → List Bytes
  | [] => []
  | child :: children =>
    hang children.isEmpty (lines paint child) ++ linesBelow paint children

end

def render (paint : ρ → Bytes → Bytes) (tree : Outline ρ) : Bytes :=
  Bytes.join Bytes.newline (tree.lines paint)

end Outline

end PegMachine
