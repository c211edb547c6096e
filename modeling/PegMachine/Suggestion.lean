import PegMachine.Text.EditDistance

namespace PegMachine

/-- A name that holds the characters of another one in order, and how far it is from that one. -/
structure Rank where
  target : Bytes
  distance : Nat
  deriving Repr, DecidableEq

/-- What tells how much names look alike. `ranks` finds the names that hold the characters of one,
case aside, and `sort` puts the closest first, where equally close ones come in any order. -/
structure Search where
  ranks : Bytes → List Bytes → List Rank
  sort : List Rank → List Rank
  distance : Bytes → Bytes → Nat
  target_mem : ∀ name names, ∀ rank ∈ ranks name names, rank.target ∈ names
  distance_eq : ∀ name names, ∀ rank ∈ ranks name names, rank.distance = distance name rank.target
  sort_perm : ∀ ranks, (sort ranks).Perm ranks
  sort_sorted : ∀ ranks, (sort ranks).Pairwise (·.distance ≤ ·.distance)

namespace Search

/-- The first of the closest candidates, where `limit` is the distance a candidate has to stay
below. -/
def closest (distance : Bytes → Nat) (limit : Nat) (candidates : List Bytes) : Option Bytes :=
  (candidates.foldl
    (fun (best : Option Bytes × Nat) candidate =>
      if distance candidate < best.2 then (some candidate, distance candidate) else best)
    (none, limit)).1

/-- The one of `names` that a mistyped name most likely means. One that contains its characters in
order is the best guess; otherwise a typo in up to a third of the name is allowed for. -/
def suggest (search : Search) (name : Bytes) (names : List Bytes) : Bytes :=
  if name.isEmpty || names.isEmpty then []
  else
    match search.sort (search.ranks name names) with
    | best :: _ => best.target
    | [] =>
      let lower := LowerCase.ofText name
      let distance := fun candidate => search.distance lower (LowerCase.ofText candidate)
      (closest distance (name.length / 3 + 1) names).getD []

/-- How far two texts are from each other, in characters. -/
def editDistance (a b : Bytes) : Nat := EditDistance.distance (Utf8.runes a) (Utf8.runes b)

def closer (a b : Rank) : Bool := decide (a.distance ≤ b.distance)

/-- The search by edit distance. Of equally close names it takes the one that was defined first. -/
def byEdits : Search where
  ranks name names :=
    (names.filter (EditDistance.extends? name)).map fun target => ⟨target, editDistance name target⟩
  sort ranks := ranks.mergeSort closer
  distance := editDistance
  target_mem name names rank h := by
    obtain ⟨target, htarget, rfl⟩ := List.mem_map.1 h
    exact (List.mem_filter.1 htarget).1
  distance_eq name names rank h := by
    obtain ⟨target, -, rfl⟩ := List.mem_map.1 h
    rfl
  sort_perm ranks := List.mergeSort_perm ranks _
  sort_sorted ranks := by
    have htrans (a b c : Rank) : closer a b → closer b c → closer a c := by
      simpa [closer] using Nat.le_trans
    have htotal (a b : Rank) : closer a b || closer b a := by
      simpa [closer] using Nat.le_total a.distance b.distance
    simpa [closer] using List.pairwise_mergeSort htrans htotal ranks

end Search

/-- What an error suggests in the place of a name: a given name, or the one of `names` that a search
finds for it. -/
inductive Suggestion where
  | given (name : Bytes)
  | among (names : List Bytes)
  deriving Repr, DecidableEq

instance : Coe Bytes Suggestion := ⟨.given⟩

def Suggestion.find (search : Search) (name : Bytes) : Suggestion → Bytes
  | .given suggestion => suggestion
  | .among names => search.suggest name names

end PegMachine
