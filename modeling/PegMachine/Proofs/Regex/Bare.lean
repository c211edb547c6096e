import PegMachine.Regex.Factor
import PegMachine.Regex.OnePass

namespace PegMachine.Regex

namespace Tree

mutual

/-- An expression without what is known of its size. -/
def bare : Tree → Tree
  | .leaf _ content => .leaf none content
  | .wrap _ _ kind item => .wrap none 0 kind (bare item)
  | .join _ _ kind items => .join none 0 kind (bareAll items)

def bareAll : List Tree → List Tree
  | [] => []
  | item :: items => bare item :: bareAll items

end

variable {t u : Tree} {ts us : List Tree} {size : Option Nat}

theorem bareAll_eq_map (ts : List Tree) : bareAll ts = ts.map bare := by
  induction ts with
  | nil => rfl
  | cons t ts ih => rw [bareAll, ih, List.map_cons]

@[simp] theorem bare_leaf (size : Option Nat) (content : Leaf) :
    (Tree.leaf size content).bare = .leaf none content := rfl

@[simp] theorem bare_inside (size : Option Nat) (kind : Wrap) (item : Tree) :
    (inside size kind item).bare = .wrap none 0 kind item.bare := rfl

@[simp] theorem bare_join (size : Option Nat) (height : Nat) (kind : Join) (items : List Tree) :
    (Tree.join size height kind items).bare = .join none 0 kind (items.map bare) := by
  rw [bare, bareAll_eq_map]

@[simp] theorem bare_joined (size : Option Nat) (kind : Join) (items : List Tree) :
    (joined size kind items).bare = .join none 0 kind (items.map bare) :=
  bare_join _ _ _ _

theorem bare_eq_leaf {content : Leaf} (h : u.bare = .leaf none content) :
    ∃ size, u = .leaf size content := by
  cases u with
  | leaf size content' =>
    cases h
    exact ⟨size, rfl⟩
  | wrap => cases h
  | join => cases h

theorem bare_eq_wrap {kind : Wrap} {item : Tree} (h : u.bare = .wrap none 0 kind item) :
    ∃ size height item', u = .wrap size height kind item' ∧ item'.bare = item := by
  cases u with
  | leaf => cases h
  | wrap size height kind' item' =>
    cases h
    exact ⟨size, height, item', rfl, rfl⟩
  | join => cases h

theorem bare_eq_join {kind : Join} {items : List Tree} (h : u.bare = .join none 0 kind items) :
    ∃ size height items', u = .join size height kind items' ∧ items'.map bare = items := by
  cases u with
  | leaf => cases h
  | wrap => cases h
  | join size height kind' items' =>
    rw [bare_join] at h
    cases h
    exact ⟨size, height, items', rfl, rfl⟩

mutual

theorem bare_measure (t : Tree) : t.measure.bare = t.bare := by
  cases t with
  | leaf => rfl
  | wrap size height kind item =>
    simp only [measure, bare]
    split
    · rfl
    · rw [bare_measure item]
  | join size height kind items =>
    simp only [measure, bare]
    rw [bareAll_measureNew items]

private theorem bareAll_measureNew (items : List Tree) :
    bareAll (measureNew items) = bareAll items := by
  cases items with
  | nil => rfl
  | cons item items =>
    simp only [measureNew, bareAll]
    rw [bareAll_measureNew items]
    split
    · rfl
    · rw [bare_measure item]

end

mutual

theorem regex_bare (t : Tree) : t.bare.regex = t.regex := by
  cases t with
  | leaf => rfl
  | wrap size height kind item => rw [bare, regex, regex, regex_bare item]
  | join size height kind items => rw [bare, regex, regex, regexesOnto_bareAll items]

private theorem regexesOnto_bareAll (items : List Tree) (done : List Regex) :
    regexesOnto done (bareAll items) = regexesOnto done items := by
  cases items with
  | nil => rfl
  | cons item items =>
    rw [bareAll, regexesOnto, regexesOnto, regex_bare item, regexesOnto_bareAll items]

end

mutual

theorem hasUnwritable_bare (t : Tree) : t.bare.hasUnwritable = t.hasUnwritable := by
  cases t with
  | leaf size content => cases content <;> rfl
  | wrap size height kind item => rw [bare, hasUnwritable, hasUnwritable, hasUnwritable_bare item]
  | join size height kind items => rw [bare, hasUnwritable, hasUnwritable, anyUnwritable_bareAll items]

theorem anyUnwritable_bareAll (items : List Tree) :
    anyUnwritable (bareAll items) = anyUnwritable items := by
  cases items with
  | nil => rfl
  | cons item items =>
    rw [bareAll, anyUnwritable, anyUnwritable, hasUnwritable_bare item, anyUnwritable_bareAll items]

end

mutual

private theorem weight_bare (t : Tree) : t.bare.weight = t.weight := by
  cases t with
  | leaf size content => cases content <;> rfl
  | wrap size height kind item => rw [bare, weight, weight, weight_bare item]
  | join size height kind items => rw [bare, weight, weight, weightOf_bareAll items]

theorem weightOf_bareAll (items : List Tree) : weightOf (bareAll items) = weightOf items := by
  cases items with
  | nil => rfl
  | cons item items => rw [bareAll, weightOf, weightOf, weight_bare item, weightOf_bareAll items]

end

theorem bare_tidy (t : Tree) : t.tidy.bare = t.bare.tidy := by
  cases t with
  | leaf => rfl
  | wrap => rfl
  | join => rfl

theorem content_bare (t : Tree) : t.bare.content = t.content := by
  cases t <;> rfl

theorem isSingle_bare (t : Tree) : t.bare.isSingle = t.isSingle := by
  cases t <;> rfl

theorem isEmpty_bare (t : Tree) : t.bare.isEmpty = t.isEmpty := by
  cases t with
  | leaf size content => cases content <;> rfl
  | wrap => rfl
  | join => rfl

private theorem ownString_bare (t : Tree) : t.bare.ownString = t.ownString := by
  cases t with
  | leaf size content => cases content <;> rfl
  | wrap => rfl
  | join => rfl

private theorem leadingString_bare (t : Tree) : t.bare.leadingString = t.leadingString := by
  cases t with
  | leaf size content => cases content <;> rfl
  | wrap => rfl
  | join size height kind items =>
    cases kind with
    | seq =>
      cases items with
      | nil => rfl
      | cons item items => exact ownString_bare item
    | alt => rfl

private theorem leading?_bare (t : Tree) : t.bare.leading? = t.leading?.map bare := by
  cases t with
  | leaf size content => cases content <;> rfl
  | wrap => rfl
  | join size height kind items =>
    cases kind with
    | seq =>
      cases items with
      | nil => rfl
      | cons item items =>
        simp only [bare, bareAll, leading?, isEmpty_bare]
        split <;> rfl
    | alt => rfl

private theorem isSameSingle_bare (t u : Tree) : t.bare.isSameSingle u.bare = t.isSameSingle u := by
  cases t with
  | leaf size content => cases u <;> rfl
  | wrap size height kind item =>
    cases u with
    | leaf => cases kind <;> cases item <;> rfl
    | wrap size' height' kind' item' => cases kind <;> cases item <;> cases item' <;> rfl
    | join => cases kind <;> cases item <;> rfl
  | join => cases u <;> rfl

end Tree

section

variable {α β γ δ : Type} {g : γ → α} {h : δ → β} {start : α → β} {start' : γ → δ}
  {share : β → α → Option β} {share' : δ → γ → Option δ}

/-- What one more item makes of the chunk before it and of those that are complete. -/
def addToChunks (start : α → β) (share : β → α → Option β)
    (pending : β × List α × List (β × List α)) (next : α) : β × List α × List (β × List α) :=
  match share pending.1 next with
  | some less => (less, next :: pending.2.1, pending.2.2)
  | none => (start next, [next], (pending.1, pending.2.1.reverse) :: pending.2.2)

private theorem chunks_cons (item : α) (items : List α) : chunks start share (item :: items) =
    let last := items.foldl (addToChunks start share) (start item, [item], [])
    ((last.1, last.2.1.reverse) :: last.2.2).reverse := rfl

/-- The chunks of an image of the items. -/
def mapChunks (h : δ → β) (g : γ → α) (pending : δ × List γ × List (δ × List γ)) :
    β × List α × List (β × List α) :=
  (h pending.1, pending.2.1.map g, pending.2.2.map fun chunk => (h chunk.1, chunk.2.map g))

/-- Whether items share what they start with shows in an image of them that keeps it. -/
theorem chunks_map (hstart : ∀ c, start (g c) = h (start' c))
    (hshare : ∀ d c, share (h d) (g c) = (share' d c).map h) (items : List γ) :
    chunks start share (items.map g) =
      (chunks start' share' items).map fun chunk => (h chunk.1, chunk.2.map g) := by
  cases items with
  | nil => rfl
  | cons item items =>
    have hnext (pending : δ × List γ × List (δ × List γ)) (next : γ) :
        addToChunks start share (mapChunks h g pending) (g next) =
          mapChunks h g (addToChunks start' share' pending next) := by
      simp only [addToChunks, mapChunks, hshare, hstart]
      cases share' pending.1 next with
      | none => simp
      | some less => simp
    have hinit : (start (g item), [g item], []) = mapChunks h g (start' item, [item], []) := by
      rw [hstart]
      rfl
    simp only [List.map_cons, chunks_cons, List.foldl_map]
    rw [hinit, List.foldl_hom (mapChunks h g) hnext]
    simp [mapChunks]

end

theorem byString_bare (ts : List Tree) : byString (ts.map Tree.bare) =
    (byString ts).map fun chunk => (chunk.1, chunk.2.map Tree.bare) := by
  refine chunks_map (h := id) Tree.leadingString_bare (fun shared t => ?_) ts
  rw [Tree.leadingString_bare, Option.map_id]
  rfl

theorem byFirst_bare (ts : List Tree) : byFirst (ts.map Tree.bare) =
    (byFirst ts).map fun chunk => (chunk.1.map Tree.bare, chunk.2.map Tree.bare) := by
  refine chunks_map Tree.leading?_bare (fun shared t => ?_) ts
  rw [Tree.leading?_bare]
  cases shared with
  | none => rfl
  | some a =>
    cases t.leading? with
    | none => rfl
    | some b =>
      simp only [Option.map_some, Tree.isSameSingle_bare]
      split <;> rfl

theorem bySingle_bare (ts : List Tree) : bySingle (ts.map Tree.bare) =
    (bySingle ts).map fun chunk => (chunk.1, chunk.2.map Tree.bare) := by
  refine chunks_map (h := id) Tree.isSingle_bare (fun single t => ?_) ts
  rw [Tree.isSingle_bare, Option.map_id]
  rfl

theorem Build.dropEmpties_bare (ts : List Tree) :
    dropEmpties (ts.map Tree.bare) = (dropEmpties ts).map Tree.bare := by
  induction ts with
  | nil => rfl
  | cons t ts ih =>
    cases ts with
    | nil => rfl
    | cons u ts =>
      simp only [List.map_cons, dropEmpties, Tree.isEmpty_bare] at ih ⊢
      split
      · exact ih
      · rw [List.map_cons, ih]

end PegMachine.Regex
