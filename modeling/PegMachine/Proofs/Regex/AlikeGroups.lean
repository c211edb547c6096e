import PegMachine.Proofs.Regex.Alike

namespace PegMachine.Regex.Build

variable {around : List Group}

/-- Lists of trees that are alike have the same number of trees, as far as it matters. -/
theorem cases_of_bare {ts us : List Tree} (h : us.map Tree.bare = ts.map Tree.bare) :
    (ts = [] ∧ us = []) ∨ (∃ t u, ts = [t] ∧ us = [u] ∧ u.bare = t.bare) ∨
      ∃ t t' ts' u u' us', ts = t :: t' :: ts' ∧ us = u :: u' :: us' ∧ u.bare = t.bare ∧
        (u' :: us').map Tree.bare = (t' :: ts').map Tree.bare := by
  match ts with
  | [] => exact .inl ⟨rfl, List.map_eq_nil_iff.1 h⟩
  | [t] =>
    obtain ⟨u, us, rfl, hu, hus⟩ := List.map_eq_cons_iff.1 h
    obtain rfl := List.map_eq_nil_iff.1 hus
    exact .inr (.inl ⟨t, u, rfl, rfl, hu⟩)
  | t :: t' :: ts =>
    obtain ⟨u, us, rfl, hu, hus⟩ := List.map_eq_cons_iff.1 h
    obtain ⟨u', us', rfl, -, -⟩ := List.map_eq_cons_iff.1 hus
    exact .inr (.inr ⟨t, t', ts, u, u', us', rfl, rfl, hu, hus⟩)

/-- A step on trees that does the same with trees that are alike. -/
def Uniform (around : List Group) (collapse : List Tree → Build Tree) : Prop :=
  ∀ ⦃ts us : List Tree⦄, us.map Tree.bare = ts.map Tree.bare →
    Agree around Tree.bare (collapse ts) (collapse us)

/-- What is left of a sequence whose first part was taken away. -/
def afterFirst (size : Option Nat) : List Tree → Build Tree
  | [] => pure (.leaf size .empty)
  | [item] => do
    release size
    return item
  | items => return .joined size .seq items

private theorem dropString_seq (n : Nat) (size first : Option Nat) (height : Nat) (runes : List Nat)
    (flags : Flags) (items : List Tree) :
    dropString n (.join size height .seq (.leaf first (.string runes flags) :: items)) =
      if runes.length ≤ n then release first >>= fun _ => afterFirst size items
      else pure (.joined size .seq
        (.leaf first (.string (runes.take (runes.length - n)) flags) :: items)) := by
  by_cases hn : runes.length ≤ n
  · simp only [dropString, dropString.shorten, if_pos hn]
    match items with
    | [] => rfl
    | [item] => rfl
    | _ :: _ :: _ => rfl
  · simp only [dropString, dropString.shorten, if_neg hn]

private theorem dropFirst_seq (keep : Bool) (size : Option Nat) (height : Nat) (first : Tree)
    (items : List Tree) : dropFirst keep (.join size height .seq (first :: items)) =
      if keep then afterFirst size items
      else release first.size? >>= fun _ => afterFirst size items := by
  match keep, items with
  | true, [] | true, [item] | true, _ :: _ :: _ => rfl
  | false, [] | false, [item] | false, _ :: _ :: _ => rfl

/-- Nothing is left of an expression that is no sequence. -/
def emptied (keep : Bool) (size : Option Nat) : Build Tree := do
  if !keep then release size
  return .leaf (← node) .empty

/-- The place of the one that can take in the most. -/
def widestAt (first : Tree) (items : List Tree) : Nat :=
  (items.foldl (fun (best : Nat × Nat) item =>
    (if (items[best.1]?.getD first).content.isBelow item.content then best.2 else best.1,
      best.2 + 1)) (0, 0)).1

/-- The one that takes in the others, and the others. -/
def widest (first : Tree) (items : List Tree) : Tree × List Tree :=
  (items[widestAt first items]?.getD first, (items.set (widestAt first items) first).drop 1)

/-- What the first one is after it took in the others. -/
def absorbed (into : Tree) (others : List Tree) : Leaf :=
  others.foldl (fun content t => content.absorb t.content) into.content

private theorem mergeSingles_cons (first second : Tree) (items : List Tree) :
    mergeSingles (true, first :: second :: items) =
      let last := widest first (first :: second :: items)
      (last.2.forM fun t => release t.size?) >>= fun _ =>
        pure [.leaf last.1.size? (absorbed last.1 last.2).tidy] := rfl

private theorem widestAt_bare (first : Tree) (items : List Tree) :
    widestAt first.bare (items.map Tree.bare) = widestAt first items := by
  have hget (n : Nat) : ((items.map Tree.bare)[n]?.getD first.bare).content =
      (items[n]?.getD first).content := by
    rw [List.getElem?_map, Option.getD_map, Tree.content_bare]
  simp only [widestAt, List.foldl_map, hget, Tree.content_bare]

private theorem absorbed_bare (into : Tree) (others : List Tree) :
    absorbed into.bare (others.map Tree.bare) = absorbed into others := by
  simp only [absorbed, List.foldl_map, Tree.content_bare]

private theorem widest_bare (first : Tree) (items : List Tree) :
    widest first.bare (items.map Tree.bare) =
      ((widest first items).1.bare, (widest first items).2.map Tree.bare) := by
  simp only [widest, widestAt_bare, List.getElem?_map, Option.getD_map, List.map_drop, List.map_set]

namespace Agree

variable {t u : Tree} {ts us : List Tree}

theorem afterFirst (size size' : Option Nat) (h : us.map Tree.bare = ts.map Tree.bare) :
    Agree around Tree.bare (afterFirst size ts) (afterFirst size' us) := by
  obtain ⟨rfl, rfl⟩ | ⟨t, u, rfl, rfl, htu⟩ | ⟨t, t', ts, u, u', us, rfl, rfl, htu, hmore⟩ :=
    cases_of_bare h
  · exact pure rfl
  · exact bind (release _ _) fun _ _ _ => pure htu
  · refine pure ?_
    rw [Tree.bare_joined, Tree.bare_joined, h]

theorem dropString (n : Nat) (h : u.bare = t.bare) :
    Agree around Tree.bare (dropString n t) (dropString n u) := by
  cases t with
  | leaf size content =>
    obtain ⟨size', rfl⟩ := Tree.bare_eq_leaf h
    cases content <;> exact pure rfl
  | wrap size height kind item =>
    obtain ⟨_, _, _, rfl, _⟩ := Tree.bare_eq_wrap h
    exact pure h
  | join size height kind items =>
    have hjoin := h
    rw [Tree.bare_join] at hjoin
    obtain ⟨size', height', items', rfl, hitems⟩ := Tree.bare_eq_join hjoin
    cases kind with
    | alt => exact pure h
    | seq =>
      cases items with
      | nil =>
        obtain rfl := List.map_eq_nil_iff.1 hitems
        exact pure h
      | cons first items =>
        obtain ⟨first', items', rfl, hfirst, hrest⟩ := List.map_eq_cons_iff.1 hitems
        cases first with
        | leaf size₁ content =>
          obtain ⟨size₁', rfl⟩ := Tree.bare_eq_leaf hfirst
          cases content with
          | string runes flags =>
            rw [dropString_seq, dropString_seq]
            refine ite (bind (release _ _) fun _ _ _ => afterFirst _ _ hrest) (pure ?_)
            rw [Tree.bare_joined, Tree.bare_joined, List.map_cons, List.map_cons, hrest]
            rfl
          | _ => exact pure h
        | wrap size₁ height₁ kind item =>
          obtain ⟨_, _, _, rfl, _⟩ := Tree.bare_eq_wrap hfirst
          exact pure h
        | join size₁ height₁ kind parts =>
          rw [Tree.bare_join] at hfirst
          obtain ⟨_, _, _, rfl, _⟩ := Tree.bare_eq_join hfirst
          exact pure h

theorem dropFirst (keep : Bool) (h : u.bare = t.bare) :
    Agree around Tree.bare (dropFirst keep t) (dropFirst keep u) := by
  have hother (size size' : Option Nat) :
      Agree around Tree.bare (emptied keep size) (emptied keep size') := by
    cases keep with
    | true => exact bind node fun _ _ _ => pure rfl
    | false => exact bind (release _ _) fun _ _ _ => bind node fun _ _ _ => pure rfl
  cases t with
  | leaf size content =>
    obtain ⟨size', rfl⟩ := Tree.bare_eq_leaf h
    exact hother size size'
  | wrap size height kind item =>
    obtain ⟨size', _, _, rfl, _⟩ := Tree.bare_eq_wrap h
    exact hother size size'
  | join size height kind items =>
    rw [Tree.bare_join] at h
    obtain ⟨size', height', items', rfl, hitems⟩ := Tree.bare_eq_join h
    cases kind with
    | alt => exact hother size size'
    | seq =>
      cases items with
      | nil =>
        obtain rfl := List.map_eq_nil_iff.1 hitems
        exact hother size size'
      | cons first items =>
        obtain ⟨first', items', rfl, hfirst, hrest⟩ := List.map_eq_cons_iff.1 hitems
        rw [dropFirst_seq, dropFirst_seq]
        exact ite (afterFirst _ _ hrest) (bind (release _ _) fun _ _ _ => afterFirst _ _ hrest)

section

variable {collapse : List Tree → Build Tree}

theorem withLead (hcollapse : Uniform around collapse) (h : u.bare = t.bare)
    (hrests : us.map Tree.bare = ts.map Tree.bare) :
    Agree around Tree.bare (withLead collapse t ts) (withLead collapse u us) := by
  refine bind (hcollapse hrests) fun a b hab => bind node fun _ _ _ => pure ?_
  simp only [Tree.bare_joined, List.map_cons, List.map_nil, h, hab]

theorem factorString (hcollapse : Uniform around collapse) (shared : List Nat × Bool)
    (h : us.map Tree.bare = ts.map Tree.bare) :
    Agree around Tree.bare (factorString collapse (shared, ts))
      (factorString collapse (shared, us)) := by
  have hmany (ts us : List Tree) (h : us.map Tree.bare = ts.map Tree.bare) :
      Agree around Tree.bare
        (do
          let lead := .leaf (← Build.node) (.string shared.1.reverse { fold := shared.2 })
          Build.withLead collapse lead
            (← ts.mapM fun t => do Build.check (← Build.dropString shared.1.length t)))
        (do
          let lead := .leaf (← Build.node) (.string shared.1.reverse { fold := shared.2 })
          Build.withLead collapse lead
            (← us.mapM fun t => do Build.check (← Build.dropString shared.1.length t))) := by
    refine bind node fun size size' _ => ?_
    refine bind (mapM Tree.bare Tree.bare (fun t u htu => ?_) h) fun as bs habs => ?_
    · exact bind (dropString _ htu) fun _ _ hdrop => check hdrop
    · exact withLead hcollapse rfl habs
  obtain ⟨rfl, rfl⟩ | ⟨t, u, rfl, rfl, htu⟩ | ⟨t, t', ts, u, u', us, rfl, rfl, htu, hmore⟩ :=
    cases_of_bare h
  · exact hmany [] [] rfl
  · exact pure htu
  · exact hmany _ _ h

theorem factorFirst (hcollapse : Uniform around collapse) {lead lead' : Option Tree}
    (hlead : lead'.map Tree.bare = lead.map Tree.bare) (h : us.map Tree.bare = ts.map Tree.bare) :
    Agree around Tree.bare (factorFirst collapse (lead, ts))
      (factorFirst collapse (lead', us)) := by
  obtain ⟨rfl, rfl⟩ | ⟨t, u, rfl, rfl, htu⟩ | ⟨t, t', ts, u, u', us, rfl, rfl, htu, hmore⟩ :=
    cases_of_bare h
  · cases lead <;> cases lead' <;> exact pure rfl
  · cases lead <;> cases lead' <;> exact pure htu
  · cases lead with
    | none =>
      obtain rfl := Option.map_eq_none_iff.1 hlead
      exact pure htu
    | some lead =>
      obtain ⟨lead', rfl, hbare⟩ := Option.map_eq_some_iff.1 hlead
      refine bind (dropFirst true htu) fun a b hab => bind (check hab) fun first first' hfirst =>
        bind (mapM Tree.bare Tree.bare (fun t u htu => ?_) hmore) fun as bs habs => ?_
      · exact bind (dropFirst false htu) fun _ _ hdrop => check hdrop
      · refine withLead hcollapse hbare ?_
        rw [List.map_cons, List.map_cons, hfirst, habs]

theorem mergeSingles (single : Bool) (h : us.map Tree.bare = ts.map Tree.bare) :
    Agree around (List.map Tree.bare) (mergeSingles (single, ts)) (mergeSingles (single, us)) := by
  obtain ⟨rfl, rfl⟩ | ⟨t, u, rfl, rfl, htu⟩ | ⟨t, t', ts, u, u', us, rfl, rfl, htu, hmore⟩ :=
    cases_of_bare h
  · cases single <;> exact pure rfl
  · cases single <;> exact pure h
  · cases single with
    | false => exact pure h
    | true =>
      rw [mergeSingles_cons, mergeSingles_cons]
      have hwidest : ((widest u (u :: u' :: us)).1.bare, (widest u (u :: u' :: us)).2.map Tree.bare) =
          ((widest t (t :: t' :: ts)).1.bare, (widest t (t :: t' :: ts)).2.map Tree.bare) := by
        rw [← widest_bare, ← widest_bare, htu, h]
      obtain ⟨hinto, hothers⟩ := Prod.mk.inj hwidest
      refine bind (forM Tree.bare (fun _ _ _ => release _ _) hothers) fun _ _ _ => pure ?_
      rw [List.map_singleton, List.map_singleton, Tree.bare_leaf, Tree.bare_leaf,
        ← absorbed_bare, hinto, hothers, absorbed_bare]

theorem factor (hcollapse : Uniform around collapse) (h : us.map Tree.bare = ts.map Tree.bare) :
    Agree around (List.map Tree.bare) (factor collapse ts) (factor collapse us) := by
  refine bind (mapM (fun chunk : (List Nat × Bool) × List Tree => (chunk.1, chunk.2.map Tree.bare))
    Tree.bare (fun a b hab => ?_) ?_) fun ts us h => bind (mapM
      (fun chunk : Option Tree × List Tree => (chunk.1.map Tree.bare, chunk.2.map Tree.bare))
      Tree.bare (fun a b hab => ?_) ?_) fun ts us h => bind (mapM
        (fun chunk : Bool × List Tree => (chunk.1, chunk.2.map Tree.bare))
        (List.map Tree.bare) (fun a b hab => ?_) ?_) fun ts us h => pure ?_
  · obtain ⟨hshared, hitems⟩ := Prod.ext_iff.1 hab
    obtain ⟨shared, items⟩ := a
    obtain ⟨shared', items'⟩ := b
    obtain rfl : shared' = shared := hshared
    exact factorString hcollapse shared' hitems
  · rw [← byString_bare, ← byString_bare, h]
  · obtain ⟨hlead, hitems⟩ := Prod.ext_iff.1 hab
    exact factorFirst hcollapse hlead hitems
  · rw [← byFirst_bare, ← byFirst_bare, h]
  · obtain ⟨hsingle, hitems⟩ := Prod.ext_iff.1 hab
    obtain ⟨single, items⟩ := a
    obtain ⟨single', items'⟩ := b
    obtain rfl : single' = single := hsingle
    exact mergeSingles single' hitems
  · rw [← bySingle_bare, ← bySingle_bare, h]
  · rw [← dropEmpties_bare, ← dropEmpties_bare, List.map_flatten, List.map_flatten, h]

end

theorem flatten (kind : Join) (h : us.map Tree.bare = ts.map Tree.bare) :
    Agree around (List.map Tree.bare) (flatten kind ts) (flatten kind us) := by
  refine bind (mapM Tree.bare (List.map Tree.bare) (fun t u htu => ?_) h) fun as bs habs => pure ?_
  · cases t with
    | leaf size content =>
      obtain ⟨size', rfl⟩ := Tree.bare_eq_leaf htu
      exact pure rfl
    | wrap size height kind' item =>
      obtain ⟨_, _, _, rfl, _⟩ := Tree.bare_eq_wrap htu
      refine pure ?_
      rw [List.map_cons, htu]
      rfl
    | join size height kind' items =>
      have hjoin := htu
      rw [Tree.bare_join] at hjoin
      obtain ⟨size', height', items', rfl, hitems⟩ := Tree.bare_eq_join hjoin
      refine ite (bind (release _ _) fun _ _ _ => pure hitems) (pure ?_)
      rw [List.map_cons, htu]
      rfl
  · rw [List.map_flatten, habs, List.map_flatten]

theorem alternativeWith (fuel : Nat) : Uniform around (alternativeWith fuel) := by
  induction fuel with
  | zero =>
    intro ts us h
    refine bind node fun size size' _ => pure ?_
    rw [Tree.bare_joined, Tree.bare_joined, h]
  | succ fuel ih =>
    intro ts us h
    refine bind node fun size size' _ => bind (flatten .alt h) fun as bs habs =>
      bind (factor ih habs) fun as bs habs => ?_
    obtain ⟨rfl, rfl⟩ | ⟨t, u, rfl, rfl, htu⟩ | ⟨t, t', ts, u, u', us, rfl, rfl, htu, hmore⟩ :=
      cases_of_bare habs
    · exact pure rfl
    · exact bind (release _ _) fun _ _ _ => pure htu
    · refine pure ?_
      rw [Tree.bare_joined, Tree.bare_joined, habs]

theorem alternative : Uniform around alternative := by
  intro ts us h
  have hweight : Tree.weightOf us = Tree.weightOf ts := by
    rw [← Tree.weightOf_bareAll us, ← Tree.weightOf_bareAll ts, Tree.bareAll_eq_map,
      Tree.bareAll_eq_map, h]
  have hmany : Agree around Tree.bare (Build.alternativeWith (Tree.weightOf ts) ts)
      (Build.alternativeWith (Tree.weightOf ts) us) := alternativeWith _ h
  obtain ⟨rfl, rfl⟩ | ⟨t, u, rfl, rfl, htu⟩ | ⟨t, t', ts, u, u', us, rfl, rfl, htu, hmore⟩ :=
    cases_of_bare h
  · exact hmany
  · exact pure htu
  · simp only [Build.alternative, hweight]
    exact hmany

theorem sequence : Uniform around sequence := by
  intro ts us h
  have hmany : Agree around Tree.bare
      (do let size ← Build.node; return .joined size .seq (← Build.flatten .seq ts))
      (do let size ← Build.node; return .joined size .seq (← Build.flatten .seq us)) := by
    refine bind node fun size size' _ => bind (flatten .seq h) fun as bs habs => pure ?_
    rw [Tree.bare_joined, Tree.bare_joined, habs]
  obtain ⟨rfl, rfl⟩ | ⟨t, u, rfl, rfl, htu⟩ | ⟨t, t', ts, u, u', us, rfl, rfl, htu, hmore⟩ :=
    cases_of_bare h
  · exact hmany
  · exact pure htu
  · exact hmany

theorem endSequence : Agree around (fun _ => ()) endSequence endSequence := by
  refine bind (discard (joinStrings none)) fun _ _ _ => look fun r q hrq =>
    bind (setPieces rfl) fun _ _ _ => ?_
  have hpieces : q.current.pieces.reverse.map Tree.bare = r.current.pieces.reverse.map Tree.bare := by
    rw [List.map_reverse, List.map_reverse, hrq.pieces]
  have hempty : q.current.pieces.reverse.isEmpty = r.current.pieces.reverse.isEmpty := by
    rw [← List.isEmpty_map, hpieces, List.isEmpty_map]
  rw [hempty]
  exact ite (pushLeaf .empty) (bind (sequence hpieces) fun _ _ htu => push htu)

theorem addBranch (h : u.bare = t.bare) :
    Agree around (fun _ => ()) (addBranch t) (addBranch u) := by
  have hset {ts us : List Tree} (h : us.map Tree.bare = ts.map Tree.bare) :
      Agree around (fun _ => ()) (Build.addBranch.setBranches ts) (Build.addBranch.setBranches us) :=
    modify (fun _ _ hrq => hrq.setGroup h rfl) fun _ => rfl
  refine look fun r q hrq => ?_
  have hbranches := hrq.branches
  generalize r.current.branches = ts at hbranches ⊢
  generalize q.current.branches = us at hbranches ⊢
  cases ts with
  | nil =>
    obtain rfl := List.map_eq_nil_iff.1 hbranches
    refine hset ?_
    rw [List.map_singleton, List.map_singleton, h]
  | cons last ts =>
    obtain ⟨last', us, rfl, hlast, hrest⟩ := List.map_eq_cons_iff.1 hbranches
    have hsingle : (u.isSingle && last'.isSingle) = (t.isSingle && last.isSingle) := by
      rw [← Tree.isSingle_bare u, ← Tree.isSingle_bare last', h, hlast, Tree.isSingle_bare,
        Tree.isSingle_bare]
    have hcontent : u.content = t.content := by
      rw [← Tree.content_bare, h, Tree.content_bare]
    have hlastContent : last'.content = last.content := by
      rw [← Tree.content_bare, hlast, Tree.content_bare]
    have hjoin (into into' other other' : Tree) (hi : into'.content = into.content)
        (ho : other'.content = other.content) :
        Agree around (fun _ => ())
          (do
            Build.addBranch.setBranches (.leaf into.size? (into.content.absorb other.content) :: ts)
            Build.release other.size?)
          (do
            Build.addBranch.setBranches
              (.leaf into'.size? (into'.content.absorb other'.content) :: us)
            Build.release other'.size?) := by
      refine bind (hset ?_) fun _ _ _ => release _ _
      rw [List.map_cons, List.map_cons, Tree.bare_leaf, Tree.bare_leaf, hi, ho, hrest]
    dsimp only
    rw [hsingle, hcontent, hlastContent]
    refine ite ?_ (hset ?_)
    · split
      · exact hjoin _ _ _ _ hcontent hlastContent
      · exact hjoin _ _ _ _ hlastContent hcontent
    · simp only [List.map_cons, h, hrest, Tree.bare_tidy, hlast]

private theorem addLastPiece : Agree around (fun _ => ())
    (do match (← get).current.pieces with
      | branch :: _ => Build.addBranch branch
      | [] => return)
    (do match (← get).current.pieces with
      | branch :: _ => Build.addBranch branch
      | [] => return) := by
  refine look fun r q hrq => ?_
  have hpieces := hrq.pieces
  generalize r.current.pieces = ts at hpieces ⊢
  generalize q.current.pieces = us at hpieces ⊢
  cases ts with
  | nil =>
    obtain rfl := List.map_eq_nil_iff.1 hpieces
    exact pure rfl
  | cons branch ts =>
    obtain ⟨branch', us, rfl, hbranch, -⟩ := List.map_eq_cons_iff.1 hpieces
    exact addBranch hbranch

theorem endBranch : Agree around (fun _ => ()) endBranch endBranch := by
  refine bind endSequence fun _ _ _ => look fun r q hrq => ?_
  have hempty : q.current.branches.isEmpty = r.current.branches.isEmpty := by
    rw [← List.isEmpty_map, hrq.branches, List.isEmpty_map]
  dsimp only
  rw [hempty]
  exact ite (bind node fun _ _ _ => bind (discard (check rfl)) fun _ _ _ => addLastPiece) addLastPiece

theorem endGroup : Agree around (fun _ => ()) endGroup endGroup := by
  refine bind endSequence fun _ _ _ => look fun r q hrq => ?_
  have hpieces := hrq.pieces
  dsimp only
  generalize r.current.pieces = ts at hpieces ⊢
  generalize q.current.pieces = us at hpieces ⊢
  cases ts with
  | nil =>
    obtain rfl := List.map_eq_nil_iff.1 hpieces
    exact pure rfl
  | cons branch ts =>
    obtain ⟨branch', us, rfl, hbranch, -⟩ := List.map_eq_cons_iff.1 hpieces
    refine bind (addBranch hbranch) fun _ _ _ => look fun r q hrq => ?_
    refine bind (modify (fun _ _ hrq => hrq.setGroup rfl rfl) fun _ => rfl) fun _ _ _ => ?_
    refine bind (alternative ?_) fun _ _ htu => push htu
    have hbranches := hrq.branches
    generalize r.current.branches = ts at hbranches ⊢
    generalize q.current.branches = us at hbranches ⊢
    cases ts with
    | nil =>
      obtain rfl := List.map_eq_nil_iff.1 hbranches
      rfl
    | cons last ts =>
      obtain ⟨last', us, rfl, hlast, hrest⟩ := List.map_eq_cons_iff.1 hbranches
      simp only [List.map_reverse, List.map_cons, Tree.bare_tidy, hlast, hrest]

theorem repeatPiece (kind : Wrap) (h : u.bare = t.bare)
    (hpieces : us.map Tree.bare = ts.map Tree.bare) :
    Agree around (fun _ => ()) (repeatPiece kind t ts) (repeatPiece kind u us) := by
  refine bind node fun size size' _ => ?_
  have hrepeated : (Tree.inside size' kind u).bare = (Tree.inside size kind t).bare := by
    rw [Tree.bare_inside, Tree.bare_inside, h]
  refine bind (setPieces ?_) fun _ _ _ => bind (check hrepeated) fun a b hab =>
    look fun r q hrq => setPieces ?_
  · rw [List.map_cons, List.map_cons, hrepeated, hpieces]
  · rw [List.map_cons, List.map_cons, List.map_drop, List.map_drop, hab, hrq.pieces]

end Agree

end PegMachine.Regex.Build
