import PegMachine.Pattern
import PegMachine.Proofs.Regex.Items

namespace PegMachine.Regex

namespace Tree

/-- The character that an expression is written as where it is added to others. -/
def asCharacter? : Tree → Option (Nat × Bool)
  | .leaf _ (.members cls) => Build.character? cls
  | _ => none

theorem asCharacter?_bare (t : Tree) : t.bare.asCharacter? = t.asCharacter? := by
  cases t with
  | leaf size content => cases content <;> rfl
  | wrap => rfl
  | join => rfl

/-- The parts that an expression has when it is joined to others. -/
def parts (kind : Join) (t : Tree) : List Tree :=
  match t with
  | .join _ _ inner items => if inner = kind then items else [t]
  | t => [t]

theorem parts_leaf (kind : Join) (size : Option Nat) (content : Leaf) :
    (Tree.leaf size content).parts kind = [.leaf size content] := rfl

theorem parts_bare (kind : Join) (t : Tree) :
    t.bare.parts kind = (t.parts kind).map bare := by
  cases t with
  | leaf => rfl
  | wrap => rfl
  | join size height inner items =>
    simp only [parts, bare_join]
    split
    · rfl
    · rw [List.map_singleton, bare_join]

end Tree

private theorem Tree.flatMap_parts_bare (kind : Join) (ts : List Tree) :
    (ts.flatMap (parts kind)).map bare = (ts.map bare).flatMap (parts kind) := by
  rw [List.map_flatMap, List.flatMap_map]
  simp only [parts_bare]

namespace Build

variable {r r' : Reading} {t : Tree}

/-- The last two pieces are no strings that could become one. -/
def Apart (pieces : List Tree) : Prop := ∀ last size a b f g rest,
  pieces ≠ .leaf last (.string a f) :: .leaf size (.string b g) :: rest

theorem apart_nil : Apart [] := by
  intro last size a b f g rest h
  cases h

theorem Apart.of_bare {ts us : List Tree} (h : us.map Tree.bare = ts.map Tree.bare)
    (hts : Apart ts) : Apart us := by
  intro last size a b f g rest hus
  obtain ⟨_, _, _, heq, -⟩ := strings_of_bare h.symm hus
  exact hts _ _ _ _ _ _ _ heq

theorem joinStrings_apart (h : Apart r.current.pieces) (next : Option (Nat × Flags)) :
    joinStrings next r = .ok (false, r) := by
  have hlook (k : Reading → Build Bool) : (get >>= k) r = k r r := rfl
  rw [joinStrings, hlook]
  generalize r.current.pieces = pieces at h ⊢
  split
  · exact absurd rfl (h _ _ _ _ _ _ _)
  · rfl

theorem bind_of_ok {α β : Type} {f : Build α} {k : α → Build β} {a : α}
    (h : f r = .ok (a, r')) : (f >>= k) r = k a r' := by
  change (f r >>= fun found => k found.1 found.2) = k a r'
  rw [h]
  rfl

theorem discard_joinStrings_apart (h : Apart r.current.pieces) (next : Option (Nat × Flags)) :
    (discard (joinStrings next) : Build Unit) r = .ok ((), r) := by
  change (joinStrings next >>= fun _ => pure ()) r = .ok ((), r)
  rw [bind_of_ok (joinStrings_apart h next)]
  rfl

theorem append_same (h : append t r = .ok ((), r')) :
    Reading.Same { r with current.pieces := t :: r.current.pieces } r' := by
  obtain ⟨t', m, hcheck, h⟩ := exists_of_bind h
  obtain ⟨ht, hsame⟩ := check_same hcheck
  cases h
  refine hsame.setGroup hsame.branches ?_
  rw [List.map_cons, List.map_cons, ht, hsame.pieces]

/-- What is added to pieces that are apart is no class that stands for a character, and it is the
same if it was none. -/
theorem push_same (hapart : Apart r.current.pieces) (h : push t r = .ok ((), r')) :
    ∃ t', t'.asCharacter? = none ∧ (t.asCharacter? = none → t' = t) ∧
      Reading.Same { r with current.pieces := t' :: r.current.pieces } r' := by
  obtain ⟨_, m, hmodify, h⟩ := exists_of_bind h
  have hflags : m.flags = r.flags := by cases hmodify; rfl
  have hcurrent : m.current = r.current := by cases hmodify; rfl
  have henclosing : m.enclosing = r.enclosing := by cases hmodify; rfl
  have happend {t' : Tree} (h : append t' m = .ok ((), r')) :
      Reading.Same { r with current.pieces := t' :: r.current.pieces } r' := by
    obtain ⟨hf, hc, he⟩ := append_same h
    exact ⟨hf.trans hflags, by rw [hc, hcurrent], by rw [he, henclosing]⟩
  rw [← hcurrent] at hapart
  have hother (h : (discard (joinStrings none) >>= fun _ => append t) m = .ok ((), r')) :
      Reading.Same { r with current.pieces := t :: r.current.pieces } r' := by
    rw [bind_of_ok (discard_joinStrings_apart hapart none)] at h
    exact happend h
  cases t with
  | leaf size content =>
    cases content with
    | members cls =>
      dsimp only at h
      cases hc : character? cls with
      | some found =>
        obtain ⟨c, fold⟩ := found
        simp only [hc] at h
        obtain ⟨_, _, hget, h⟩ := exists_of_bind h
        cases hget
        rw [bind_of_ok (joinStrings_apart hapart _)] at h
        refine ⟨.leaf size (.string [c] _), rfl, fun hnone => ?_, happend h⟩
        cases hc.symm.trans hnone
      | none =>
        simp only [hc] at h
        exact ⟨.leaf size (.members cls), hc, fun _ => rfl, hother h⟩
    | _ => exact ⟨_, rfl, fun _ => rfl, hother h⟩
  | wrap => exact ⟨_, rfl, fun _ => rfl, hother h⟩
  | join => exact ⟨_, rfl, fun _ => rfl, hother h⟩

private theorem mapM_same {α β : Type} {f : α → Build β} {g : α → β}
    (hf : ∀ a r b r', f a r = .ok (b, r') → b = g a ∧ r.Same r') {as : List α} {bs : List β}
    (h : as.mapM f r = .ok (bs, r')) : bs = as.map g ∧ r.Same r' := by
  induction as generalizing bs r with
  | nil =>
    cases h
    exact ⟨rfl, .refl _⟩
  | cons a as ih =>
    rw [List.mapM_cons] at h
    obtain ⟨b, m, hb, h⟩ := exists_of_bind h
    obtain ⟨bs', m', hbs, h⟩ := exists_of_bind h
    cases h
    obtain ⟨rfl, hm⟩ := hf a r b m hb
    obtain ⟨rfl, hm'⟩ := ih hbs
    exact ⟨rfl, hm.trans hm'⟩

private theorem flatten_same
    {kind : Join} {ts parts : List Tree} (h : flatten kind ts r = .ok (parts, r')) :
    parts = ts.flatMap (Tree.parts kind) ∧ r.Same r' := by
  obtain ⟨lists, m, hlists, h⟩ := exists_of_bind h
  cases h
  rw [List.flatMap_def]
  refine (mapM_same (fun t r b r' h => ?_) hlists).imp_left (congrArg List.flatten)
  cases t with
  | leaf =>
    cases h
    exact ⟨rfl, .refl r⟩
  | wrap =>
    cases h
    exact ⟨rfl, .refl r⟩
  | join size height inner items =>
    dsimp only [Tree.parts] at h ⊢
    split at h
    · next hkind =>
      obtain ⟨_, _, hrelease, h⟩ := exists_of_bind h
      cases hrelease
      cases h
      rw [if_pos hkind]
      exact ⟨rfl, rfl, rfl, rfl⟩
    · next hkind =>
      cases h
      rw [if_neg hkind]
      exact ⟨rfl, .refl r⟩

/-- The sequence of several pieces. -/
theorem endSequence_same {first second : Tree} {rest : List Tree}
    (hapart : Apart r.current.pieces)
    (hpieces : r.current.pieces.reverse = first :: second :: rest)
    (h : endSequence r = .ok ((), r')) : ∃ t,
    t.bare = .join none 0 .seq
        (((first :: second :: rest).flatMap (Tree.parts .seq)).map Tree.bare) ∧
      Reading.Same { r with current.pieces := [t] } r' := by
  unfold endSequence at h
  rw [bind_of_ok (discard_joinStrings_apart hapart none)] at h
  obtain ⟨_, _, hget, h⟩ := exists_of_bind h
  cases hget
  obtain ⟨_, m, hset, h⟩ := exists_of_bind h
  rw [hpieces] at h
  obtain ⟨t, m', hsequence, h⟩ := exists_of_bind h
  obtain ⟨size, m₁, hnode, hsequence⟩ := exists_of_bind hsequence
  obtain ⟨parts, m₂, hflatten, hsequence⟩ := exists_of_bind hsequence
  obtain ⟨rfl, hflat⟩ := flatten_same hflatten
  cases hsequence
  have hm : Reading.Same { r with current.pieces := [] } m' := by
    cases hset
    exact (node_same hnode).trans hflat
  have hempty : m'.current.pieces = [] := List.map_eq_nil_iff.1 hm.pieces
  obtain ⟨t', -, ht, hpush⟩ := push_same (hempty ▸ apart_nil) h
  obtain rfl := ht rfl
  refine ⟨_, Tree.bare_joined size .seq _, (hm.setGroup hm.branches ?_).trans hpush⟩
  rw [hempty]

/-- Several pieces are made into one when the group they are in ends. -/
theorem endGroup_same {first second : Tree} {rest : List Tree} (hapart : Apart r.current.pieces)
    (hbranches : r.current.branches = [])
    (hpieces : r.current.pieces.reverse = first :: second :: rest)
    (h : endGroup r = .ok ((), r')) : ∃ t,
    t.bare = .join none 0 .seq
        (((first :: second :: rest).flatMap (Tree.parts .seq)).map Tree.bare) ∧
      Reading.Same { r with current := { r.current with branches := [], pieces := [t] } } r' := by
  obtain ⟨_, m, hsequence, h⟩ := exists_of_bind h
  obtain ⟨t, ht, hm⟩ := endSequence_same hapart hpieces hsequence
  obtain ⟨branch, pieces, hmpieces, hbranch, -⟩ := List.map_eq_cons_iff.1 hm.pieces
  have hmbranches : m.current.branches = [] := by
    have hbare := hm.branches
    dsimp only at hbare
    rw [hbranches] at hbare
    exact List.map_eq_nil_iff.1 hbare
  obtain ⟨_, _, hget, h⟩ := exists_of_bind h
  cases hget
  dsimp only at h
  rw [hmpieces] at h
  obtain ⟨_, m₁, hadd, h⟩ := exists_of_bind h
  obtain ⟨_, _, hget, hadd⟩ := exists_of_bind hadd
  cases hget
  rw [hmbranches] at hadd
  cases hadd
  obtain ⟨_, _, hget, h⟩ := exists_of_bind h
  cases hget
  obtain ⟨_, m₂, hmodify, h⟩ := exists_of_bind h
  obtain ⟨last, m₃, halternative, h⟩ := exists_of_bind h
  cases halternative
  cases hmodify
  rw [ht] at hbranch
  obtain ⟨size, height, items, rfl, -⟩ := Tree.bare_eq_join hbranch
  obtain ⟨t', -, ht', hpush⟩ := push_same apart_nil h
  obtain rfl := ht' rfl
  exact ⟨_, hbranch, (hm.setGroup rfl rfl).trans hpush⟩

private theorem joinStrings_true {c : Nat} {flags : Flags}
    (h : joinStrings (some (c, flags)) r = .ok (true, r')) :
    ∃ last ps, r'.current.pieces = .leaf last (.string [c] flags) :: ps := by
  obtain ⟨_, _, hget, h⟩ := exists_of_bind h
  cases hget
  generalize hnext : some (c, flags) = next at h
  generalize r.current.pieces = pieces at h
  split at h
  · subst hnext
    split at h
    · cases h
    · cases h
      exact ⟨_, _, rfl⟩
  · cases h

/-- What was added last is no class that stands for a character. -/
theorem push_head (h : push t r = .ok ((), r')) :
    ∃ p ps, r'.current.pieces = p :: ps ∧ p.asCharacter? = none := by
  have happend {t : Tree} {m : Reading} (ht : t.asCharacter? = none)
      (h : append t m = .ok ((), r')) :
      ∃ p ps, r'.current.pieces = p :: ps ∧ p.asCharacter? = none := by
    obtain ⟨p, ps, hlast, hp, -⟩ := List.map_eq_cons_iff.1 (append_same h).pieces
    exact ⟨p, ps, hlast, by rw [← Tree.asCharacter?_bare, hp, Tree.asCharacter?_bare, ht]⟩
  obtain ⟨_, m, -, h⟩ := exists_of_bind h
  have hother (ht : t.asCharacter? = none)
      (h : (discard (joinStrings none) >>= fun _ => append t) m = .ok ((), r')) :
      ∃ p ps, r'.current.pieces = p :: ps ∧ p.asCharacter? = none := by
    obtain ⟨_, _, -, h⟩ := exists_of_bind h
    exact happend ht h
  cases t with
  | leaf size content =>
    cases content with
    | members cls =>
      dsimp only at h
      cases hc : character? cls with
      | some found =>
        obtain ⟨c, fold⟩ := found
        simp only [hc] at h
        obtain ⟨_, _, -, h⟩ := exists_of_bind h
        obtain ⟨done, m', hjoin, h⟩ := exists_of_bind h
        cases done with
        | true =>
          cases h
          obtain ⟨last, ps, hlast⟩ := joinStrings_true hjoin
          exact ⟨_, ps, hlast, rfl⟩
        | false => exact happend rfl h
      | none =>
        simp only [hc] at h
        exact hother hc h
    | _ => exact hother rfl h
  | wrap => exact hother rfl h
  | join => exact hother rfl h

private theorem endGroup_head {ps : List Tree} (h : endGroup r = .ok ((), r'))
    (hpieces : r'.current.pieces = t :: ps) : t.asCharacter? = none := by
  obtain ⟨_, m, -, h⟩ := exists_of_bind h
  obtain ⟨_, _, hget, h⟩ := exists_of_bind h
  cases hget
  dsimp only at h
  cases hm : m.current.pieces with
  | nil =>
    rw [hm] at h
    cases h
    cases hm.symm.trans hpieces
  | cons branch pieces =>
    rw [hm] at h
    obtain ⟨_, _, -, h⟩ := exists_of_bind h
    obtain ⟨_, _, -, h⟩ := exists_of_bind h
    obtain ⟨_, _, -, h⟩ := exists_of_bind h
    obtain ⟨_, _, -, h⟩ := exists_of_bind h
    obtain ⟨p, ps', hlast, hp⟩ := push_head h
    cases hlast.symm.trans hpieces
    exact hp

end Build

section

variable {around : List Group} {r q r' q' : Reading} {whole whole' text x : Bytes}

/-- All items of an expression that can be read by itself are read in the same way in a larger one,
unless a quotation swallows the rest of that. -/
theorem items_follows {n m : Nat} (h : Inside around r q) (hx : Closing x) (hn : text.length ≤ n)
    (hm : text.length + x.length ≤ m) (hr : items whole n r text = .ok r')
    (hq : items whole' m q (text ++ x) = .ok q') :
    (∃ q₁ k, Inside around r' q₁ ∧ x.length ≤ k ∧ items whole' k q₁ x = .ok q') ∨
      around.length ≤ q'.enclosing.length := by
  induction n generalizing r q text m with
  | zero =>
    obtain rfl := List.length_eq_zero_iff.1 (Nat.le_zero.1 hn)
    cases hr
    exact .inl ⟨q, m, h, by simpa using hm, hq⟩
  | succ n ih =>
    cases text with
    | nil =>
      cases hr
      exact .inl ⟨q, m, h, by simpa using hm, hq⟩
    | cons b text =>
      cases m with
      | zero => simp at hm
      | succ m =>
        obtain ⟨found, hfound, hr⟩ := exists_of_bind hr
        obtain ⟨found', hfound', hq⟩ := exists_of_bind hq
        simp only [List.length_cons] at hn hm
        obtain hfollows | hall := item_follows h hx hfound hfound'
        · have hlength := hfollows.suffix.length_le
          have hn' : found.2.length ≤ n := by omega
          have hm' : found.2.length + x.length ≤ m := by omega
          refine ih hfollows.inside hn' hm' hr ?_
          rw [← hfollows.rest]
          exact hq
        · dsimp only at hq
          rw [hall.all] at hq
          have hq : found'.1 = q' := by
            cases m <;> exact Except.ok.inj hq
          have henclosing := congrArg List.length h.alike.enclosing
          rw [List.length_map, List.length_append, List.length_map, List.length_map] at henclosing
          refine .inr ?_
          rw [← hq, hall.level]
          omega

/-- The group around the source of a pattern, which is at the start of the text. -/
def aroundSource : Group := { pieces := [.leaf none (.look .textStart)] }

/-- Where reading a form of a pattern stands before the source. -/
def atSource : Reading := { enclosing := [aroundSource], usage := { nodes := 2 } }

private theorem items_atSource (whole text : Bytes) (n : Nat) :
    items whole (n + 2) {} ("^(?:" ++ text) = items whole n atSource text := rfl

private theorem inside_atSource : Inside [aroundSource] {} atSource := ⟨⟨rfl, rfl, rfl⟩, rfl⟩

theorem apart_second {p : Tree} {size : Option Nat} {anchor : Anchor} {rest : List Tree} :
    Build.Apart (p :: .leaf size (.look anchor) :: rest) := by
  intro last size' a b f g rest' h
  cases h

theorem apart_first {size : Option Nat} {anchor : Anchor} {rest : List Tree} :
    Build.Apart (.leaf size (.look anchor) :: rest) := by
  intro last size' a b f g rest' h
  cases h

/-- The group that holds the source becomes a piece after the start of the text. -/
theorem closeGroup_source {t : Tree} {ps : List Tree} (h : Inside [aroundSource] r q)
    (hr : advanceBy whole Build.endGroup r = .ok r') (hnone : r'.enclosing = [])
    (hpieces : r'.current.pieces = t :: ps) (hq : closeGroup whole' q = .ok q') :
    Reading.Same { current := { pieces := [t, .leaf none (.look .textStart)] } } q' := by
  obtain ⟨q₁, outer, enclosing, item, pieces, hq₁, hqenclosing, hqpieces, hpush⟩ :=
    closeGroup_ok hq
  have h₁ := h.advance (.of_agree .endGroup) hr hq₁
  -- the group is not a capturing one, and its end brings back the usual flags
  have hbase := h₁.base
  rw [Reading.openings, hnone] at hbase
  obtain ⟨hrestore, hcaptures⟩ := Prod.mk.inj (Option.some.inj hbase)
  have hitem := h₁.alike.pieces
  rw [hpieces, hqpieces, List.map_cons, List.map_cons] at hitem
  obtain ⟨hitem, -⟩ := List.cons.inj hitem
  have houter := h₁.alike.enclosing
  rw [hnone, hqenclosing] at houter
  obtain ⟨houter, henclosing⟩ := List.cons.inj houter
  obtain ⟨first, rest, hfirst, hstart, hrest⟩ :=
    List.map_eq_cons_iff.1 (congrArg Group.pieces houter)
  obtain ⟨size, rfl⟩ := Tree.bare_eq_leaf hstart
  have hapart : Build.Apart outer.pieces := by
    rw [hfirst]
    exact apart_first
  have hpush := Reading.run_of_advanceBy hpush
  rw [h₁.alike.captures, hcaptures, if_neg Bool.false_ne_true] at hpush
  obtain ⟨t', -, ht', hsame⟩ := Build.push_same hapart hpush
  have hplain : item.asCharacter? = none := by
    rw [← Tree.asCharacter?_bare, hitem, Tree.asCharacter?_bare]
    exact Build.endGroup_head (Reading.run_of_advanceBy hr) hpieces
  obtain rfl := ht' hplain
  refine Reading.Same.trans ⟨h₁.alike.restore.trans hrestore, ?_, henclosing⟩ hsame
  have hpiecesBare : (t' :: outer.pieces).map Tree.bare =
      [t.bare, .leaf none (.look .textStart)] := by
    rw [List.map_cons, hitem]
    exact congrArg _ (congrArg Group.pieces houter)
  obtain ⟨hr, hc, hb, -⟩ := Group.mk.inj houter
  simp only [Group.bare, hr, hc, hb, hpiecesBare]
  rfl

private theorem readTree_ok {t : Tree} (h : readTree text = .ok t) : ∃ r r' ps,
    items text text.length {} text = .ok r ∧ advanceBy text Build.endGroup r = .ok r' ∧
      r'.enclosing = [] ∧ r'.current.pieces = t :: ps := by
  obtain ⟨r, hr, h⟩ := exists_of_bind h
  obtain ⟨r', hr', h⟩ := exists_of_bind h
  split at h
  · next henclosing hpieces =>
    cases h
    exact ⟨r, r', _, hr, hr', henclosing, hpieces⟩
  · cases h

/-- When the source of a pattern was read, its group is still open, and it becomes a piece after the
start of the text where it closes. -/
theorem readTree_wrapped {source : Bytes} {t T : Tree} (hx : Closing x)
    (halone : readTree source = .ok t) (h : readTree ("^(?:" ++ source ++ x) = .ok T) :
    ∃ q k q' last qs, x.length ≤ k ∧
      (∀ q₁, closeGroup ("^(?:" ++ source ++ x) { q with lastRepeat := none } = .ok q₁ →
        Reading.Same { current := { pieces := [t, .leaf none (.look .textStart)] } } q₁) ∧
      items ("^(?:" ++ source ++ x) k q x = .ok q' ∧
      Build.endGroup q' = .ok ((), last) ∧ last.current.pieces = T :: qs := by
  obtain ⟨r, r', ps, hr, hr', hnone, hpieces⟩ := readTree_ok halone
  obtain ⟨q', last, qs, hq, hlast, hall, hqs⟩ := readTree_ok h
  have hlength : ("^(?:" ++ source ++ x).length = source.length + x.length + 2 + 2 := by
    have hopening : ("^(?:" : Bytes).length = 4 := by decide
    simp only [List.length_append, hopening]
    omega
  rw [hlength, List.append_assoc, items_atSource, ← List.append_assoc] at hq
  obtain ⟨q₁, k, hinside, hk, hrest⟩ | hopen :=
    items_follows inside_atSource hx (Nat.le_refl _) (by omega) hr hq
  · refine ⟨q₁, k, q', last, qs, hk, fun q₂ hclose => ?_, hrest, Reading.run_of_advanceBy hlast,
      hqs⟩
    exact closeGroup_source (hinside.setRepeat _ none) hr' hnone hpieces hclose
  · -- a quotation that swallows the closing leaves the group of the source open
    have hlevel := level_of_advance .endGroup hlast
    rw [hall, List.length_nil] at hlevel
    rw [← hlevel] at hopen
    exact absurd hopen (by decide)

end

/-- The tree of an expression that was read up to its end. -/
theorem bare_of_endGroup {items qs : List Tree} {first second T : Tree} {rest : List Tree}
    {q last : Reading} (h : Reading.Same { current := { pieces := items } } q)
    (hapart : Build.Apart items) (hitems : items.reverse = first :: second :: rest)
    (hlast : Build.endGroup q = .ok ((), last)) (hqs : last.current.pieces = T :: qs) :
    T.bare = .join none 0 .seq
      (((first :: second :: rest).map Tree.bare).flatMap (Tree.parts .seq)) := by
  have hbranches : q.current.branches = [] := List.map_eq_nil_iff.1 h.branches
  have hreverse : q.current.pieces.reverse.map Tree.bare =
      (first :: second :: rest).map Tree.bare := by
    rw [← hitems, List.map_reverse, List.map_reverse, h.pieces]
  obtain ⟨first', more, hpieces, -, hmore⟩ := List.map_eq_cons_iff.1 hreverse
  obtain ⟨second', rest', rfl, -, -⟩ := List.map_eq_cons_iff.1 hmore
  obtain ⟨t, ht, hsame⟩ :=
    Build.endGroup_same (hapart.of_bare h.pieces) hbranches hpieces hlast
  have hT := hsame.pieces
  rw [hqs] at hT
  rw [(List.cons.inj hT).1, ht, Tree.flatMap_parts_bare, ← hpieces, hreverse]

theorem items_nil {q q' : Reading} {whole : Bytes} {k : Nat} (h : items whole k q [] = .ok q') :
    q = q' := by
  cases k <;> exact Except.ok.inj h

/-- The tree of the form of a pattern that is tied to the start of the text. -/
theorem readTree_atStart {source : Bytes} {t T : Tree} (halone : readTree source = .ok t)
    (h : readTree ("^(?:" ++ source ++ ")") = .ok T) :
    T.bare = .join none 0 .seq (.leaf none (.look .textStart) :: (t.parts .seq).map Tree.bare) := by
  obtain ⟨q, k, q', last, qs, hk, hclose, hitems, hlast, hqs⟩ :=
    readTree_wrapped (.inr (.inl rfl)) halone h
  cases k with
  | zero => exact absurd hk (by decide)
  | succ k =>
    obtain ⟨⟨q₁, rest⟩, hitem, hitems⟩ := exists_of_bind hitems
    obtain ⟨q₂, hq₂, hitem⟩ := exists_of_bind hitem
    cases hitem
    obtain rfl := items_nil hitems
    rw [bare_of_endGroup (hclose _ hq₂) apart_second rfl hlast hqs]
    simp only [List.map_cons, List.map_nil, List.flatMap_cons, List.flatMap_nil, Tree.bare_leaf,
      Tree.parts_leaf, Tree.parts_bare, List.append_nil, List.singleton_append]

/-- The tree of the form of a pattern that is tied to both ends of the text. -/
theorem readTree_whole {source : Bytes} {t T : Tree} (halone : readTree source = .ok t)
    (h : readTree ("^(?:" ++ source ++ ")$") = .ok T) :
    T.bare = .join none 0 .seq (.leaf none (.look .textStart) ::
      ((t.parts .seq).map Tree.bare ++ [.leaf none (.look .textEnd)])) := by
  obtain ⟨q, k, q', last, qs, hk, hclose, hitems, hlast, hqs⟩ :=
    readTree_wrapped (.inr (.inr rfl)) halone h
  match k with
  | 0 => exact absurd hk (by decide)
  | 1 => exact absurd hk (by decide)
  | k + 2 =>
    obtain ⟨⟨q₁, rest⟩, hitem, hitems⟩ := exists_of_bind hitems
    obtain ⟨q₂, hq₂, hitem⟩ := exists_of_bind hitem
    cases hitem
    obtain ⟨⟨q₃, rest⟩, hitem, hitems⟩ := exists_of_bind hitems
    obtain ⟨q₄, hq₄, hitem⟩ := exists_of_bind hitem
    cases hitem
    obtain rfl := items_nil hitems
    have hsame := hclose _ hq₂
    have hlines : q₁.flags.lines = false := congrArg Flags.lines hsame.flags
    have hq₄ := Reading.run_of_advanceBy hq₄
    rw [hlines] at hq₄
    obtain ⟨size, m, hnode, hpush⟩ := Build.exists_of_bind hq₄
    have hplain : q₁.Same { q₁ with lastRepeat := none } := ⟨rfl, rfl, rfl⟩
    have hm : Reading.Same { current := { pieces := [t, .leaf none (.look .textStart)] } } m :=
      (hsame.trans hplain).trans (Build.node_same hnode)
    obtain ⟨p, -, hp, hlast'⟩ := Build.push_same (.of_bare hm.pieces apart_second) hpush
    obtain rfl := hp rfl
    have hform : Reading.Same { current := { pieces := [.leaf none (.look .textEnd), t,
        .leaf none (.look .textStart)] } } q₃ := by
      refine (hm.setGroup hm.branches ?_).trans hlast'
      rw [List.map_cons, hm.pieces]
      rfl
    rw [bare_of_endGroup hform apart_first rfl hlast hqs]
    simp only [List.map_cons, List.map_nil, List.flatMap_cons, List.flatMap_nil, Tree.bare_leaf,
      Tree.parts_leaf, Tree.parts_bare, List.append_nil, List.singleton_append]

end PegMachine.Regex
