import PegMachine.Proofs.Regex.Bare
import PegMachine.Regex.Group

namespace PegMachine.Regex

def Group.bare (g : Group) : Group :=
  { g with branches := g.branches.map Tree.bare, pieces := g.pieces.map Tree.bare }

/-- What a group has from where it was opened. -/
def Group.opening (g : Group) : Flags × Bool := (g.restore, g.captures)

theorem Group.bare_measure (g : Group) : g.measure.bare = g.bare := by
  simp only [bare, measure, List.map_map]
  congr 1
  all_goals
    refine List.map_congr_left fun t _ => ?_
    exact Tree.bare_measure t

namespace Reading

/-- What the open groups have from where they were opened. -/
def openings (r : Reading) : List (Flags × Bool) :=
  (r.current :: r.enclosing).map Group.opening

/-- A reading with more groups open around it. -/
def within (around : List Group) (r : Reading) : Reading :=
  { r with enclosing := r.enclosing ++ around }

/-- Readings that differ in nothing but sizes and what was used up. -/
structure Same (r q : Reading) : Prop where
  flags : q.flags = r.flags
  current : q.current.bare = r.current.bare
  enclosing : q.enclosing.map Group.bare = r.enclosing.map Group.bare

namespace Same

variable {around : List Group} {r q q' : Reading}

theorem refl (r : Reading) : Same r r := ⟨rfl, rfl, rfl⟩

theorem symm (h : Same r q) : Same q r := ⟨h.flags.symm, h.current.symm, h.enclosing.symm⟩

theorem trans (h : Same r q) (h' : Same q q') : Same r q' :=
  ⟨h'.flags.trans h.flags, h'.current.trans h.current, h'.enclosing.trans h.enclosing⟩

theorem within (h : Same r q) : Same (r.within around) (q.within around) := by
  refine ⟨h.flags, h.current, ?_⟩
  simp only [Reading.within, List.map_append, h.enclosing]

theorem pieces (h : Same r q) :
    q.current.pieces.map Tree.bare = r.current.pieces.map Tree.bare :=
  congrArg Group.pieces h.current

theorem branches (h : Same r q) :
    q.current.branches.map Tree.bare = r.current.branches.map Tree.bare :=
  congrArg Group.branches h.current

theorem restore (h : Same r q) : q.current.restore = r.current.restore :=
  (Group.mk.inj h.current).1

theorem captures (h : Same r q) : q.current.captures = r.current.captures :=
  (Group.mk.inj h.current).2.1

/-- Other branches and pieces, as long as they are the same. -/
theorem setGroup (h : Same r q) {bs bs' ps ps' : List Tree}
    (hbs : bs'.map Tree.bare = bs.map Tree.bare) (hps : ps'.map Tree.bare = ps.map Tree.bare) :
    Same { r with current := { r.current with branches := bs, pieces := ps } }
      { q with current := { q.current with branches := bs', pieces := ps' } } where
  flags := h.flags
  current := by simp only [Group.bare, hbs, hps, h.restore, h.captures]
  enclosing := h.enclosing

theorem openings (h : Same r q) : q.openings = r.openings := by
  have hbare : (q.current :: q.enclosing).map Group.bare =
      (r.current :: r.enclosing).map Group.bare := by
    rw [List.map_cons, List.map_cons, h.current, h.enclosing]
  have hopening : Group.opening ∘ Group.bare = Group.opening := rfl
  rw [Reading.openings, Reading.openings, ← hopening, ← List.map_map, ← List.map_map, hbare]

end Same

end Reading

/-- The second reading goes on like the first one, with more groups open around it. -/
abbrev Alike (around : List Group) (r q : Reading) : Prop := (r.within around).Same q

namespace Alike

variable {around : List Group} {r q r' q' : Reading}

theorem move (h : Alike around r q) (hr : r.Same r') (hq : q.Same q') : Alike around r' q' :=
  hr.within.symm.trans (h.trans hq)

theorem flags (h : Alike around r q) : q.flags = r.flags :=
  Reading.Same.flags (r := r.within around) h

theorem enclosing (h : Alike around r q) :
    q.enclosing.map Group.bare = r.enclosing.map Group.bare ++ around.map Group.bare := by
  rw [← List.map_append]
  exact Reading.Same.enclosing h

theorem pieces (h : Alike around r q) :
    q.current.pieces.map Tree.bare = r.current.pieces.map Tree.bare :=
  Reading.Same.pieces (r := r.within around) h

theorem branches (h : Alike around r q) :
    q.current.branches.map Tree.bare = r.current.branches.map Tree.bare :=
  Reading.Same.branches (r := r.within around) h

theorem restore (h : Alike around r q) : q.current.restore = r.current.restore :=
  Reading.Same.restore (r := r.within around) h

theorem captures (h : Alike around r q) : q.current.captures = r.current.captures :=
  Reading.Same.captures (r := r.within around) h

end Alike

namespace Build

variable {α β γ δ : Type} {around : List Group}

/-- What is done before something else is done. -/
theorem exists_of_bind {f : Build α} {k : α → Build β} {r r' : Reading} {b : β}
    (h : (f >>= k) r = .ok (b, r')) : ∃ a m, f r = .ok (a, m) ∧ k a m = .ok (b, r') := by
  have h : (f r >>= fun p => k p.1 p.2) = .ok (b, r') := h
  cases hf : f r with
  | error e =>
    rw [hf] at h
    cases h
  | ok p =>
    rw [hf] at h
    exact ⟨p.1, p.2, rfl, h⟩

/-- From alike readings two steps go on to alike readings where they succeed, with answers that
have the same image. They neither open nor close a group. -/
def Agree (around : List Group) (image : α → γ) (f g : Build α) : Prop :=
  ∀ ⦃r q r' q' a b⦄, Alike around r q → f r = .ok (a, r') → g q = .ok (b, q') →
    image b = image a ∧ Alike around r' q' ∧ r'.openings = r.openings

namespace Agree

variable {image : α → γ} {image' : β → δ} {f g : Build α}

theorem pure {a b : α} (h : image b = image a) : Agree around image (pure a) (pure b) := by
  intro r q r' q' a' b' hrq hf hg
  cases hf
  cases hg
  exact ⟨h, hrq, rfl⟩

theorem bind {k l : α → Build β} (h : Agree around image f g)
    (hk : ∀ a b, image b = image a → Agree around image' (k a) (l b)) :
    Agree around image' (f >>= k) (g >>= l) := by
  intro r q r' q' a b hrq hf hg
  obtain ⟨a₁, r₁, hf₁, hf₂⟩ := exists_of_bind hf
  obtain ⟨b₁, q₁, hg₁, hg₂⟩ := exists_of_bind hg
  obtain ⟨himage, halike, hopenings⟩ := h hrq hf₁ hg₁
  obtain ⟨himage', halike', hopenings'⟩ := hk a₁ b₁ himage halike hf₂ hg₂
  exact ⟨himage', halike', hopenings'.trans hopenings⟩

/-- A step that looks at the reading. -/
theorem look {k l : Reading → Build β}
    (hk : ∀ r q, Alike around r q → Agree around image' (k r) (l q)) :
    Agree around image' (get >>= k) (get >>= l) := by
  intro r q r' q' a b hrq hf hg
  exact hk r q hrq hrq hf hg

theorem modify {u v : Reading → Reading} (h : ∀ r q, Alike around r q → Alike around (u r) (v q))
    (hu : ∀ r, (u r).openings = r.openings) :
    Agree around (fun _ => ()) (modify u) (modify v) := by
  intro r q r' q' a b hrq hf hg
  cases hf
  cases hg
  exact ⟨rfl, h r q hrq, hu r⟩

theorem discard (h : Agree around image f g) :
    Agree around (fun _ => ()) (discard f) (discard g) := by
  have hdiscard (f : Build α) : Functor.discard f = f >>= fun _ => Pure.pure () := rfl
  rw [hdiscard, hdiscard]
  exact bind h fun _ _ _ => pure rfl

theorem mapM (image : α → γ) (image' : β → δ) {ts us : List α} {k l : α → Build β}
    (hk : ∀ a b, image b = image a → Agree around image' (k a) (l b))
    (h : us.map image = ts.map image) :
    Agree around (List.map image') (ts.mapM k) (us.mapM l) := by
  induction ts generalizing us with
  | nil =>
    rw [List.map_nil, List.map_eq_nil_iff] at h
    subst h
    exact pure rfl
  | cons t ts ih =>
    obtain ⟨u, us, rfl, htu, hts⟩ := List.map_eq_cons_iff.1 h
    rw [List.mapM_cons, List.mapM_cons]
    refine bind (hk t u htu) fun a b hab => bind (ih hts) fun as bs habs => pure ?_
    rw [List.map_cons, List.map_cons, hab, habs]

theorem forM (image : α → γ) {ts us : List α} {k l : α → Build Unit}
    (hk : ∀ a b, image b = image a → Agree around (fun _ => ()) (k a) (l b))
    (h : us.map image = ts.map image) :
    Agree around (fun _ => ()) (ts.forM k) (us.forM l) := by
  induction ts generalizing us with
  | nil =>
    rw [List.map_nil, List.map_eq_nil_iff] at h
    subst h
    exact pure rfl
  | cons t ts ih =>
    obtain ⟨u, us, rfl, htu, hts⟩ := List.map_eq_cons_iff.1 h
    exact bind (hk t u htu) fun _ _ _ => ih hts

end Agree

private theorem measured_same {t t' : Tree} {r r' : Reading} (h : measured t r = .ok (t', r')) :
    t'.bare = t.bare ∧ r.Same r' := by
  simp only [measured] at h
  split at h
  · cases h
  · cases h
    exact ⟨Tree.bare_measure t, Reading.Same.refl r⟩

private theorem startMeasuring_same {r r' : Reading} (h : startMeasuring r = .ok ((), r')) :
    r.Same r' := by
  obtain ⟨_, _, hmodify, h⟩ := exists_of_bind h
  cases hmodify
  obtain ⟨_, _, hget, h⟩ := exists_of_bind h
  cases hget
  split at h
  · cases h
  · cases h
    refine ⟨rfl, Group.bare_measure _, ?_⟩
    simp only [List.map_map]
    exact List.map_congr_left fun g _ => Group.bare_measure g

private theorem checkSize_same {t t' : Tree} {r r' : Reading} (h : checkSize t r = .ok (t', r')) :
    t'.bare = t.bare ∧ r.Same r' := by
  obtain ⟨_, _, hget, h⟩ := exists_of_bind h
  cases hget
  dsimp only at h
  split at h
  · exact measured_same h
  · obtain ⟨_, m, hmodify, h⟩ := exists_of_bind h
    cases hmodify
    split at h
    · cases h
      exact ⟨rfl, rfl, rfl, rfl⟩
    · obtain ⟨_, m, hstart, h⟩ := exists_of_bind h
      obtain ⟨hbare, hlast⟩ := measured_same h
      have hcopies : r.Same { r with usage.copies := r.usage.copiesWith t } := ⟨rfl, rfl, rfl⟩
      exact ⟨hbare, (hcopies.trans (startMeasuring_same hstart)).trans hlast⟩

theorem check_same {t t' : Tree} {r r' : Reading} (h : check t r = .ok (t', r')) :
    t'.bare = t.bare ∧ r.Same r' := by
  obtain ⟨_, _, hget, h⟩ := exists_of_bind h
  cases hget
  split at h
  · cases h
  · obtain ⟨checked, m, hsize, h⟩ := exists_of_bind h
    split at h
    · cases h
    · cases h
      exact checkSize_same hsize

theorem node_same {r r' : Reading} {size : Option Nat} (h : node r = .ok (size, r')) :
    r.Same r' := by
  unfold node at h
  split at h
  all_goals
    cases h
    exact ⟨rfl, rfl, rfl⟩

namespace Agree

variable {t u : Tree} {ts us : List Tree}

theorem ite {image : α → γ} {f g f' g' : Build α} {c : Prop} [Decidable c]
    (h : Agree around image f g) (h' : Agree around image f' g') :
    Agree around image (if c then f else f') (if c then g else g') := by
  split
  · exact h
  · exact h'

theorem check (h : u.bare = t.bare) : Agree around Tree.bare (check t) (check u) := by
  intro r q r' q' a b hrq hf hg
  obtain ⟨ha, hr⟩ := check_same hf
  obtain ⟨hb, hq⟩ := check_same hg
  exact ⟨by rw [hb, h, ha], hrq.move hr hq, hr.openings⟩

theorem node : Agree around (fun _ => ()) node node :=
  fun _ _ _ _ _ _ hrq hf hg =>
    ⟨rfl, hrq.move (node_same hf) (node_same hg), (node_same hf).openings⟩

theorem release (size size' : Option Nat) :
    Agree around (fun _ => ()) (release size) (release size') :=
  modify (fun _ _ hrq => ⟨hrq.1, hrq.2, hrq.3⟩) fun _ => rfl

theorem setPieces (h : us.map Tree.bare = ts.map Tree.bare) :
    Agree around (fun _ => ()) (setPieces ts) (setPieces us) :=
  modify (fun _ _ hrq => hrq.setGroup hrq.branches h) fun _ => rfl

theorem append (h : u.bare = t.bare) :
    Agree around (fun _ => ()) (append t) (append u) := by
  refine bind (check h) fun t u htu => look fun r q hrq => setPieces ?_
  rw [List.map_cons, List.map_cons, htu, hrq.pieces]

end Agree

/-- Two strings at the end of the pieces stand also at the end of pieces that are alike. -/
theorem strings_of_bare {ts us ps : List Tree} {last size : Option Nat} {a b : List Nat}
    {f g : Flags} (h : us.map Tree.bare = ts.map Tree.bare)
    (hts : ts = .leaf last (.string a f) :: .leaf size (.string b g) :: ps) :
    ∃ last' size' ps', us = .leaf last' (.string a f) :: .leaf size' (.string b g) :: ps' ∧
      ps'.map Tree.bare = ps.map Tree.bare := by
  subst hts
  obtain ⟨u, us, rfl, hu, hmore⟩ := List.map_eq_cons_iff.1 h
  obtain ⟨u', us, rfl, hu', hrest⟩ := List.map_eq_cons_iff.1 hmore
  obtain ⟨last', rfl⟩ := Tree.bare_eq_leaf hu
  obtain ⟨size', rfl⟩ := Tree.bare_eq_leaf hu'
  exact ⟨last', size', us, rfl, hrest⟩

namespace Agree

variable {t u : Tree} {ts us : List Tree}

theorem joinStrings (next : Option (Nat × Flags)) :
    Agree around id (joinStrings next) (joinStrings next) := by
  refine look fun r q hrq => ?_
  have hpieces := hrq.pieces
  generalize r.current.pieces = ts at hpieces ⊢
  generalize q.current.pieces = us at hpieces ⊢
  split
  · next last runes flags size before treat pieces =>
    obtain ⟨last', size', pieces', rfl, hpieces'⟩ := strings_of_bare hpieces rfl
    refine ite (pure rfl) ?_
    split
    · next c flags' =>
      refine bind (setPieces ?_) fun _ _ _ => pure rfl
      simp only [List.map_cons, Tree.bare_leaf, hpieces']
    · refine bind (setPieces ?_) fun _ _ _ => bind (release _ _) fun _ _ _ => pure rfl
      simp only [List.map_cons, Tree.bare_leaf, hpieces']
  · next hno =>
    split
    · obtain ⟨_, _, _, hts, -⟩ := strings_of_bare hpieces.symm rfl
      exact (hno _ _ _ _ _ _ _ hts).elim
    · exact pure rfl

theorem push (h : u.bare = t.bare) : Agree around (fun _ => ()) (push t) (push u) := by
  have hother (next : Option (Nat × Flags)) {t u : Tree} (h : u.bare = t.bare) :
      Agree around (fun _ => ()) (Functor.discard (Build.joinStrings next) >>= fun _ => Build.append t)
        (Functor.discard (Build.joinStrings next) >>= fun _ => Build.append u) :=
    bind (discard (joinStrings next)) fun _ _ _ => append h
  refine bind (modify (fun _ _ hrq => ⟨hrq.1, hrq.2, hrq.3⟩) fun _ => rfl)
    fun _ _ _ => ?_
  cases t with
  | leaf size content =>
    obtain ⟨size', rfl⟩ := Tree.bare_eq_leaf h
    cases content with
    | members cls =>
      dsimp only
      split
      · next c fold =>
        refine look fun r q hrq => ?_
        rw [hrq.flags]
        refine bind (joinStrings _) fun done done' hdone => ?_
        obtain rfl : done' = done := hdone
        exact ite (pure rfl) (append rfl)
      · exact hother none h
    | _ => exact hother none h
  | wrap size height kind item =>
    obtain ⟨_, _, _, rfl, _⟩ := Tree.bare_eq_wrap h
    exact hother none h
  | join size height kind items =>
    rw [Tree.bare_join] at h
    obtain ⟨_, _, _, rfl, _⟩ := Tree.bare_eq_join h
    exact hother none (by rw [h, Tree.bare_join])

theorem pushLeaf (content : Leaf) :
    Agree around (fun _ => ()) (pushLeaf content) (pushLeaf content) :=
  bind node fun _ _ _ => push rfl

theorem pushLiteral (c : Nat) : Agree around (fun _ => ()) (pushLiteral c) (pushLiteral c) := by
  refine look fun r q hrq => ?_
  rw [hrq.flags]
  exact pushLeaf _

end Agree

/-- What is done before a group is there. -/
def beforeGroup : Build Unit := do
  let size ← node
  discard (joinStrings none)
  discard (check (.leaf size .empty))

private theorem openGroup_eq (captures : Bool) :
    openGroup captures = beforeGroup >>= fun _ => modify fun r => { r with
      current := { restore := r.flags, captures := captures }
      enclosing := r.current :: r.enclosing } := by
  simp only [openGroup, beforeGroup, bind_assoc]

theorem openGroup_alike {captures : Bool} {r q r' q' : Reading} (h : Alike around r q)
    (hr : openGroup captures r = .ok ((), r')) (hq : openGroup captures q = .ok ((), q')) :
    Alike around r' q' ∧ ∃ opening, r'.openings = opening :: r.openings := by
  rw [openGroup_eq] at hr hq
  obtain ⟨_, m, hm, hr⟩ := exists_of_bind hr
  obtain ⟨_, n, hn, hq⟩ := exists_of_bind hq
  cases hr
  cases hq
  have hbefore : Agree around (fun _ => ()) beforeGroup beforeGroup :=
    .bind .node fun _ _ _ => .bind (.discard (.joinStrings none)) fun _ _ _ => .discard (.check rfl)
  obtain ⟨-, hmn, hopenings⟩ := hbefore h hm hn
  refine ⟨⟨hmn.1, ?_, ?_⟩, (m.flags, captures), ?_⟩
  · exact congrArg (fun flags => Group.bare { restore := flags, captures := captures }) hmn.flags
  · have hcurrent : n.current.bare = m.current.bare := hmn.2
    change n.current.bare :: n.enclosing.map Group.bare =
      m.current.bare :: (m.enclosing ++ around).map Group.bare
    rw [hcurrent, List.map_append, hmn.enclosing]
  · rw [← hopenings]
    rfl

end Build

end PegMachine.Regex
