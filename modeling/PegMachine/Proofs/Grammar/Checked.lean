import PegMachine.Grammar.Check
import PegMachine.Proofs.Expr.Parts

namespace PegMachine.Family

/-- Embeddings name only grammars of the family. -/
def Closed (family : Family) : Prop :=
  ∀ id, ∀ rule ∈ (family.grammarAt id).rules, ∀ inner main,
    .embed (some inner) main ∈ rule.2.parts → inner < family.length

theorem closed_iff {family : Family} : family.Closed ↔ ∀ g ∈ family, ∀ rule ∈ g.rules,
    ∀ e ∈ rule.2.parts, ∀ inner ∈ e.embedded?, inner < family.length := by
  constructor
  · intro h g hg rule hr e he inner hinner
    obtain ⟨id, hid, rfl⟩ := List.getElem_of_mem hg
    have hrule : rule ∈ (family.grammarAt id).rules := by simpa [grammarAt, hid] using hr
    cases e with
    | embed grammar main =>
      obtain rfl : grammar = some inner := hinner
      exact h id rule hrule inner main he
    | missing | literal | pattern | rule | sequence | choice | iterate | wrap | hide | action =>
      cases hinner
  · intro h id rule hr inner main hm
    exact h _ (mem_of_mem_rules hr) rule hr _ hm inner rfl

instance (family : Family) : Decidable family.Closed := decidable_of_iff _ closed_iff.symm

/-- A use of a rule in `g` finds one, and the grammar it leads to is in `seen`. -/
def Settles (family : Family) (seen : List Nat) (g : Grammar) : Expr.Reference → Prop
  | .rule name => (g.rule? name).isSome
  | .embed none _ => True
  | .embed (some id) main => ∀ h, family[id]? = some h → (h.rule? main).isSome ∧ id ∈ seen

/-- Nothing is wrong with a grammar, and the grammars it embeds are in `seen`. -/
structure Settled (family : Family) (seen : List Nat) (id : Nat) : Prop where
  errors_eq : (family.grammarAt id).errors = []
  settles : ∀ rule ∈ (family.grammarAt id).rules, ∀ ref ∈ rule.2.references,
    family.Settles seen (family.grammarAt id) ref

section

variable {family : Family} {seen seen' : List Nat}

theorem Settles.mono (hs : seen ⊆ seen') {g : Grammar} {ref : Expr.Reference}
    (h : family.Settles seen g ref) : family.Settles seen' g ref := by
  match ref, h with
  | .rule name, h => exact h
  | .embed none _, h => trivial
  | .embed (some id) main, h => exact fun g hg => ⟨(h g hg).1, hs (h g hg).2⟩

theorem Settled.mono (hs : seen ⊆ seen') {id : Nat} (h : family.Settled seen id) :
    family.Settled seen' id :=
  ⟨h.errors_eq, fun rule hr ref hm => (h.settles rule hr ref hm).mono hs⟩

end

/-- The number of grammars that a check has not seen. -/
def unseen (family : Family) (seen : List Nat) : Nat :=
  ((List.range family.length).filter fun id => !seen.contains id).length

theorem unseen_mono (family : Family) {seen seen' : List Nat} (h : seen ⊆ seen') :
    family.unseen seen' ≤ family.unseen seen := by
  simp only [unseen, ← List.countP_eq_length_filter]
  refine List.countP_mono_left ?_
  intro id _ hid
  simp only [Bool.not_eq_true', List.contains_eq_mem, decide_eq_false_iff_not] at hid ⊢
  exact fun hm => hid (h hm)

theorem unseen_cons (family : Family) {seen : List Nat} {id : Nat} (hid : id < family.length)
    (hs : id ∉ seen) : family.unseen (id :: seen) < family.unseen seen := by
  have hfilter : (List.range family.length).filter (fun k => !(id :: seen).contains k) =
      ((List.range family.length).filter fun k => !seen.contains k).filter (· != id) := by
    rw [List.filter_filter]
    refine List.filter_congr ?_
    intro k _
    by_cases hk : k = id <;> simp [hk, bne]
  rw [unseen, hfilter]
  refine List.length_filter_lt_length_iff_exists.2 ⟨id, ?_, by simp⟩
  simp [hid, hs]

/-- How far a check may go: nothing is forgotten, and where no error is found, what is newly seen
is settled. -/
structure Grows (family : Family) (p p' : Progress) : Prop where
  seen_subset : p.seen ⊆ p'.seen
  errors_eq : p'.errors = [] → p.errors = []
  settled : p'.errors = [] → ∀ id ∈ p'.seen, id ∈ p.seen ∨ family.Settled p'.seen id

theorem Grows.refl (family : Family) (p : Progress) : family.Grows p p :=
  ⟨fun _ h => h, fun h => h, fun _ _ h => .inl h⟩

theorem Grows.trans {family : Family} {p q r : Progress} (h : family.Grows p q)
    (h' : family.Grows q r) : family.Grows p r where
  seen_subset := fun _ hm => h'.seen_subset (h.seen_subset hm)
  errors_eq he := h.errors_eq (h'.errors_eq he)
  settled he id hm := by
    rcases h'.settled he id hm with hq | hr
    · exact (h.settled (h'.errors_eq he) id hq).imp_right (·.mono h'.seen_subset)
    · exact .inr hr

/-- A name is reported only together with an error. -/
def Tidy (p : Progress) : Prop := p.errors = [] → p.reported = []

/-- What checking grammar `id` after those in `seen` gives, when all goes well. -/
structure Checks (family : Family) (id : Nat) (seen : List Nat) (r : Option Error × List Nat) :
    Prop where
  seen_subset : seen ⊆ r.2
  mem : id < family.length → id ∈ r.2
  settled : r.1 = none → ∀ k ∈ r.2, k ∈ seen ∨ family.Settled r.2 k

/-- A fold over references or rules, each of which is looked at by `look`. -/
theorem foldl_grows {α : Type} (family : Family) (fuel : Nat) (look : Progress → α → Progress)
    (good : List Nat → α → Prop) (hmono : ∀ {seen seen' a}, seen ⊆ seen' → good seen a → good seen' a)
    (hlook : ∀ p a, Tidy p → family.unseen p.seen < fuel → family.Grows p (look p a) ∧
      Tidy (look p a) ∧ ((look p a).errors = [] → good (look p a).seen a))
    (items : List α) (p : Progress) (ht : Tidy p) (hu : family.unseen p.seen < fuel) :
    family.Grows p (items.foldl look p) ∧ Tidy (items.foldl look p) ∧
      ((items.foldl look p).errors = [] → ∀ a ∈ items, good (items.foldl look p).seen a) := by
  induction items generalizing p with
  | nil => exact ⟨.refl family p, ht, by simp⟩
  | cons a items ih =>
    obtain ⟨hg, ht', ha⟩ := hlook p a ht hu
    have hu' := Nat.lt_of_le_of_lt (family.unseen_mono hg.seen_subset) hu
    obtain ⟨hgs, hts, has⟩ := ih (look p a) ht' hu'
    refine ⟨hg.trans hgs, hts, ?_⟩
    intro he b hb
    rcases List.mem_cons.1 hb with rfl | hb
    · exact hmono hgs.seen_subset (ha (hgs.errors_eq he))
    · exact has he b hb

section

variable {family : Family} {fuel : Nat} {check : Nat → List Nat → Option Error × List Nat}

private theorem checkReference_grows
    (hcheck : ∀ id seen, family.unseen seen < fuel → family.Checks id seen (check id seen))
    (g : Grammar) (referrer : Bytes) (p : Progress) (ref : Expr.Reference) (ht : Tidy p)
    (hu : family.unseen p.seen < fuel) :
    family.Grows p (family.checkReference check g referrer p ref) ∧
      Tidy (family.checkReference check g referrer p ref) ∧
      ((family.checkReference check g referrer p ref).errors = [] →
        family.Settles (family.checkReference check g referrer p ref).seen g ref) := by
  match ref with
  | .rule name =>
    simp only [checkReference]
    split
    · next hk =>
      refine ⟨.refl family p, ht, ?_⟩
      intro he
      simpa [ht he, Settles] using hk
    · exact ⟨⟨fun _ h => h, by simp, by simp⟩, by simp [Tidy], by simp⟩
  | .embed none main => exact ⟨.refl family p, ht, fun _ => trivial⟩
  | .embed (some id) main =>
    simp only [checkReference]
    cases hid : family[id]? with
    | none => exact ⟨.refl family p, ht, fun _ g hg => by simp [hid] at hg⟩
    | some h =>
      obtain ⟨hsub, hmem, hset⟩ := hcheck id p.seen hu
      have hlt : id < family.length := (List.getElem?_eq_some_iff.1 hid).1
      -- no error is left only where the main rule is there and the nested check found none
      have clean {found : Option Error} (he : found.toList ++ (if (h.rule? main).isSome then p.errors
          else .undefined (h.undefined main referrer) :: p.errors) = []) :
          found = none ∧ (h.rule? main).isSome ∧ p.errors = [] := by
        obtain ⟨hf, hrest⟩ := List.append_eq_nil_iff.1 he
        split at hrest
        · next hm => exact ⟨by simpa using hf, hm, hrest⟩
        · cases hrest
      refine ⟨⟨hsub, fun he => (clean he).2.2, fun he => hset (clean he).1⟩,
        fun he => ht (clean he).2.2, fun he h' hh' => ?_⟩
      cases hid.symm.trans hh'
      exact ⟨(clean he).2.1, hmem hlt⟩

private theorem checkRule_grows
    (hcheck : ∀ id seen, family.unseen seen < fuel → family.Checks id seen (check id seen))
    (g : Grammar) (p : Progress) (rule : Bytes × Expr) (hu : family.unseen p.seen < fuel) :
    family.Grows p (family.checkRule check g p rule) ∧ Tidy (family.checkRule check g p rule) ∧
      ((family.checkRule check g p rule).errors = [] → ∀ ref ∈ rule.2.references,
        family.Settles (family.checkRule check g p rule).seen g ref) := by
  obtain ⟨hg, ht, hs⟩ := foldl_grows family fuel (family.checkReference check g rule.1)
    (fun seen ref => family.Settles seen g ref) (fun hsub h => h.mono hsub)
    (fun p ref => checkReference_grows hcheck g rule.1 p ref) rule.2.references
    { p with reported := [] } (fun _ => rfl) hu
  exact ⟨⟨hg.seen_subset, hg.errors_eq, hg.settled⟩, ht, hs⟩

end

private theorem errors_of_joined? {errors : List Error} (h : joined? errors.reverse = none) :
    errors = [] := by
  unfold joined? at h
  split at h
  · next he => simpa using he
  · cases h

private theorem checkFrom_checks (family : Family) (fuel id : Nat) (seen : List Nat)
    (hu : family.unseen seen < fuel) : family.Checks id seen (family.checkFrom fuel id seen) := by
  induction fuel generalizing id seen with
  | zero => omega
  | succ fuel ih =>
    simp only [checkFrom]
    split
    · next hk => exact ⟨fun _ h => h, fun _ => by simpa using hk, fun _ _ h => .inl h⟩
    next hk =>
    have hnew : id ∉ seen := by simpa using hk
    cases hid : family[id]? with
    | none =>
      have hge : family.length ≤ id := List.getElem?_eq_none_iff.1 hid
      exact ⟨fun _ h => h, fun hlt => by omega, fun _ _ h => .inl h⟩
    | some g =>
      have hlt : id < family.length := (List.getElem?_eq_some_iff.1 hid).1
      have hat : family.grammarAt id = g := by simp [grammarAt, hid]
      -- the grammar itself is seen from here on, so the nested checks need less fuel
      have hless := family.unseen_cons hlt hnew
      obtain ⟨hg, -, hs⟩ := foldl_grows family fuel (family.checkRule (family.checkFrom fuel) g)
        (fun seen rule => ∀ ref ∈ rule.2.references, family.Settles seen g ref)
        (fun hsub h ref hr => (h ref hr).mono hsub)
        (fun p rule _ hu => checkRule_grows ih g p rule hu) g.rules
        { seen := id :: seen, reported := [], errors := (g.errors.map .shape).reverse }
        (fun _ => rfl) (by simp only; omega)
      simp only
      refine ⟨fun k hm => hg.seen_subset (List.mem_cons_of_mem _ hm),
        fun _ => hg.seen_subset (List.mem_cons_self ..), fun hnone k hm => ?_⟩
      have he := errors_of_joined? hnone
      have hshape : g.errors = [] := by simpa using hg.errors_eq he
      rcases hg.settled he k hm with hk | hk
      · rcases List.mem_cons.1 hk with rfl | hk
        · exact .inr ⟨hat ▸ hshape, hat ▸ hs he⟩
        · exact .inl hk
      · exact .inr hk

theorem unseen_nil (family : Family) : family.unseen [] < family.length + 1 := by
  have h := List.length_filter_le (fun id => !([] : List Nat).contains id) (List.range family.length)
  rw [List.length_range] at h
  exact Nat.lt_succ_of_le h

private theorem settled_of_embeds {family : Family} {id inner : Nat} (h : family.check id = none)
    (hid : id < family.length) (hclosed : family.Closed) (hi : family.Embeds id inner) :
    inner ∈ (family.checkFrom (family.length + 1) id []).2 ∧
      family.Settled (family.checkFrom (family.length + 1) id []).2 inner := by
  obtain ⟨-, hmem, hset⟩ := family.checkFrom_checks (family.length + 1) id [] family.unseen_nil
  have settled (k : Nat) (hk : k ∈ (family.checkFrom (family.length + 1) id []).2) :
      family.Settled (family.checkFrom (family.length + 1) id []).2 k :=
    (hset h k hk).resolve_left List.not_mem_nil
  induction hi with
  | refl => exact ⟨hmem hid, settled _ (hmem hid)⟩
  | step hi hr he ih =>
    have hs := ih.2.settles _ hr _ (Expr.mem_references _ _ _ he rfl)
    have hseen := (hs _ (List.getElem?_eq_getElem (hclosed _ _ hr _ _ he))).2
    exact ⟨hseen, settled _ hseen⟩

/-- Nothing is wrong with a grammar: its rules were defined without an error, and every use of a
rule in it, of its own or of an embedded grammar, finds that rule. -/
structure Clean (family : Family) (id : Nat) : Prop where
  errors_eq : (family.grammarAt id).errors = []
  rule : ∀ rule ∈ (family.grammarAt id).rules, ∀ name, .rule name ∈ rule.2.parts →
    ((family.grammarAt id).rule? name).isSome
  embed : ∀ rule ∈ (family.grammarAt id).rules, ∀ inner main,
    .embed (some inner) main ∈ rule.2.parts →
    ∃ g, family[inner]? = some g ∧ (g.rule? main).isSome

/-- A check without an error tells that nothing is wrong with any grammar that embedding leads
to. -/
theorem clean_of_check {family : Family} {id : Nat} (h : family.check id = none)
    (hid : id < family.length) (hclosed : family.Closed) :
    ∀ inner, family.Embeds id inner → family.Clean inner := by
  intro inner hi
  have hs := (settled_of_embeds h hid hclosed hi).2
  refine ⟨hs.errors_eq, fun rule hr name hm => ?_, fun rule hr k main hm => ?_⟩
  · exact hs.settles rule hr _ (Expr.mem_references _ _ _ hm rfl)
  · have hk := List.getElem?_eq_getElem (hclosed inner rule hr k main hm)
    exact ⟨_, hk, (hs.settles rule hr _ (Expr.mem_references _ _ _ hm rfl) _ hk).1⟩

/-- Where every grammar of a family passes its check, nothing is wrong with any. -/
theorem clean_of_checks {family : Family} (h : ∀ id, family.check id = none)
    (hclosed : family.Closed) (id : Nat) : family.Clean id := by
  by_cases hid : id < family.length
  · exact clean_of_check (h id) hid hclosed id .refl
  · have hat : family.grammarAt id = {} := by
      simp [grammarAt, List.getElem?_eq_none (Nat.le_of_not_lt hid)]
    exact ⟨by simp [hat], by simp [hat], by simp [hat]⟩

/-- What a use of a rule has to find in a clean grammar. -/
theorem Clean.resolves {family : Family} {id : Nat} (h : family.Clean id) {rule : Bytes × Expr}
    (hr : rule ∈ (family.grammarAt id).rules) {ref : Expr.Reference}
    (hm : ref ∈ rule.2.references) :
    (∀ name, ref = .rule name → ((family.grammarAt id).rule? name).isSome) ∧
      ∀ inner main, ref = .embed (some inner) main →
        ∃ g, family[inner]? = some g ∧ (g.rule? main).isSome := by
  obtain ⟨x, hx, hxr⟩ := List.mem_filterMap.1 hm
  constructor
  · rintro name rfl
    cases x <;> cases hxr
    exact h.rule rule hr name hx
  · rintro inner main rfl
    cases x <;> cases hxr
    exact h.embed rule hr inner main hx

private theorem checkReference_clean {family : Family}
    {check : Nat → List Nat → Option Error × List Nat} (hcheck : ∀ id seen, (check id seen).1 = none)
    {g : Grammar} {ref : Expr.Reference}
    (hrule : ∀ name, ref = .rule name → (g.rule? name).isSome)
    (hembed : ∀ inner main, ref = .embed (some inner) main →
      ∃ h, family[inner]? = some h ∧ (h.rule? main).isSome) (referrer : Bytes) (p : Progress) :
    (family.checkReference check g referrer p ref).errors = p.errors := by
  match ref with
  | .rule name => simp [checkReference, hrule name rfl]
  | .embed none main => rfl
  | .embed (some inner) main =>
    obtain ⟨h, hh, hm⟩ := hembed inner main rfl
    simp [checkReference, hh, hm, hcheck]

private theorem foldl_errors {α : Type} {look : Progress → α → Progress} {items : List α}
    (h : ∀ a ∈ items, ∀ p, (look p a).errors = p.errors) (p : Progress) :
    (items.foldl look p).errors = p.errors := by
  induction items generalizing p with
  | nil => rfl
  | cons a items ih =>
    rw [List.foldl_cons, ih fun b hb => h b (by simp [hb]), h a (by simp)]

/-- A check finds nothing where every grammar is clean. -/
theorem check_of_clean {family : Family} (h : ∀ id, family.Clean id) (id : Nat) :
    family.check id = none := by
  have hnone (fuel : Nat) : ∀ id seen, (family.checkFrom fuel id seen).1 = none := by
    induction fuel with
    | zero => exact fun _ _ => rfl
    | succ fuel ih =>
      intro id seen
      simp only [checkFrom]
      split
      · rfl
      cases hid : family[id]? with
      | none => rfl
      | some g =>
        have hat : family.grammarAt id = g := by simp [grammarAt, hid]
        have herrors : g.errors = [] := hat ▸ (h id).errors_eq
        have hrule : ∀ rule ∈ g.rules, ∀ p : Progress,
            (family.checkRule (family.checkFrom fuel) g p rule).errors = p.errors := by
          intro rule hr p
          refine foldl_errors (fun ref hm p => ?_) { p with reported := [] }
          obtain ⟨hrule, hembed⟩ := (h id).resolves (hat ▸ hr) hm
          exact checkReference_clean ih (hat ▸ hrule) hembed rule.1 p
        simp [foldl_errors hrule, herrors, joined?]
  exact hnone _ id []

end PegMachine.Family
