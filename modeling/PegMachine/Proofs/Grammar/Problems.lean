import Mathlib.Algebra.BigOperators.Group.Finset.Basic
import Mathlib.Algebra.Order.Group.Multiset
import Mathlib.Tactic.Abel
import PegMachine.Proofs.Grammar.Checked

namespace PegMachine

namespace Error

mutual

/-- The errors that an error is made of, however they were joined. -/
def flat : Error → Multiset Error
  | .joined errors => flatAll errors
  | e => {e}

def flatAll : List Error → Multiset Error
  | [] => 0
  | e :: es => flat e + flatAll es

end

theorem flatAll_append (es es' : List Error) : flatAll (es ++ es') = flatAll es + flatAll es' := by
  induction es with
  | nil => simp [flatAll]
  | cons e es ih => simp [flatAll, ih, add_assoc]

private theorem flatAll_reverse (es : List Error) : flatAll es.reverse = flatAll es := by
  induction es with
  | nil => rfl
  | cons e es ih => simp [flatAll_append, flatAll, ih, add_comm]

private theorem flatAll_shapes (errors : List ShapeError) :
    flatAll (errors.map .shape) = (errors.map Error.shape : Multiset Error) := by
  induction errors with
  | nil => rfl
  | cons e errors ih =>
    rw [List.map_cons, flatAll, ih]
    rfl

end Error

/-- The name that an expression uses, if it uses a rule of its own grammar. -/
def Expr.usedName? : Expr → Option Bytes
  | .rule name => some name
  | _ => none

/-- The names that an expression uses anywhere and a grammar does not define, each once. -/
def Grammar.unknownNames (g : Grammar) (e : Expr) : List Bytes :=
  ((e.parts.filterMap Expr.usedName?).filter fun name => (g.rule? name).isNone).dedup

namespace Family

/-- What is wrong with a use of a rule in the rule `referrer`, if it embeds another grammar: the main
rule is not there. -/
def stray? (family : Family) (referrer : Bytes) : Expr.Reference → Option Error
  | .embed (some id) main =>
    match family[id]? with
    | none => none
    | some h => if (h.rule? main).isSome then none else some (.undefined (h.undefined main referrer))
  | _ => none

/-- What is wrong with a rule of `g`: an error for each unknown name, and one for each embedding
without its main rule. -/
def ruleProblems (family : Family) (g : Grammar) (rule : Bytes × Expr) : Multiset Error :=
  ((g.unknownNames rule.2).map fun name => Error.undefined (g.undefined name rule.1) :
    List Error) + (rule.2.references.filterMap (family.stray? rule.1) : List Error)

/-- What is wrong with a grammar, those that it embeds left aside. -/
def problems (family : Family) (id : Nat) : Multiset Error :=
  ((family.grammarAt id).errors.map Error.shape : List Error) +
    ((family.grammarAt id).rules.map (family.ruleProblems (family.grammarAt id))).sum

/-- The names that a check has reported for a rule, after one more use of a rule. -/
def noted (g : Grammar) (reported : List Bytes) : Expr.Reference → List Bytes
  | .rule name =>
    if (g.rule? name).isSome || reported.contains name then reported else name :: reported
  | .embed .. => reported

section

variable {family : Family} {g : Grammar}

private theorem reported_checkReference (check : Nat → List Nat → Option Error × List Nat)
    (referrer : Bytes) (p : Progress) (ref : Expr.Reference) :
    (family.checkReference check g referrer p ref).reported = noted g p.reported ref := by
  match ref with
  | .rule name =>
    simp only [checkReference, noted]
    split <;> rfl
  | .embed none main => rfl
  | .embed (some id) main =>
    simp only [checkReference]
    cases family[id]? <;> rfl

private theorem noted_nodup {reported : List Bytes} (h : reported.Nodup) (ref : Expr.Reference) :
    (noted g reported ref).Nodup := by
  cases ref with
  | embed id main => exact h
  | rule name =>
    simp only [noted]
    split
    · exact h
    · next hnew =>
      have hfresh : name ∉ reported := by
        intro hm
        simp [hm] at hnew
      exact List.nodup_cons.2 ⟨hfresh, h⟩

private theorem mem_noted {reported : List Bytes} {ref : Expr.Reference} {name : Bytes} :
    name ∈ noted g reported ref ↔
      name ∈ reported ∨ (ref = .rule name ∧ g.rule? name = none) := by
  cases ref with
  | embed id main => simp [noted]
  | rule used =>
    have hcases : (∃ body, g.rule? used = some body) ∨ g.rule? used = none := by
      cases g.rule? used <;> simp
    obtain ⟨body, hbody⟩ | hnone := hcases
    · simp only [noted, hbody, Option.isSome_some, Bool.true_or, if_true, Expr.Reference.rule.injEq]
      constructor
      · exact .inl
      · rintro (hm | ⟨rfl, hnone⟩)
        · exact hm
        · cases hbody.symm.trans hnone
    · by_cases hm : used ∈ reported
      · simp only [noted, hnone, Option.isSome_none, Bool.false_or, List.contains_eq_mem, hm,
          decide_true, if_true, Expr.Reference.rule.injEq]
        constructor
        · exact .inl
        · rintro (hm' | ⟨rfl, -⟩)
          · exact hm'
          · exact hm
      · simp only [noted, hnone, Option.isSome_none, Bool.false_or, List.contains_eq_mem, hm,
          decide_false, Bool.false_eq_true, if_false, List.mem_cons, Expr.Reference.rule.injEq]
        constructor
        · rintro (rfl | hm')
          · exact .inr ⟨rfl, hnone⟩
          · exact .inl hm'
        · rintro (hm' | ⟨rfl, -⟩)
          · exact .inr hm'
          · exact .inl rfl

/-- The reported names are the unknown ones, and none is reported twice. -/
theorem foldl_noted (refs : List Expr.Reference) {reported : List Bytes} (h : reported.Nodup) :
    (refs.foldl (noted g) reported).Nodup ∧ ∀ name, name ∈ refs.foldl (noted g) reported ↔
      name ∈ reported ∨ (.rule name ∈ refs ∧ g.rule? name = none) := by
  induction refs generalizing reported with
  | nil => simp [h]
  | cons ref refs ih =>
    obtain ⟨hnodup, hmem⟩ := ih (noted_nodup h ref)
    refine ⟨hnodup, ?_⟩
    intro name
    rw [List.foldl_cons, hmem, mem_noted, List.mem_cons]
    constructor
    · rintro ((hm | ⟨rfl, hnone⟩) | ⟨hrest, hnone⟩)
      · exact .inl hm
      · exact .inr ⟨.inl rfl, hnone⟩
      · exact .inr ⟨.inr hrest, hnone⟩
    · rintro (hm | ⟨rfl | hrest, hnone⟩)
      · exact .inl (.inl hm)
      · exact .inl (.inr ⟨rfl, hnone⟩)
      · exact .inr ⟨hrest, hnone⟩

private theorem rule_mem_references {e : Expr} {name : Bytes} :
    Expr.Reference.rule name ∈ e.references ↔ .rule name ∈ e.parts := by
  constructor
  · intro h
    obtain ⟨x, hx, hname⟩ := List.mem_filterMap.1 h
    cases x <;> cases hname
    exact hx
  · exact fun h => Expr.mem_references _ _ _ h rfl

private theorem mem_unknownNames {e : Expr} {name : Bytes} :
    name ∈ g.unknownNames e ↔ .rule name ∈ e.parts ∧ g.rule? name = none := by
  have hused : name ∈ e.parts.filterMap Expr.usedName? ↔ .rule name ∈ e.parts := by
    constructor
    · intro h
      obtain ⟨x, hx, hname⟩ := List.mem_filterMap.1 h
      cases x <;> cases hname
      exact hx
    · exact fun h => List.mem_filterMap.2 ⟨_, h, rfl⟩
  rw [Grammar.unknownNames, List.mem_dedup, List.mem_filter, hused, Option.isNone_iff_eq_none]

private theorem noted_perm_unknownNames (g : Grammar) (e : Expr) :
    (e.references.foldl (noted g) []).Perm (g.unknownNames e) := by
  obtain ⟨hnodup, hmem⟩ := foldl_noted (g := g) e.references List.nodup_nil
  refine (List.perm_ext_iff_of_nodup hnodup (List.nodup_dedup _)).2 ?_
  intro name
  rw [hmem, rule_mem_references]
  simp only [List.not_mem_nil, false_or]
  exact mem_unknownNames.symm

end

/-- The grammars of the family that grammar `k` embeds are in `seen`. -/
def Entered (family : Family) (seen : List Nat) (k : Nat) : Prop :=
  ∀ rule ∈ (family.grammarAt k).rules, ∀ inner main, .embed (some inner) main ∈ rule.2.parts →
    inner < family.length → inner ∈ seen

/-- How far a check of grammar `outer` gets: it enters the grammars `fresh`, each for the first time,
and finds their problems and `own`. -/
structure Finds (family : Family) (outer : Nat) (p p' : Progress) (own : Multiset Error)
    (fresh : List Nat) : Prop where
  seen_eq : p'.seen = fresh ++ p.seen
  nodup : p.seen.Nodup → p'.seen.Nodup
  errors_eq : Error.flatAll p'.errors =
    Error.flatAll p.errors + own + (fresh.map family.problems).sum
  solid : (∀ e ∈ p.errors, e.flat ≠ 0) → ∀ e ∈ p'.errors, e.flat ≠ 0
  reached : ∀ k ∈ fresh, k < family.length ∧ family.Embeds outer k
  entered : ∀ k ∈ fresh, family.Entered p'.seen k

/-- What a check of grammar `id` gives after those in `seen`: the problems of the grammars it
enters, and itself it has entered at the latest now. -/
def Reports (family : Family) (id : Nat) (seen : List Nat) (r : Option Error × List Nat) : Prop :=
  (∃ fresh, family.Finds id ⟨seen, [], []⟩ ⟨r.2, [], r.1.toList⟩ 0 fresh) ∧
    (id < family.length → id ∈ r.2)

section

variable {family : Family} {outer : Nat} {p q r : Progress} {own own' : Multiset Error}
  {fresh fresh' seen seen' : List Nat}

theorem Entered.mono {k : Nat} (h : family.Entered seen k) (hs : seen ⊆ seen') :
    family.Entered seen' k :=
  fun rule hr inner main hm hlt => hs (h rule hr inner main hm hlt)

theorem Finds.refl (family : Family) (outer : Nat) (p : Progress) :
    family.Finds outer p p 0 [] where
  seen_eq := rfl
  nodup h := h
  errors_eq := by simp
  solid h := h
  reached := by simp
  entered := by simp

theorem Finds.subset (h : family.Finds outer p q own fresh) : p.seen ⊆ q.seen := by
  rw [h.seen_eq]
  exact List.subset_append_right fresh p.seen

theorem Finds.trans (h : family.Finds outer p q own fresh)
    (h' : family.Finds outer q r own' fresh') :
    family.Finds outer p r (own + own') (fresh' ++ fresh) where
  seen_eq := by rw [h'.seen_eq, h.seen_eq, List.append_assoc]
  nodup hp := h'.nodup (h.nodup hp)
  errors_eq := by
    rw [h'.errors_eq, h.errors_eq, List.map_append, List.sum_append]
    abel
  solid hp := h'.solid (h.solid hp)
  reached k hk := by
    rcases List.mem_append.1 hk with hk | hk
    · exact h'.reached k hk
    · exact h.reached k hk
  entered k hk := by
    rcases List.mem_append.1 hk with hk | hk
    · exact h'.entered k hk
    · exact (h.entered k hk).mono h'.subset

end

/-- The error for each name that a rule uses and its grammar does not define. -/
def nameErrors (g : Grammar) (referrer : Bytes) (names : List Bytes) : Multiset Error :=
  (names.map fun name => Error.undefined (g.undefined name referrer) : List Error)

section

variable {family : Family} {fuel outer : Nat} {rule : Bytes × Expr} {p : Progress}
  {check : Nat → List Nat → Option Error × List Nat}

/-- A look at a reference finds what is wrong with it, and all that an embedded grammar leads to. -/
theorem finds_reference
    (hcheck : ∀ id seen, family.unseen seen < fuel → family.Reports id seen (check id seen))
    (hr : rule ∈ (family.grammarAt outer).rules) {ref : Expr.Reference}
    (hm : ref ∈ rule.2.references) (hu : family.unseen p.seen < fuel) :
    ∃ names fresh,
      (family.checkReference check (family.grammarAt outer) rule.1 p ref).reported =
        names ++ p.reported ∧
      family.Finds outer p (family.checkReference check (family.grammarAt outer) rule.1 p ref)
        (nameErrors (family.grammarAt outer) rule.1 names +
          ((family.stray? rule.1 ref).toList : Multiset Error)) fresh ∧
      ∀ inner main, ref = .embed (some inner) main → inner < family.length →
        inner ∈ (family.checkReference check (family.grammarAt outer) rule.1 p ref).seen := by
  match ref with
  | .rule name =>
    simp only [checkReference]
    split
    · refine ⟨[], [], rfl, ?_, by simp⟩
      simpa [nameErrors, stray?] using Finds.refl family outer p
    · refine ⟨[name], [], rfl, ?_, by simp⟩
      refine ⟨rfl, fun h => h, ?_, ?_, by simp, by simp⟩
      · simp [nameErrors, stray?, Error.flatAll, Error.flat, add_comm]
      · exact fun hp => List.forall_mem_cons.2 ⟨by simp [Error.flat], hp⟩
  | .embed none main =>
    refine ⟨[], [], rfl, ?_, by simp⟩
    simpa [nameErrors, stray?, checkReference] using Finds.refl family outer p
  | .embed (some id) main =>
    cases hid : family[id]? with
    | none =>
      have hsame : family.checkReference check (family.grammarAt outer) rule.1 p
          (.embed (some id) main) = p := by
        simp only [checkReference, hid]
      have hge : family.length ≤ id := List.getElem?_eq_none_iff.1 hid
      rw [hsame]
      refine ⟨[], [], rfl, ?_, ?_⟩
      · simpa [nameErrors, stray?, hid] using Finds.refl family outer p
      · intro inner main' heq hlt
        cases heq
        omega
    | some h =>
      obtain ⟨⟨fresh, hfinds⟩, hmem⟩ := hcheck id p.seen hu
      have hembeds : family.Embeds outer id := by
        obtain ⟨x, hx, hxr⟩ := List.mem_filterMap.1 hm
        cases x <;> cases hxr
        exact .step .refl hr hx
      have hfound := hfinds.errors_eq
      simp only [checkReference, hid]
      refine ⟨[], fresh, rfl, ⟨hfinds.seen_eq, hfinds.nodup, ?_, ?_, ?_, hfinds.entered⟩, ?_⟩
      · have hmain : Error.flatAll (if (h.rule? main).isSome then p.errors
            else .undefined (h.undefined main rule.1) :: p.errors) =
              Error.flatAll p.errors + ((family.stray? rule.1 (.embed (some id) main)).toList :
                Multiset Error) := by
          simp only [stray?, hid]
          split <;> simp [Error.flatAll, Error.flat, add_comm]
        simp only [Error.flatAll, zero_add, add_zero] at hfound
        rw [Error.flatAll_append, hfound, hmain]
        simp only [nameErrors, List.map_nil, Multiset.coe_nil, zero_add]
        rw [add_comm]
      · intro hp e he
        rcases List.mem_append.1 he with he | he
        · exact hfinds.solid (by simp) e he
        · split at he
          · exact hp e he
          · rcases List.mem_cons.1 he with rfl | he
            · simp [Error.flat]
            · exact hp e he
      · intro k hk
        exact ⟨(hfinds.reached k hk).1, hembeds.trans (hfinds.reached k hk).2⟩
      · intro inner main' heq hlt
        cases heq
        exact hmem hlt

theorem unseen_of_finds {q : Progress} {own : Multiset Error} {fresh : List Nat}
    (h : family.Finds outer p q own fresh) (hu : family.unseen p.seen < fuel) :
    family.unseen q.seen < fuel :=
  Nat.lt_of_le_of_lt (family.unseen_mono h.subset) hu

/-- Looking at the references of a rule, one after the other. -/
theorem finds_references
    (hcheck : ∀ id seen, family.unseen seen < fuel → family.Reports id seen (check id seen))
    (hr : rule ∈ (family.grammarAt outer).rules) (refs : List Expr.Reference)
    (hm : ∀ ref ∈ refs, ref ∈ rule.2.references) (hu : family.unseen p.seen < fuel) :
    ∃ names fresh,
      (refs.foldl (family.checkReference check (family.grammarAt outer) rule.1) p).reported =
        names ++ p.reported ∧
      family.Finds outer p
        (refs.foldl (family.checkReference check (family.grammarAt outer) rule.1) p)
        (nameErrors (family.grammarAt outer) rule.1 names +
          (refs.filterMap (family.stray? rule.1) : Multiset Error)) fresh ∧
      ∀ inner main, .embed (some inner) main ∈ refs → inner < family.length →
        inner ∈ (refs.foldl (family.checkReference check (family.grammarAt outer) rule.1) p).seen := by
  induction refs generalizing p with
  | nil =>
    refine ⟨[], [], rfl, ?_, by simp⟩
    simpa [nameErrors] using Finds.refl family outer p
  | cons ref refs ih =>
    obtain ⟨names, fresh, hnames, hfinds, hseen⟩ := finds_reference hcheck hr (hm ref (by simp)) hu
    obtain ⟨names', fresh', hnames', hfinds', hseen'⟩ :=
      ih (fun ref hr => hm ref (by simp [hr])) (unseen_of_finds hfinds hu)
    refine ⟨names' ++ names, fresh' ++ fresh, ?_, ?_, ?_⟩
    · rw [List.foldl_cons, hnames', hnames, List.append_assoc]
    · have hown : nameErrors (family.grammarAt outer) rule.1 (names' ++ names) +
          ((ref :: refs).filterMap (family.stray? rule.1) : Multiset Error) =
            nameErrors (family.grammarAt outer) rule.1 names +
              ((family.stray? rule.1 ref).toList : Multiset Error) +
            (nameErrors (family.grammarAt outer) rule.1 names' +
              (refs.filterMap (family.stray? rule.1) : Multiset Error)) := by
        have hstrays : ((ref :: refs).filterMap (family.stray? rule.1) : Multiset Error) =
            ((family.stray? rule.1 ref).toList : Multiset Error) +
              (refs.filterMap (family.stray? rule.1) : Multiset Error) := by
          cases hstray : family.stray? rule.1 ref <;> simp [hstray]
        rw [hstrays]
        simp only [nameErrors, List.map_append, ← Multiset.coe_add]
        abel
      rw [hown]
      exact hfinds.trans hfinds'
    · intro inner main hembed hlt
      rcases List.mem_cons.1 hembed with heq | hembed
      · exact hfinds'.subset (hseen inner main heq.symm hlt)
      · exact hseen' inner main hembed hlt

private theorem reported_foldl (referrer : Bytes) (refs : List Expr.Reference) (p : Progress) :
    (refs.foldl (family.checkReference check (family.grammarAt outer) referrer) p).reported =
      refs.foldl (noted (family.grammarAt outer)) p.reported := by
  induction refs generalizing p with
  | nil => rfl
  | cons ref refs ih => rw [List.foldl_cons, ih, reported_checkReference, List.foldl_cons]

/-- A look at a rule finds its problems. -/
theorem finds_rule
    (hcheck : ∀ id seen, family.unseen seen < fuel → family.Reports id seen (check id seen))
    (hr : rule ∈ (family.grammarAt outer).rules) (hu : family.unseen p.seen < fuel) :
    ∃ fresh, family.Finds outer p (family.checkRule check (family.grammarAt outer) p rule)
        (family.ruleProblems (family.grammarAt outer) rule) fresh ∧
      ∀ inner main, .embed (some inner) main ∈ rule.2.references → inner < family.length →
        inner ∈ (family.checkRule check (family.grammarAt outer) p rule).seen := by
  obtain ⟨names, fresh, hnames, hfinds, hseen⟩ :=
    finds_references (p := { p with reported := [] }) hcheck hr rule.2.references
      (fun _ h => h) hu
  rw [List.append_nil, reported_foldl] at hnames
  have hperm := noted_perm_unknownNames (family.grammarAt outer) rule.2
  rw [hnames] at hperm
  have hown : nameErrors (family.grammarAt outer) rule.1 names +
      (rule.2.references.filterMap (family.stray? rule.1) : Multiset Error) =
        family.ruleProblems (family.grammarAt outer) rule :=
    congrArg (· + _) (Multiset.coe_eq_coe.2 (hperm.map _))
  rw [hown] at hfinds
  exact ⟨fresh, ⟨hfinds.seen_eq, hfinds.nodup, hfinds.errors_eq, hfinds.solid, hfinds.reached,
    hfinds.entered⟩, hseen⟩

variable (outer) in
private theorem finds_rules
    (hcheck : ∀ id seen, family.unseen seen < fuel → family.Reports id seen (check id seen))
    (rules : List (Bytes × Expr)) (hr : ∀ rule ∈ rules, rule ∈ (family.grammarAt outer).rules)
    (hu : family.unseen p.seen < fuel) :
    ∃ fresh, family.Finds outer p
        (rules.foldl (family.checkRule check (family.grammarAt outer)) p)
        (rules.map (family.ruleProblems (family.grammarAt outer))).sum fresh ∧
      ∀ rule ∈ rules, ∀ inner main, .embed (some inner) main ∈ rule.2.references →
        inner < family.length →
        inner ∈ (rules.foldl (family.checkRule check (family.grammarAt outer)) p).seen := by
  induction rules generalizing p with
  | nil => exact ⟨[], .refl family outer p, by simp⟩
  | cons rule rules ih =>
    obtain ⟨fresh, hfinds, hseen⟩ := finds_rule hcheck (hr rule (by simp)) hu
    obtain ⟨fresh', hfinds', hseen'⟩ :=
      ih (fun rule h => hr rule (by simp [h])) (unseen_of_finds hfinds hu)
    refine ⟨fresh' ++ fresh, ?_, ?_⟩
    · rw [List.map_cons, List.sum_cons]
      exact hfinds.trans hfinds'
    · intro rule' hrule inner main hembed hlt
      rcases List.mem_cons.1 hrule with rfl | hrule
      · exact hfinds'.subset (hseen inner main hembed hlt)
      · exact hseen' rule' hrule inner main hembed hlt

end

private theorem flatAll_joined? (errors : List Error) :
    Error.flatAll (joined? errors).toList = Error.flatAll errors := by
  unfold joined?
  split
  · next h =>
    rw [List.isEmpty_iff.1 h]
    rfl
  · simp [Error.flatAll, Error.flat]

/-- Joining errors that tell of something gives one that does. -/
theorem joined?_solid {errors : List Error} (h : ∀ e ∈ errors, e.flat ≠ 0) {e : Error}
    (he : e ∈ (joined? errors).toList) : e.flat ≠ 0 := by
  cases errors with
  | nil => simp [joined?] at he
  | cons first errors =>
    obtain rfl : e = .joined (first :: errors) := by simpa [joined?] using he
    have hfirst : first.flat ≠ 0 := h first (List.mem_cons_self ..)
    intro hzero
    simp only [Error.flat, Error.flatAll] at hzero
    exact hfirst (Multiset.le_zero.1 (hzero ▸ Multiset.le_add_right _ _))

/-- With enough fuel a check reports the problems of the grammars that it enters. -/
theorem checkFrom_reports (family : Family) (fuel id : Nat) (seen : List Nat)
    (hu : family.unseen seen < fuel) :
    family.Reports id seen (family.checkFrom fuel id seen) := by
  induction fuel generalizing id seen with
  | zero => omega
  | succ fuel ih =>
    simp only [checkFrom]
    split
    · next hseen =>
      refine ⟨⟨[], ?_⟩, fun _ => by simpa using hseen⟩
      exact .refl family id ⟨seen, [], []⟩
    next hseen =>
    have hnew : id ∉ seen := by simpa using hseen
    cases hid : family[id]? with
    | none =>
      have hge : family.length ≤ id := List.getElem?_eq_none_iff.1 hid
      exact ⟨⟨[], .refl family id ⟨seen, [], []⟩⟩, fun hlt => by omega⟩
    | some g =>
      have hlt : id < family.length := (List.getElem?_eq_some_iff.1 hid).1
      have hat : family.grammarAt id = g := by simp [grammarAt, hid]
      have hless := family.unseen_cons hlt hnew
      obtain ⟨fresh, hfinds, hentered⟩ := finds_rules id
        (p := { seen := id :: seen, reported := [], errors := (g.errors.map .shape).reverse })
        ih (family.grammarAt id).rules (fun _ h => h) (by simp only; omega)
      rw [hat] at hfinds hentered
      simp only
      refine ⟨⟨fresh ++ [id], ?_, ?_, ?_, ?_, ?_, ?_⟩, ?_⟩
      · rw [hfinds.seen_eq, List.append_assoc]
        rfl
      · exact fun hseen => hfinds.nodup (List.nodup_cons.2 ⟨hnew, hseen⟩)
      · simp only [flatAll_joined?, Error.flatAll_reverse, hfinds.errors_eq, Error.flatAll_shapes]
        simp only [List.map_append, List.sum_append, List.map_cons, List.map_nil, List.sum_cons,
          List.sum_nil, problems, hat, Error.flatAll]
        abel
      · intro _ e he
        have hsolid := hfinds.solid fun e he => by
          obtain ⟨shape, -, rfl⟩ := List.mem_map.1 (List.mem_reverse.1 he)
          simp [Error.flat]
        exact joined?_solid (fun e he => hsolid e (List.mem_reverse.1 he)) he
      · intro k hk
        rcases List.mem_append.1 hk with hk | hk
        · exact hfinds.reached k hk
        · obtain rfl := List.mem_singleton.1 hk
          exact ⟨hlt, .refl⟩
      · intro k hk
        rcases List.mem_append.1 hk with hk | hk
        · exact hfinds.entered k hk
        · obtain rfl := List.mem_singleton.1 hk
          intro rule hr inner main hm hinner
          rw [hat] at hr
          exact hentered rule hr inner main (Expr.mem_references _ _ _ hm rfl) hinner
      · exact fun _ => hfinds.subset (List.mem_cons_self ..)

/-- Folding two ways of looking at items that agree while there is fuel. -/
theorem foldl_congr_unseen {α : Type} {family : Family} {fuel : Nat}
    {look look' : Progress → α → Progress} (items : List α)
    (hlook : ∀ a ∈ items, ∀ p, family.unseen p.seen < fuel →
      look' p a = look p a ∧ family.unseen (look p a).seen < fuel)
    (p : Progress) (hu : family.unseen p.seen < fuel) :
    items.foldl look' p = items.foldl look p := by
  induction items generalizing p with
  | nil => rfl
  | cons a items ih =>
    obtain ⟨heq, hu'⟩ := hlook a (by simp) p hu
    rw [List.foldl_cons, List.foldl_cons, heq]
    exact ih (fun b hb => hlook b (by simp [hb])) (look p a) hu'

section

variable {family : Family} {fuel outer : Nat}
  {check check' : Nat → List Nat → Option Error × List Nat}

private theorem checkReference_congr (g : Grammar) (referrer : Bytes) (p : Progress)
    (ref : Expr.Reference) (h : ∀ id, check' id p.seen = check id p.seen) :
    family.checkReference check' g referrer p ref =
      family.checkReference check g referrer p ref := by
  match ref with
  | .rule name => rfl
  | .embed none main => rfl
  | .embed (some id) main => simp only [checkReference, h id]

variable (outer) in
/-- Two ways of checking what is embedded that agree while there is fuel find the same in rules. -/
theorem foldl_checkRule_congr
    (hcheck : ∀ id seen, family.unseen seen < fuel → family.Reports id seen (check id seen))
    (h : ∀ id seen, family.unseen seen < fuel → check' id seen = check id seen) (p : Progress)
    (hu : family.unseen p.seen < fuel) :
    (family.grammarAt outer).rules.foldl (family.checkRule check' (family.grammarAt outer)) p =
      (family.grammarAt outer).rules.foldl (family.checkRule check (family.grammarAt outer)) p := by
  refine foldl_congr_unseen _ ?_ p hu
  intro rule hr p hu
  obtain ⟨fresh, hfinds, -⟩ := finds_rule hcheck hr hu
  refine ⟨?_, unseen_of_finds hfinds hu⟩
  refine foldl_congr_unseen rule.2.references ?_ { p with reported := [] } hu
  intro ref hm q hq
  obtain ⟨names, inner, -, hfinds, -⟩ := finds_reference hcheck hr hm hq
  exact ⟨checkReference_congr _ _ _ _ fun id => h id q.seen hq, unseen_of_finds hfinds hq⟩

end

/-- More fuel than there are grammars left to see makes no difference to a check. -/
theorem checkFrom_stable (family : Family) {fuel more id : Nat} {seen : List Nat}
    (hu : family.unseen seen < fuel) (hle : fuel ≤ more) :
    family.checkFrom more id seen = family.checkFrom fuel id seen := by
  induction fuel generalizing more id seen with
  | zero => omega
  | succ fuel ih =>
    obtain ⟨more, rfl⟩ : ∃ m, more = m + 1 := ⟨more - 1, by omega⟩
    have hle : fuel ≤ more := Nat.le_of_succ_le_succ hle
    simp only [checkFrom]
    by_cases hseen : seen.contains id = true
    · rw [if_pos hseen, if_pos hseen]
    rw [if_neg hseen, if_neg hseen]
    cases hid : family[id]? with
    | none => rfl
    | some g =>
      have hlt : id < family.length := (List.getElem?_eq_some_iff.1 hid).1
      have hat : family.grammarAt id = g := by simp [grammarAt, hid]
      have hless := family.unseen_cons hlt (by simpa using hseen)
      have hrules := foldl_checkRule_congr id (family.checkFrom_reports fuel)
        (fun _ _ hu => ih hu hle)
        { seen := id :: seen, reported := [], errors := (g.errors.map .shape).reverse }
        (by simp only; omega)
      rw [hat] at hrules
      simp only [hrules]

/-- What a check has entered in the end is what embedding leads to. -/
theorem mem_entered {family : Family} {id : Nat} {fresh : List Nat} {r : Option Error × List Nat}
    (h : family.Finds id ⟨[], [], []⟩ ⟨r.2, [], r.1.toList⟩ 0 fresh)
    (hid : id < family.length → id ∈ r.2) (inner : Nat) :
    inner ∈ fresh ↔ inner < family.length ∧ family.Embeds id inner := by
  have hseen : r.2 = fresh := by simpa using h.seen_eq
  constructor
  · exact h.reached inner
  · rintro ⟨hlt, hembeds⟩
    induction hembeds with
    | refl => exact hseen ▸ hid hlt
    | @step inner outer main rule _ hr he ih =>
      have houter : outer < family.length := by
        by_contra hge
        have hnone : family[outer]? = none := List.getElem?_eq_none (by omega)
        simp [grammarAt, hnone] at hr
      have hentered := h.entered outer (ih houter) rule hr inner main he hlt
      exact hseen ▸ hentered

/-- A check ends, and it reports each problem once: the problems of all the grammars that embedding
leads to, and nothing besides. It reports nothing exactly when there are none. -/
theorem check_problems (family : Family) (id : Nat) :
    (∀ fuel, family.length < fuel → (family.checkFrom fuel id []).1 = family.check id) ∧
      ∃ reached : Finset Nat,
        (∀ inner, inner ∈ reached ↔ inner < family.length ∧ family.Embeds id inner) ∧
        Error.flatAll (family.check id).toList = ∑ inner ∈ reached, family.problems inner ∧
        (family.check id = none ↔ ∑ inner ∈ reached, family.problems inner = 0) := by
  obtain ⟨⟨fresh, hfinds⟩, hid⟩ :=
    family.checkFrom_reports (family.length + 1) id [] family.unseen_nil
  have hnodup : fresh.Nodup := by
    have hseen : (family.checkFrom (family.length + 1) id []).2 = fresh := by
      simpa using hfinds.seen_eq
    exact hseen ▸ hfinds.nodup List.nodup_nil
  have hflat : Error.flatAll (family.check id).toList =
      ∑ inner ∈ fresh.toFinset, family.problems inner := by
    rw [List.sum_toFinset _ hnodup]
    have h := hfinds.errors_eq
    simp only [Error.flatAll, zero_add] at h
    exact h
  refine ⟨?_, fresh.toFinset, ?_, hflat, ?_⟩
  · intro fuel hfuel
    rw [family.checkFrom_stable family.unseen_nil hfuel]
    rfl
  · intro inner
    rw [List.mem_toFinset]
    exact mem_entered hfinds hid inner
  · rw [← hflat]
    cases hcheck : family.check id with
    | none => simp [Error.flatAll]
    | some e =>
      have hsolid : e.flat ≠ 0 := hfinds.solid (by simp) e (by simp [← hcheck, check])
      simpa [Error.flatAll] using hsolid

-- Two grammars that embed each other: the name used twice is one problem of its rule.
example :
    let outer := Grammar.ofRules [("A", .sequence [.rule "C", .rule "C", .embed (some 1) "B"])]
    let inner := Grammar.ofRules [("B", .embed (some 0) "D")]
    Family.check [outer, inner] 0 = some (.joined [
      .undefined ⟨"C", "A", .among ["A"]⟩,
      .joined [.undefined ⟨"D", "B", .among ["A"]⟩]]) := by
  rfl

end Family

end PegMachine
