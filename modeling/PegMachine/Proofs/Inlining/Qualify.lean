import PegMachine.Proofs.Grammar.Checked
import PegMachine.Proofs.Grammar.Defined

namespace PegMachine

/-- A name of its own for every rule of every grammar. -/
structure Naming where
  name : Nat → Bytes → Bytes
  injective : ∀ {id id' : Nat} {rule rule' : Bytes}, name id rule = name id' rule' →
    id = id' ∧ rule = rule'
  nonempty : ∀ id rule, name id rule ≠ []

namespace Expr

mutual

/-- An expression of grammar `id` inside of the single grammar. -/
def qualify (q : Naming) (id : Nat) : Expr → Expr
  | .rule name => .rule (q.name id name)
  | .embed (some inner) main => .sequence [.rule (q.name inner main)]
  | .sequence items => .sequence (qualifyAll q id items)
  | .choice items => .choice (qualifyAll q id items)
  | .iterate kind item => .iterate kind (qualify q id item)
  | .wrap name items => .wrap name (qualifyAll q id items)
  | .hide items => .hide (qualifyAll q id items)
  | e => e

def qualifyAll (q : Naming) (id : Nat) : List Expr → List Expr
  | [] => []
  | item :: items => qualify q id item :: qualifyAll q id items

end

section

variable (q : Naming) (id : Nat)

theorem isMissing_qualify (e : Expr) : (e.qualify q id).isMissing = e.isMissing := by
  cases e with
  | embed grammar main => cases grammar <;> simp [qualify, isMissing]
  | _ => simp [qualify, isMissing]

private theorem any_isMissing_qualifyAll (items : List Expr) :
    (qualifyAll q id items).any isMissing = items.any isMissing := by
  induction items with
  | nil => simp [qualifyAll]
  | cons item items ih => simp [qualifyAll, ih, isMissing_qualify]

private theorem flaws_items_qualify {items : List Expr} {flaw : Flaw}
    (ih : flawsAll items = [] → flawsAll (qualifyAll q id items) = [])
    (h : (if items.any isMissing then [flaw] else flawsAll items) = []) :
    (if (qualifyAll q id items).any isMissing then [flaw]
      else flawsAll (qualifyAll q id items)) = [] := by
  rw [any_isMissing_qualifyAll]
  split at h
  · cases h
  · next hm => rw [if_neg hm, ih h]

mutual

theorem flaws_qualify (e : Expr) (h : e.flaws = []) : (e.qualify q id).flaws = [] := by
  match e, h with
  | .missing, h | .literal _, h | .pattern _, h | .action _, h => simpa only [qualify] using h
  | .rule name, _ => simp [qualify, flaws]
  | .embed none main, h => simpa only [qualify] using h
  | .embed (some inner) main, _ => simp [qualify, flaws, flawsAll, isMissing]
  | .sequence items, h =>
    simp only [qualify, flaws] at h ⊢
    exact flaws_items_qualify q id (flawsAll_qualifyAll items) h
  | .choice items, h =>
    simp only [qualify, flaws] at h ⊢
    exact flaws_items_qualify q id (flawsAll_qualifyAll items) h
  | .hide items, h =>
    simp only [qualify, flaws] at h ⊢
    exact flaws_items_qualify q id (flawsAll_qualifyAll items) h
  | .wrap name items, h =>
    simp only [qualify, flaws] at h ⊢
    obtain ⟨hn, hi⟩ := List.append_eq_nil_iff.1 h
    rw [hn, List.nil_append]
    exact flaws_items_qualify q id (flawsAll_qualifyAll items) hi
  | .iterate kind item, h =>
    simp only [qualify, flaws, isMissing_qualify] at h ⊢
    split at h
    · cases h
    · next hm =>
      obtain ⟨hb, hi⟩ := List.append_eq_nil_iff.1 h
      rw [if_neg hm, flaws_qualify item hi, List.append_nil]
      exact hb

private theorem flawsAll_qualifyAll (items : List Expr) (h : flawsAll items = []) :
    flawsAll (qualifyAll q id items) = [] := by
  match items, h with
  | [], _ => simp [qualifyAll, flawsAll]
  | item :: items, h =>
    obtain ⟨hi, hs⟩ := List.append_eq_nil_iff.1 h
    simp only [qualifyAll, flawsAll, flaws_qualify item hi, flawsAll_qualifyAll items hs,
      List.append_nil]

end

theorem Flawless.qualify {e : Expr} (h : e.Flawless) : (e.qualify q id).Flawless :=
  ⟨(isMissing_qualify q id e).trans h.present, flaws_qualify q id e h.flaws_eq⟩

/-- A use of a rule in grammar `id` inside of the single grammar. -/
def Reference.qualify : Reference → Reference
  | .rule name => .rule (q.name id name)
  | .embed (some inner) main => .rule (q.name inner main)
  | .embed none main => .embed none main

mutual

theorem references_qualify (e : Expr) :
    (e.qualify q id).references = e.references.map (Reference.qualify q id) := by
  unfold references
  match e with
  | .missing | .literal _ | .pattern _ | .action _ | .rule _ | .embed none _ =>
    simp [qualify, visit, List.filterMap_cons, reference?, Reference.qualify]
  | .embed (some _) _ =>
    simp [qualify, visit, visitAll, List.filterMap_cons, reference?, Reference.qualify]
  | .sequence items | .choice items | .hide items | .wrap _ items =>
    simpa [qualify, visit, List.filterMap_cons, reference?] using references_qualifyAll items
  | .iterate kind item =>
    simpa [qualify, visit, List.filterMap_cons, reference?, references] using
      references_qualify item

private theorem references_qualifyAll (items : List Expr) :
    (visitAll (fun _ => true) (qualifyAll q id items)).filterMap reference? =
      ((visitAll (fun _ => true) items).filterMap reference?).map (Reference.qualify q id) := by
  match items with
  | [] => simp [qualifyAll, visitAll]
  | item :: items =>
    have hi := references_qualify item
    have hs := references_qualifyAll items
    unfold references at hi
    simp [qualifyAll, visitAll, hi, hs]

end

end

end Expr

namespace Family

/-- The rules of a grammar under the names they have in the single grammar. -/
def qualified (q : Naming) (id : Nat) (g : Grammar) : List (Bytes × Expr) :=
  g.rules.map fun rule => (q.name id rule.1, rule.2.qualify q id)

/-- The rules of all grammars, from grammar `first` on. -/
def qualifiedFrom (q : Naming) (first : Nat) : Family → List (Bytes × Expr)
  | [] => []
  | g :: family => qualified q first g ++ qualifiedFrom q (first + 1) family

/-- The family as a single grammar. -/
def merged (q : Naming) (family : Family) : Grammar := .ofRules (family.qualifiedFrom q 0)

section

variable {q : Naming} {family : Family}

theorem mem_qualifiedFrom {first : Nat} {x : Bytes × Expr} :
    x ∈ family.qualifiedFrom q first ↔ ∃ id, ∃ rule ∈ (family.grammarAt id).rules,
      x = (q.name (first + id) rule.1, rule.2.qualify q (first + id)) := by
  induction family generalizing first with
  | nil => simp [qualifiedFrom, grammarAt]
  | cons g family ih =>
    rw [qualifiedFrom, List.mem_append, ih]
    constructor
    · rintro (h | ⟨id, rule, hr, rfl⟩)
      · obtain ⟨rule, hr, rfl⟩ := List.mem_map.1 h
        exact ⟨0, rule, hr, rfl⟩
      · exact ⟨id + 1, rule, hr, by simp only [Nat.add_comm id, Nat.add_assoc]⟩
    · rintro ⟨id, rule, hr, rfl⟩
      cases id with
      | zero => exact .inl (List.mem_map.2 ⟨rule, hr, rfl⟩)
      | succ id => exact .inr ⟨id, rule, hr, by simp only [Nat.add_comm id, Nat.add_assoc]⟩

private theorem nodup_qualifiedFrom {first : Nat} (h : ∀ g ∈ family, (g.rules.map (·.1)).Nodup) :
    ((family.qualifiedFrom q first).map (·.1)).Nodup := by
  induction family generalizing first with
  | nil => simp [qualifiedFrom]
  | cons g family ih =>
    rw [qualifiedFrom, List.map_append, List.nodup_append]
    refine ⟨?_, ih fun g hg => h g (by simp [hg]), ?_⟩
    · have hg := h g (by simp)
      simp only [List.Nodup, List.pairwise_map, qualified] at hg ⊢
      exact hg.imp fun hne heq => hne (q.injective heq).2
    · intro a ha b hb heq
      simp only [qualified, List.map_map, List.mem_map, Function.comp] at ha
      obtain ⟨rule, hr, rfl⟩ := ha
      obtain ⟨x, hx, rfl⟩ := List.mem_map.1 hb
      obtain ⟨id, rule', hr', rfl⟩ := mem_qualifiedFrom.1 hx
      have := (q.injective heq).1
      omega

theorem proper_qualified (h : ∀ id, Grammar.Proper (family.grammarAt id).rules) :
    Grammar.Proper (family.qualifiedFrom q 0) where
  distinct := by
    refine nodup_qualifiedFrom ?_
    intro g hg
    obtain ⟨id, hid, rfl⟩ := List.getElem_of_mem hg
    have := (h id).distinct
    rwa [grammarAt, List.getElem?_eq_getElem hid] at this
  named rule hr := by
    obtain ⟨id, rule, -, rfl⟩ := mem_qualifiedFrom.1 hr
    exact q.nonempty _ _
  flawless rule hr := by
    obtain ⟨id, rule, hm, rfl⟩ := mem_qualifiedFrom.1 hr
    exact ((h id).flawless rule hm).qualify q _

/-- The single grammar finds what the grammars of the family find. -/
theorem rule?_merged (h : ∀ id, Grammar.Proper (family.grammarAt id).rules) {id : Nat}
    {name : Bytes} {e : Expr} (he : (family.grammarAt id).rule? name = some e) :
    (family.merged q).rule? (q.name id name) = some (e.qualify q id) := by
  have hp := proper_qualified (q := q) h
  rw [merged, Grammar.ofRules_proper hp]
  refine Grammar.rule?_of_mem hp.distinct (mem_qualifiedFrom.2 ⟨id, (name, e), ?_, ?_⟩)
  · exact Grammar.mem_rules_of_rule? _ name e he
  · simp

/-- Nothing is wrong with the single grammar when nothing is wrong with any of the family. -/
theorem clean_merged (h : ∀ id, Grammar.Proper (family.grammarAt id).rules)
    (hclean : ∀ id, family.Clean id) (id : Nat) : Clean [family.merged q] id := by
  have hp := proper_qualified (q := q) h
  cases id with
  | succ id => exact ⟨rfl, (by intro _ hr; cases hr), (by intro _ hr; cases hr)⟩
  | zero =>
    have hat : grammarAt [family.merged q] 0 = family.merged q := rfl
    have found {id : Nat} {name : Bytes} (hs : ((family.grammarAt id).rule? name).isSome) :
        ((family.merged q).rule? (q.name id name)).isSome := by
      obtain ⟨e, he⟩ := Option.isSome_iff_exists.1 hs
      rw [rule?_merged h he]
      rfl
    -- every use of a rule comes from one in the family
    have origin {rule : Bytes × Expr} (hr : rule ∈ (family.merged q).rules) {x : Expr}
        {ref : Expr.Reference} (hx : x ∈ rule.2.parts) (hxr : x.reference? = some ref) :
        ∃ id, ∃ rule' ∈ (family.grammarAt id).rules, ∃ ref' ∈ rule'.2.references,
          ref'.qualify q id = ref := by
      rw [merged, Grammar.ofRules_proper hp] at hr
      obtain ⟨id, rule', hm, rfl⟩ := mem_qualifiedFrom.1 hr
      have href := Expr.mem_references _ _ _ hx hxr
      rw [Nat.zero_add, Expr.references_qualify] at href
      obtain ⟨ref', hm', heq⟩ := List.mem_map.1 href
      exact ⟨id, rule', hm, ref', hm', heq⟩
    refine ⟨?_, fun rule hr name hx => ?_, fun rule hr inner main hx => ?_⟩
    · rw [hat, merged, Grammar.ofRules_proper hp]
    · obtain ⟨id, rule', hm, ref, href, heq⟩ := origin hr hx rfl
      obtain ⟨hrule, hembed⟩ := (hclean id).resolves hm href
      cases ref with
      | rule name =>
        cases heq
        exact found (hrule name rfl)
      | embed inner main =>
        cases inner with
        | none => cases heq
        | some inner =>
          cases heq
          obtain ⟨g, hg, hs⟩ := hembed inner main rfl
          exact found (by rwa [grammarAt, hg])
    · obtain ⟨id, rule', hm, ref, href, heq⟩ := origin hr hx rfl
      cases ref with
      | rule name => cases heq
      | embed inner main => cases inner <;> cases heq

end

end Family

end PegMachine
