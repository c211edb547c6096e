import PegMachine.Proofs.Expr.Parts

namespace PegMachine

namespace Expr

/-- An expression is there, and nothing is wrong with it. -/
structure Flawless (e : Expr) : Prop where
  present : e.isMissing = false
  flaws_eq : e.flaws = []

private theorem flawsAll_eq_nil {items : List Expr} (h : flawsAll items = []) :
    ∀ item ∈ items, item.flaws = [] := by
  induction items with
  | nil => simp
  | cons item items ih =>
    obtain ⟨hi, hs⟩ := List.append_eq_nil_iff.1 h
    intro e he
    rcases List.mem_cons.1 he with rfl | he
    · exact hi
    · exact ih hs e he

theorem flawless_items {items : List Expr} {flaw : Flaw}
    (h : (if items.any isMissing then [flaw] else flawsAll items) = []) :
    ∀ item ∈ items, item.Flawless := by
  split at h
  · cases h
  · next hm =>
    intro item hi
    refine ⟨?_, flawsAll_eq_nil h item hi⟩
    cases hi' : item.isMissing with
    | false => rfl
    | true => exact absurd (List.any_eq_true.2 ⟨item, hi, hi'⟩) hm

theorem Flawless.child {e child : Expr} (h : e.Flawless) (hc : child ∈ e.children) :
    child.Flawless := by
  have hf := h.flaws_eq
  cases e with
  | sequence items =>
    rw [flaws] at hf
    exact flawless_items hf child hc
  | choice items =>
    rw [flaws] at hf
    exact flawless_items hf child hc
  | wrap name items =>
    rw [flaws] at hf
    exact flawless_items (List.append_eq_nil_iff.1 hf).2 child hc
  | hide items =>
    rw [flaws] at hf
    exact flawless_items hf child hc
  | iterate kind item =>
    obtain rfl : child = item := by simpa [children] using hc
    simp only [flaws] at hf
    split at hf
    · cases hf
    · next hm => exact ⟨by simpa using hm, (List.append_eq_nil_iff.1 hf).2⟩
  | missing | literal | pattern | rule | embed | action => cases hc

theorem Flawless.part {e x : Expr} (h : e.Flawless) (hx : x ∈ e.parts) : x.Flawless := by
  induction e using Expr.induction with
  | step e ih =>
    obtain rfl | ⟨child, hc, hx⟩ := mem_parts_cases hx
    · exact h
    · exact ih child hc (h.child hc) hx

end Expr

namespace Grammar

/-- Rules that a grammar takes without an error. -/
structure Proper (rules : List (Bytes × Expr)) : Prop where
  distinct : (rules.map (·.1)).Nodup
  named : ∀ rule ∈ rules, rule.1 ≠ []
  flawless : ∀ rule ∈ rules, rule.2.Flawless

/-- A grammar that was built by defining rules. -/
def Defined (g : Grammar) : Prop := ∃ rules, g = ofRules rules

theorem defined_map (lists : List (List (Bytes × Expr))) : ∀ g ∈ lists.map ofRules, g.Defined := by
  intro g hg
  obtain ⟨rules, -, rfl⟩ := List.mem_map.1 hg
  exact ⟨rules, rfl⟩

theorem Defined.define {g : Grammar} (h : g.Defined) (name : Bytes) (e : Expr) :
    (g.define name e).Defined := by
  obtain ⟨rules, rfl⟩ := h
  exact ⟨rules ++ [(name, e)], by simp [ofRules]⟩

theorem rule?_eq_none {g : Grammar} {name : Bytes} : g.rule? name = none ↔ name ∉ g.names := by
  rw [rule?, List.lookup_eq_none_iff, names, List.mem_map]
  constructor
  · rintro h ⟨rule, hr, rfl⟩
    simpa using h rule hr
  · intro h rule hr
    rw [bne_iff_ne]
    rintro rfl
    exact h ⟨rule, hr, rfl⟩

/-- A rule with a new name and a flawless expression is added at the end. -/
theorem define_proper (g : Grammar) {name : Bytes} {e : Expr} (hn : name ≠ [])
    (hd : name ∉ g.names) (he : e.Flawless) :
    g.define name e = { g with rules := g.rules ++ [(name, e)] } := by
  have hrule : (g.rule? name).isSome = false := by rw [rule?_eq_none.2 hd]; rfl
  have hempty : name.isEmpty = false := by simpa using hn
  simp [define, hempty, hrule, he.present, he.flaws_eq]

/-- A definition that leaves no error was of such a rule. -/
theorem proper_of_define {g : Grammar} {name : Bytes} {e : Expr}
    (h : (g.define name e).errors = []) :
    g.errors = [] ∧ name ≠ [] ∧ name ∉ g.names ∧ e.Flawless := by
  unfold define at h
  split at h
  · simp [report] at h
  split at h
  · simp [report] at h
  split at h
  · simp [report] at h
  next hname hrule hmissing =>
    obtain ⟨hg, hf⟩ := List.append_eq_nil_iff.1 h
    rw [Option.not_isSome_iff_eq_none, rule?_eq_none] at hrule
    exact ⟨hg, by simpa using hname, hrule, by simpa using hmissing, List.map_eq_nil_iff.1 hf⟩

private theorem foldl_define (g : Grammar) {rules : List (Bytes × Expr)}
    (h : Proper (g.rules ++ rules)) :
    rules.foldl (fun g rule => g.define rule.1 rule.2) g =
      { g with rules := g.rules ++ rules } := by
  induction rules generalizing g with
  | nil => simp
  | cons rule rules ih =>
    have hd : rule.1 ∉ g.names := by
      have := h.distinct
      simp only [List.map_append, List.map_cons, List.nodup_append, List.mem_cons] at this
      exact fun hm => this.2.2 _ hm _ (.inl rfl) rfl
    rw [List.foldl_cons, define_proper g (h.named rule (by simp)) hd (h.flawless rule (by simp)), ih]
    · simp
    · simpa using h

theorem ofRules_proper {rules : List (Bytes × Expr)} (h : Proper rules) :
    ofRules rules = { rules := rules } := by
  rw [ofRules, foldl_define {} (by simpa using h)]
  rfl

private theorem errors_of_foldl {g : Grammar} {rules : List (Bytes × Expr)}
    (h : (rules.foldl (fun g rule => g.define rule.1 rule.2) g).errors = []) : g.errors = [] := by
  induction rules generalizing g with
  | nil => exact h
  | cons rule rules ih => exact (proper_of_define (ih h)).1

theorem Proper.snoc {rules : List (Bytes × Expr)} {name : Bytes} {e : Expr} (h : Proper rules)
    (hn : name ≠ []) (hd : name ∉ rules.map (·.1)) (he : e.Flawless) :
    Proper (rules ++ [(name, e)]) := by
  refine ⟨?_, ?_, ?_⟩
  · simp only [List.map_append, List.nodup_append, List.map_cons, List.map_nil]
    refine ⟨h.distinct, by simp, ?_⟩
    rintro a ha b hb rfl
    exact hd (List.mem_singleton.1 hb ▸ ha)
  · intro rule hr
    rcases List.mem_append.1 hr with hr | hr
    · exact h.named rule hr
    · exact List.mem_singleton.1 hr ▸ hn
  · intro rule hr
    rcases List.mem_append.1 hr with hr | hr
    · exact h.flawless rule hr
    · exact List.mem_singleton.1 hr ▸ he

/-- Where defining rules leaves no error, they were proper. -/
theorem proper_of_foldl {g : Grammar} {rules : List (Bytes × Expr)} (hg : Proper g.rules)
    (h : (rules.foldl (fun g rule => g.define rule.1 rule.2) g).errors = []) :
    Proper (g.rules ++ rules) := by
  induction rules generalizing g with
  | nil => rwa [List.append_nil]
  | cons rule rules ih =>
    rw [List.foldl_cons] at h
    obtain ⟨-, hn, hd, hf⟩ := proper_of_define (errors_of_foldl h)
    rw [define_proper g hn hd hf] at h
    have hall := ih (hg.snoc hn hd hf) h
    simpa using hall

/-- A grammar without errors is made of proper rules. -/
theorem Defined.proper {g : Grammar} (h : g.Defined) (he : g.errors = []) : Proper g.rules := by
  obtain ⟨rules, rfl⟩ := h
  have hp : Proper rules := proper_of_foldl (g := {}) ⟨by simp, by simp, by simp⟩ he
  rwa [ofRules_proper hp]

/-- The rules of a proper grammar are what looking up their names finds. -/
theorem rule?_of_mem {g : Grammar} (h : (g.rules.map (·.1)).Nodup) {name : Bytes} {e : Expr}
    (hm : (name, e) ∈ g.rules) : g.rule? name = some e := by
  obtain ⟨before, after, hsplit⟩ := List.append_of_mem hm
  refine List.lookup_eq_some_iff.2 ⟨before, after, hsplit, ?_⟩
  intro rule hr
  rw [hsplit] at h
  simp only [List.map_append, List.map_cons, List.nodup_append, List.mem_cons] at h
  rw [bne_iff_ne]
  exact fun heq => h.2.2 _ (List.mem_map.2 ⟨rule, hr, rfl⟩) _ (.inl rfl) heq.symm

end Grammar

/-- Past the last grammar of a family there is the one without rules. -/
theorem Family.defined_grammarAt {family : Family} (h : ∀ g ∈ family, g.Defined) (id : Nat) :
    (family.grammarAt id).Defined := by
  unfold grammarAt
  cases hid : family[id]? with
  | none => exact ⟨[], rfl⟩
  | some g => exact h g (List.mem_of_getElem? hid)

end PegMachine
