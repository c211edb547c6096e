import PegMachine.Proofs.Rewriting.Places

namespace PegMachine

/-- Both forms of the pattern could be read. -/
structure Pattern.Compiled (p : Pattern) : Prop where
  atStart : p.forms.atStart.isSome
  whole : p.forms.whole.isSome

private theorem Pattern.error_eq_none_iff (p : Pattern) : p.error = none ↔ p.Compiled := by
  have hforms := p.forms_eq
  unfold Forms.ofSource at hforms
  constructor
  · intro herror
    unfold error at herror
    split at hforms
    · simp [hforms] at herror
    split at hforms
    · simp [hforms] at herror
    · exact ⟨by rw [hforms]; rfl, by rw [hforms]; rfl⟩
  · rintro ⟨hstart, hwhole⟩
    split at hforms
    · simp [hforms] at hstart
    split at hforms
    · simp [hforms] at hwhole
    · rw [error, hforms]

/-- Bounds that some number of rounds is within. -/
def Repetition.InRange : Repetition → Prop
  | .bounded min max => -1 ≤ min ∧ -1 ≤ max ∧ ¬ (0 ≤ max ∧ max < min)
  | _ => True

/-- Everything is given that the action is carried out with. -/
def Action.Given : Action → Prop
  | .convert f => f.isSome
  | .modify f => f.isSome
  | .custom host => host.isSome
  | .note key _ => key ≠ []
  | _ => True

namespace Expr

/-- Nothing is wrong with an expression itself, whatever its children are. -/
def Fits : Expr → Prop
  | .missing => False
  | .pattern p => p.Compiled
  | .iterate kind _ => kind.InRange
  | .wrap name _ => name ≠ []
  | .embed grammar main => grammar.isSome ∧ main ≠ []
  | .action a => a.Given
  | _ => True

/-- Nothing is wrong with an expression at any depth. -/
inductive WellFormed : Expr → Prop where
  | intro {e : Expr} (fits : e.Fits) (children : ∀ child ∈ e.children, WellFormed child) :
      WellFormed e

private theorem wellFormed_iff_children {e : Expr} :
    e.WellFormed ↔ e.Fits ∧ ∀ child ∈ e.children, child.WellFormed :=
  ⟨fun ⟨fits, children⟩ => ⟨fits, children⟩, fun ⟨fits, children⟩ => ⟨fits, children⟩⟩

private theorem boundsFlaws_eq_nil {min max : Int} :
    boundsFlaws min max = [] ↔ (Repetition.bounded min max).InRange := by
  unfold boundsFlaws Repetition.InRange Repetition.unbounded
  split
  · simp; omega
  split
  · simp; omega
  split
  · simp; omega
  · simp; omega

private theorem actionFlaws_eq_nil {a : Action} : actionFlaws a = [] ↔ a.Given := by
  cases a with
  | convert f => cases f <;> simp [actionFlaws, Action.Given]
  | modify f => cases f <;> simp [actionFlaws, Action.Given]
  | custom host => cases host <;> simp [actionFlaws, Action.Given]
  | note key datum => cases key <;> simp [actionFlaws, Action.Given]
  | insert | insertText | clear | throw | log | unknown => simp [actionFlaws, Action.Given]

/-- The items of an expression are searched for flaws when none of them is missing. -/
theorem itemsFlaws_eq_nil {items : List Expr} {flaw : Flaw} :
    (if items.any isMissing then [flaw] else flawsAll items) = [] ↔
      ∀ item ∈ items, item.Flawless := by
  constructor
  · exact flawless_items
  · intro h
    rw [any_isMissing_of_flawless h, flawsAll_of_flawless h]
    rfl

theorem flawless_iff {e : Expr} : e.Flawless ↔ e.isMissing = false ∧ e.flaws = [] :=
  ⟨fun h => ⟨h.present, h.flaws_eq⟩, fun h => ⟨h.1, h.2⟩⟩

private theorem iterateFlaws_eq_nil {kind : Repetition} {item : Expr} :
    (iterate kind item).flaws = [] ↔ kind.InRange ∧ item.Flawless := by
  have hitem (flaw : Flaw) (before : List Flaw) :
      (if item.isMissing = true then [flaw] else before ++ item.flaws) = [] ↔
        before = [] ∧ item.Flawless := by
    rw [flawless_iff]
    split
    · next hmissing => simp [hmissing]
    · next hmissing => simp [hmissing]
  cases kind with
  | bounded min max => rw [flaws, hitem, boundsFlaws_eq_nil]
  | zeroOrMore | oneOrMore | optional | not | unknown =>
    simp only [flaws, hitem, Repetition.InRange]

/-- The search for flaws passes over nothing. -/
theorem flawless_iff_children (e : Expr) :
    e.Flawless ↔ e.Fits ∧ ∀ child ∈ e.children, child.Flawless := by
  cases e with
  | missing => simp [flawless_iff, isMissing, Fits]
  | literal | rule => simp [flawless_iff, isMissing, flaws, Fits, children]
  | pattern p =>
    simp only [flawless_iff, isMissing, flaws, Fits, children, ← p.error_eq_none_iff]
    cases p.error <;> simp
  | sequence items | choice items | hide items =>
    rw [flawless_iff, flaws, itemsFlaws_eq_nil]
    simp [isMissing, Fits, children]
  | iterate kind item =>
    rw [flawless_iff, iterateFlaws_eq_nil]
    simp [isMissing, Fits, children]
  | wrap name items =>
    rw [flawless_iff, flaws, List.append_eq_nil_iff, itemsFlaws_eq_nil]
    simp [isMissing, Fits, children]
  | embed grammar main => cases grammar <;> simp [flawless_iff, isMissing, flaws, Fits, children]
  | action a =>
    rw [flawless_iff, flaws, actionFlaws_eq_nil]
    simp [isMissing, Fits, children]

private theorem wellFormed_iff (e : Expr) : e.WellFormed ↔ e.Flawless := by
  induction e using Expr.induction with
  | step e ih =>
    rw [wellFormed_iff_children, flawless_iff_children]
    exact and_congr_right fun _ => forall₂_congr ih

end Expr

namespace Grammar

/-- A definition that gives both a name and an expression. -/
def acceptable (rule : Bytes × Expr) : Bool := !rule.1.isEmpty && !rule.2.isMissing

/-- What a definition does. It is turned down with one error, or its rule is added at the end. -/
theorem define_cases (g : Grammar) (name : Bytes) (e : Expr) :
    ((acceptable (name, e) = false ∨ name ∈ g.names) ∧
      ∃ error, g.define name e = { g with errors := g.errors ++ [error] }) ∨
    (acceptable (name, e) = true ∧ name ∉ g.names ∧
      (g.define name e).rules = g.rules ++ [(name, e)]) := by
  unfold define
  split
  · next hempty => exact .inl ⟨.inl (by simp [acceptable, hempty]), _, rfl⟩
  split
  · next hrule =>
    refine .inl ⟨.inr ?_, _, rfl⟩
    rwa [Option.isSome_iff_ne_none, ne_eq, rule?_eq_none, not_not] at hrule
  split
  · next hmissing => exact .inl ⟨.inl (by simp [acceptable, hmissing]), _, rfl⟩
  · next hempty hrule hmissing =>
    rw [Option.not_isSome_iff_eq_none, rule?_eq_none] at hrule
    exact .inr ⟨by simp [acceptable, hempty, hmissing], hrule, rfl⟩

/-- A grammar holds the first of the acceptable definitions of each name. -/
structure HoldsFirsts (g : Grammar) (definitions : List (Bytes × Expr)) : Prop where
  names_eq : g.names = ((definitions.filter acceptable).map (·.1)).eraseDups
  rule?_eq : ∀ name, g.rule? name = (definitions.filter acceptable).lookup name
  distinct : g.names.Nodup
  named : [] ∉ g.names

variable {g : Grammar} {definitions : List (Bytes × Expr)} {name : Bytes} {e : Expr}

private theorem HoldsFirsts.of_rules_eq {other : Grammar} (h : g.HoldsFirsts definitions)
    (hrules : other.rules = g.rules) : other.HoldsFirsts definitions where
  names_eq := by rw [names, hrules]; exact h.names_eq
  rule?_eq k := by rw [rule?, hrules]; exact h.rule?_eq k
  distinct := by rw [names, hrules]; exact h.distinct
  named := by rw [names, hrules]; exact h.named

theorem HoldsFirsts.mem_names (h : g.HoldsFirsts definitions) :
    name ∈ g.names ↔ name ∈ (definitions.filter acceptable).map (·.1) := by
  rw [h.names_eq, List.mem_eraseDups]

/-- A definition that is not acceptable does not count. -/
theorem HoldsFirsts.skip (h : g.HoldsFirsts definitions)
    (hunacceptable : acceptable (name, e) = false) :
    g.HoldsFirsts (definitions ++ [(name, e)]) := by
  have hfilter : (definitions ++ [(name, e)]).filter acceptable =
      definitions.filter acceptable := by simp [hunacceptable]
  exact ⟨by rw [hfilter, h.names_eq], fun k => by rw [hfilter, h.rule?_eq k], h.distinct, h.named⟩

/-- Neither does a definition of a name that the grammar has already. -/
theorem HoldsFirsts.again (h : g.HoldsFirsts definitions) (hname : name ∈ g.names) :
    g.HoldsFirsts (definitions ++ [(name, e)]) := by
  cases hacceptable : acceptable (name, e) with
  | false => exact h.skip hacceptable
  | true =>
    have hfilter : (definitions ++ [(name, e)]).filter acceptable =
        definitions.filter acceptable ++ [(name, e)] := by simp [hacceptable]
    have hbefore := h.mem_names.1 hname
    refine ⟨?_, fun k => ?_, h.distinct, h.named⟩
    · have hremoved : [name].removeAll ((definitions.filter acceptable).map (·.1)) = [] := by
        simpa [List.removeAll] using hbefore
      rw [hfilter, List.map_append, List.map_singleton, List.eraseDups_append, hremoved, h.names_eq]
      simp
    · rw [hfilter, List.lookup_append, ← h.rule?_eq]
      cases hk : g.rule? k with
      | some other => rfl
      | none =>
        have hne : k ≠ name := by
          rintro rfl
          exact rule?_eq_none.1 hk hname
        simp [List.lookup_cons, beq_eq_false_iff_ne.2 hne]

/-- The first acceptable definition of a name is taken. -/
theorem HoldsFirsts.first {other : Grammar} (h : g.HoldsFirsts definitions)
    (hacceptable : acceptable (name, e) = true) (hname : name ∉ g.names)
    (hrules : other.rules = g.rules ++ [(name, e)]) :
    other.HoldsFirsts (definitions ++ [(name, e)]) := by
  have hfilter : (definitions ++ [(name, e)]).filter acceptable =
      definitions.filter acceptable ++ [(name, e)] := by simp [hacceptable]
  have hnames : other.names = g.names ++ [name] := by simp [names, hrules]
  refine ⟨?_, fun k => ?_, ?_, ?_⟩
  · have hkept : [name].removeAll ((definitions.filter acceptable).map (·.1)) = [name] := by
      have hnew := mt h.mem_names.2 hname
      simpa [List.removeAll] using hnew
    rw [hnames, hfilter, List.map_append, List.map_singleton, List.eraseDups_append, hkept,
      h.names_eq]
    simp [List.eraseDups_cons]
  · rw [rule?, hrules, hfilter, List.lookup_append, List.lookup_append, ← h.rule?_eq, rule?]
  · rw [hnames, List.nodup_append]
    refine ⟨h.distinct, by simp, ?_⟩
    intro a ha b hb
    rw [List.mem_singleton.1 hb]
    exact fun hab => hname (hab ▸ ha)
  · rw [hnames, List.mem_append, List.mem_singleton]
    rintro (hempty | hempty)
    · exact h.named hempty
    · simp [acceptable, ← hempty] at hacceptable

theorem HoldsFirsts.define (h : g.HoldsFirsts definitions) (name : Bytes) (e : Expr) :
    (g.define name e).HoldsFirsts (definitions ++ [(name, e)]) := by
  obtain ⟨hrefused, error, heq⟩ | ⟨hacceptable, hnew, hrules⟩ := g.define_cases name e
  · have hnext : g.HoldsFirsts (definitions ++ [(name, e)]) := by
      rcases hrefused with hunacceptable | hname
      · exact h.skip hunacceptable
      · exact h.again hname
    exact hnext.of_rules_eq (by rw [heq])
  · exact h.first hacceptable hnew hrules

private theorem holdsFirsts_foldl (h : g.HoldsFirsts definitions) (further : List (Bytes × Expr)) :
    (further.foldl (fun g rule => g.define rule.1 rule.2) g).HoldsFirsts
      (definitions ++ further) := by
  induction further generalizing g definitions with
  | nil => rwa [List.append_nil]
  | cons definition further ih => simpa using ih (h.define definition.1 definition.2)

private theorem holdsFirsts_ofRules (definitions : List (Bytes × Expr)) :
    (ofRules definitions).HoldsFirsts definitions := by
  have hempty : ({} : Grammar).HoldsFirsts [] :=
    ⟨rfl, fun _ => rfl, by simp [names], by simp [names]⟩
  exact holdsFirsts_foldl hempty definitions

private theorem errors_ofRules_eq_nil (definitions : List (Bytes × Expr)) :
    (ofRules definitions).errors = [] ↔ Proper definitions := by
  constructor
  · intro h
    have hempty : Proper ({} : Grammar).rules := ⟨by simp, by simp, by simp⟩
    exact proper_of_foldl hempty h
  · intro h
    rw [ofRules_proper h]

/-- Whatever definitions a grammar is given, it holds the first acceptable one of each name, in
their order. A definition that it turns down leaves one error and nothing else, and there is no
error if and only if the names are distinct and not empty and the expressions well formed. -/
theorem ofRules_consistent (definitions : List (Bytes × Expr)) :
    (ofRules definitions).names.Nodup ∧ [] ∉ (ofRules definitions).names ∧
    (ofRules definitions).names = ((definitions.filter acceptable).map (·.1)).eraseDups ∧
    (∀ name, (ofRules definitions).rule? name = (definitions.filter acceptable).lookup name ∧
      ((ofRules definitions).rule? name = none ↔ name ∉ (ofRules definitions).names)) ∧
    (∀ name e, name = [] ∨ name ∈ (ofRules definitions).names ∨ e = .missing →
      ∃ error, (ofRules definitions).define name e =
        { ofRules definitions with errors := (ofRules definitions).errors ++ [error] }) ∧
    ((ofRules definitions).errors = [] ↔
      (definitions.map (·.1)).Nodup ∧
        ∀ definition ∈ definitions, definition.1 ≠ [] ∧ definition.2.WellFormed) := by
  have h := holdsFirsts_ofRules definitions
  refine ⟨h.distinct, h.named, h.names_eq, fun name => ⟨h.rule?_eq name, rule?_eq_none⟩, ?_, ?_⟩
  · intro name e hrefused
    obtain ⟨-, herror⟩ | ⟨hacceptable, hnew, -⟩ := (ofRules definitions).define_cases name e
    · exact herror
    · rcases hrefused with rfl | hname | rfl
      · simp [acceptable] at hacceptable
      · exact absurd hname hnew
      · simp [acceptable, Expr.isMissing] at hacceptable
  · rw [errors_ofRules_eq_nil]
    constructor
    · intro hproper
      refine ⟨hproper.distinct, fun definition hd => ⟨hproper.named definition hd, ?_⟩⟩
      exact (Expr.wellFormed_iff _).2 (hproper.flawless definition hd)
    · rintro ⟨hdistinct, hall⟩
      refine ⟨hdistinct, fun definition hd => (hall definition hd).1, fun definition hd => ?_⟩
      exact (Expr.wellFormed_iff _).1 (hall definition hd).2

end Grammar

end PegMachine
