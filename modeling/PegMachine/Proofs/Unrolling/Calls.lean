import PegMachine.Machine.Host
import PegMachine.Proofs.Rewriting.Grammars

namespace PegMachine

open Relation (ReflTransGen)

/-- A function of the host that pushes a frame with some items where the frame on top stands, and
does nothing else to the stack and the settings. -/
def Machine.Pushes (host : Host) (id : Nat) (items : List Expr) : Prop :=
  ∀ view top below, view.stack.frames = top :: below →
    (host id view).stack = view.stack.push (Frame.enter .root top.cursor items) ∧
      (host id view).settings = view.settings ∧ (host id view).verdict = .done

/-- A call of the host, and the sequence of the items that it pushes. -/
def Expr.Unrolls (items : Nat → List Expr) (e e' : Expr) : Prop :=
  ∃ host, e = .action (.custom (some host)) ∧ e' = .sequence (items host)

section

variable (items : Nat → List Expr)

namespace Expr

mutual

/-- The expression with a sequence in the place of every call. -/
def unroll : Expr → Expr
  | .action (.custom (some host)) => .sequence (items host)
  | .sequence es => .sequence (unrollAll es)
  | .choice es => .choice (unrollAll es)
  | .iterate kind e => .iterate kind (unroll e)
  | .wrap name es => .wrap name (unrollAll es)
  | .hide es => .hide (unrollAll es)
  | e => e

def unrollAll : List Expr → List Expr
  | [] => []
  | e :: es => unroll e :: unrollAll es

end

private theorem forall₂_unrollAll {R : Expr → Expr → Prop} {es : List Expr}
    (h : ∀ e ∈ es, R e (e.unroll items)) : List.Forall₂ R es (unrollAll items es) := by
  induction es with
  | nil => exact .nil
  | cons e es ih =>
    obtain ⟨he, hes⟩ := List.forall_mem_cons.1 h
    exact .cons he (ih hes)

/-- Calls can be replaced one by one. -/
theorem rewritten_unroll (e : Expr) :
    ReflTransGen (Rewrites (Unrolls items)) e (e.unroll items) := by
  induction e using Expr.induction with
  | step e ih =>
    cases e with
    | missing | literal | pattern | rule | embed => exact .refl
    | action a =>
      cases a with
      | custom host =>
        cases host with
        | none => exact .refl
        | some host => exact .single (.here ⟨host, rfl, rfl⟩)
      | insert | insertText | convert | modify | note | clear | throw | log | unknown => exact .refl
    | sequence es => exact row_rewritten (.chain .sequence) [] (forall₂_unrollAll items ih)
    | choice es => exact row_rewritten .choice [] (forall₂_unrollAll items ih)
    | wrap name es => exact row_rewritten (.chain (.wrap name)) [] (forall₂_unrollAll items ih)
    | hide es => exact row_rewritten (.chain .hide) [] (forall₂_unrollAll items ih)
    | iterate kind e =>
      have he := ih e (List.mem_singleton.2 rfl)
      exact he.lift (Expr.iterate kind) fun _ _ h => .iterate h

end Expr

/-- The grammar with sequences in the place of all calls in its rules. -/
def Grammar.unroll (g : Grammar) : Grammar :=
  .ofRules (g.rules.map fun rule => (rule.1, rule.2.unroll items))

theorem Grammar.rewritten_unroll (g : Grammar) :
    Rewritten (fun _ => Expr.Unrolls items) g (g.unroll items) := by
  refine ⟨_, rfl, ?_⟩
  rw [Rewrote, List.forall₂_map_right_iff, List.forall₂_same]
  intro rule _
  exact ⟨rfl, rule.2.rewritten_unroll items⟩

theorem Family.rewritten_unroll (family : Family) :
    family.Rewritten (fun _ => Expr.Unrolls items) (family.map (Grammar.unroll items)) := by
  rw [Family.Rewritten, List.forall₂_map_right_iff, List.forall₂_same]
  intro g _
  exact g.rewritten_unroll items

end

namespace Family

/-- The functions of the host that grammar `id` calls, in its rules or in items that are pushed. -/
inductive Calls (family : Family) (items : Nat → List Expr) (id : Nat) : Nat → Prop where
  | rule {host : Nat} {rule : Bytes × Expr} (hr : rule ∈ (family.grammarAt id).rules)
    (hm : .action (.custom (some host)) ∈ rule.2.parts) : Calls family items id host
  | item {outer host : Nat} {item : Expr} (h : Calls family items id outer)
    (hi : item ∈ items outer) (hm : .action (.custom (some host)) ∈ item.parts) :
    Calls family items id host

/-- Nothing is wrong with an expression, and the rules it uses are there for grammar `id`. -/
structure Resolves (family : Family) (id : Nat) (e : Expr) : Prop where
  flawless : e.Flawless
  rule : ∀ name, .rule name ∈ e.parts → ((family.grammarAt id).rule? name).isSome
  embed : ∀ inner main, .embed (some inner) main ∈ e.parts →
    ∃ g, family[inner]? = some g ∧ (g.rule? main).isSome

/-- What a leaf of grammar `id` needs: the rules it uses, and a call that is accounted for. -/
def Admits (family : Family) (items : Nat → List Expr) (id : Nat) : Expr → Prop
  | .rule name => ((family.grammarAt id).rule? name).isSome
  | .embed (some inner) main => ∃ g, family[inner]? = some g ∧ (g.rule? main).isSome
  | .action (.custom (some host)) => family.Calls items id host
  | _ => True

/-- Nothing is wrong with an expression of grammar `id`, and its leaves have what they need. -/
def Fine (family : Family) (items : Nat → List Expr) (id : Nat) (e : Expr) : Prop :=
  e.Flawless ∧ e.Leaves (family.Admits items id)

section

variable {family family' : Family} {items : Nat → List Expr} {id : Nat} {e e' : Expr}

theorem compositional_fine (family : Family) (items : Nat → List Expr) (id : Nat) :
    Expr.Compositional (family.Fine items id) :=
  Expr.compositional_flawless.and (Expr.compositional_leaves _)

theorem Resolves.fine (h : family.Resolves id e)
    (hcalls : ∀ host, .action (.custom (some host)) ∈ e.parts → family.Calls items id host) :
    family.Fine items id e := by
  refine ⟨h.flawless, fun x hx hleaf => ?_⟩
  cases x with
  | rule name => exact h.rule name hx
  | embed grammar main =>
    cases grammar with
    | none => trivial
    | some inner => exact h.embed inner main hx
  | action a =>
    cases a with
    | custom host =>
      cases host with
      | none => trivial
      | some host => exact hcalls host hx
    | insert | insertText | convert | modify | note | clear | throw | log | unknown => trivial
  | missing | literal | pattern => trivial
  | sequence | choice | iterate | wrap | hide => cases hleaf

theorem fine_rule {name : Bytes} (h : ((family.grammarAt id).rule? name).isSome) :
    family.Fine items id (.rule name) := by
  refine ⟨⟨rfl, rfl⟩, fun x hx _ => ?_⟩
  obtain rfl := List.mem_singleton.1 hx
  exact h

/-- What a leaf needs, told by the leaf alone. -/
theorem Fine.admits (h : family.Fine items id e) (hleaf : e.isLeaf = true) :
    family.Admits items id e := h.2 e (Expr.mem_parts_self e h.1.present) hleaf

theorem fine_sequence {es : List Expr} (h : ∀ e ∈ es, family.Fine items id e) :
    family.Fine items id (.sequence es) := by
  have hnone : family.Fine items id (.sequence []) :=
    ⟨⟨rfl, rfl⟩, (Expr.leaves_row (.chain .sequence)).2 nofun⟩
  exact (compositional_fine family items id).row (.chain .sequence) hnone h

variable (hitems : ∀ id host, family.Calls items id host →
  ∀ item ∈ items host, family.Resolves id item)
include hitems

theorem fine_items {host : Nat} (h : family.Calls items id host) :
    ∀ item ∈ items host, family.Fine items id item :=
  fun item hm => (hitems id host h item hm).fine fun _ hcall => .item h hm hcall

/-- Replacing calls leaves an expression fine. -/
theorem Fine.rewritten (h : family.Fine items id e)
    (hrewritten : ReflTransGen (Expr.Rewrites (Expr.Unrolls items)) e e') :
    family.Fine items id e' := by
  refine (compositional_fine family items id).rewritten ?_ hrewritten h
  rintro _ _ ⟨host, rfl, rfl⟩ hcall
  exact fine_sequence (fine_items hitems (hcall.admits rfl))

variable (hfine : ∀ id, ∀ rule ∈ (family.grammarAt id).rules, family.Fine items id rule.2)
  (hproper : ∀ id, Grammar.Proper (family.grammarAt id).rules)
  (hfamily : family.Rewritten (fun _ => Expr.Unrolls items) family')
include hfine hproper hfamily

theorem rules_unrolled (id : Nat) : (family'.grammarAt id).errors = [] ∧
    Grammar.Rewrote (Expr.Unrolls items) (family.grammarAt id).rules
      (family'.grammarAt id).rules :=
  (hfamily.grammarAt id).rules (hproper id) fun rule hr _ hrewritten =>
    ((hfine id rule hr).rewritten hitems hrewritten).1

theorem namesakes_unrolled : family.Namesakes family' where
  length_eq := hfamily.length_eq.symm
  names_eq id := (rules_unrolled hitems hfine hproper hfamily id).2.names_eq

/-- Nothing is wrong with the grammars after their calls were replaced. -/
theorem clean_unrolled (id : Nat) : family'.Clean id := by
  obtain ⟨herrors, hrules⟩ := rules_unrolled hitems hfine hproper hfamily id
  have hn := namesakes_unrolled hitems hfine hproper hfamily
  have hleaves (rule' : Bytes × Expr) (hr' : rule' ∈ (family'.grammarAt id).rules) :
      rule'.2.Leaves (family.Admits items id) := by
    obtain ⟨rule, hr, -, hrewritten⟩ := hrules.origin rule' hr'
    exact ((hfine id rule hr).rewritten hitems hrewritten).2
  refine ⟨herrors, fun rule' hr' name hm => ?_, fun rule' hr' inner main hm => ?_⟩
  · exact Option.isSome_iff_exists.2
      (Grammar.exists_rule?_of_names (hn.names_eq id) (hleaves rule' hr' _ hm rfl))
  · obtain ⟨g, hg, hmain⟩ := hleaves rule' hr' _ hm rfl
    obtain ⟨g', hg', hnames⟩ := hn.getElem? hg
    exact ⟨g', hg', Option.isSome_iff_exists.2 (Grammar.exists_rule?_of_names hnames hmain)⟩

end

/-- An expression of grammar `id`, and what it is after some of its calls were replaced. -/
def Unrolled (family : Family) (items : Nat → List Expr) (id : Nat) (e e' : Expr) : Prop :=
  family.Fine items id e ∧ ReflTransGen (Expr.Rewrites (Expr.Unrolls items)) e e'

section

variable {family : Family} {items : Nat → List Expr} {id : Nat} {e e' : Expr}

theorem Fine.unrolled (h : family.Fine items id e) : family.Unrolled items id e e := ⟨h, .refl⟩

theorem unrolled_self {es : List Expr} (h : ∀ e ∈ es, family.Fine items id e) :
    List.Forall₂ (family.Unrolled items id) es es :=
  List.forall₂_same.2 fun e hm => (h e hm).unrolled

/-- Looking up a name finds the rule with its calls replaced. -/
theorem rule?_unrolled {family' : Family}
    (hfine : ∀ rule ∈ (family.grammarAt id).rules, family.Fine items id rule.2)
    (hrules : Grammar.Rewrote (Expr.Unrolls items) (family.grammarAt id).rules
      (family'.grammarAt id).rules) (name : Bytes) :
    Option.Rel (family.Unrolled items id) ((family.grammarAt id).rule? name)
      ((family'.grammarAt id).rule? name) := by
  have hrel := hrules.lookup name
  have hmem (body : Expr) := (family.grammarAt id).mem_rules_of_rule? name body
  unfold Grammar.rule? at hmem ⊢
  generalize (family.grammarAt id).rules.lookup name = body at hrel hmem ⊢
  generalize (family'.grammarAt id).rules.lookup name = body' at hrel ⊢
  cases hrel with
  | none => exact .none
  | some hrewritten => exact .some ⟨hfine _ (hmem _ rfl), hrewritten⟩

/-- A call may have been replaced; all else is what it was, around items that may have been. -/
theorem Unrolled.cases
    (hitems : ∀ id host, family.Calls items id host →
      ∀ item ∈ items host, family.Resolves id item)
    (h : family.Unrolled items id e e') :
    Expr.Lift (family.Unrolled items id) e e' ∨
      ∃ host items', e = .action (.custom (some host)) ∧ family.Calls items id host ∧
        e' = .sequence items' ∧
        List.Forall₂ (family.Unrolled items id) (items host) items' := by
  obtain ⟨hfine, hrewritten⟩ := h
  have hleaf (e e' : Expr) (h : Expr.Unrolls items e e') : e.isLeaf = true := by
    obtain ⟨host, rfl, -⟩ := h
    rfl
  have hchild (x child : Expr) (hx : family.Fine items id x) (hc : child ∈ x.children) :
      family.Fine items id child := (compositional_fine family items id).child hx hc
  rcases Expr.lift_or_redex hleaf hrewritten with hlift | ⟨m, ⟨host, rfl, rfl⟩, hrest⟩
  · exact .inl (hlift.and (hchild e · hfine))
  · have hcalls : family.Calls items id host := hfine.admits rfl
    have hsequence := fine_sequence (fine_items hitems hcalls)
    rcases Expr.lift_or_redex hleaf hrest with hlift | ⟨_, ⟨_, hcall, -⟩, -⟩
    · cases hlift.and (hchild _ · hsequence) with
      | leaf hleaf => cases hleaf
      | sequence hall => exact .inr ⟨host, _, rfl, hcalls, rfl, hall⟩
    · cases hcall

end

end Family

end PegMachine
