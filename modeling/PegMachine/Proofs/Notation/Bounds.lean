import PegMachine.Proofs.Notation.Leaves
import PegMachine.Proofs.Notation.Totality
import PegMachine.Proofs.Notation.Unambiguous
import PegMachine.Proofs.Value.Spans

namespace PegMachine

namespace Notation

/-- The braces stand at a place of the text, no others do, these are their parts in its tree, and
these are the bounds that they tell. -/
structure Braces.Tell (b : Braces) (text : Bytes) (place : Span) (parts : List Value)
    (min max : Int) : Prop where
  stands : ∃ rest, Input.rest? text place.start = some (b.text ++ rest)
  only : ∀ c : Braces, c.lower.isSome ∨ c.comma.isSome →
    ∀ rest, Input.rest? text place.start = some (c.text ++ rest) → c = b
  parts : b.Parts parts
  given : b.lower.isSome ∨ b.comma.isSome
  fit : b.Fit
  min_eq : min = b.min
  max_eq : max = b.max
  printed : Repetition.bounds min max = b.tidy.text
  zeros : ∀ n, n ∈ b.lower ∨ n ∈ b.upper →
    ∃ k, n.digits = List.replicate k Ascii.zero ++ n.tidy.digits

/-- Somewhere in the expression the item is repeated within the bounds of the braces. -/
def Limited (text : Bytes) (e : Expr) (item : Value) (place : Span) (parts : List Value) : Prop :=
  ∃ b min max inner, Braces.Tell b text place parts min max ∧ build item = .ok inner ∧
    .iterate (.bounded min max) inner ∈ e.parts

/-- All braces in the tree tell the bounds of a repetition in the expression. -/
def Tells (text : Bytes) (e : Expr) (v : Value) : Prop :=
  ∀ span item place parts,
    Value.ofItems "Suffix" span [item, Value.ofItems "Bounds" place parts] ∈ v.tree →
    Limited text e item place parts

/-- The tree of a definition, and the rule that is built from it. -/
def Describes (v : Value) (rule : Bytes × Expr) : Prop :=
  ∃ span label body, v = Value.ofItems "Definition" span [label, body] ∧ label.content = rule.1 ∧
    build body = .ok rule.2

section

variable {text w name : Bytes} {v item op : Value} {items : List Value} {span : Span} {e inner : Expr}
  {es : List Expr}

/-- What is built from braces are the bounds that they tell. -/
theorem tell_of_braced {place : Span} {parts : List Value} {kind : Repetition}
    (h : Braced text (Value.ofItems "Bounds" place parts))
    (hk : suffix (Value.ofItems "Bounds" place parts) = .ok kind) :
    ∃ b min max, Braces.Tell b text place parts min max ∧ kind = .bounded min max := by
  obtain ⟨span, vs, rest, b, heq, hparts, hstands⟩ := h
  obtain ⟨-, rfl, rfl, -⟩ := Value.node.inj heq
  obtain ⟨hfit, hgiven, rfl⟩ := suffix_parts hparts hk
  have honly : ∀ c : Braces, c.lower.isSome ∨ c.comma.isSome →
      ∀ rest, Input.rest? text place.start = some (c.text ++ rest) → c = b := by
    intro c hc rest' hc'
    exact Braces.eq_of_append_eq hc hgiven (Option.some.inj (hc'.symm.trans hstands))
  exact ⟨b, b.min, b.max, ⟨⟨rest, hstands⟩, honly, hparts, hgiven, hfit, rfl, rfl,
    bounds_tidy hgiven, fun n _ => n.digits_eq⟩, rfl⟩

theorem Tells.mono (h : Tells text inner v) (hparts : ∀ x ∈ inner.parts, x ∈ e.parts) :
    Tells text e v := by
  intro span item place parts hm
  obtain ⟨b, min, max, repeated, htell, hitem, hin⟩ := h span item place parts hm
  exact ⟨b, min, max, repeated, htell, hitem, hparts _ hin⟩

theorem tells_of_child (h : Tells text inner v) (hc : inner ∈ e.children) : Tells text e v :=
  h.mono fun x hx => Expr.mem_parts_of_child e inner x hc hx

/-- A node tells what its items tell, and the bounds of its own if it has braces. -/
theorem tells_of_node (h : ∀ item ∈ items, Tells text e item)
    (hown : ∀ item place parts, name = "Suffix" →
      items = [item, Value.ofItems "Bounds" place parts] → Limited text e item place parts) :
    Tells text e (Value.ofItems name span items) := by
  intro span' item place parts hm
  rcases List.mem_cons.1 hm with heq | hin
  · obtain ⟨hname, -, hitems, -⟩ := Value.node.inj heq
    exact hown item place parts hname.symm hitems.symm
  · obtain ⟨v, hv, hin⟩ := Value.mem_forest.1 hin
    exact h v hv span' item place parts hin

theorem tells_of_items (hname : name ≠ "Suffix") (h : ∀ item ∈ items, Tells text e item) :
    Tells text e (Value.ofItems name span items) :=
  tells_of_node h fun _ _ _ heq => absurd heq hname

theorem tells_of_token (hname : name ≠ "Suffix") (h : IsToken name w v) : Tells text e v := by
  obtain ⟨span, inner, rfl⟩ := h
  refine tells_of_items hname fun item hi => ?_
  obtain rfl := List.mem_singleton.1 hi
  intro span item place parts hm
  cases List.mem_singleton.1 hm

/-- There is nothing but numerals and a comma between braces. -/
theorem tells_of_braced (h : Braced text v) : Tells text e v := by
  obtain ⟨span, vs, rest, b, rfl, hparts, -⟩ := h
  refine tells_of_items (by decide) (hparts.forall_mem ?_ fun v => tells_of_token (by decide))
  intro name hname n v
  refine tells_of_token ?_
  rintro rfl
  exact absurd hname (by decide)

/-- Every item has been built from. -/
theorem exists_of_buildAll (h : buildAll items = .ok es) :
    ∀ v ∈ items, ∃ e ∈ es, build v = .ok e := by
  induction items generalizing es with
  | nil => exact nofun
  | cons v vs ih =>
    have hb : buildAll (v :: vs) =
        (build v).bind fun e => (buildAll vs).bind fun es => .ok (e :: es) := rfl
    rw [hb] at h
    obtain ⟨e, he, h⟩ := exists_of_bind_eq_ok h
    obtain ⟨es, hes, h⟩ := exists_of_bind_eq_ok h
    cases h
    refine List.forall_mem_cons.2 ⟨⟨e, List.mem_cons_self, he⟩, fun w hw => ?_⟩
    obtain ⟨f, hf, hbuild⟩ := ih hes w hw
    exact ⟨f, List.mem_cons_of_mem _ hf, hbuild⟩

/-- A choice of one item is the item. -/
theorem children_of_choice (h : build (Value.ofItems "Choice" span items) = .ok e) :
    ∃ es, buildAll items = .ok es ∧ (es = [e] ∨ e.children = es) := by
  rw [Value.ofItems, build.eq_def] at h
  simp only [if_true] at h
  obtain ⟨es, hes, h⟩ := exists_of_bind_eq_ok h
  refine ⟨es, hes, ?_⟩
  split at h <;> cases h
  · exact .inl rfl
  · exact .inr rfl

/-- A sequence of one item is the item. -/
theorem children_of_sequence (h : build (Value.ofItems "Sequence" span items) = .ok e) :
    ∃ es, buildAll items = .ok es ∧ (es = [e] ∨ e.children = es) := by
  have hname : ("Sequence" : Bytes) ≠ "Choice" := by decide
  rw [Value.ofItems, build.eq_def] at h
  simp only [hname, if_false, if_true] at h
  obtain ⟨es, hes, h⟩ := exists_of_bind_eq_ok h
  refine ⟨es, hes, ?_⟩
  split at h <;> cases h
  · exact .inl rfl
  · exact .inr rfl

/-- What the items tell, an expression of all of them tells. -/
theorem tells_of_row (hrow : ∃ es, buildAll items = .ok es ∧ (es = [e] ∨ e.children = es))
    (h : ∀ v ∈ items, ∀ inner, build v = .ok inner → Tells text inner v) :
    ∀ v ∈ items, Tells text e v := by
  intro v hv
  obtain ⟨es, hes, hchildren⟩ := hrow
  obtain ⟨inner, hm, hb⟩ := exists_of_buildAll hes v hv
  refine (h v hv inner hb).mono fun x hx => ?_
  rcases hchildren with rfl | rfl
  · exact List.mem_singleton.1 hm ▸ hx
  · exact Expr.mem_parts_of_child e inner x hm hx

/-- An expression around the one that is built from an item tells what the item does. -/
theorem tells_of_wrapped {around : Expr → Expr}
    (hb : ((build v).bind fun inner => .ok (around inner)) = .ok e)
    (haround : ∀ inner, inner ∈ (around inner).children)
    (h : ∀ inner, build v = .ok inner → Tells text inner v) : Tells text e v := by
  obtain ⟨inner, hinner, hb⟩ := exists_of_bind_eq_ok hb
  cases hb
  exact tells_of_child (h inner hinner) (haround inner)

/-- Behind an item stands what kind of repetition it has. -/
theorem repeated_eq (h : build (Value.ofItems "Suffix" span [item, op]) = .ok e) :
    ∃ inner kind, build item = .ok inner ∧ suffix op = .ok kind ∧ e = .iterate kind inner := by
  have hb : build (Value.ofItems "Suffix" span [item, op]) =
      (build item).bind fun e => (suffix op).bind fun kind => .ok (.iterate kind e) := rfl
  rw [hb] at h
  obtain ⟨inner, hinner, h⟩ := exists_of_bind_eq_ok h
  obtain ⟨kind, hkind, h⟩ := exists_of_bind_eq_ok h
  exact ⟨inner, kind, hinner, hkind, (Except.ok.inj h).symm⟩

/-- Where the tree of an expression can be built from, its braces tell bounds in what is built. -/
theorem Written.tells (h : Written text v) (hb : build v = .ok e) : Tells text e v := by
  -- the parts of an expression are only added to on the way up
  induction h generalizing e with
  | choice _ ih =>
    exact tells_of_items (by decide) (tells_of_row (children_of_choice hb) fun v hv _ => ih v hv)
  | sequence _ ih =>
    exact tells_of_items (by decide) (tells_of_row (children_of_sequence hb) fun v hv _ => ih v hv)
  | not _ ih | hide _ ih =>
    refine tells_of_items (by decide) ?_
    simpa using tells_of_wrapped hb (fun inner => List.mem_singleton.2 rfl) fun inner => ih
  | plain _ ih =>
    refine tells_of_node ?_ fun _ _ _ _ hitems => by cases hitems
    simpa using ih hb
  | sign _ hop ih =>
    obtain ⟨inner, kind, hinner, -, rfl⟩ := repeated_eq hb
    have hitem : Tells text (.iterate kind inner) _ :=
      tells_of_child (ih hinner) (List.mem_singleton.2 rfl)
    refine tells_of_node ?_ ?_
    · simpa using ⟨hitem, tells_of_token (by decide) hop⟩
    · obtain ⟨span, inner, rfl⟩ := hop
      intro item place parts _ hitems
      have hname := (Value.node.inj (List.cons.inj (List.cons.inj hitems).2).1).1
      exact absurd hname (by decide)
  | bounds _ hop ih =>
    obtain ⟨inner, kind, hinner, hkind, rfl⟩ := repeated_eq hb
    have hitem : Tells text (.iterate kind inner) _ :=
      tells_of_child (ih hinner) (List.mem_singleton.2 rfl)
    refine tells_of_node ?_ ?_
    · simpa using ⟨hitem, tells_of_braced hop⟩
    · rintro item place parts _ ⟨⟩
      obtain ⟨b, min, max, htell, rfl⟩ := tell_of_braced hop hkind
      exact ⟨b, min, max, inner, htell, hinner, Expr.mem_parts_self _ rfl⟩
  | @label span name v hname _ ih =>
    obtain ⟨w, hw⟩ := hname
    have hlabel : ∀ inner, inner ∈ (Expr.wrap name.content [inner]).children :=
      fun inner => List.mem_singleton.2 rfl
    refine tells_of_items (by decide) ?_
    simpa using ⟨tells_of_token (by decide) hw, tells_of_wrapped hb hlabel fun inner => ih⟩
  | word hname h =>
    refine tells_of_token ?_ h
    rintro rfl
    exact absurd hname (by decide)
  | quoted hname h =>
    refine tells_of_token ?_ h
    rintro rfl
    exact absurd hname (by decide)

/-- The tree of a definition tells the bounds in its rule. -/
theorem Defining.tells {rule : Bytes × Expr} (h : Defining text v) (hrule : Describes v rule) :
    Tells text rule.2 v := by
  obtain ⟨span, label, body, rfl, ⟨w, hlabel⟩, hbody⟩ := h
  obtain ⟨span', label', body', heq, -, hb⟩ := hrule
  obtain ⟨-, -, hitems, -⟩ := Value.node.inj heq
  cases hitems
  refine tells_of_items (by decide) ?_
  simp only [List.forall_mem_cons]
  exact ⟨tells_of_token (by decide) hlabel, hbody.tells hb, nofun⟩

end

/-- Definitions are made in the order of their trees. -/
theorem describes_of_define {g h : Grammar} {text : Bytes} {vs : List Value}
    (hvs : ∀ v ∈ vs, Defining text v) (hd : define g vs = .value h) :
    ∃ rules, List.Forall₂ Describes vs rules ∧
      h = rules.foldl (fun g rule => g.define rule.1 rule.2) g := by
  induction vs generalizing g with
  | nil =>
    cases hd
    exact ⟨[], .nil, rfl⟩
  | cons v vs ih =>
    obtain ⟨⟨span, label, body, rfl, -, hbody⟩, hrest⟩ := List.forall_mem_cons.1 hvs
    cases hb : build body with
    | ok e =>
      rw [Value.ofItems, define_cons hb] at hd
      obtain ⟨rules, hrules, rfl⟩ := ih hrest hd
      exact ⟨(label.content, e) :: rules, .cons ⟨span, label, body, rfl, rfl, hb⟩ hrules, rfl⟩
    | error flaw =>
      rw [Value.ofItems, define_flaw hb (hbody.understood flaw hb)] at hd
      cases hd

end Notation

namespace Grammar

open Notation

/-- What is read is defined by the values of a match. -/
theorem values_of_read {fuel : Nat} {text : Bytes} {g : Grammar}
    (h : Grammar.read fuel text = some (.value g)) : ∃ vs,
      evaluate fuel [Notation.grammar] noHost {} 0 (.text text) = some (.value vs) ∧
      (∃ cursor, Machine.MatchEnds [Notation.grammar] noHost {} 0 (.text text)
        (.values vs cursor)) ∧
      Notation.define {} vs = .value g := by
  obtain ⟨answer, hevaluate, hanswer⟩ := Option.map_eq_some_iff.1 h
  obtain ⟨report, hreport, rfl⟩ := Option.map_eq_some_iff.1 hevaluate
  cases hending : report.ending with
  | values vs cursor =>
    rw [hending] at hanswer hevaluate
    exact ⟨vs, hevaluate, ⟨cursor, fuel, report, hreport, hending⟩, hanswer⟩
  | fault | error =>
    rw [hending] at hanswer
    cases hanswer

/-- Where a text is read without an error, its definitions are the rules of the grammar, in their
order, and all braces in a definition tell the bounds of a repetition in its rule. -/
theorem read_bounds {fuel : Nat} {text : Bytes} {g : Grammar}
    (hread : Grammar.read fuel text = some (.value g)) (herror : g.error? = none) :
    ∃ vs, evaluate fuel [Notation.grammar] noHost {} 0 (.text text) = some (.value vs) ∧
      List.Forall₂ (fun v rule => Describes v rule ∧ Tells text rule.2 v) vs g.rules := by
  obtain ⟨vs, hevaluate, ⟨cursor, hends⟩, hdefine⟩ := values_of_read hread
  have hdefining := defining_of_values hends
  obtain ⟨rules, hrules, rfl⟩ := describes_of_define hdefining hdefine
  have herrors : (rules.foldl (fun (g : Grammar) rule => g.define rule.1 rule.2) {}).errors = [] := by
    simpa [error?] using herror
  have hproper : Proper ([] ++ rules) := proper_of_foldl ⟨by simp, by simp, by simp⟩ herrors
  have heq : rules.foldl (fun (g : Grammar) rule => g.define rule.1 rule.2) {} =
      { rules := rules } := ofRules_proper hproper
  rw [heq]
  have hall := (List.forall₂_and_left _ _).2 ⟨hdefining, hrules⟩
  exact ⟨vs, hevaluate, hall.imp fun v rule h => ⟨h.2, h.1.tells h.2⟩⟩

/-- Whether there are braces behind the item of a node. -/
def hasBraces : Value → Bool
  | .node name _ [_, .node kind _ _ []] [] => name == "Suffix" && kind == "Bounds"
  | _ => false

private theorem of_hasBraces {v : Value} (h : hasBraces v = true) : ∃ span item place parts,
    v = Value.ofItems "Suffix" span [item, Value.ofItems "Bounds" place parts] := by
  unfold hasBraces at h
  split at h
  · next name span item kind place parts =>
    simp only [Bool.and_eq_true, beq_iff_eq] at h
    obtain ⟨rfl, rfl⟩ := h
    exact ⟨span, item, place, parts, rfl⟩
  · cases h

def anyBraces : Option (Answer (List Value)) → Bool
  | some (.value vs) => (Value.forest vs).any hasBraces
  | _ => false

/-- Bounds with zeros, blanks and a comment between the braces. -/
def spaced : Bytes := "A <- 'a'\x7b 02, # more\n 3 \x7d"

theorem read_bounds_spaced : ∃ g, Grammar.read 300 spaced = some (.value g) ∧ g.error? = none ∧
    ∃ rule ∈ g.rules, ∃ item place parts, Limited spaced rule.2 item place parts := by
  have hhas : hasRule (fun _ => true) (Grammar.read 300 spaced) = true := by decide +kernel
  have hany : anyBraces (evaluate 300 [Notation.grammar] noHost {} 0 (.text spaced)) = true := by
    decide +kernel
  obtain ⟨g, hread, herror, -⟩ := of_hasRule hhas
  obtain ⟨vs, hvs, hall⟩ := read_bounds hread herror
  rw [hvs] at hany
  obtain ⟨w, hw, hbraces⟩ := List.any_eq_true.1 hany
  obtain ⟨v, hv, hw⟩ := Value.mem_forest.1 hw
  obtain ⟨span, item, place, parts, rfl⟩ := of_hasBraces hbraces
  obtain ⟨i, hi, rfl⟩ := List.mem_iff_getElem.1 hv
  have hlen := hall.length_eq
  exact ⟨g, hread, herror, g.rules[i], List.getElem_mem _, item, place, parts,
    (hall.get hi (hlen ▸ hi)).2 span item place parts hw⟩

def isOnce : Expr → Bool
  | .iterate (.bounded min max) (.literal w) => min == 1 && max == 1 && w == "a"
  | _ => false

/-- Bounds without a comma. -/
def apart : Bytes := "A <- 'a'\x7b1 2\x7d"

/-- Without a comma the second numeral gets lost. -/
theorem second_numeral_lost : ∃ g, Grammar.read 300 apart = some (.value g) ∧
    g.error? = none ∧ ∃ rule ∈ g.rules, rule.2 = .iterate (.bounded 1 1) (.literal "a") := by
  have hhas : hasRule isOnce (Grammar.read 300 apart) = true := by decide +kernel
  obtain ⟨g, hread, herror, rule, hr, honce⟩ := of_hasRule hhas
  refine ⟨g, hread, herror, rule, hr, ?_⟩
  unfold isOnce at honce
  split at honce
  · next min max w heq =>
    simp only [Bool.and_eq_true, beq_iff_eq] at honce
    obtain ⟨⟨rfl, rfl⟩, rfl⟩ := honce
    exact heq
  · cases honce

end Grammar

end PegMachine
