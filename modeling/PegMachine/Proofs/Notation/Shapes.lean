import PegMachine.Proofs.Notation.Building
import PegMachine.Proofs.Notation.Extents

namespace PegMachine.Notation

open Evaluator

/-- The rules that put out nothing. -/
def silent : List Bytes := ["LEFTARROW", "SLASH", "OPEN", "CLOSE", "Spacing"]

/-- The rules that put out neither nothing nor an expression. -/
def special : List Bytes := ["main", "Definition", "Bounds", "Identifier"]

/-- A name and an expression that is understood. -/
def Defines (v : Value) : Prop :=
  ∃ span label body, v = Value.ofItems "Definition" span [label, body] ∧ Understood (build body)

/-- There is one value, and it is one that `P` holds of. -/
def One (P : Value → Prop) (vs : List Value) : Prop := ∃ v, vs = [v] ∧ P v

def IsIdentifier (v : Value) : Prop := ∃ w, IsToken "Identifier" w v

/-- The tree of an expression that is written in a text. -/
inductive Written (text : Bytes) : Value → Prop where
  | choice {span : Span} {items : List Value} (h : ∀ v ∈ items, Written text v) :
    Written text (Value.ofItems "Choice" span items)
  | sequence {span : Span} {items : List Value} (h : ∀ v ∈ items, Written text v) :
    Written text (Value.ofItems "Sequence" span items)
  | not {span : Span} {v : Value} (h : Written text v) :
    Written text (Value.ofItems "Not" span [v])
  | hide {span : Span} {v : Value} (h : Written text v) :
    Written text (Value.ofItems "Hide" span [v])
  | plain {span : Span} {v : Value} (h : Written text v) :
    Written text (Value.ofItems "Suffix" span [v])
  | sign {span : Span} {v op : Value} {w : Bytes} (h : Written text v) (hop : IsToken "Op" w op) :
    Written text (Value.ofItems "Suffix" span [v, op])
  | bounds {span : Span} {v op : Value} (h : Written text v) (hop : Braced text op) :
    Written text (Value.ofItems "Suffix" span [v, op])
  | label {span : Span} {name v : Value} (hname : IsIdentifier name) (h : Written text v) :
    Written text (Value.ofItems "Label" span [name, v])
  | word {name w : Bytes} {v : Value} (hname : name ∈ (["Identifier", "Class", "Any"] : List Bytes))
    (h : IsToken name w v) : Written text v
  | quoted {name w : Bytes} {v : Value} (hname : name ∈ (["Literal", "Regex"] : List Bytes))
    (h : IsToken name w v) (hw : 2 ≤ w.length) : Written text v

/-- The tree of a definition that is written in a text. -/
def Defining (text : Bytes) (v : Value) : Prop :=
  ∃ span label body, v = Value.ofItems "Definition" span [label, body] ∧ IsIdentifier label ∧
    Written text body

section

variable {text : Bytes} {v : Value}

theorem Braced.understood (h : Braced text v) : Understood (suffix v) := by
  obtain ⟨span, vs, rest, b, rfl, hparts, -⟩ := h
  refine understood_bounds (hparts.forall_mem ?_ fun v hv => understood_comma hv)
  intro name hname n v hv
  have hne : name ≠ "Comma" := by
    rintro rfl
    exact absurd hname (by decide)
  exact understood_numeral hv hne n.ne_nil n.isDigit

/-- The builder understands the trees of expressions. -/
theorem Written.understood (h : Written text v) : Understood (build v) := by
  induction h with
  | choice _ ih => exact understood_choice ih
  | sequence _ ih => exact understood_sequence ih
  | not _ ih => exact understood_not ih
  | hide _ ih => exact understood_hide ih
  | plain _ ih => exact understood_plain ih
  | sign _ hop ih => exact understood_repeated ih (understood_sign hop)
  | bounds _ hop ih => exact understood_repeated ih hop.understood
  | label _ _ ih => exact understood_label _ ih
  | word hname h =>
    simp only [List.mem_cons, List.not_mem_nil, or_false] at hname
    rcases hname with rfl | rfl | rfl
    · exact understood_identifier h
    · exact understood_class h
    · exact understood_any h
  | quoted hname h hw =>
    simp only [List.mem_cons, List.not_mem_nil, or_false] at hname
    rcases hname with rfl | rfl
    · exact understood_literal h hw
    · exact understood_regex h hw

theorem Defining.defines (h : Defining text v) : Defines v := by
  obtain ⟨span, label, body, rfl, -, hbody⟩ := h
  exact ⟨span, label, body, rfl, hbody.understood⟩

end

/-- What a rule reads and puts out. -/
def Shape (text name : Bytes) : Match :=
  if name = "Spacing" then fun s t vs => vs = [] ∧ Skipped text s t
  else if name ∈ silent then fun _ _ vs => vs = []
  else if name = "main" then fun _ _ vs => ∀ v ∈ vs, Defining text v
  else if name = "Definition" then fun _ _ => One (Defining text)
  else if name = "Bounds" then fun _ _ => One (Braced text)
  else if name = "Identifier" then fun _ _ => One IsIdentifier
  else fun _ _ => One (Written text)

def shapes (text : Bytes) : Contract := fun _ => Shape text

abbrev Puts (text : Bytes) (e : Expr) (s t : Int) (vs : List Value) : Prop :=
  Gives (.text text) (shapes text) 0 e s t vs

/-- A rule has its shape where the rules that it uses have theirs. -/
def Shaped (text name : Bytes) : Prop :=
  ∀ e s t vs, rules.lookup name = some e → Puts text e s t vs → Shape text name s t vs

section

variable {text : Bytes} {e : Expr} {s t : Int} {vs : List Value}

theorem skipped_of_puts (s t : Int) (vs : List Value) (h : shapes text 0 "Spacing" s t vs) :
    vs = [] ∧ Skipped text s t := h

theorem shape_expression {name : Bytes} (hn : name ∉ silent ++ special) :
    Shape text name = fun _ _ => One (Written text) := by
  simp only [silent, special, List.mem_append, List.mem_cons, List.not_mem_nil, or_false, not_or]
    at hn
  obtain ⟨hsilent, hmain, hdefinition, hbounds, hidentifier⟩ := hn
  rw [Shape, if_neg hsilent.2.2.2.2, if_neg (by simpa [silent] using hsilent), if_neg hmain,
    if_neg hdefinition, if_neg hbounds, if_neg hidentifier]

/-- A rule of an expression has its shape where it puts out one tree of an expression. -/
theorem shaped_of_one {name : Bytes} (hn : name ∉ silent ++ special)
    (hrule : rules.lookup name = some e)
    (h : ∀ s t vs, Puts text e s t vs → One (Written text) vs) : Shaped text name := by
  intro e' s t vs he hputs
  cases hrule.symm.trans he
  rw [shape_expression hn]
  exact h s t vs hputs

theorem nil_of_puts {name : Bytes} (hn : name ∈ silent) (h : Puts text (.rule name) s t vs) :
    vs = [] := by
  simp only [silent, List.mem_cons, List.not_mem_nil, or_false] at hn
  rcases hn with rfl | rfl | rfl | rfl | rfl
  · exact h
  · exact h
  · exact h
  · exact h
  · exact h.1

theorem one_of_puts {name : Bytes} (hn : name ∉ silent ++ special)
    (h : Puts text (.rule name) s t vs) : One (Written text) vs := by
  have hshape : Shape text name s t vs := h
  rwa [shape_expression hn] at hshape

theorem puts_mark {mark : String} (h : Puts text (Notation.mark mark) s t vs) : vs = [] := h.1

/-- A throw behind an item puts out nothing, for nothing comes behind it. -/
theorem puts_throws {message : String} (h : Puts text (.sequence [e, throw message]) s t vs) :
    False := by
  obtain ⟨_, us, ws, -, ⟨_, _, _, hthrow, -⟩, -⟩ := h
  exact hthrow

/-- A throw in place of what is missing. -/
theorem puts_or_throw {message : String} (h : Puts text (.choice [e, throw message]) s t vs) :
    Puts text e s t vs := by
  obtain h | h | h := h
  · exact h
  · exact h.elim
  · exact h.elim

/-- A word, or the start of one and a throw. -/
theorem puts_or_throws {start : Expr} {message : String}
    (h : Puts text (.choice [e, .sequence [start, throw message]]) s t vs) :
    Puts text e s t vs := by
  obtain h | h | h := h
  · exact h
  · exact (puts_throws h).elim
  · exact h.elim

theorem isToken_of_pattern {name source : String} {r : Regex} (hd : Denotes source r)
    (h : Puts text (token name (pattern source)) s t vs) :
    ∃ v w u, IsToken name w v ∧ r.Takes (w ++ u) u ∧ vs = [v] := by
  obtain ⟨w, u, -, -, hl, -, -, v, rfl, hv⟩ := pattern_extent skipped_of_puts hd h
  exact ⟨v, w, u, hv, hl.takes, rfl⟩

/-- A match is no shorter than the shortest one. -/
theorem shortest_le_length {r : Regex} {w t : Bytes} (h : r.Takes (w ++ t) t) :
    r.shortest ≤ w.length := by
  have hle := h.shortest_le
  rw [List.length_append] at hle
  omega

end

section

variable (text : Bytes)

private theorem shaped_main : Shaped text "main" := by
  intro e s t vs he h
  obtain rfl := Option.some.inj he
  obtain ⟨_, us, _, hspacing, ⟨_, ws, _, hloop, ⟨_, ms, _, hend, ⟨rfl, rfl⟩, rfl⟩, rfl⟩, rfl⟩ := h
  obtain rfl := nil_of_puts (by decide) hspacing
  obtain ⟨rfl, rfl⟩ := puts_or_throw hend
  have hone : ∀ s t vs, Puts text (.rule "Definition") s t vs → ∀ v ∈ vs, Defining text v := by
    rintro s t _ ⟨v, rfl, hv⟩
    simpa using hv
  have hdefinitions := Match.Rounds.forall_mem hone hloop
  simp only [List.nil_append, List.append_nil]
  exact hdefinitions

private theorem shaped_definition : Shaped text "Definition" := by
  intro e s t vs he h
  obtain rfl := Option.some.inj he
  obtain ⟨span, _, -, ⟨_, us, _, hname, ⟨_, ms, _, harrow, ⟨_, ws, _, hbody, ⟨rfl, rfl⟩, rfl⟩, rfl⟩,
    rfl⟩, rfl⟩ := h
  obtain ⟨label, rfl, hl⟩ : One IsIdentifier us := hname
  obtain rfl := nil_of_puts (by decide) harrow
  obtain ⟨body, rfl, hb⟩ := one_of_puts (by decide) hbody
  exact ⟨_, rfl, span, label, body, rfl, hl, hb⟩

private theorem shaped_expression : Shaped text "Expression" := by
  refine shaped_of_one (by decide) rfl ?_
  intro s t vs h
  obtain ⟨span, _, -, ⟨_, us, _, hfirst, ⟨_, ws, _, hloop, ⟨rfl, rfl⟩, rfl⟩, rfl⟩, rfl⟩ := h
  obtain ⟨first, rfl, hf⟩ := one_of_puts (by decide) hfirst
  have hround : ∀ s t vs, Puts text (.sequence [.rule "SLASH", .rule "Sequence"]) s t vs →
      ∀ v ∈ vs, Written text v := by
    rintro s t _ ⟨_, ms, _, hslash, ⟨_, us, _, hitem, ⟨rfl, rfl⟩, rfl⟩, rfl⟩
    obtain rfl := nil_of_puts (by decide) hslash
    obtain ⟨item, rfl, hi⟩ := one_of_puts (by decide) hitem
    simpa using hi
  refine ⟨_, rfl, .choice ?_⟩
  simp only [List.append_nil, List.singleton_append, List.forall_mem_cons]
  exact ⟨hf, Match.Rounds.forall_mem hround hloop⟩

private theorem shaped_sequence : Shaped text "Sequence" := by
  refine shaped_of_one (by decide) rfl ?_
  intro s t vs h
  obtain ⟨span, _, -, ⟨_, ws, _, hloop, ⟨rfl, rfl⟩, rfl⟩, rfl⟩ := h
  have hround : ∀ s t vs, Puts text (.rule "Prefix") s t vs → ∀ v ∈ vs, Written text v := by
    intro s t vs hitem
    obtain ⟨item, rfl, hi⟩ := one_of_puts (by decide) hitem
    simpa using hi
  refine ⟨_, rfl, .sequence ?_⟩
  rw [List.append_nil]
  exact Match.Rounds.forall_mem hround hloop

private theorem shaped_prefix : Shaped text "Prefix" := by
  refine shaped_of_one (by decide) rfl ?_
  intro s t vs h
  obtain h | h | h | h := h
  · obtain ⟨span, _, -, ⟨_, ms, _, hmark, ⟨_, us, _, hitem, ⟨rfl, rfl⟩, rfl⟩, rfl⟩, rfl⟩ := h
    obtain rfl := puts_mark hmark
    obtain ⟨item, rfl, hi⟩ := one_of_puts (by decide) hitem
    exact ⟨_, rfl, .not hi⟩
  · obtain ⟨span, _, -, ⟨_, ms, _, hmark, ⟨_, us, _, hitem, ⟨rfl, rfl⟩, rfl⟩, rfl⟩, rfl⟩ := h
    obtain rfl := puts_mark hmark
    obtain ⟨item, rfl, hi⟩ := one_of_puts (by decide) hitem
    exact ⟨_, rfl, .hide hi⟩
  · exact one_of_puts (by decide) h
  · exact h.elim

private theorem shaped_suffix : Shaped text "Suffix" := by
  refine shaped_of_one (by decide) rfl ?_
  intro s t vs h
  obtain ⟨span, _, -, ⟨_, us, _, hitem, ⟨_, ws, _, hop, ⟨rfl, rfl⟩, rfl⟩, rfl⟩, rfl⟩ := h
  obtain ⟨item, rfl, hi⟩ := one_of_puts (by decide) hitem
  obtain ⟨rfl, rfl⟩ | hsign | hbounds | hnone := hop
  · exact ⟨_, rfl, .plain hi⟩
  · obtain ⟨op, w, u, hop, -, rfl⟩ := isToken_of_pattern denotes_signs hsign
    exact ⟨_, rfl, .sign hi hop⟩
  · obtain ⟨op, rfl, hop⟩ : One (Braced text) ws := hbounds
    exact ⟨_, rfl, .bounds hi hop⟩
  · exact hnone.elim

private theorem shaped_bounds : Shaped text "Bounds" := by
  intro e s t vs he h
  exact braced_of_gives skipped_of_puts he h

private theorem shaped_primary : Shaped text "Primary" := by
  refine shaped_of_one (by decide) rfl ?_
  intro s t vs h
  obtain h | h | h | h | h | h | h | h := h
  · exact one_of_puts (by decide) h
  · obtain ⟨_, us, _, hname, ⟨_, _, _, ⟨rfl, rfl⟩, ⟨rfl, rfl⟩, rfl⟩, rfl⟩ := h
    obtain ⟨v, rfl, w, hv⟩ : One IsIdentifier us := hname
    exact ⟨v, rfl, .word (by decide) hv⟩
  · obtain ⟨_, ms, _, hopen, ⟨_, us, _, hbody, ⟨_, ns, _, hclose, ⟨rfl, rfl⟩, rfl⟩, rfl⟩, rfl⟩ := h
    obtain rfl := nil_of_puts (by decide) hopen
    obtain rfl := nil_of_puts (by decide) hclose
    simpa using one_of_puts (by decide) hbody
  · exact one_of_puts (by decide) h
  · exact one_of_puts (by decide) h
  · exact one_of_puts (by decide) h
  · obtain ⟨u, rest, -, -, -, v, rfl, hv⟩ := literal_extent skipped_of_puts h
    exact ⟨v, rfl, .word (by decide) hv⟩
  · exact h.elim

private theorem shaped_label : Shaped text "Label" := by
  refine shaped_of_one (by decide) rfl ?_
  intro s t vs h
  obtain ⟨span, _, -, ⟨_, us, _, hname, ⟨_, ms, _, hmark, ⟨_, ns, _, hopen, ⟨_, ws, _, hbody,
    ⟨_, ls, _, hclose, ⟨rfl, rfl⟩, rfl⟩, rfl⟩, rfl⟩, rfl⟩, rfl⟩, rfl⟩ := h
  obtain ⟨label, rfl, hl⟩ : One IsIdentifier us := hname
  obtain rfl := puts_mark hmark
  obtain rfl := nil_of_puts (by decide) hopen
  obtain ⟨body, rfl, hb⟩ := one_of_puts (by decide) hbody
  obtain rfl := nil_of_puts (by decide) hclose
  exact ⟨_, rfl, .label hl hb⟩

private theorem shaped_identifier : Shaped text "Identifier" := by
  intro e s t vs he h
  obtain rfl := Option.some.inj he
  obtain ⟨v, w, u, hv, -, rfl⟩ := isToken_of_pattern denotes_identifier h
  exact ⟨v, rfl, w, hv⟩

private theorem shaped_literal : Shaped text "Literal" := by
  refine shaped_of_one (by decide) rfl ?_
  intro s t vs h
  obtain ⟨v, w, u, hv, ht, rfl⟩ := isToken_of_pattern denotes_literal (puts_or_throws h)
  exact ⟨v, rfl, .quoted (by decide) hv (shortest_le_length ht)⟩

private theorem shaped_class : Shaped text "Class" := by
  refine shaped_of_one (by decide) rfl ?_
  intro s t vs h
  obtain ⟨v, w, u, hv, -, rfl⟩ := isToken_of_pattern denotes_class (puts_or_throws h)
  exact ⟨v, rfl, .word (by decide) hv⟩

private theorem shaped_regex : Shaped text "Regex" := by
  refine shaped_of_one (by decide) rfl ?_
  intro s t vs h
  obtain ⟨v, w, u, hv, ht, rfl⟩ := isToken_of_pattern denotes_regex (puts_or_throws h)
  exact ⟨v, rfl, .quoted (by decide) hv (shortest_le_length ht)⟩

private theorem shaped_silent {name : Bytes} (hn : name ∈ silent) : Shaped text name := by
  intro e s t vs he h
  simp only [silent, List.mem_cons, List.not_mem_nil, or_false] at hn
  rcases hn with rfl | rfl | rfl | rfl | rfl <;> obtain rfl := Option.some.inj he
  · exact puts_mark h
  · exact puts_mark h
  · exact puts_mark h
  · exact puts_mark (puts_or_throw h)
  · obtain ⟨rfl, ws, hrounds⟩ := h
    rw [givesAll_singleton] at hrounds
    exact ⟨rfl, skipped_of_rounds hrounds⟩

/-- All rules of the notation have their shapes. -/
theorem shaped_rules : ∀ name ∈ rules.map (·.1), Shaped text name := by
  have hsilent : ∀ name ∈ silent, Shaped text name := fun _ hn => shaped_silent text hn
  simp only [silent, List.forall_mem_cons] at hsilent
  simp only [rules, List.map_cons, List.map_nil, List.forall_mem_cons]
  exact ⟨shaped_main text, shaped_definition text, shaped_expression text, shaped_sequence text,
    shaped_prefix text, shaped_suffix text, shaped_bounds text, shaped_primary text,
    shaped_label text, shaped_identifier text, shaped_literal text, shaped_class text,
    shaped_regex text, hsilent⟩

end

end PegMachine.Notation
