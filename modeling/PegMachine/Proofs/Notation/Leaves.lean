import PegMachine.Proofs.Notation.RoundTrip

namespace PegMachine

/-- A text is read as a grammar, given enough steps. -/
def Grammar.ReadsAs (text : Bytes) (g : Grammar) : Prop :=
  ∃ enough, ∀ fuel, enough ≤ fuel → Grammar.read fuel text = some (.value g)

namespace Notation

/-- A name with an operand behind the arrow is read as the one rule that it defines. -/
theorem readsAs_of_operand {name r : Bytes} {e : Expr} (hn : isIdentifier name = true)
    (hr : Begins operandStarts r) (h : ∀ text, ReadsOperand text r e) :
    Grammar.ReadsAs (name ++ " <- " ++ r) (({} : Grammar).define name e) := by
  obtain ⟨text, htext⟩ : ∃ text : Bytes, text =
      name ++ Ascii.blank :: Ascii.less :: Ascii.hyphen :: Ascii.blank :: (r ++ []) := ⟨_, rfl⟩
  obtain ⟨label, body, span, hlabel, hb, hread⟩ :=
    reads_definition_of_alternatives hn (hr.mono (by decide))
      (((h text).items hr).alternatives) (.tight .nil) .nil (refuses_primary .nil)
  rw [← htext] at hread
  have hpos : ([] : Bytes).length < text.length := by
    simp only [htext, List.length_append, List.length_cons, List.length_nil]
    omega
  have hmain := reads_main_of_definitions (htext ▸ (startsIn_identifier hn _).2)
    (.round hread hpos (.stop refuses_definition_at_end)) (Nat.succ_pos 0) (by decide)
  obtain ⟨enough, heval⟩ := evaluate_of_reads hmain
  have hsame : name ++ " <- " ++ r = text := by
    rw [htext, List.append_nil, List.append_assoc]
    rfl
  rw [hsame]
  refine ⟨enough, ?_⟩
  intro fuel hle
  rw [Grammar.read, heval fuel hle, Option.map_some]
  simp only [List.singleton_append, define_cons hb, hlabel]
  rfl

end Notation

namespace Grammar

open Notation

private theorem Defined.of_define {g h : Grammar} {vs : List Value} (hg : g.Defined)
    (hd : Notation.define g vs = .value h) : h.Defined := by
  fun_induction Notation.define g vs with
  | case1 =>
    cases hd
    exact hg
  | case2 | case3 | case5 | case6 => cases hd
  | case4 g span label body notes vs e hb ih => exact ih (hg.define _ _) hd

/-- What is read was built by defining rules. -/
theorem defined_of_read {fuel : Nat} {text : Bytes} {g : Grammar}
    (h : Grammar.read fuel text = some (.value g)) : g.Defined := by
  obtain ⟨answer, -, hanswer⟩ := Option.map_eq_some_iff.1 h
  cases answer with
  | value vs => exact Defined.of_define ⟨[], rfl⟩ hanswer
  | error | fault => cases hanswer

/-- A flawless leaf is a rule of its own. -/
theorem define_flawless {name : Bytes} {e : Expr} (hn : isIdentifier name = true)
    (he : e.Flawless) : ({} : Grammar).define name e = { rules := [(name, e)] } :=
  define_proper {} (startsIn_identifier hn []).1 (by simp [names]) he

/-- A printed literal is read with its characters encoded again. -/
theorem readsAs_literal {name : Bytes} (hn : isIdentifier name = true) (w : Bytes) :
    ReadsAs (renderRule (name, .literal w)) { rules := [(name, .literal (Utf8.repair w))] } := by
  have hstart : Begins operandStarts ((Expr.literal w).renderAt .operand) :=
    ⟨39, _, rfl, by decide, by decide⟩
  have hreads := readsAs_of_operand hn hstart fun text _ _ hf => reads_primary_literal w hf
  have hflawless : (Expr.literal (Utf8.repair w)).Flawless := ⟨rfl, rfl⟩
  rwa [define_flawless hn hflawless] at hreads

private theorem readsAs_pattern {name : Bytes} (hn : isIdentifier name = true) {p : Pattern}
    (hp : backtick ∉ p.source) (hflawless : (Expr.pattern p).Flawless) :
    ReadsAs (renderRule (name, .pattern p)) { rules := [(name, .pattern p)] } := by
  have hstart : Begins operandStarts ((Expr.pattern p).renderAt .operand) :=
    ⟨96, _, rfl, by decide, by decide⟩
  have hreads := readsAs_of_operand hn hstart fun text _ _ hf => reads_primary_regex hp hf
  rwa [define_flawless hn hflawless] at hreads

/-- The leaves of a text that is read without an error, each printed as the body of a rule, are
read again. A literal is read with its characters encoded again, which makes a difference where it
is not well-formed, and a pattern without a backtick is read as it was. -/
theorem read_leaf {fuel : Nat} {text : Bytes} {g : Grammar}
    (hread : Grammar.read fuel text = some (.value g)) (herror : g.error? = none)
    {rule : Bytes × Expr} (hr : rule ∈ g.rules) {name : Bytes} (hn : isIdentifier name = true) :
    (∀ w, .literal w ∈ rule.2.parts →
      ReadsAs (renderRule (name, .literal w)) { rules := [(name, .literal (Utf8.repair w))] } ∧
        (Utf8.repair w = w ↔ Utf8.isWellFormed w = true)) ∧
    ∀ p, .pattern p ∈ rule.2.parts → backtick ∉ p.source →
      ReadsAs (renderRule (name, .pattern p)) { rules := [(name, .pattern p)] } := by
  refine ⟨fun w _ => ⟨readsAs_literal hn w, Utf8.repair_eq_self_iff w⟩, ?_⟩
  intro p hp hbacktick
  have herrors : g.errors = [] := by simpa [error?] using herror
  have hproper := (defined_of_read hread).proper herrors
  exact readsAs_pattern hn hbacktick ((hproper.flawless rule hr).part hp)

def isLiteral (w : Bytes) : Expr → Bool
  | .literal v => v == w
  | _ => false

def isPattern (source : Bytes) : Expr → Bool
  | .pattern p => p.source == source
  | _ => false

private theorem mem_literal {w : Bytes} {es : List Expr} (h : es.any (isLiteral w) = true) :
    .literal w ∈ es := by
  obtain ⟨e, he, hw⟩ := List.any_eq_true.1 h
  cases e with
  | literal v => exact beq_iff_eq.1 hw ▸ he
  | missing | pattern | rule | sequence | choice | iterate | wrap | hide | embed | action => cases hw

private theorem mem_pattern
    {source : Bytes} {es : List Expr} (h : es.any (isPattern source) = true) :
    .pattern (Pattern.ofSource source) ∈ es := by
  obtain ⟨e, he, hp⟩ := List.any_eq_true.1 h
  cases e with
  | pattern p =>
    obtain rfl : p = Pattern.ofSource source := Pattern.ext (beq_iff_eq.1 hp)
    exact he
  | missing | literal | rule | sequence | choice | iterate | wrap | hide | embed | action => cases hp

/-- Whether an answer is a grammar without an error that has a rule with such a body. -/
def hasRule (test : Expr → Bool) : Option (Answer Grammar) → Bool
  | some (.value g) => g.errors.isEmpty && g.rules.any (test ·.2)
  | _ => false

theorem of_hasRule {test : Expr → Bool} {answer : Option (Answer Grammar)}
    (h : hasRule test answer = true) : ∃ g, answer = some (.value g) ∧ g.error? = none ∧
      ∃ rule ∈ g.rules, test rule.2 = true := by
  unfold hasRule at h
  split at h
  · next g =>
    obtain ⟨herrors, hany⟩ := Bool.and_eq_true_iff.1 h
    refine ⟨g, rfl, ?_, List.any_eq_true.1 hany⟩
    simpa [error?] using herrors
  · cases h

/-- A rule with a byte that is no character, a class that holds a backtick and any character. -/
def strangeLeaves : Bytes := "A <- '\\xff' [`] ."

theorem read_strangeLeaves : ∃ g, Grammar.read 350 strangeLeaves = some (.value g) ∧
    g.error? = none ∧ ∃ rule ∈ g.rules, .literal [0xFF] ∈ rule.2.parts ∧
      .pattern (Pattern.ofSource "[`]") ∈ rule.2.parts ∧
      .pattern (Pattern.ofSource "(?s).") ∈ rule.2.parts := by
  have hhas : hasRule (fun e => e.parts.any (isLiteral [0xFF]) && e.parts.any (isPattern "[`]")
      && e.parts.any (isPattern "(?s).")) (Grammar.read 350 strangeLeaves) = true := by
    decide +kernel
  obtain ⟨g, hread, herror, rule, hr, htest⟩ := of_hasRule hhas
  obtain ⟨htest, hany⟩ := Bool.and_eq_true_iff.1 htest
  obtain ⟨hliteral, hclass⟩ := Bool.and_eq_true_iff.1 htest
  exact ⟨g, hread, herror, rule, hr, mem_literal hliteral, mem_pattern hclass, mem_pattern hany⟩

/-- Two of the leaves are read again, the first of them as another literal. -/
theorem read_leaf_strangeLeaves : ∃ g, Grammar.read 350 strangeLeaves = some (.value g) ∧
    g.error? = none ∧ ∃ rule ∈ g.rules, .literal [0xFF] ∈ rule.2.parts ∧
      .pattern (Pattern.ofSource "(?s).") ∈ rule.2.parts ∧
      ReadsAs (renderRule ("B", .literal [0xFF])) { rules := [("B", .literal [0xEF, 0xBF, 0xBD])] } ∧
      ReadsAs (renderRule ("B", .pattern (Pattern.ofSource "(?s).")))
        { rules := [("B", .pattern (Pattern.ofSource "(?s)."))] } := by
  obtain ⟨g, hread, herror, rule, hr, hliteral, -, hany⟩ := read_strangeLeaves
  have hname : isIdentifier "B" = true := by decide
  have hleaf := read_leaf hread herror hr hname
  exact ⟨g, hread, herror, rule, hr, hliteral, hany, (hleaf.1 _ hliteral).1,
    hleaf.2 _ hany (by decide)⟩

def isFailure : Option (Answer Grammar) → Bool
  | some (.error (.failure _)) => true
  | _ => false

/-- Two of the leaves do not come back: the byte is read as the replacement character, and the
class is not read at all. -/
theorem leaves_lost :
    (∃ g, Grammar.read 350 strangeLeaves = some (.value g) ∧ g.error? = none ∧
      ∃ rule ∈ g.rules, .literal [0xFF] ∈ rule.2.parts ∧
        .pattern (Pattern.ofSource "[`]") ∈ rule.2.parts) ∧
    ReadsAs (renderRule ("A", .literal [0xFF])) { rules := [("A", .literal [0xEF, 0xBF, 0xBD])] } ∧
    isFailure (Grammar.read 300 (renderRule ("A", .pattern (Pattern.ofSource "[`]")))) = true := by
  obtain ⟨g, hread, herror, rule, hr, hliteral, hclass, -⟩ := read_strangeLeaves
  exact ⟨⟨g, hread, herror, rule, hr, hliteral, hclass⟩, readsAs_literal (by decide) _,
    by decide +kernel⟩

end Grammar

end PegMachine
