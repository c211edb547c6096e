import PegMachine.Notation.Builder
import PegMachine.Proofs.Evaluator.Parsing
import PegMachine.Proofs.Notation.Writable
import PegMachine.Proofs.Regex.Lexemes
import PegMachine.Proofs.Text.Decimal
import PegMachine.Proofs.Text.Quoted

namespace PegMachine.Notation

open Evaluator

theorem errors_eq : grammar.errors = [] := by decide +kernel

/-- The grammar of the notation is made of its rules. -/
theorem grammar_eq : grammar = { rules := rules } :=
  Grammar.ofRules_proper
    (Grammar.proper_of_foldl (g := {}) ⟨by simp, by simp, by simp⟩ errors_eq)

theorem rule?_grammarAt (name : Bytes) :
    (Family.grammarAt [grammar] 0).rule? name = rules.lookup name := by
  have hone (g : Grammar) : Family.grammarAt [g] 0 = g := rfl
  rw [hone, Grammar.rule?, grammar_eq]

abbrev Reads (text : Bytes) (e : Expr) (s t : Bytes) (vs : List Value) : Prop :=
  Parses [grammar] 0 text e s t vs

abbrev Refuses (text : Bytes) (e : Expr) (s : Bytes) : Prop := Rejects [grammar] 0 text e s

variable {text : Bytes} {e : Expr} {s t u w : Bytes} {vs : List Value}

theorem reads_rule {name : Bytes} (hr : rules.lookup name = some e) (h : Reads text e s t vs) :
    Reads text (.rule name) s t vs :=
  .rule ((rule?_grammarAt name).trans hr) h

theorem refuses_rule {name : Bytes} (hr : rules.lookup name = some e) (h : Refuses text e s) :
    Refuses text (.rule name) s :=
  .rule ((rule?_grammarAt name).trans hr) h

theorem refuses_either {e' : Expr} (h : Refuses text e s) (h' : Refuses text e' s) :
    Refuses text (.choice [e, e']) s := by
  refine .choice ?_
  intro x hx
  simp only [List.mem_cons, List.not_mem_nil, or_false] at hx
  rcases hx with rfl | rfl
  · exact h
  · exact h'

/-- What the source of a pattern is compiled to, tied to the start of a text. -/
structure Denotes (source : String) (r : Regex) : Prop where
  atStart : (Pattern.ofSource source).forms.atStart = some r.anchored
  plain : r.isPlain = true
  solid : r.isSolid = true

theorem reads_pattern {source : String} {r : Regex} (hd : Denotes source r)
    (h : r.Leaves (w ++ t) t) : Reads text (pattern source) (w ++ t) t
      [Value.ofText w ⟨place text (w ++ t), place text t⟩] := by
  refine .pattern ?_
  rw [Pattern.matchStart, hd.atStart, Option.bind_some, Regex.search_eq_some hd.plain h]
  simp

theorem refuses_pattern {source : String} {r : Regex} (hd : Denotes source r) {cls : CharClass}
    (h : StartsIn cls s) (hc : cls.isDisjoint r.firsts = true) :
    Refuses text (pattern source) s := by
  refine .pattern ?_
  rw [Pattern.matchStart, hd.atStart, Option.bind_some,
    Regex.search_eq_none hd.plain (Regex.not_takes hd.solid h hc)]

theorem refuses_literal {c : UInt8} {more : Bytes} (hw : w = c :: more) {cls : CharClass}
    (h : StartsIn cls s) (hd : cls.isDisjoint [(c.toNat, c.toNat)] = true) :
    Refuses text (.literal w) s := by
  refine .literal ?_
  rintro ⟨rest, rfl⟩
  have hc := CharClass.not_contains_of_isDisjoint hd (h c (by simp [hw])).2
  rw [CharClass.contains_single.2 rfl] at hc
  cases hc

/-- Characters of ASCII that are seen and begin no comment. -/
def solid : CharClass := [(33, 34), (36, 126)]

def blanks : Regex := .times 1 none (.one [(9, 10), (12, 13), (32, 32)])

theorem denotes_blanks : Denotes "\\s+" blanks := ⟨by decide +kernel, rfl, rfl⟩

def comment : Regex := .seq (.one [(35, 35)]) (.times 0 none (.one [(0, 9), (11, 1114111)]))

theorem denotes_comment : Denotes "#[^\\n]*" comment := ⟨by decide +kernel, rfl, rfl⟩

/-- At most one blank or newline in front of something that is seen. -/
inductive Gap : Bytes → Bytes → Prop where
  | none {t : Bytes} : Gap t t
  | blank {t : Bytes} : Gap (Ascii.blank :: t) t
  | newline {t : Bytes} : Gap (Ascii.newline :: t) t

variable (text) in
theorem refuses_spacing (h : StartsIn solid s) :
    Refuses text (.choice [pattern "\\s+", pattern "#[^\\n]*"]) s :=
  refuses_either (refuses_pattern denotes_blanks h (by decide))
    (refuses_pattern denotes_comment h (by decide))

private theorem reads_blank {b : UInt8} (hb : b < 0x80)
    (hc : CharClass.contains [(9, 10), (12, 13), (32, 32)] b.toNat = true) (h : StartsIn solid t) :
    Reads text (.rule "Spacing") (b :: t) t [] := by
  have hrun : blanks.Leaves ([b] ++ t) t :=
    .run (by simpa using ⟨hb, hc⟩) (by simp) h (by decide)
  have hfirst : Reads text (.choice [pattern "\\s+", pattern "#[^\\n]*"]) (b :: t) t _ :=
    .choice (.here (reads_pattern denotes_blanks hrun))
  have hloop := Parses.zeroOrMore (.round hfirst (by simp) (.stop (refuses_spacing text h)))
  exact reads_rule rfl (.hide (.cons hloop .nil))

theorem reads_spacing (hg : Gap u t) (h : StartsIn solid t) :
    Reads text (.rule "Spacing") u t [] := by
  cases hg with
  | none =>
    have hloop := Parses.zeroOrMore (.stop (refuses_spacing text h))
    exact reads_rule rfl (.hide (.cons hloop .nil))
  | blank => exact reads_blank (by decide) (by decide) h
  | newline => exact reads_blank (by decide) (by decide) h

theorem reads_mark {mark : String} (hw : (mark : Bytes) = w) (hg : Gap u t)
    (h : StartsIn solid t) : Reads text (Notation.mark mark) (w ++ u) t [] := by
  subst hw
  exact .hide (.cons (.literal _ u) (.cons (reads_spacing hg h) .nil))

theorem refuses_mark {mark : String} {c : UInt8} {more : Bytes} (hw : (mark : Bytes) = c :: more)
    {cls : CharClass} (h : StartsIn cls s) (hd : cls.isDisjoint [(c.toNat, c.toNat)] = true) :
    Refuses text (Notation.mark mark) s :=
  .hide (.head (refuses_literal hw h hd))

def IsToken (name w : Bytes) (v : Value) : Prop :=
  ∃ span inner, v = Value.ofItems name span [Value.ofText w inner]

theorem IsToken.content_eq {name : Bytes} {v : Value} (h : IsToken name w v) : v.content = w := by
  obtain ⟨span, inner, rfl⟩ := h
  exact List.append_nil w

theorem reads_token {name : String} {span : Span} (h : Reads text e s u [Value.ofText w span])
    (hg : Gap u t) (ht : StartsIn solid t) :
    ∃ v, IsToken name w v ∧ Reads text (token name e) s t [v] :=
  ⟨_, ⟨_, _, rfl⟩, .sequence (.cons (.wrap name (.cons h .nil)) (.cons (reads_spacing hg ht) .nil))⟩

theorem refuses_token {name : String} (h : Refuses text e s) : Refuses text (token name e) s :=
  .sequence (.head (.wrap (.head h)))

def initials : CharClass := [(65, 90), (95, 95), (97, 122)]

def wordClass : CharClass := [(48, 57), (65, 90), (95, 95), (97, 122)]

def identifier : Regex := .seq (.one initials) (.times 0 none (.one wordClass))

theorem denotes_identifier : Denotes "[A-Za-z_][A-Za-z0-9_]*" identifier :=
  ⟨by decide +kernel, rfl, rfl⟩

theorem contains_wordClass {b : UInt8} (h : Ascii.isWord b = true) :
    b < 0x80 ∧ wordClass.contains b.toNat = true := by
  simp only [Ascii.isWord, Ascii.isDigit, Ascii.isLetter, Ascii.underscore, Bool.or_eq_true,
    Bool.and_eq_true, decide_eq_true_eq, beq_iff_eq, UInt8.le_iff_toNat_le,
    ← UInt8.toNat_inj, UInt8.reduceToNat] at h
  simp only [wordClass, CharClass.contains, List.any_cons, List.any_nil, Bool.or_false,
    Bool.or_eq_true, Bool.and_eq_true, decide_eq_true_eq, UInt8.lt_iff_toNat_lt,
    UInt8.reduceToNat]
  omega

theorem contains_initials {b : UInt8} (h : Ascii.isWord b = true) (hd : Ascii.isDigit b = false) :
    initials.contains b.toNat = true := by
  have hw := (contains_wordClass h).2
  simp only [Ascii.isDigit, Bool.and_eq_false_iff, decide_eq_false_iff_not,
    UInt8.le_iff_toNat_le, UInt8.reduceToNat] at hd
  simp only [wordClass, initials, CharClass.contains, List.any_cons, List.any_nil, Bool.or_false,
    Bool.or_eq_true, Bool.and_eq_true, decide_eq_true_eq] at hw ⊢
  omega

theorem startsIn_identifier {name : Bytes} (h : isIdentifier name = true) (u : Bytes) :
    name ≠ [] ∧ StartsIn initials (name ++ u) := by
  cases name with
  | nil => cases h
  | cons b rest =>
    simp only [isIdentifier, List.all_cons, Bool.and_eq_true, Bool.not_eq_true'] at h
    exact ⟨by simp, .cons (contains_wordClass h.2.1).1 (contains_initials h.2.1 h.1)⟩

variable (text) in
/-- An identifier is read up to where something else stands. -/
theorem reads_identifier {name : Bytes} (hn : isIdentifier name = true) {cls : CharClass}
    (hu : StartsIn cls u) (hd : cls.isDisjoint wordClass = true) (hg : Gap u t)
    (ht : StartsIn solid t) :
    ∃ v, IsToken "Identifier" name v ∧ Reads text (.rule "Identifier") (name ++ u) t [v] := by
  have hl : identifier.Leaves (name ++ u) u := by
    cases name with
    | nil => cases hn
    | cons b rest =>
      simp only [isIdentifier, List.all_cons, Bool.and_eq_true, Bool.not_eq_true',
        List.all_eq_true] at hn
      exact .seq_one (contains_wordClass hn.2.1).1 (contains_initials hn.2.1 hn.1)
        (.run (fun b hb => contains_wordClass (hn.2.2 b hb)) (Nat.zero_le _) hu hd)
  obtain ⟨v, hv, hr⟩ := reads_token (reads_pattern denotes_identifier hl) hg ht
  exact ⟨v, hv, reads_rule rfl hr⟩

theorem refuses_identifier {cls : CharClass} (h : StartsIn cls s)
    (hd : cls.isDisjoint initials = true) : Refuses text (.rule "Identifier") s :=
  refuses_rule rfl (refuses_token (refuses_pattern denotes_identifier h hd))

/-- What may be written for one character between single quotes. -/
def quotable : Regex :=
  .alt (.one [(0, 38), (40, 91), (93, 1114111)])
    (.seq (.one [(92, 92)]) (.one [(0, 9), (11, 1114111)]))

def singleQuoted : Regex :=
  .seq (.one [(39, 39)]) (.seq (.times 0 none quotable) (.one [(39, 39)]))

def doubleQuoted : Regex :=
  .seq (.one [(34, 34)]) (.seq
    (.times 0 none (.alt (.one [(0, 33), (35, 91), (93, 1114111)])
      (.seq (.one [(92, 92)]) (.one [(0, 9), (11, 1114111)]))))
    (.one [(34, 34)]))

theorem denotes_literal :
    Denotes "'(?:[^'\\\\]|\\\\.)*'|\"(?:[^\"\\\\]|\\\\.)*\"" (.alt singleQuoted doubleQuoted) :=
  ⟨by decide +kernel, rfl, rfl⟩

private theorem denotes_quotes : Denotes "['\"]" (.one [(34, 34), (39, 39)]) :=
  ⟨by decide +kernel, rfl, rfl⟩

theorem contains_plain {c : Nat} (h : c ≠ 39) (h' : c ≠ 92) (hmax : c ≤ Utf8.maxRune) :
    CharClass.contains [(0, 38), (40, 91), (93, 1114111)] c = true := by
  simp only [Utf8.maxRune] at hmax
  simp only [CharClass.contains, List.any_cons, List.any_nil, Bool.or_false, Bool.or_eq_true,
    Bool.and_eq_true, decide_eq_true_eq]
  omega

/-- A character outside of ASCII is quoted as it is. -/
theorem takes_quotable_wide {b : UInt8} (h : 0x80 ≤ b) {s m : Bytes} :
    quotable.Takes (b :: s) m ↔ (b :: s).drop (Utf8.decodeAt b s).2 = m := by
  have hfirst : (Regex.one [(0, 38), (40, 91), (93, 1114111)]).Takes (b :: s) m ↔
      (b :: s).drop (Utf8.decodeAt b s).2 = m :=
    Regex.takes_one_wide (fun c hlo hhi => contains_plain (by omega) (by omega) hhi) h
  constructor
  · rintro (ht | ⟨m', hm', -⟩)
    · exact hfirst.1 ht
    · refine absurd hm' (Regex.not_takes_one_wide (fun c hc => ?_) h)
      rw [← Bool.not_eq_true, CharClass.contains_single]
      omega
  · exact fun ht => .inl (hfirst.2 ht)

private theorem takes_quotable_plain {b : UInt8} (h : b < 0x80) (hq : b ≠ Ascii.apostrophe)
    (hb : b ≠ Ascii.backslash) {s m : Bytes} : quotable.Takes (b :: s) m ↔ s = m := by
  have hlt := UInt8.lt_iff_toNat_lt.1 h
  constructor
  · rintro (ht | ⟨m', hm', -⟩)
    · exact ((Regex.takes_one_iff h).1 ht).2
    · have hc := ((Regex.takes_one_iff h).1 hm').1
      have hn : b.toNat = Ascii.backslash.toNat := CharClass.contains_single.1 hc
      exact absurd (UInt8.toNat.inj hn) hb
  · intro hs
    refine .inl ((Regex.takes_one_iff h).2 ⟨contains_plain ?_ ?_ ?_, hs⟩)
    · exact fun hn => hq (UInt8.toNat.inj hn)
    · exact fun hn => hb (UInt8.toNat.inj hn)
    · exact Nat.le_trans (Nat.le_of_lt hlt) (by decide)

private theorem takes_quotable_escaped
    {x : UInt8} (h : x < 0x80) (hx : x ≠ Ascii.newline) {s m : Bytes} :
    quotable.Takes (Ascii.backslash :: x :: s) m ↔ s = m := by
  have hlt := UInt8.lt_iff_toNat_lt.1 h
  have hne : x.toNat ≠ 10 := fun hn => hx (UInt8.toNat.inj hn)
  have hc : CharClass.contains [(0, 9), (11, 1114111)] x.toNat = true := by
    simp only [UInt8.reduceToNat] at hlt
    simp only [CharClass.contains, List.any_cons, List.any_nil, Bool.or_false, Bool.or_eq_true,
      Bool.and_eq_true, decide_eq_true_eq]
    omega
  constructor
  · rintro (ht | ⟨m', hm', ht⟩)
    · exact absurd ((Regex.takes_one_iff (by decide)).1 ht).1 (by decide)
    · obtain ⟨-, rfl⟩ := (Regex.takes_one_iff (by decide)).1 hm'
      exact ((Regex.takes_one_iff h).1 ht).2
  · intro hs
    exact .inr ⟨x :: s, (Regex.takes_one_iff (by decide)).2 ⟨by decide, rfl⟩,
      (Regex.takes_one_iff h).2 ⟨hc, hs⟩⟩

/-- What is written for the bytes of a literal is read one character at a time. -/
theorem writes_escape (w : Bytes) :
    Regex.Writes quotable Ascii.apostrophe Quoted.escapeByte w := by
  refine ⟨fun b _ hb => ?_, fun b hb => ⟨?_, fun s m => takes_quotable_wide hb⟩, by decide, ?_⟩
  · rcases Quoted.escapeByte_cases b with ⟨hslash, hquote, he⟩ | ⟨x, he, hx, hnew, -⟩
    · rw [he]
      exact ⟨⟨b, [], rfl, hb, hquote⟩, fun s m => takes_quotable_plain hb hquote hslash⟩
    · rw [he]
      exact ⟨⟨_, _, rfl, by decide, by decide⟩, fun s m => takes_quotable_escaped hx hnew⟩
  · exact Quoted.escapeByte_of_ge (UInt8.le_iff_toNat_le.1 hb)
  · intro s m
    have hstart : StartsIn [(39, 39)] (Ascii.apostrophe :: s) := .cons (by decide) (by decide)
    exact Regex.not_takes rfl hstart (by decide) m

variable (text) in
theorem reads_literal (w : Bytes) (hg : Gap u t) (ht : StartsIn solid t) :
    ∃ v, IsToken "Literal" ("'" ++ Quoted.escape w ++ "'") v ∧
      Reads text (.rule "Literal") ("'" ++ Quoted.escape w ++ "'" ++ u) t [v] := by
  have htext : ("'" : Bytes) ++ Quoted.escape w ++ ("'" : Bytes) ++ u =
      Ascii.apostrophe :: (Quoted.escape w ++ Ascii.apostrophe :: u) := by
    rw [List.append_assoc, List.append_assoc]
    rfl
  have hsingle : singleQuoted.Leaves
      (Ascii.apostrophe :: (Quoted.escape w ++ Ascii.apostrophe :: u)) u :=
    .seq_one (by decide) (by decide) ((writes_escape w).leaves u)
  have hstart : StartsIn [(39, 39)]
      (Ascii.apostrophe :: (Quoted.escape w ++ Ascii.apostrophe :: u)) :=
    .cons (by decide) (by decide)
  have hdouble := Regex.not_takes (r := doubleQuoted) rfl hstart (by decide)
  have hl := hsingle.alt_left hdouble
  rw [← htext] at hl
  obtain ⟨v, hv, hr⟩ := reads_token (reads_pattern denotes_literal hl) hg ht
  exact ⟨v, hv, reads_rule rfl (.choice (.here hr))⟩

theorem refuses_literals {cls : CharClass} (h : StartsIn cls s)
    (hd : cls.isDisjoint [(39, 39), (34, 34)] = true) : Refuses text (.rule "Literal") s := by
  have hd' : cls.isDisjoint [(34, 34), (39, 39)] = true := by
    simpa [CharClass.isDisjoint, and_comm] using hd
  exact refuses_rule rfl (refuses_either (refuses_token (refuses_pattern denotes_literal h hd))
    (.sequence (.head (refuses_pattern denotes_quotes h hd'))))

def bracketed : Regex :=
  .seq (.one [(91, 91)]) (.seq
    (.times 0 none (.alt (.one [(0, 91), (94, 1114111)])
      (.seq (.one [(92, 92)]) (.one [(0, 9), (11, 1114111)]))))
    (.one [(93, 93)]))

theorem denotes_class : Denotes "\\[(?:[^\\]\\\\]|\\\\.)*\\]" bracketed :=
  ⟨by decide +kernel, rfl, rfl⟩

theorem refuses_class {cls : CharClass} (h : StartsIn cls s)
    (hd : cls.isDisjoint [(91, 91)] = true) :
    Refuses text (.rule "Class") s :=
  refuses_rule rfl (refuses_either (refuses_token (refuses_pattern denotes_class h hd))
    (.sequence (.head (refuses_literal (c := 91) rfl h hd))))

def untickedClass : CharClass := [(0, 95), (97, 1114111)]

def ticked : Regex :=
  .seq (.one [(96, 96)]) (.seq (.times 0 none (.one untickedClass)) (.one [(96, 96)]))

theorem denotes_regex : Denotes "`[^`]*`" ticked := ⟨by decide +kernel, rfl, rfl⟩

private theorem contains_untickedClass {c : Nat} (h : c ≠ 96) (hmax : c ≤ Utf8.maxRune) :
    untickedClass.contains c = true := by
  simp only [Utf8.maxRune] at hmax
  simp only [untickedClass, CharClass.contains, List.any_cons, List.any_nil, Bool.or_false,
    Bool.or_eq_true, Bool.and_eq_true, decide_eq_true_eq]
  omega

private theorem writes_source {source : Bytes} (h : backtick ∉ source) :
    Regex.Writes (.one untickedClass) backtick (fun b => [b]) source := by
  refine ⟨fun b hb hlt => ?_, fun b hb => ⟨rfl, fun s m => ?_⟩, by decide, ?_⟩
  · have hne : b ≠ backtick := fun hb' => h (hb' ▸ hb)
    refine ⟨⟨b, [], rfl, hlt, hne⟩, ?_⟩
    intro s m
    have hc : untickedClass.contains b.toNat = true := by
      refine contains_untickedClass (fun hn => hne (UInt8.toNat.inj hn)) ?_
      exact Nat.le_trans (Nat.le_of_lt (UInt8.lt_iff_toNat_lt.1 hlt)) (by decide)
    rw [List.singleton_append, Regex.takes_one_iff hlt]
    exact and_iff_right hc
  · exact Regex.takes_one_wide (fun c hlo hhi => contains_untickedClass (by omega) hhi) hb
  · intro s m hm
    exact absurd ((Regex.takes_one_iff (by decide)).1 hm).1 (by decide)

variable (text) in
theorem reads_regex {source : Bytes} (h : backtick ∉ source) (hg : Gap u t)
    (ht : StartsIn solid t) :
    ∃ v, IsToken "Regex" ("`" ++ source ++ "`") v ∧
      Reads text (.rule "Regex") ("`" ++ source ++ "`" ++ u) t [v] := by
  have htext : ("`" : Bytes) ++ source ++ ("`" : Bytes) ++ u =
      backtick :: (source.flatMap (fun b => [b]) ++ backtick :: u) := by
    rw [List.append_assoc, List.append_assoc, List.flatMap_singleton']
    rfl
  have hl : ticked.Leaves (backtick :: (source.flatMap (fun b => [b]) ++ backtick :: u)) u :=
    .seq_one (by decide) (by decide) ((writes_source h).leaves u)
  rw [← htext] at hl
  obtain ⟨v, hv, hr⟩ := reads_token (reads_pattern denotes_regex hl) hg ht
  exact ⟨v, hv, reads_rule rfl (.choice (.here hr))⟩

theorem refuses_regex {cls : CharClass} (h : StartsIn cls s)
    (hd : cls.isDisjoint [(96, 96)] = true) :
    Refuses text (.rule "Regex") s :=
  refuses_rule rfl (refuses_either (refuses_token (refuses_pattern denotes_regex h hd))
    (.sequence (.head (refuses_literal (c := 96) rfl h hd))))

end PegMachine.Notation
