import PegMachine.Proofs.Notation.Suffixes

namespace PegMachine.Notation

open Evaluator

/-- What an operand may start with: a quote, a parenthesis, a backtick or a name. -/
def operandStarts : CharClass := [(39, 40), (65, 90), (95, 96), (97, 122)]

def itemStarts : CharClass := [(33, 33), (39, 40), (65, 90), (95, 96), (97, 122), (126, 126)]

/-- What may come behind an item: another one, a slash or a closing parenthesis. -/
def itemEnds : CharClass := [(33, 33), (39, 41), (47, 47), (65, 90), (95, 96), (97, 122), (126, 126)]

/-- What may come behind an operand: what may come behind an item, or a repetition. -/
def operandEnds : CharClass :=
  [(33, 33), (39, 43), (47, 47), (63, 63), (65, 90), (95, 96), (97, 123), (126, 126)]

/-- What cannot be part of a name. -/
def edges : CharClass := [(0, 47), (58, 64), (91, 94), (96, 96), (123, 127)]

/-- The text `u` may stand behind an operand, and `t` is what is left after the spacing. -/
structure Follows (u t : Bytes) : Prop where
  gap : Gap u t
  edge : StartsIn edges u
  next : StartsIn operandEnds t

namespace Follows

variable {t : Bytes}

theorem blank (h : StartsIn operandEnds t) : Follows (Ascii.blank :: t) t :=
  ⟨.blank, .cons (by decide) (by decide), h⟩

theorem newline (h : StartsIn operandEnds t) : Follows (Ascii.newline :: t) t :=
  ⟨.newline, .cons (by decide) (by decide), h⟩

theorem tight (h : StartsIn [(41, 43), (63, 63), (123, 123)] t) : Follows t t :=
  ⟨.none, h.mono (by decide), h.mono (by decide)⟩

theorem solid {u : Bytes} (h : Follows u t) : StartsIn solid t := h.next.mono (by decide)

end Follows

variable {text : Bytes} {s t u m : Bytes} {v x : Value} {vs : List Value} {e : Expr}

theorem refuses_label {cls : CharClass} (h : StartsIn cls s)
    (hd : cls.isDisjoint initials = true) : Refuses text (.rule "Label") s :=
  refuses_rule rfl (.wrap (.head (refuses_identifier h hd)))

theorem refuses_named {cls : CharClass} (h : StartsIn cls s)
    (hd : cls.isDisjoint initials = true) :
    Refuses text (.sequence [.rule "Identifier", Expr.not [.rule "LEFTARROW"]]) s :=
  .sequence (.head (refuses_identifier h hd))

theorem refuses_group {cls : CharClass} (h : StartsIn cls s)
    (hd : cls.isDisjoint [(40, 40)] = true) :
    Refuses text (.sequence [.rule "OPEN", .rule "Expression", .rule "CLOSE"]) s :=
  .sequence (.head (refuses_rule rfl (refuses_mark (c := 40) rfl h hd)))

private theorem refuses_any {cls : CharClass} (h : StartsIn cls s)
    (hd : cls.isDisjoint [(46, 46)] = true) : Refuses text (token "Any" (.literal ".")) s :=
  refuses_token (refuses_literal (c := Ascii.dot) rfl h hd)

theorem build_identifier {name : Bytes} (h : IsToken "Identifier" name v) :
    build v = .ok (.rule name) := by
  obtain ⟨span, inner, rfl⟩ := h
  have hc : (Value.node "Identifier" span [Value.ofText name inner] []).content = name :=
    List.append_nil name
  rw [Value.ofItems, build, hc]
  rfl

/-- A name is a reference where no arrow comes behind it. -/
theorem reads_reference {name : Bytes} (hn : isIdentifier name = true) (h : Follows u t) :
    ∃ v, Reads text (.rule "Primary") (name ++ u) t [v] ∧ build v = .ok (.rule name) := by
  obtain ⟨v, hv, hr⟩ := reads_identifier text hn h.edge (by decide) h.gap h.solid
  have hlabel : Refuses text (.rule "Label") (name ++ u) :=
    refuses_rule rfl (.wrap (.tail hr (.head (refuses_mark (c := Ascii.colon) rfl h.next
      (by decide)))))
  have harrow : Refuses text (.rule "LEFTARROW") t :=
    refuses_rule rfl (refuses_mark (c := Ascii.less) rfl h.next (by decide))
  have hnamed : Reads text (.sequence [.rule "Identifier", Expr.not [.rule "LEFTARROW"]])
      (name ++ u) t [v] := .sequence (.cons hr (.cons (.not harrow) .nil))
  exact ⟨v, reads_rule rfl (.choice (.next hlabel (.here hnamed))), build_identifier hv⟩

theorem reads_open (h : StartsIn solid s) :
    Reads text (.rule "OPEN") (0x28 :: s) s [] :=
  reads_rule rfl (reads_mark (w := [0x28]) rfl .none h)

theorem reads_close (h : Follows u t) : Reads text (.rule "CLOSE") (0x29 :: u) t [] :=
  reads_rule rfl (.choice (.here (reads_mark (w := [0x29]) rfl h.gap h.solid)))

theorem reads_group (hs : StartsIn solid s)
    (h : Reads text (.rule "Expression") s (0x29 :: u) [x]) (hf : Follows u t) :
    Reads text (.rule "Primary") (0x28 :: s) t [x] := by
  have hstart : StartsIn [(40, 40)] (0x28 :: s) := .cons (by decide) (by decide)
  have hgroup : Reads text (.sequence [.rule "OPEN", .rule "Expression", .rule "CLOSE"])
      (0x28 :: s) t [x] :=
    .sequence (.cons (reads_open hs) (.cons h (.cons (reads_close hf) .nil)))
  exact reads_rule rfl (.choice (.next (refuses_label hstart (by decide))
    (.next (refuses_named hstart (by decide)) (.here hgroup))))

/-- A name with a colon labels what is in the parentheses behind it. -/
theorem reads_label {name : Bytes} (hn : isIdentifier name = true) (hs : StartsIn solid s)
    (h : Reads text (.rule "Expression") s (0x29 :: u) [x]) (hx : build x = .ok e)
    (hf : Follows u t) :
    ∃ v, Reads text (.rule "Primary") (name ++ Ascii.colon :: 0x28 :: s) t [v] ∧
      build v = .ok (.wrap name [e]) := by
  obtain ⟨label, hlabel, hr⟩ := reads_identifier text hn
    (.cons (by decide) (by decide) : StartsIn edges (Ascii.colon :: 0x28 :: s)) (by decide) .none
    (.cons (by decide) (by decide))
  have hcolon : Reads text (mark ":") (Ascii.colon :: 0x28 :: s) (0x28 :: s) [] :=
    reads_mark (w := [Ascii.colon]) rfl .none (.cons (by decide) (by decide))
  have hall := Parses.wrap "Label"
    (.cons hr (.cons hcolon (.cons (reads_open hs) (.cons h (.cons (reads_close hf) .nil)))))
  refine ⟨_, reads_rule rfl (.choice (.here (reads_rule rfl hall))), ?_⟩
  have hb : build (Value.node "Label" ⟨place text (name ++ Ascii.colon :: 0x28 :: s),
      place text t⟩ [label, x] []) = (build x).bind fun e => .ok (.wrap label.content [e]) := rfl
  refine hb.trans ?_
  rw [hx, hlabel.content_eq]
  rfl

theorem inside_marks (c d : UInt8) (body : Bytes) : inside (c :: (body ++ [d])) = .ok body := by
  simp [inside]

private theorem build_literal
    {w : Bytes} (h : IsToken "Literal" ("'" ++ Quoted.escape w ++ "'") v) :
    build v = .ok (.literal (Utf8.repair w)) := by
  have hc := h.content_eq
  have htext : ("'" : Bytes) ++ Quoted.escape w ++ ("'" : Bytes) =
      Ascii.apostrophe :: (Quoted.escape w ++ [Ascii.apostrophe]) := rfl
  obtain ⟨span, inner, rfl⟩ := h
  have hb : build (Value.ofItems "Literal" span
      [Value.ofText ("'" ++ Quoted.escape w ++ "'") inner]) = literal (Value.ofItems "Literal" span
      [Value.ofText ("'" ++ Quoted.escape w ++ "'") inner]).content := rfl
  rw [hb, hc, htext, literal, inside_marks]
  simp only [bind, Except.bind, List.headD_cons, Quoted.unquote?_escape]

private theorem build_regex {p : Pattern} (h : IsToken "Regex" ("`" ++ p.source ++ "`") v) :
    build v = .ok (.pattern p) := by
  have hc := h.content_eq
  have htext : ("`" : Bytes) ++ p.source ++ ("`" : Bytes) =
      backtick :: (p.source ++ [backtick]) := rfl
  obtain ⟨span, inner, rfl⟩ := h
  have hb : build (Value.ofItems "Regex" span [Value.ofText ("`" ++ p.source ++ "`") inner]) =
      (inside (Value.ofItems "Regex" span
        [Value.ofText ("`" ++ p.source ++ "`") inner]).content).bind
          fun source => .ok (.pattern (Pattern.ofSource source)) := rfl
  rw [hb, hc, htext, inside_marks]
  exact congrArg (fun p => Except.ok (Expr.pattern p)) (Pattern.ext rfl)

theorem reads_primary_literal (w : Bytes) (h : Follows u t) :
    ∃ v, Reads text (.rule "Primary") ("'" ++ Quoted.escape w ++ "'" ++ u) t [v] ∧
      build v = .ok (.literal (Utf8.repair w)) := by
  have hstart : StartsIn [(39, 39)] ("'" ++ Quoted.escape w ++ "'" ++ u) :=
    .cons (b := Ascii.apostrophe) (by decide) (by decide)
  obtain ⟨v, hv, hr⟩ := reads_literal text w h.gap h.solid
  refine ⟨v, reads_rule rfl (.choice (.next (refuses_label hstart (by decide))
    (.next (refuses_named hstart (by decide)) (.next (refuses_group hstart (by decide))
      (.here hr))))), build_literal hv⟩

theorem reads_primary_regex {p : Pattern} (hp : backtick ∉ p.source) (h : Follows u t) :
    ∃ v, Reads text (.rule "Primary") ("`" ++ p.source ++ "`" ++ u) t [v] ∧
      build v = .ok (.pattern p) := by
  have hstart : StartsIn [(96, 96)] ("`" ++ p.source ++ "`" ++ u) :=
    .cons (b := backtick) (by decide) (by decide)
  obtain ⟨v, hv, hr⟩ := reads_regex text hp h.gap h.solid
  refine ⟨v, reads_rule rfl (.choice (.next (refuses_label hstart (by decide))
    (.next (refuses_named hstart (by decide)) (.next (refuses_group hstart (by decide))
      (.next (refuses_literals hstart (by decide)) (.next (refuses_class hstart (by decide))
        (.here hr))))))), build_regex hv⟩

/-- What neither starts with a name that is used nor with a mark starts no expression. -/
theorem refuses_unnamed (hlabel : Refuses text (.rule "Label") s)
    (hnamed : Refuses text (.sequence [.rule "Identifier", Expr.not [.rule "LEFTARROW"]]) s)
    (h : StartsIn [(41, 41), (47, 47), (65, 90), (95, 95), (97, 122)] s) :
    Refuses text (.rule "Primary") s := by
  refine refuses_rule rfl (.choice ?_)
  intro e he
  simp only [List.mem_cons, List.not_mem_nil, or_false] at he
  rcases he with rfl | rfl | rfl | rfl | rfl | rfl | rfl
  · exact hlabel
  · exact hnamed
  · exact refuses_group h (by decide)
  · exact refuses_literals h (by decide)
  · exact refuses_class h (by decide)
  · exact refuses_regex h (by decide)
  · exact refuses_any h (by decide)

/-- What comes behind the items of a sequence starts no expression. -/
theorem refuses_primary (h : StartsIn [(41, 41), (47, 47)] s) :
    Refuses text (.rule "Primary") s :=
  refuses_unnamed (refuses_label h (by decide)) (refuses_named h (by decide)) (h.mono (by decide))

theorem reads_arrow (h : StartsIn solid s) :
    Reads text (.rule "LEFTARROW") (Ascii.less :: Ascii.hyphen :: Ascii.blank :: s) s [] :=
  reads_rule rfl (reads_mark (w := [Ascii.less, Ascii.hyphen]) rfl .blank h)

/-- A name with an arrow behind it begins the next definition, so it starts no expression. -/
theorem refuses_definition {name : Bytes} (hn : isIdentifier name = true)
    (hs : StartsIn solid s) : Refuses text (.rule "Primary")
      (name ++ Ascii.blank :: Ascii.less :: Ascii.hyphen :: Ascii.blank :: s) := by
  have h : StartsIn initials (name ++ Ascii.blank :: Ascii.less :: Ascii.hyphen :: Ascii.blank :: s) :=
    (startsIn_identifier hn _).2
  have harrow : StartsIn [(60, 60)] (Ascii.less :: Ascii.hyphen :: Ascii.blank :: s) :=
    .cons (by decide) (by decide)
  obtain ⟨v, -, hr⟩ := reads_identifier text hn
    (.cons (by decide) (by decide) : StartsIn edges
      (Ascii.blank :: Ascii.less :: Ascii.hyphen :: Ascii.blank :: s)) (by decide) .blank
    (harrow.mono (by decide))
  -- the name is read, but what stands behind it makes neither a label nor a reference of it
  have hlabel : Refuses text (.rule "Label") _ :=
    refuses_rule rfl (.wrap (.tail hr (.head (refuses_mark (c := Ascii.colon) rfl harrow
      (by decide)))))
  have hnamed : Refuses text (.sequence [.rule "Identifier", Expr.not [.rule "LEFTARROW"]]) _ :=
    .sequence (.tail hr (.head (.not (reads_arrow hs))))
  exact refuses_unnamed hlabel hnamed (h.mono (by decide))

private theorem refuses_repetition (h : StartsIn itemEnds s) : Refuses text repetition s :=
  refuses_either (refuses_token (refuses_pattern denotes_signs h (by decide)))
    (refuses_rule rfl (.wrap (.head (refuses_mark (c := Ascii.openBrace) rfl h (by decide)))))

theorem reads_operand (h : Reads text (.rule "Primary") s t [x]) (ht : StartsIn itemEnds t) :
    ∃ v, Reads text (.rule "Suffix") s t [v] ∧ build v = build x :=
  ⟨_, reads_rule rfl (.wrap "Suffix" (.cons h
    (.cons (.optional_none (refuses_repetition ht)) .nil))), rfl⟩

theorem reads_repeated {kind : Repetition} {y : Value} (h : Reads text (.rule "Primary") s m [x])
    (hx : build x = .ok e) (hr : Reads text repetition m t [y]) (hy : suffix y = .ok kind) :
    ∃ v, Reads text (.rule "Suffix") s t [v] ∧ build v = .ok (.iterate kind e) := by
  refine ⟨_, reads_rule rfl (.wrap "Suffix" (.cons h (.cons (.optional hr) .nil))), ?_⟩
  have hb : build (Value.ofItems "Suffix" ⟨place text s, place text t⟩ ([x] ++ ([y] ++ []))) =
      (build x).bind fun item => (suffix y).bind fun kind => .ok (.iterate kind item) := rfl
  rw [hb, hx, hy]
  rfl

private theorem refuses_suffix (h : Refuses text (.rule "Primary") s) :
    Refuses text (.rule "Suffix") s :=
  refuses_rule rfl (.wrap (.head h))

theorem reads_item {cls : CharClass} (hs : StartsIn cls s)
    (hd : cls.isDisjoint [(33, 33)] = true) (hd' : cls.isDisjoint [(126, 126)] = true)
    (h : Reads text (.rule "Suffix") s t [x]) : Reads text (.rule "Prefix") s t [x] :=
  reads_rule rfl (.choice (.next (.wrap (.head (refuses_mark (c := 33) rfl hs hd)))
    (.next (.wrap (.head (refuses_mark (c := 126) rfl hs hd'))) (.here h))))

theorem reads_negation (hs : StartsIn solid s) (h : Reads text (.rule "Suffix") s t [x])
    (hx : build x = .ok e) :
    ∃ v, Reads text (.rule "Prefix") (33 :: s) t [v] ∧ build v = .ok (.iterate .not e) := by
  have hmark : Reads text (mark "!") (33 :: s) s [] := reads_mark (w := [33]) rfl .none hs
  refine ⟨_, reads_rule rfl (.choice (.here (.wrap "Not" (.cons hmark (.cons h .nil))))), ?_⟩
  have hb : build (Value.ofItems "Not" ⟨place text (33 :: s), place text t⟩ ([] ++ ([x] ++ []))) =
      (build x).bind fun item => .ok (Expr.not [item]) := rfl
  rw [hb, hx]
  rfl

theorem reads_hidden (hs : StartsIn solid s) (h : Reads text (.rule "Suffix") s t [x])
    (hx : build x = .ok e) :
    ∃ v, Reads text (.rule "Prefix") (126 :: s) t [v] ∧ build v = .ok (.hide [e]) := by
  have hmark : Reads text (mark "~") (126 :: s) s [] := reads_mark (w := [126]) rfl .none hs
  have hno : Refuses text (.wrap "Not" [mark "!", .rule "Suffix"]) (126 :: s) :=
    .wrap (.head (refuses_mark (c := 33) rfl
      (.cons (by decide) (by decide) : StartsIn [(126, 126)] _) (by decide)))
  refine ⟨_, reads_rule rfl (.choice (.next hno
    (.here (.wrap "Hide" (.cons hmark (.cons h .nil)))))), ?_⟩
  have hb : build (Value.ofItems "Hide" ⟨place text (126 :: s), place text t⟩ ([] ++ ([x] ++ []))) =
      (build x).bind fun item => .ok (.hide [item]) := rfl
  rw [hb, hx]
  rfl

theorem refuses_item {cls : CharClass} (hs : StartsIn cls s)
    (hd : cls.isDisjoint [(33, 33)] = true) (hd' : cls.isDisjoint [(126, 126)] = true)
    (h : Refuses text (.rule "Primary") s) : Refuses text (.rule "Prefix") s := by
  refine refuses_rule rfl (.choice ?_)
  intro e he
  simp only [List.mem_cons, List.not_mem_nil, or_false] at he
  rcases he with rfl | rfl | rfl
  · exact .wrap (.head (refuses_mark (c := 33) rfl hs hd))
  · exact .wrap (.head (refuses_mark (c := 126) rfl hs hd'))
  · exact refuses_suffix h

abbrev ReadsMany (text : Bytes) (e : Expr) (s t : Bytes) (vs : List Value) (n : Nat) : Prop :=
  Rounds [grammar] 0 text e s t vs n

theorem reads_sequence {n : Nat} {es : List Expr}
    (h : ReadsMany text (.rule "Prefix") s t vs n) (hb : buildAll vs = .ok es) :
    ∃ v, Reads text (.rule "Sequence") s t [v] ∧ build v = .ok (Expr.group es) := by
  have hloop : Reads text (Expr.zeroOrMore [.rule "Prefix"]) s t vs := .zeroOrMore h
  refine ⟨_, reads_rule rfl (.wrap "Sequence" (.cons hloop .nil)), ?_⟩
  have hname : ("Sequence" : Bytes) ≠ "Choice" := by decide
  rw [List.append_nil, Value.ofItems, build.eq_def]
  simp only [hname, if_false, if_true, hb]
  rcases es with _ | ⟨_, _ | ⟨_, _⟩⟩ <;> rfl

def otherwise : Expr := .sequence [.rule "SLASH", .rule "Sequence"]

theorem reads_otherwise (hs : StartsIn solid s) (h : Reads text (.rule "Sequence") s t [v]) :
    Reads text otherwise (0x2F :: Ascii.blank :: s) t [v] :=
  .sequence (.cons (reads_rule rfl (reads_mark (w := [0x2F]) rfl .blank hs)) (.cons h .nil))

theorem refuses_otherwise {cls : CharClass} (h : StartsIn cls s)
    (hd : cls.isDisjoint [(47, 47)] = true) : Refuses text otherwise s :=
  .sequence (.head (refuses_rule rfl (refuses_mark (c := 0x2F) rfl h hd)))

theorem reads_expression {n : Nat} {es : List Expr} (h : Reads text (.rule "Sequence") s m [v])
    (hr : ReadsMany text otherwise m t vs n) (hb : buildAll (v :: vs) = .ok es) :
    ∃ x, Reads text (.rule "Expression") s t [x] ∧ build x = .ok (Expr.alternatives es) := by
  have hloop : Reads text (Expr.zeroOrMore [.rule "SLASH", .rule "Sequence"]) m t vs :=
    .zeroOrMore hr
  refine ⟨_, reads_rule rfl (.wrap "Choice" (.cons h (.cons hloop .nil))), ?_⟩
  rw [List.append_nil, Value.ofItems, build.eq_def]
  simp only [if_true, List.singleton_append, hb]
  rcases es with _ | ⟨_, _ | ⟨_, _⟩⟩ <;> rfl

/-- A definition leads to a node with the name and what the expression stands for. -/
theorem reads_definition {name : Bytes} (hn : isIdentifier name = true) (hs : StartsIn solid s)
    (h : Reads text (.rule "Expression") s t [x]) :
    ∃ label span, label.content = name ∧ Reads text (.rule "Definition")
      (name ++ Ascii.blank :: Ascii.less :: Ascii.hyphen :: Ascii.blank :: s) t
      [Value.node "Definition" span [label, x] []] := by
  obtain ⟨label, hlabel, hr⟩ := reads_identifier text hn
    (.cons (by decide) (by decide) : StartsIn edges
      (Ascii.blank :: Ascii.less :: Ascii.hyphen :: Ascii.blank :: s)) (by decide) .blank
    (.cons (by decide) (by decide))
  have hall := Parses.wrap "Definition" (.cons hr (.cons (reads_arrow hs) (.cons h .nil)))
  exact ⟨label, _, hlabel.content_eq, reads_rule rfl hall⟩

theorem refuses_definition_at_end : Refuses text (.rule "Definition") [] :=
  refuses_rule rfl (.wrap (.head (refuses_identifier (.nil : StartsIn [] []) (by decide))))

end PegMachine.Notation
