import PegMachine.Proofs.Notation.Tokens

namespace PegMachine.Notation

open Evaluator

variable {text : Bytes} {s t u : Bytes}

def signs : Regex := .one [(42, 43), (63, 63)]

theorem denotes_signs : Denotes "[?*+]" signs := ⟨by decide +kernel, rfl, rfl⟩

def numeral : Regex := .times 1 none (.one [(48, 57)])

theorem denotes_numeral : Denotes "[0-9]+" numeral := ⟨by decide +kernel, rfl, rfl⟩

theorem contains_digit {b : UInt8} :
    CharClass.contains [(48, 57)] b.toNat = true ↔ Ascii.isDigit b = true := by
  simp [CharClass.contains, Ascii.isDigit, UInt8.le_iff_toNat_le]

theorem lt_of_isDigit {b : UInt8} (h : Ascii.isDigit b = true) : b < 0x80 := by
  simp only [Ascii.isDigit, Bool.and_eq_true, decide_eq_true_eq, UInt8.le_iff_toNat_le,
    UInt8.reduceToNat] at h
  simp only [UInt8.lt_iff_toNat_lt, UInt8.reduceToNat]
  omega

theorem digits_of_numeral {w t : Bytes} (h : numeral.Takes (w ++ t) t) :
    w ≠ [] ∧ ∀ b ∈ w, Ascii.isDigit b = true := by
  obtain ⟨word, hword, hlen, hd⟩ := Regex.Takes.run (by simp [CharClass.contains]; omega) h
  obtain rfl := List.append_cancel_right hword
  exact ⟨List.length_pos_iff.1 hlen, fun b hb => contains_digit.1 (hd b hb)⟩

/-- A numeral is read with all of its digits. -/
theorem no_digit_behind {s : Bytes} {b : UInt8} {t : Bytes} (h : numeral.Leaves s (b :: t)) :
    Ascii.isDigit b = false := by
  rw [← Bool.not_eq_true]
  intro hb
  have hdigit : (Regex.one [(48, 57)]).Takes (b :: t) t :=
    (Regex.takes_one_iff (lt_of_isDigit hb)).2 ⟨contains_digit.2 hb, rfl⟩
  exact h.not_takes_behind (by decide) (fun _ => h.takes.again) t hdigit

def repetition : Expr := .choice [token "Op" (pattern "[?*+]"), .rule "Bounds"]

variable (text) in
theorem reads_sign {b : UInt8} (hb : b < 0x80)
    (hc : CharClass.contains [(42, 43), (63, 63)] b.toNat = true) (hg : Gap u t)
    (ht : StartsIn solid t) :
    ∃ v, IsToken "Op" [b] v ∧ Reads text repetition (b :: u) t [v] := by
  have hl : signs.Leaves ([b] ++ u) u := .one hb hc
  obtain ⟨v, hv, hr⟩ := reads_token (reads_pattern denotes_signs hl) hg ht
  exact ⟨v, hv, .choice (.here hr)⟩

theorem suffix_sign {w : Bytes} {v : Value} (h : IsToken "Op" w v) :
    suffix v = .ok (if w = "?" then .optional else if w = "*" then .zeroOrMore else .oneOrMore) := by
  obtain ⟨span, inner, rfl⟩ := h
  have hw : (Value.node "Op" span [Value.ofText w inner] []).content = w := List.append_nil w
  simp only [Value.ofItems, suffix, if_true, hw]

theorem reads_no_numeral {name : String} (h : StartsIn [(44, 44), (125, 125)] s) :
    Reads text (Expr.optional [token name (pattern "[0-9]+")]) s s [] :=
  .optional_none (refuses_token (refuses_pattern denotes_numeral h (by decide)))

theorem digits_ofNat (n : Nat) :
    ∀ b ∈ Bytes.ofNat n, b < 0x80 ∧ CharClass.contains [(48, 57)] b.toNat = true := by
  intro b hb
  have hd := Bytes.isDigit_of_mem_ofNat b hb
  exact ⟨lt_of_isDigit hd, contains_digit.2 hd⟩

variable (text) in
theorem reads_numeral (name : String) {n : Int} (hn : 0 ≤ n)
    (h : StartsIn [(44, 44), (125, 125)] u) :
    ∃ v, IsToken name (Bytes.ofInt n) v ∧
      Reads text (Expr.optional [token name (pattern "[0-9]+")]) (Bytes.ofInt n ++ u) u [v] := by
  have hl : numeral.Leaves (Bytes.ofInt n ++ u) u := by
    rw [Bytes.ofInt_of_nonneg hn]
    refine .run (digits_ofNat _) ?_ h (by decide)
    exact List.length_pos_iff.2 (Bytes.ofNat_ne_nil _)
  obtain ⟨v, hv, hr⟩ := reads_token (reads_pattern denotes_numeral hl) .none (h.mono (by decide))
  exact ⟨v, hv, .optional hr⟩

theorem startsIn_ofInt {n : Int} (h : 0 ≤ n) (u : Bytes) :
    StartsIn [(48, 57)] (Bytes.ofInt n ++ u) := by
  rw [Bytes.ofInt_of_nonneg h]
  cases hd : Bytes.ofNat n.natAbs with
  | nil => exact absurd hd (Bytes.ofNat_ne_nil _)
  | cons b rest =>
    obtain ⟨hb, hc⟩ := digits_ofNat n.natAbs b (hd ▸ List.mem_cons_self)
    exact .cons hb hc

theorem add_numeral {name w : Bytes} {v : Value} {n : Int} {b : Bounds} (h : IsToken name w v)
    (hname : name ≠ "Comma") (hn : Decimal.read w = .ok n) :
    b.add v = .ok (if name = "Min" then { b with min := some n }
      else if name = "Max" then { b with max := some n } else b) := by
  obtain ⟨span, inner, rfl⟩ := h
  have hw : (Value.node name span [Value.ofText w inner] []).content = w := List.append_nil w
  simp only [Value.ofItems, Bounds.add, hname, if_false, hw, hn]
  split
  · rfl
  · split <;> rfl

theorem add_comma {w : Bytes} {v : Value} (b : Bounds) (h : IsToken "Comma" w v) :
    b.add v = .ok { b with comma := true } := by
  obtain ⟨span, inner, rfl⟩ := h
  rfl

/-- The braces around what is read as the parts of bounds. -/
theorem reads_braces {s₁ s₂ s₃ : Bytes} {vs₁ vs₂ vs₃ : List Value} {b : Bounds}
    (h₀ : StartsIn solid s₁)
    (h₁ : Reads text (Expr.optional [token "Min" (pattern "[0-9]+")]) s₁ s₂ vs₁)
    (h₂ : Reads text (Expr.optional [token "Comma" (.literal ",")]) s₂ s₃ vs₂)
    (h₃ : Reads text (Expr.optional [token "Max" (pattern "[0-9]+")]) s₃
      (Ascii.closeBrace :: u) vs₃)
    (hb : (vs₁ ++ (vs₂ ++ vs₃)).foldlM Bounds.add {} = .ok b) (hg : Gap u t)
    (ht : StartsIn solid t) :
    ∃ v, Reads text repetition (Ascii.openBrace :: s₁) t [v] ∧ suffix v = b.repetition := by
  have hopen : Reads text (mark "\x7b") (Ascii.openBrace :: s₁) s₁ [] :=
    reads_mark (w := [Ascii.openBrace]) rfl .none h₀
  have hmark : Reads text (mark "\x7d") (Ascii.closeBrace :: u) t [] :=
    reads_mark (w := [Ascii.closeBrace]) rfl hg ht
  have hclose : Reads text (.choice [mark "\x7d", throw "missing closing brace"])
      (Ascii.closeBrace :: u) t [] := .choice (.here hmark)
  have hall := Parses.wrap "Bounds"
    (.cons hopen (.cons h₁ (.cons h₂ (.cons h₃ (.cons hclose .nil)))))
  have hno : Refuses text (token "Op" (pattern "[?*+]")) (Ascii.openBrace :: s₁) :=
    refuses_token (refuses_pattern denotes_signs
      (.cons (by decide) (by decide) : StartsIn [(123, 123)] _) (by decide))
  refine ⟨_, .choice (.next hno (.here (reads_rule rfl hall))), ?_⟩
  have hname : ("Bounds" : Bytes) ≠ "Op" := by decide
  simp only [Value.ofItems, suffix, hname, if_false, List.nil_append, List.append_nil, hb]
  rfl

theorem reads_exact {n : Int} (h : 0 ≤ n) (hn : n < Decimal.halfWords) (hg : Gap u t)
    (ht : StartsIn solid t) :
    ∃ v, Reads text repetition (Repetition.bounds n n ++ u) t [v] ∧
      suffix v = .ok (.bounded n n) := by
  have hbounds : Repetition.bounds n n ++ u =
      Ascii.openBrace :: (Bytes.ofInt n ++ Ascii.closeBrace :: u) := by
    have hne : ¬(n = Repetition.unbounded ∧ n = Repetition.unbounded) := by
      simp only [Repetition.unbounded]
      omega
    rw [Repetition.bounds, if_neg hne, if_pos rfl, List.append_assoc, List.append_assoc]
    rfl
  have hclose : StartsIn [(44, 44), (125, 125)] (Ascii.closeBrace :: u) :=
    .cons (by decide) (by decide)
  obtain ⟨v, hv, hr⟩ := reads_numeral text "Min" h hclose
  have hcomma : Reads text (Expr.optional [token "Comma" (.literal ",")])
      (Ascii.closeBrace :: u) (Ascii.closeBrace :: u) [] :=
    .optional_none (refuses_token (refuses_literal (c := Ascii.comma) rfl
      (.cons (by decide) (by decide) : StartsIn [(125, 125)] _) (by decide)))
  have hfold : ([v] ++ ([] ++ [])).foldlM Bounds.add {} = .ok { min := some n } := by
    have hadd := add_numeral (b := {}) hv (by decide) (Decimal.read_ofInt h hn)
    simpa using hadd
  rw [hbounds]
  exact reads_braces ((startsIn_ofInt h _).mono (by decide)) hr hcomma (reads_no_numeral hclose)
    hfold hg ht

/-- A side of bounds as it is printed: one that is not bounded is left out. -/
def side (n : Int) : Bytes := if n = Repetition.unbounded then [] else Bytes.ofInt n

def bound? (n : Int) : Option Int := if n = Repetition.unbounded then none else some n

private theorem getD_bound? (n : Int) : (bound? n).getD Repetition.unbounded = n := by
  unfold bound?
  split
  · next h => exact h.symm
  · rfl

/-- Bounds that are no exact count are printed side by side. -/
theorem bounds_eq {min max : Int} (h : min ≠ max ∨ min = Repetition.unbounded) :
    Repetition.bounds min max = "\x7b" ++ side min ++ "," ++ side max ++ "\x7d" := by
  unfold Repetition.bounds side
  by_cases hmin : min = Repetition.unbounded <;> by_cases hmax : max = Repetition.unbounded
  · rw [if_pos ⟨hmin, hmax⟩, if_pos hmin, if_pos hmax]
    rfl
  · have hne : min ≠ max := fun he => hmax (he ▸ hmin)
    rw [if_neg (fun hb => hmax hb.2), if_neg hne, if_neg hmax, if_pos hmin, if_pos hmin,
      if_neg hmax]
    rfl
  · have hne : min ≠ max := fun he => hmin (he ▸ hmax)
    rw [if_neg (fun hb => hmin hb.1), if_neg hne, if_pos hmax, if_neg hmin, if_pos hmax]
    simp only [List.append_assoc]
    rfl
  · have hne : min ≠ max := h.resolve_right hmin
    rw [if_neg (fun hb => hmin hb.1), if_neg hne, if_neg hmax, if_neg hmin, if_neg hmin,
      if_neg hmax]

def IsSide (name : Bytes) (n : Int) (vs : List Value) : Prop :=
  (n = Repetition.unbounded ∧ vs = []) ∨
    (n ≠ Repetition.unbounded ∧ ∃ v, vs = [v] ∧ IsToken name (Bytes.ofInt n) v ∧
      Decimal.read (Bytes.ofInt n) = .ok n)

variable (text) in
private theorem reads_side (name : String) {n : Int} (h : Repetition.unbounded ≤ n)
    (hn : n < Decimal.halfWords) (hu : StartsIn [(44, 44), (125, 125)] u) :
    StartsIn solid (side n ++ u) ∧ ∃ vs, IsSide name n vs ∧
      Reads text (Expr.optional [token name (pattern "[0-9]+")]) (side n ++ u) u vs := by
  by_cases hb : n = Repetition.unbounded
  · rw [side, if_pos hb]
    exact ⟨hu.mono (by decide), [], .inl ⟨hb, rfl⟩, reads_no_numeral hu⟩
  · have hpos : 0 ≤ n := by
      simp only [Repetition.unbounded] at h hb
      omega
    obtain ⟨v, hv, hr⟩ := reads_numeral text name hpos hu
    rw [side, if_neg hb]
    exact ⟨(startsIn_ofInt hpos u).mono (by decide), [v],
      .inr ⟨hb, v, rfl, hv, Decimal.read_ofInt hpos hn⟩, hr⟩

private theorem fold_min {n : Int} {vs : List Value} (h : IsSide "Min" n vs) :
    vs.foldlM Bounds.add {} = .ok { min := bound? n } := by
  rcases h with ⟨rfl, rfl⟩ | ⟨hn, v, rfl, hv, hr⟩
  · rfl
  · have hadd := add_numeral (b := {}) hv (by decide) hr
    simpa [bound?, hn] using hadd

private theorem fold_max {n : Int} {vs : List Value} (h : IsSide "Max" n vs) (min : Option Int) :
    vs.foldlM Bounds.add { min := min, comma := true } =
      .ok { min := min, comma := true, max := bound? n } := by
  rcases h with ⟨rfl, rfl⟩ | ⟨hn, v, rfl, hv, hr⟩
  · rfl
  · have hadd := add_numeral (b := { min := min, comma := true }) hv (by decide) hr
    have hname : ("Max" : Bytes) ≠ "Min" := by decide
    simpa [bound?, hn, hname] using hadd

theorem reads_range {min max : Int} (h : min ≠ max ∨ min = Repetition.unbounded)
    (hmin : Repetition.unbounded ≤ min) (hmax : Repetition.unbounded ≤ max)
    (hmin' : min < Decimal.halfWords) (hmax' : max < Decimal.halfWords) (hg : Gap u t)
    (ht : StartsIn solid t) :
    ∃ v, Reads text repetition (Repetition.bounds min max ++ u) t [v] ∧
      suffix v = .ok (.bounded min max) := by
  have hbounds : Repetition.bounds min max ++ u = Ascii.openBrace ::
      (side min ++ Ascii.comma :: (side max ++ Ascii.closeBrace :: u)) := by
    rw [bounds_eq h]
    simp only [List.append_assoc]
    rfl
  have hclose : StartsIn [(44, 44), (125, 125)] (Ascii.closeBrace :: u) :=
    .cons (by decide) (by decide)
  obtain ⟨hsolid₂, vs₂, hside₂, hr₂⟩ := reads_side text "Max" hmax hmax' hclose
  obtain ⟨hsolid₁, vs₁, hside₁, hr₁⟩ := reads_side text "Min" hmin hmin'
    (.cons (by decide) (by decide) :
      StartsIn _ (Ascii.comma :: (side max ++ Ascii.closeBrace :: u)))
  -- the comma is what tells a side left out from an exact count
  obtain ⟨comma, hcomma, hr⟩ : ∃ v, IsToken "Comma" [Ascii.comma] v ∧
      Reads text (token "Comma" (.literal ",")) (Ascii.comma :: (side max ++ Ascii.closeBrace :: u))
        (side max ++ Ascii.closeBrace :: u) [v] :=
    reads_token (.literal [Ascii.comma] _) .none hsolid₂
  have hfold : (vs₁ ++ ([comma] ++ vs₂)).foldlM Bounds.add {} =
      .ok { min := bound? min, comma := true, max := bound? max } := by
    rw [List.foldlM_append, fold_min hside₁]
    simp only [List.cons_append, List.nil_append, List.foldlM_cons, add_comma _ hcomma]
    exact fold_max hside₂ _
  obtain ⟨v, hv, hs⟩ := reads_braces hsolid₁ hr₁ (.optional hr) hr₂ hfold hg ht
  rw [hbounds]
  refine ⟨v, hv, hs.trans ?_⟩
  simp only [Bounds.repetition, if_true, getD_bound?]

end PegMachine.Notation
