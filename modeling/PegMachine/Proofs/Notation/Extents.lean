import PegMachine.Proofs.Evaluator.Contracts
import PegMachine.Proofs.Notation.Braces

namespace PegMachine

namespace Input

variable {text w u : Bytes} {s t : Int} {value : Value}

theorem rest?_forward (h : rest? text s = some (w ++ u)) : rest? text (s + w.length) = some u := by
  unfold rest? at h ⊢
  split at h
  · next hs =>
    have hrest := Option.some.inj h
    have hlen := congrArg List.length hrest
    rw [List.length_drop, List.length_append] at hlen
    rw [if_pos (by omega)]
    have hnat : (s + w.length).toNat = s.toNat + w.length := by omega
    rw [hnat, ← List.drop_drop, hrest, List.drop_left]
  · cases h

/-- A literal that matches in a text stands at the cursor. -/
theorem tryLiteral_text (h : (Input.text text).tryLiteral s w = .success value t) :
    ∃ u, rest? text s = some (w ++ u) ∧ rest? text t = some u ∧ value = Value.ofText w ⟨s, t⟩ := by
  simp only [tryLiteral] at h
  split at h
  · cases h
  next rest hrest =>
  split at h
  · next hprefix =>
    obtain ⟨u, rfl⟩ := List.isPrefixOf_iff_prefix.1 hprefix
    cases h
    exact ⟨u, hrest, rest?_forward hrest, rfl⟩
  · cases h

/-- A pattern that matches in a text finds something at the cursor. -/
theorem tryPattern_text {p : Pattern} (h : (Input.text text).tryPattern s p = .success value t) :
    ∃ w u, rest? text s = some (w ++ u) ∧ rest? text t = some u ∧
      p.matchStart (w ++ u) = some w.length ∧ value = Value.ofText w ⟨s, t⟩ := by
  simp only [tryPattern] at h
  split at h
  · cases h
  next rest hrest =>
  split at h
  · cases h
  next n hn =>
  cases h
  obtain ⟨r, -, hr⟩ := Option.bind_eq_some_iff.1 hn
  have hlen : (rest.take n).length = n := List.length_take_of_le (Regex.search_le hr)
  rw [← List.take_append_drop n rest] at hrest
  refine ⟨rest.take n, rest.drop n, hrest, ?_, ?_, rfl⟩
  · have hforward := rest?_forward hrest
    rwa [hlen] at hforward
  · rwa [List.take_append_drop, hlen]

end Input

namespace Notation

open Evaluator

/-- Spacing that is skipped leads from one suffix of a text to another one. A comment goes to the end
of its line or of the text. -/
inductive Skips : Bytes → Bytes → Prop where
  | none {t : Bytes} : Skips t t
  | blank {b : UInt8} {s t : Bytes} (hb : isBlank b = true) (h : Skips s t) : Skips (b :: s) t
  | comment {c s t : Bytes} (hc : Ascii.newline ∉ c) (hend : ∀ b ∈ s.head?, b = Ascii.newline)
    (h : Skips s t) : Skips (hash :: (c ++ s)) t

/-- Something begins here, and it is not the end of a line. -/
def Stands (s : Bytes) : Prop := ∃ b rest, s = b :: rest ∧ b ≠ Ascii.newline

private theorem Spacing.of_newline {s : Bytes} (h : Spacing (Ascii.newline :: s)) : Spacing s := by
  generalize hn : Ascii.newline :: s = t at h
  cases h with
  | nil => cases hn
  | blank hb h =>
    cases hn
    exact h
  | comment hc h => cases hn

/-- What is skipped in front of something is spacing. -/
theorem Skips.spacing {s t : Bytes} (h : Skips s t) (ht : Stands t) :
    ∃ w, Spacing w ∧ s = w ++ t := by
  induction h with
  | none => exact ⟨[], .nil, rfl⟩
  | @blank b s t hb _ ih =>
    obtain ⟨w, hw, rfl⟩ := ih ht
    exact ⟨b :: w, .blank hb hw, rfl⟩
  | @comment c s t hc hend _ ih =>
    obtain ⟨w, hw, rfl⟩ := ih ht
    cases w with
    | nil =>
      -- the comment would go on
      obtain ⟨b, rest, rfl, hb⟩ := ht
      exact absurd (hend b rfl) hb
    | cons b w =>
      obtain rfl : b = Ascii.newline := hend b rfl
      exact ⟨hash :: (c ++ Ascii.newline :: w), .comment hc hw.of_newline, by simp⟩

/-- The text between two cursors is spacing. -/
def Skipped (text : Bytes) (s t : Int) : Prop :=
  ∀ u, Input.rest? text s = some u → ∃ v, Input.rest? text t = some v ∧ Skips u v

/-- The tree of bounds that were read from braces, and where these stand. -/
def Braced (text : Bytes) (v : Value) : Prop :=
  ∃ span vs rest, ∃ b : Braces, v = Value.ofItems "Bounds" span vs ∧ b.Parts vs ∧
    Input.rest? text span.start = some (b.text ++ rest)

/-- What a pattern of the notation takes is the longest word of its expression. -/
theorem word_of_pattern {text : Bytes} {source : String} {r : Regex} (hd : Denotes source r)
    {s t : Int} {value : Value}
    (h : (Input.text text).tryPattern s (Pattern.ofSource source) = .success value t) :
    ∃ w u, Input.rest? text s = some (w ++ u) ∧ Input.rest? text t = some u ∧
      r.Leaves (w ++ u) u ∧ value = Value.ofText w ⟨s, t⟩ := by
  obtain ⟨w, u, hs, ht, hmatch, hvalue⟩ := Input.tryPattern_text h
  rw [Pattern.matchStart, hd.atStart, Option.bind_some] at hmatch
  obtain ⟨v, hv, hlen⟩ := Regex.leaves_of_search hd.plain hmatch
  have huv : u = v := by
    rw [List.suffix_iff_eq_drop.1 hv.takes.suffix]
    have hdrop : (w ++ u).length - v.length = w.length := by omega
    rw [hdrop, List.drop_left]
  exact ⟨w, u, hs, ht, huv ▸ hv, hvalue⟩

/-- All characters but the newline. -/
abbrev unbroken : CharClass := [(0, 9), (11, 1114111)]

theorem contains_unbroken {c : Nat} (h : c ≠ 10) (hmax : c ≤ Utf8.maxRune) :
    unbroken.contains c = true := by
  simp only [Utf8.maxRune] at hmax
  simp only [CharClass.contains, List.any_cons, List.any_nil, Bool.or_false, Bool.or_eq_true,
    Bool.and_eq_true, decide_eq_true_eq]
  omega

theorem takes_unbroken_wide {b : UInt8} (h : 0x80 ≤ b) {s t : Bytes} :
    (Regex.one unbroken).Takes (b :: s) t ↔ (b :: s).drop (Utf8.decodeAt b s).2 = t :=
  Regex.takes_one_wide (fun _ hlo => contains_unbroken (by omega)) h

/-- A character other than a newline has no newline among its bytes. -/
theorem takes_unbroken {s t : Bytes} (h : (Regex.one unbroken).Takes s t) :
    ∃ w, s = w ++ t ∧ Ascii.newline ∉ w := by
  obtain ⟨b, rest, rfl, -⟩ := id h
  rcases UInt8.lt_or_le b 0x80 with hlt | hge
  · obtain ⟨hc, rfl⟩ := (Regex.takes_one_iff hlt).1 h
    refine ⟨[b], rfl, fun hm => ?_⟩
    obtain rfl := List.mem_singleton.1 hm
    exact absurd hc (by decide)
  · obtain rfl := (takes_unbroken_wide hge).1 h
    have hb : Ascii.newline ≠ b := by
      rintro rfl
      exact absurd hge (by decide)
    rcases Utf8.finds_decodeAt hge rest with hone | ⟨more, after, c, rfl, hwide, hd⟩
    · rw [hone]
      exact ⟨[b], rfl, by simpa using hb⟩
    · rw [hd]
      refine ⟨b :: more, by simp, fun hm => ?_⟩
      rcases List.mem_cons.1 hm with hm | hm
      · exact hb hm
      · exact absurd (hwide.ge_of_mem _ hm) (by decide)

private theorem takes_unbroken_all {n : Nat} {s t : Bytes}
    (h : Regex.Power (Regex.one unbroken).Takes n s t) : ∃ w, s = w ++ t ∧ Ascii.newline ∉ w := by
  induction n generalizing s with
  | zero => exact ⟨[], h, by simp⟩
  | succ n ih =>
    obtain ⟨m, hm, ht⟩ := h
    obtain ⟨w, rfl, hw⟩ := takes_unbroken hm
    obtain ⟨w', rfl, hw'⟩ := ih ht
    exact ⟨w ++ w', (List.append_assoc w w' t).symm, by simp [hw, hw']⟩

/-- A comment goes to the end of its line. -/
theorem unbroken_of_leaves {s t : Bytes} (h : comment.Leaves s t) :
    ∃ c, s = hash :: (c ++ t) ∧ Ascii.newline ∉ c ∧ ∀ b ∈ t.head?, b = Ascii.newline := by
  obtain ⟨m, hm, hrest⟩ := h.takes
  obtain ⟨b, rest, rfl, -⟩ := id hm
  have hlt : b < 0x80 := by
    by_contra hge
    exact Regex.not_takes_one_wide (fun c hc => by simp [CharClass.contains]; omega)
      (UInt8.not_lt.1 hge) hm
  obtain ⟨hb, rfl⟩ := (Regex.takes_one_iff hlt).1 hm
  obtain rfl : b = hash := UInt8.toNat.inj (CharClass.contains_single.1 hb)
  obtain ⟨n, -, -, hn⟩ := id hrest
  obtain ⟨c, rfl, hc⟩ := takes_unbroken_all hn
  refine ⟨c, rfl, hc, fun x hx => ?_⟩
  by_contra hne
  obtain ⟨u, rfl⟩ : ∃ u, t = x :: u := List.head?_eq_some_iff.1 hx
  have hnone := h.not_takes_behind (by decide) fun u hu => ⟨c ++ x :: _, hm, hrest.again hu⟩
  rcases UInt8.lt_or_le x 0x80 with hlt | hge
  · have hcode : x.toNat ≠ 10 := fun hn => hne (UInt8.toNat.inj hn)
    have hmax := UInt8.lt_iff_toNat_lt.1 hlt
    simp only [UInt8.reduceToNat] at hmax
    have hc := contains_unbroken hcode (by simp only [Utf8.maxRune]; omega)
    exact hnone u ((Regex.takes_one_iff hlt).2 ⟨hc, rfl⟩)
  · exact hnone _ ((takes_unbroken_wide hge).2 rfl)

theorem Skips.blanks {w s t : Bytes} (hw : ∀ b ∈ w, isBlank b = true) (h : Skips s t) :
    Skips (w ++ s) t := by
  induction w with
  | nil => exact h
  | cons b w ih =>
    obtain ⟨hb, hw⟩ := List.forall_mem_cons.1 hw
    exact .blank hb (ih hw)

private theorem blanks_of_leaves {s t : Bytes} (h : blanks.Leaves s t) :
    ∃ w, s = w ++ t ∧ ∀ b ∈ w, isBlank b = true := by
  obtain ⟨w, hs, -, hw⟩ :=
    Regex.Takes.run (fun c hc => by simp [CharClass.contains]; omega) h.takes
  exact ⟨w, hs, hw⟩

section

variable {text : Bytes} {contract : Contract} {s t : Int} {vs : List Value}

/-- The rounds of the rule for spacing skip spacing. -/
theorem skipped_of_rounds (h : Match.Rounds (Gives (.text text) contract 0
      (.choice [pattern "\\s+", pattern "#[^\\n]*"])) s t vs) : Skipped text s t := by
  induction h with
  | nil => exact fun u hu => ⟨u, hu, .none⟩
  | cons first _ ih =>
    intro u hu
    rcases first with ⟨value, hsuccess, -⟩ | ⟨value, hsuccess, -⟩ | hnone
    · obtain ⟨w, v, hs, hm, hl, -⟩ := word_of_pattern denotes_blanks hsuccess
      obtain rfl := Option.some.inj (hs.symm.trans hu)
      obtain ⟨v', ht, hv⟩ := ih v hm
      obtain ⟨w', hw', hblank⟩ := blanks_of_leaves hl
      exact ⟨v', ht, hw' ▸ hv.blanks hblank⟩
    · obtain ⟨w, v, hs, hm, hl, -⟩ := word_of_pattern denotes_comment hsuccess
      obtain rfl := Option.some.inj (hs.symm.trans hu)
      obtain ⟨v', ht, hv⟩ := ih v hm
      obtain ⟨c, hc, hunbroken, hend⟩ := unbroken_of_leaves hl
      exact ⟨v', ht, hc ▸ .comment hunbroken hend hv⟩
    · exact hnone.elim

variable (hspacing : ∀ s t vs, contract 0 "Spacing" s t vs → vs = [] ∧ Skipped text s t)
include hspacing

private theorem mark_extent
    {mark : String} (h : Gives (.text text) contract 0 (Notation.mark mark) s t vs) :
    vs = [] ∧ ∃ u v, Input.rest? text s = some ((mark : Bytes) ++ u) ∧ Skips u v ∧
      Input.rest? text t = some v := by
  obtain ⟨rfl, _, m, _, _, ⟨value, hsuccess, rfl⟩, ⟨_, _, _, hgap, ⟨rfl, rfl⟩, rfl⟩, rfl⟩ := h
  obtain ⟨u, hs, hm, -⟩ := Input.tryLiteral_text hsuccess
  obtain ⟨v, ht, hv⟩ := (hspacing _ _ _ hgap).2 u hm
  exact ⟨rfl, u, v, hs, hv, ht⟩

theorem token_extent {name : String} {e : Expr}
    (h : Gives (.text text) contract 0 (token name e) s t vs) :
    ∃ m span ws, Gives (.text text) contract 0 e s m ws ∧ Skipped text m t ∧
      vs = [Value.ofItems name span ws] := by
  obtain ⟨_, _, _, ⟨span, _, -, ⟨m, ws, _, he, ⟨rfl, rfl⟩, rfl⟩, rfl⟩,
    ⟨_, gap, _, hgap, ⟨rfl, rfl⟩, rfl⟩, rfl⟩ := h
  obtain ⟨rfl, hskipped⟩ := hspacing _ _ _ hgap
  exact ⟨m, span, ws, he, hskipped, by simp⟩

theorem pattern_extent {name source : String} {r : Regex} (hd : Denotes source r)
    (h : Gives (.text text) contract 0 (token name (pattern source)) s t vs) :
    ∃ w u v, Input.rest? text s = some (w ++ u) ∧ r.Leaves (w ++ u) u ∧ Skips u v ∧
      Input.rest? text t = some v ∧ ∃ x, vs = [x] ∧ IsToken name w x := by
  obtain ⟨m, span, ws, ⟨value, hsuccess, rfl⟩, hskipped, rfl⟩ := token_extent hspacing h
  obtain ⟨w, u, hs, hm, hl, rfl⟩ := word_of_pattern hd hsuccess
  obtain ⟨v, ht, hv⟩ := hskipped u hm
  exact ⟨w, u, v, hs, hl, hv, ht, _, rfl, _, _, rfl⟩

theorem literal_extent {name : String} {w : Bytes}
    (h : Gives (.text text) contract 0 (token name (.literal w)) s t vs) :
    ∃ u v, Input.rest? text s = some (w ++ u) ∧ Skips u v ∧ Input.rest? text t = some v ∧
      ∃ x, vs = [x] ∧ IsToken name w x := by
  obtain ⟨m, span, ws, ⟨value, hsuccess, rfl⟩, hskipped, rfl⟩ := token_extent hspacing h
  obtain ⟨u, hs, hm, rfl⟩ := Input.tryLiteral_text hsuccess
  obtain ⟨v, ht, hv⟩ := hskipped u hm
  exact ⟨u, v, hs, hv, ht, _, rfl, _, _, rfl⟩

/-- Where a numeral may stand, it does so with all of its digits. -/
theorem numeral_extent {name : String} {u : Bytes}
    (h : Gives (.text text) contract 0 (Expr.optional [token name (pattern "[0-9]+")]) s t vs)
    (hs : Input.rest? text s = some u) :
    ∃ v, Input.rest? text t = some v ∧ (Stands v → Stands u ∧ ∃ n : Option Numeral,
      u = n.elim [] Numeral.text ++ v ∧ IsNumeral name n vs ∧
      ∀ m ∈ n, m.gap = [] → ∀ b ∈ v.head?, Ascii.isDigit b = false) := by
  rcases h with ⟨rfl, rfl⟩ | h
  · exact ⟨u, hs, fun hv => ⟨hv, none, rfl, rfl, nofun⟩⟩
  · obtain ⟨w, u', v, hs', hl, hskips, ht, x, rfl, hx⟩ := pattern_extent hspacing denotes_numeral h
    obtain rfl := Option.some.inj (hs.symm.trans hs')
    refine ⟨v, ht, fun hv => ?_⟩
    obtain ⟨gap, hgap, rfl⟩ := hskips.spacing hv
    obtain ⟨hne, hdigits⟩ := digits_of_numeral hl.takes
    have hstands : Stands (w ++ (gap ++ v)) := by
      obtain ⟨b, rest, rfl⟩ := List.exists_cons_of_ne_nil hne
      refine ⟨b, rest ++ (gap ++ v), rfl, ?_⟩
      rintro rfl
      exact absurd (hdigits _ (List.mem_cons_self ..)) (by decide)
    refine ⟨hstands, some ⟨w, gap, hne, hdigits, hgap⟩, ?_, ⟨x, rfl, hx⟩, ?_⟩
    · rw [Option.elim_some, Numeral.text, List.append_assoc]
    · rintro _ ⟨⟩ hnone b hb
      obtain rfl : gap = [] := hnone
      obtain ⟨rest, rfl⟩ := List.head?_eq_some_iff.1 hb
      exact no_digit_behind hl

/-- Where a comma may stand, with the spacing behind it. -/
theorem comma_extent {u : Bytes}
    (h : Gives (.text text) contract 0 (Expr.optional [token "Comma" (.literal ",")]) s t vs)
    (hs : Input.rest? text s = some u) :
    ∃ v, Input.rest? text t = some v ∧ (Stands v → Stands u ∧ ∃ c : Option Bytes,
      u = c.elim [] (Ascii.comma :: ·) ++ v ∧ (∀ gap ∈ c, Spacing gap) ∧
      c.elim (vs = []) fun _ => ∃ x, vs = [x] ∧ IsToken "Comma" [Ascii.comma] x) := by
  rcases h with ⟨rfl, rfl⟩ | h
  · exact ⟨u, hs, fun hv => ⟨hv, none, rfl, by simp, rfl⟩⟩
  · obtain ⟨u', v, hs', hskips, ht, x, rfl, hx⟩ := literal_extent hspacing h
    obtain rfl := Option.some.inj (hs.symm.trans hs')
    refine ⟨v, ht, fun hv => ?_⟩
    obtain ⟨gap, hgap, rfl⟩ := hskips.spacing hv
    refine ⟨⟨_, _, rfl, by decide⟩, some gap, rfl, ?_, x, rfl, hx⟩
    rintro _ ⟨⟩
    exact hgap

/-- What the rule for bounds reads is a pair of braces. -/
theorem braced_of_gives {e : Expr} (he : rules.lookup ("Bounds" : Bytes) = some e)
    (h : Gives (.text text) contract 0 e s t vs) : ∃ v, vs = [v] ∧ Braced text v := by
  obtain rfl := Option.some.inj he
  obtain ⟨span, _, hspan, ⟨m₁, _, _, hopen, ⟨m₂, least, _, hleast, ⟨m₃, comma, _, hcomma,
    ⟨m₄, most, _, hmost, ⟨_, _, _, hclose, ⟨rfl, rfl⟩, rfl⟩, rfl⟩, rfl⟩, rfl⟩, rfl⟩, rfl⟩ := h
  cases hspan
  obtain ⟨rfl, u₀, u₁, hs, hgap, h₁⟩ := mark_extent hspacing hopen
  obtain ⟨u₂, h₂, hleast⟩ := numeral_extent hspacing hleast h₁
  obtain ⟨u₃, h₃, hcomma⟩ := comma_extent hspacing hcomma h₂
  obtain ⟨u₄, h₄, hmost⟩ := numeral_extent hspacing hmost h₃
  have hclosed : Gives (.text text) contract 0 (mark "\x7d") m₄ _ _ :=
    hclose.resolve_right (·.elim id id)
  obtain ⟨rfl, u₅, _, h₄', -, -⟩ := mark_extent hspacing hclosed
  obtain rfl := Option.some.inj (h₄.symm.trans h₄')
  -- from the closing brace back, something stands behind every gap
  obtain ⟨hstands₃, upper, rfl, hupper, -⟩ := hmost ⟨Ascii.closeBrace, u₅, rfl, by decide⟩
  obtain ⟨hstands₂, between, rfl, hbetween, hcomma⟩ := hcomma hstands₃
  obtain ⟨hstands₁, lower, rfl, hlower, hwhole⟩ := hleast hstands₂
  obtain ⟨gap, hspaces, rfl⟩ := hgap.spacing hstands₁
  have hapart : ∀ m ∈ lower, ∀ n ∈ upper, between = none → m.gap ≠ [] := by
    rintro m hm n rfl rfl hnone
    obtain ⟨b, digits, hd⟩ := List.exists_cons_of_ne_nil n.ne_nil
    have hb := n.isDigit b (hd ▸ List.mem_cons_self)
    have hno := hwhole m hm hnone b (by simp [Numeral.text, hd])
    rw [hb] at hno
    cases hno
  refine ⟨_, rfl, _, _, u₅, ⟨gap, lower, between, upper, hspaces, hbetween, hapart⟩, rfl, ?_, ?_⟩
  · exact ⟨least, comma, most, by simp, hlower, hcomma, hupper⟩
  · rw [hs]
    simp only [Braces.text, List.cons_append, List.append_assoc]
    rfl

end

end Notation

end PegMachine
