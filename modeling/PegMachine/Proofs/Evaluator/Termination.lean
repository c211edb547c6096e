import PegMachine.Proofs.Evaluator.Matches
import PegMachine.Proofs.Evaluator.Progress
import PegMachine.Proofs.Machine.Budget

namespace PegMachine.Evaluator

open Machine

/-- A task has an outcome wherever it begins at `start` or after it. -/
def EndsFrom (family : Family) (input : Input) (start : Int) (id : Nat) (task : Task) : Prop :=
  ∀ a furthest, start ≤ a.cursor → a.cursor ≤ input.size →
    ∃ o, Evaluates family input id task a furthest o

section

variable {family : Family} {input : Input} {start : Int} {id : Nat}

theorem EndsFrom.items (h0 : 0 ≤ start) {stops : Activation → Bool} {pending : List Expr}
    (h : ∀ e ∈ pending, EndsFrom family input start id (.item e)) :
    EndsFrom family input start id (.items stops pending) := by
  induction pending with
  | nil => exact fun a furthest _ _ => ⟨_, .nil⟩
  | cons e pending ih =>
    obtain ⟨he, hes⟩ := List.forall_mem_cons.1 h
    intro a furthest hstart hle
    cases hstop : stops a with
    | true => exact ⟨_, .stopped hstop⟩
    | false =>
      obtain ⟨o, ho⟩ := he a furthest hstart hle
      cases o with
      | done b furthest' =>
        have hforward := ho.forward (Int.le_trans h0 hstart) hle
        obtain ⟨o, hrest⟩ := ih hes b furthest' (Int.le_trans hstart hforward.1) hforward.2
        exact ⟨o, .cons hstop ho hrest⟩
      | raised | aborted | fault => exact ⟨_, .halted hstop ho rfl⟩

/-- A loop ends, for each of its rounds but the last one goes forward. -/
theorem EndsFrom.rounds (h0 : 0 ≤ start) {e : Expr}
    (h : EndsFrom family input start id (.item e)) :
    EndsFrom family input start id (.rounds e) := by
  intro a furthest hstart hle
  obtain ⟨left, hleft⟩ := Int.eq_ofNat_of_zero_le (Int.sub_nonneg_of_le hle)
  induction left using Nat.strongRecOn generalizing a furthest with
  | ind left ih =>
    obtain ⟨o, ho⟩ := h a furthest hstart hle
    cases o with
    | done b furthest' =>
      cases hstop : b.stopsLoop input.size a.cursor with
      | true => exact ⟨_, .last ho hstop⟩
      | false =>
        have hforward := ho.forward (Int.le_trans h0 hstart) hle
        have hmoved : b.cursor ≠ a.cursor := by
          intro hsame
          simp [Activation.stopsLoop, hsame] at hstop
        obtain ⟨left', hleft'⟩ := Int.eq_ofNat_of_zero_le (Int.sub_nonneg_of_le hforward.2)
        obtain ⟨o, hmore⟩ := ih left' (by omega) b furthest' (by omega) hforward.2 hleft'
        exact ⟨o, .again ho hstop hmore⟩
    | raised | aborted | fault => exact ⟨_, .broken ho rfl⟩

/-- The items of a sequence. An item is come to at `start` only past items that consumed nothing,
so all of those are nullable; everywhere else something is consumed already. -/
theorem EndsFrom.inOrder (h0 : 0 ≤ start) {ends : Expr.Reference → Prop} {pending : List Expr}
    (hfirst : ∀ e ∈ pending, (∀ ref, family.Begins id ref e → ends ref) →
      EndsFrom family input start id (.item e))
    (hends : ∀ ref, family.BeginsInOrder id ref pending → ends ref)
    (hlater : ∀ e ∈ pending, EndsFrom family input (start + 1) id (.item e)) :
    EndsFrom family input start id (.items Activation.stopsSequence pending) := by
  induction pending with
  | nil => exact .items h0 nofun
  | cons e pending ih =>
    obtain ⟨he, hes⟩ := List.forall_mem_cons.1 hfirst
    obtain ⟨-, hrest⟩ := List.forall_mem_cons.1 hlater
    intro a furthest hstart hle
    cases hstop : a.stopsSequence with
    | true => exact ⟨_, .stopped hstop⟩
    | false =>
      have hhead : EndsFrom family input start id (.item e) := he fun ref href => hends ref (.inl href)
      obtain ⟨o, ho⟩ := hhead a furthest hstart hle
      cases o with
      | raised | aborted | fault => exact ⟨_, .halted hstop ho rfl⟩
      | done b furthest' =>
        have hforward := ho.forward (Int.le_trans h0 hstart) hle
        have htail : ∃ o, Evaluates family input id (.items Activation.stopsSequence pending) b
            furthest' o := by
          -- past an item that is not nullable nothing is evaluated at `start` any more
          by_cases hn : family.Nullable id e
          · have hends' : ∀ ref, family.BeginsInOrder id ref pending → ends ref :=
              fun ref href => hends ref (.inr ⟨hn, href⟩)
            exact ih hes hends' hrest b furthest' (Int.le_trans hstart hforward.1) hforward.2
          · obtain rfl | hlt := ho.advances (Int.le_trans h0 hstart) hle rfl hn
            · exact ⟨_, .stopped rfl⟩
            · exact EndsFrom.items (by omega) hrest b furthest' (by omega) hforward.2
        obtain ⟨o, ho'⟩ := htail
        exact ⟨o, .cons hstop ho ho'⟩

end

/-- The rule that is used has an outcome wherever it begins at `start` or after it. -/
def UseEnds (family : Family) (input : Input) (start : Int) (id : Nat) (ref : Expr.Reference) :
    Prop :=
  ∀ target body, ref.target? id = some target →
    (family.grammarAt target.1).rule? target.2 = some body →
    EndsFrom family input start target.1 (.item body)

section

variable {family : Family} {input : Input} {start : Int} {id : Nat} {known : Nat → Prop}

theorem EndsFrom.iterate (h0 : 0 ≤ start) {kind : Repetition} {item : Expr}
    (hitem : EndsFrom family input start id (.item item)) :
    EndsFrom family input start id (.item (.iterate kind item)) := by
  intro a furthest hstart hle
  have hsingle : ∀ e ∈ [item], EndsFrom family input start id (.item e) :=
    List.forall_mem_singleton.2 hitem
  cases kind with
  | zeroOrMore | oneOrMore | bounded =>
    obtain ⟨o, ho⟩ := EndsFrom.rounds h0 hitem (.start a.cursor) furthest hstart hle
    exact ⟨_, .loop rfl ho⟩
  | optional =>
    obtain ⟨o, ho⟩ := EndsFrom.items h0 hsingle (.start a.cursor) furthest hstart hle
    exact ⟨_, .optional ho⟩
  | not =>
    obtain ⟨o, ho⟩ := EndsFrom.items h0 hsingle (.start a.cursor) furthest hstart hle
    exact ⟨_, .not ho⟩
  | unknown =>
    obtain ⟨o, ho⟩ := EndsFrom.items h0 hsingle (.start a.cursor) furthest hstart hle
    exact ⟨_, .once ho⟩

theorem EndsFrom.rule {name : Bytes} (h : UseEnds family input start id (.rule name)) :
    EndsFrom family input start id (.item (.rule name)) := by
  intro a furthest hstart hle
  cases hrule : (family.grammarAt id).rule? name with
  | none => exact ⟨_, .undefined hrule⟩
  | some body =>
    obtain ⟨o, ho⟩ := h (id, name) body rfl hrule a furthest hstart hle
    exact ⟨o, .rule hrule ho⟩

theorem EndsFrom.embed {grammar : Option Nat} {main : Bytes}
    (h : UseEnds family input start id (.embed grammar main)) :
    EndsFrom family input start id (.item (.embed grammar main)) := by
  intro a furthest hstart hle
  cases grammar with
  | none => exact ⟨_, .stranded rfl⟩
  | some inner =>
    cases hg : family[inner]? with
    | none => exact ⟨_, .stranded hg⟩
    | some g =>
      cases hm : g.rule? main with
      | none => exact ⟨_, .headless hg hm⟩
      | some body =>
        have hrule : (family.grammarAt inner).rule? main = some body := by
          rw [Family.grammarAt, hg]
          exact hm
        obtain ⟨o, ho⟩ := h (inner, main) body rfl hrule (.start a.cursor) a.cursor hstart hle
        exact ⟨_, .embed hg hm (.rule hrule ho)⟩

/-- An expression ends if all rules end that it may begin with. -/
theorem EndsFrom.item (h0 : 0 ≤ start) (hid : known id)
    (hlater : ∀ id, known id → ∀ e, Contained known e →
      EndsFrom family input (start + 1) id (.item e))
    {e : Expr} (he : Contained known e)
    (hends : ∀ ref, family.Begins id ref e → UseEnds family input start id ref) :
    EndsFrom family input start id (.item e) := by
  induction e using Expr.induction with
  | step e ih =>
    -- what a combinator needs of its items
    have inOrder (items : List Expr) (hc : items = e.children)
        (hb : ∀ ref, family.BeginsInOrder id ref items → family.Begins id ref e) :
        EndsFrom family input start id (.items Activation.stopsSequence items) := by
      subst hc
      exact .inOrder h0 (fun child hm hfirst => ih child hm (he.child hm) hfirst)
        (fun ref href => hends ref (hb ref href))
        fun child hm => hlater id hid child (he.child hm)
    have child (item : Expr) (hm : item ∈ e.children)
        (hb : ∀ ref, family.Begins id ref item → family.Begins id ref e) :
        EndsFrom family input start id (.item item) :=
      ih item hm (he.child hm) fun ref href => hends ref (hb ref href)
    intro a furthest hstart hle
    cases e with
    | missing => exact ⟨_, .missing⟩
    | literal text => exact ⟨_, .literal⟩
    | pattern p => exact ⟨_, .pattern⟩
    | rule name => exact EndsFrom.rule (hends (.rule name) rfl) a furthest hstart hle
    | sequence items =>
      obtain ⟨o, ho⟩ := inOrder items rfl (fun _ h => h) (.start a.cursor) furthest hstart hle
      exact ⟨_, .sequence ho⟩
    | choice items =>
      have hitems : ∀ item ∈ items, EndsFrom family input start id (.item item) := fun item hm =>
        child item hm fun _ h => Family.beginsAny_iff.2 ⟨item, hm, h⟩
      obtain ⟨o, ho⟩ := EndsFrom.items h0 hitems (.start a.cursor) furthest hstart hle
      exact ⟨_, .choice ho⟩
    | wrap name items =>
      obtain ⟨o, ho⟩ := inOrder items rfl (fun _ h => h) (.start a.cursor) furthest hstart hle
      exact ⟨_, .wrap ho⟩
    | hide items =>
      obtain ⟨o, ho⟩ := inOrder items rfl (fun _ h => h) (.start a.cursor) furthest hstart hle
      exact ⟨_, .hide ho⟩
    | iterate kind item =>
      have hitem := child item (List.mem_singleton.2 rfl) fun _ h => h
      exact EndsFrom.iterate h0 hitem a furthest hstart hle
    | action effect =>
      have hcustom (host : Option Nat) : effect ≠ .custom host := by
        rintro rfl
        exact he.custom host (Expr.mem_parts_self _ rfl)
      obtain ⟨o, ho⟩ := act_answered input a furthest effect hcustom
      exact ⟨o, .action ho⟩
    | embed grammar main =>
      exact EndsFrom.embed (hends (.embed grammar main) rfl) a furthest hstart hle

/-- An expression begins with rules of known grammars only. -/
theorem Contained.begins {e : Expr} (he : Contained known e) (hid : known id) {ref : Expr.Reference}
    (h : family.Begins id ref e) {target : Nat × Bytes} (ht : ref.target? id = some target) :
    known target.1 := by
  obtain ⟨use, hm, huse⟩ := Family.mem_parts_of_begins h
  cases use <;> cases huse
  · cases ht
    exact hid
  · obtain ⟨inner, rfl, rfl⟩ := Option.map_eq_some_iff.1 ht
    exact he.embed inner _ hm

variable {α : Type*} [Preorder α] {rank : Nat × Bytes → α}

/-- Rules end, from those of low rank up: a rule begins only with rules of lower rank. -/
theorem rule_ends (hr : ContainedRules family (family.Embeds id)) (hranked : family.Ranked id rank)
    (h0 : 0 ≤ start)
    (hlater : ∀ inner, family.Embeds id inner → ∀ e, Contained (family.Embeds id) e →
      EndsFrom family input (start + 1) inner (.item e))
    {target : Nat × Bytes} (ht : family.Embeds id target.1) {body : Expr}
    (hbody : (family.grammarAt target.1).rule? target.2 = some body) :
    EndsFrom family input start target.1 (.item body) := by
  induction target using Family.induction_rank family rank generalizing body with
  | step target ih =>
    have hcontained := hr _ ht _ (Grammar.mem_rules_of_rule? _ _ _ hbody)
    refine .item h0 ht hlater hcontained ?_
    intro ref hbegins lower lowerBody hlower hlowerBody
    have hlt := hranked _ ht _ _ hbody ref lower hbegins hlower
    exact ih lower (Option.isSome_of_eq_some hlowerBody) hlt (hcontained.begins ht hbegins hlower)
      hlowerBody

/-- Every expression ends, from the end of the input back. -/
theorem item_ends (hr : ContainedRules family (family.Embeds id)) (hranked : family.Ranked id rank)
    {left : Nat} (h0 : 0 ≤ start) (hleft : start + left = input.size + 1) :
    ∀ inner, family.Embeds id inner → ∀ e, Contained (family.Embeds id) e →
      EndsFrom family input start inner (.item e) := by
  induction left generalizing start with
  | zero =>
    -- no cursor is past the end of the input
    intro inner _ e _ a furthest hstart hle
    omega
  | succ left ih =>
    have hlater := @ih (start + 1) (by omega) (by omega)
    intro inner hi e he
    refine .item h0 hi hlater he ?_
    intro ref hbegins target body htarget hbody
    exact rule_ends hr hranked h0 hlater (he.begins hi hbegins htarget) hbody

/-- Every rule ends, from the start of the input on. -/
theorem evaluates_of_ranked (hfree : family.CustomFree id) (hranked : family.Ranked id rank)
    (input : Input) (main : Bytes) :
    ∃ o, Evaluates family input id (.item (.rule main)) (.start 0) 0 o := by
  have hsize := input.size_nonneg
  have hleft : (0 : Int) + (input.size + 1).toNat = input.size + 1 := by omega
  have hcontained : Contained (family.Embeds id) (.rule main) :=
    ⟨by simp [Expr.parts, Expr.visit], by simp [Expr.parts, Expr.visit]⟩
  exact item_ends (containedRules_embeds family id hfree) hranked (Int.le_refl 0) hleft id .refl _
    hcontained (.start 0) 0 (Int.le_refl 0) hsize

end

end PegMachine.Evaluator

namespace PegMachine.Machine

open Evaluator

/-- Without left recursion every match ends, with or without a limit, and not with a fault. -/
theorem match_terminates {α : Type*} [Preorder α] (family : Family) (host : Host) (config : Config)
    (id : Nat) (input : Input) (rank : Nat × Bytes → α) (hdefined : ∀ g ∈ family, g.Defined)
    (hclosed : family.Closed) (hcheck : family.check id = none) (hfree : family.CustomFree id)
    (hranked : family.Ranked id rank) :
    ∃ ending, MatchEnds family host config id input ending ∧ ending ≠ .fault := by
  have hends : ∃ ending, MatchEnds family host config id input ending := by
    cases hmain : (family.grammarAt id).rule? config.main with
    | none => exact ⟨_, matchEnds_undefined hcheck hmain⟩
    | some body =>
      have hmain := Option.isSome_of_eq_some hmain
      by_cases hl : config.limit ≤ 0
      · obtain ⟨o, ho⟩ := evaluates_of_ranked hfree hranked input config.main
        exact ⟨_, (matchEnds_iff_run hcheck hmain).2
          ((run_iff_evaluates hl hfree).2 ⟨o, ho, rfl⟩)⟩
      · have hlimited := run_initial_isSome family id input (Int.not_le.1 hl)
          (keepsLimit_idle config.limit)
        rw [run_initial_host_eq hfree Host.idle host] at hlimited
        obtain ⟨⟨t, ending⟩, hrun⟩ := Option.isSome_iff_exists.1 hlimited
        exact ⟨ending, (matchEnds_iff_run hcheck hmain).2 ⟨_, t, hrun⟩⟩
  obtain ⟨ending, h⟩ := hends
  refine ⟨ending, h, ?_⟩
  rintro rfl
  exact h.within hdefined hclosed hcheck hfree

/-- Sums of products. A factor in parentheses is a sum again, which the parentheses keep apart from
the sum that the factor stands in. -/
def sums : Family :=
  [.ofRules [("main", .sequence [.embed (some 1) "main",
      .iterate .zeroOrMore (.sequence [.literal "+", .embed (some 1) "main"])])],
    .ofRules [("main", .sequence [.iterate .optional (.literal "-"), .rule "factor",
        .iterate .zeroOrMore (.sequence [.literal "*", .rule "factor"])]),
      ("factor", .choice [.literal "x", .sequence [.iterate .not (.literal "()"), .literal "(",
        .embed (some 0) "main", .literal ")"]])]]

/-- A sum begins with a product, and a product with a factor. -/
def sumsRank : Nat × Bytes → Nat
  | (0, _) => 2
  | (_, name) => if name = "main" then 1 else 0

private theorem ranked_sums : sums.Ranked 0 sumsRank := by
  have hparen : ¬sums.Nullable 1 (.literal "(") := nofun
  intro inner _ name body hbody ref target hbegins htarget
  have hrule := Grammar.mem_rules_of_rule? _ _ _ hbody
  match inner with
  | 0 =>
    cases List.mem_singleton.1 hrule
    obtain rfl : ref = .embed (some 1) "main" := by
      grind [Family.Begins, Family.BeginsInOrder]
    cases htarget
    decide
  | 1 =>
    rcases List.mem_cons.1 hrule with heq | hrule
    · cases heq
      obtain rfl : ref = .rule "factor" := by
        grind [Family.Begins, Family.BeginsInOrder]
      cases htarget
      decide
    · cases List.mem_singleton.1 hrule
      simp [Family.Begins, Family.BeginsAny, Family.BeginsInOrder, hparen] at hbegins
  | inner + 2 => cases hrule

private theorem defined_sums : ∀ g ∈ sums, g.Defined := Grammar.defined_map [_, _]

private theorem closed_sums : sums.Closed := by decide

private theorem customFree_sums : sums.CustomFree 0 := Family.customFree_of_lacks rfl 0

/-- A sum in parentheses that is not closed. -/
theorem match_terminates_sums : (∀ g ∈ sums, g.Defined) ∧ sums.Closed ∧ sums.check 0 = none ∧
    sums.CustomFree 0 ∧ sums.Ranked 0 sumsRank ∧
    ∃ ending, MatchEnds sums Host.idle {} 0 (.text "x*(x+-x")
      ending ∧ ending ≠ .fault := by
  have hcheck : sums.check 0 = none := rfl
  have hends := match_terminates sums Host.idle {} 0
    (.text "x*(x+-x") sumsRank defined_sums closed_sums hcheck customFree_sums ranked_sums
  exact ⟨defined_sums, closed_sums, hcheck, customFree_sums, ranked_sums, hends⟩

end PegMachine.Machine
