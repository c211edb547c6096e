import Mathlib.Tactic.Choose
import PegMachine.Proofs.Evaluator.Failures
import PegMachine.Proofs.Evaluator.Parsing
import PegMachine.Proofs.Tokenizer.Scanning
import PegMachine.Proofs.Value.Streams

namespace PegMachine.Tokenizer

open Machine Evaluator

section

variable (family : Family) (host : Host) (source : Bytes)

/-- A run of a grammar on its own, from a position of the source on, ends in this way. -/
def RunEnds (inner : Nat) (main : Bytes) (position : Nat) (ending : Ending) : Prop :=
  ∃ fuel s, run (environment family host (.text source)) fuel
    { run := Run.start inner main false {} position } = some (s, ending)

/-- Whether an expression matches at a position, and where it stops if it does. A grammar matches
when a run of its own does. -/
inductive Tries : Expr → Nat → Option Nat → Prop
  | literal {text : Bytes} {position : Nat} :
    Tries (.literal text) position
      (if text.isPrefixOf (source.drop position) then some (position + text.length) else none)
  | pattern {p : Pattern} {position : Nat} :
    Tries (.pattern p) position ((p.matchStart (source.drop position)).map (position + ·))
  | inside {inner : Nat} {main : Bytes} {position stop : Nat} {vs : List Value}
    (h : RunEnds family host source inner main position (.values vs stop)) :
    Tries (.embed (some inner) main) position (some stop)
  | outside {inner : Nat} {main : Bytes} {position : Nat} {f : Failure} {cursor : Int}
    (h : RunEnds family host source inner main position (.error (.failure f) cursor))
    (hkind : f.kind = .mismatch) : Tries (.embed (some inner) main) position none

/-- An expression of grammar `id` matches up to where it stops, or it turns the rest of the source
down. -/
def Decides (id : Nat) (e : Expr) (position : Nat) : Option Nat → Prop
  | none => Rejects family id source e (source.drop position)
  | some stop => position ≤ stop ∧ stop ≤ source.length ∧
    ∃ vs, Parses family id source e (source.drop position) (source.drop stop) vs

end

section

variable {family : Family} {host : Host} {source : Bytes} {id : Nat} {e : Expr}
  {position stop : Nat} {r : Option Nat}

theorem place_drop (h : position ≤ source.length) :
    place source (source.drop position) = position := by
  simp only [place, List.length_drop]
  omega

private theorem at_drop
    {a : Activation} (h : position ≤ source.length) (hcursor : a.cursor = position) :
    a.At source (source.drop position) :=
  ⟨List.drop_suffix _ _, hcursor.trans (place_drop h).symm⟩

private theorem decides_literal (text : Bytes) (hposition : position ≤ source.length) :
    Decides family source id (.literal text) position
      (if text.isPrefixOf (source.drop position) then some (position + text.length) else none) := by
  split
  · next hprefix =>
    obtain ⟨rest, hrest⟩ := List.isPrefixOf_iff_prefix.1 hprefix
    have hlength : text.length + rest.length = source.length - position := by
      rw [← List.length_append, hrest, List.length_drop]
    have hdrop : source.drop (position + text.length) = rest := by
      rw [← List.drop_drop, ← hrest, List.drop_left]
    have hparses : Parses family id source (.literal text) (text ++ rest) rest _ :=
      .literal text rest
    rw [hrest, ← hdrop] at hparses
    exact ⟨Nat.le_add_right _ _, by omega, _, hparses⟩
  · next hno => exact .literal fun hprefix => hno (List.isPrefixOf_iff_prefix.2 hprefix)

private theorem decides_pattern (p : Pattern) (hposition : position ≤ source.length) :
    Decides family source id (.pattern p) position
      ((p.matchStart (source.drop position)).map (position + ·)) := by
  cases hmatch : p.matchStart (source.drop position) with
  | none => exact .pattern hmatch
  | some n =>
    obtain ⟨regex, -, hsearch⟩ := Option.bind_eq_some_iff.1 hmatch
    have hn := Regex.search_le hsearch
    have hlength : ((source.drop position).take n).length = n := List.length_take_of_le hn
    rw [List.length_drop] at hn
    have hstop : position + n ≤ source.length := by omega
    have hparses : Parses family id source (.pattern p)
        ((source.drop position).take n ++ (source.drop position).drop n)
        ((source.drop position).drop n) _ :=
      .pattern (by rw [List.take_append_drop, hlength, hmatch])
    rw [List.take_append_drop, List.drop_drop] at hparses
    exact ⟨Nat.le_add_right _ _, hstop, _, hparses⟩

/-- A run that comes to an activation has a main rule. -/
theorem exists_main {inner : Nat} {main : Bytes} {a b : Activation} {furthest further : Int}
    (h : Evaluates family (.text source) inner (.item (.rule main)) a furthest (.done b further)) :
    ∃ g body, family[inner]? = some g ∧ g.rule? main = some body := by
  cases h with
  | rule hrule =>
    unfold Family.grammarAt at hrule
    cases hg : family[inner]? with
    | none =>
      rw [hg] at hrule
      cases hrule
    | some g =>
      rw [hg] at hrule
      exact ⟨g, _, rfl, hrule⟩

theorem outcome_of_runEnds {inner : Nat} {main : Bytes} {ending : Ending}
    (hfree : family.CustomFree inner) (h : RunEnds family host source inner main position ending) :
    ∃ o, Evaluates family (.text source) inner (.item (.rule main)) (.start position) position o ∧
      (o.result (.text source) false position).ending = ending :=
  (run_start_iff_evaluates (environment family host (.text source))
    ⟨settled_default, Int.le_refl 0⟩ hfree).1 h

private theorem yields_of_evaluates {o : Outcome} (hposition : position ≤ source.length)
    (h : Evaluates family (.text source) id (.item e) (.start position) position o) :
    Yields family (.text source) id e (.start (place source (source.drop position)))
      (place source (source.drop position)) o := by
  rw [place_drop hposition]
  exact h.answered

private theorem Tries.decides (h : Tries family host source e position r)
    (hposition : position ≤ source.length)
    (hfree : ∀ inner main, e = .embed (some inner) main → family.CustomFree inner) :
    Decides family source id e position r := by
  cases h with
  | literal => exact decides_literal _ hposition
  | pattern => exact decides_pattern _ hposition
  | @inside inner main position stop vs h =>
    obtain ⟨o, ho, hending⟩ := outcome_of_runEnds (hfree inner main rfl) h
    obtain ⟨b, further, rfl, hb, -, hcursor⟩ := ending_eq_values hending
    obtain ⟨g, body, hg, hmain⟩ := exists_main ho
    have hbounds := ho.forward (Int.natCast_nonneg position) (Int.ofNat_le.2 hposition)
    rw [← hcursor] at hbounds
    have hle : position ≤ stop := Int.ofNat_le.1 hbounds.1
    have hstop : stop ≤ source.length := Int.ofNat_le.1 hbounds.2
    have hsuffix : source.drop stop <:+ source.drop position := by
      rw [← Nat.add_sub_cancel' hle, ← List.drop_drop]
      exact List.drop_suffix _ _
    refine ⟨hle, hstop, _, .embed hg hmain hsuffix (yields_of_evaluates hposition ho) hb ?_⟩
    rw [place_drop hstop, hcursor]
  | @outside inner main position f cursor h hkind =>
    obtain ⟨o, ho, hending⟩ := outcome_of_runEnds (hfree inner main rfl) h
    obtain ⟨-, b, further, rfl, hb⟩ | hpayload := ho.failure_cases hending
    case inr => cases hkind.symm.trans hpayload
    obtain ⟨g, body, hg, hmain⟩ := exists_main ho
    exact .embed hg hmain (yields_of_evaluates hposition ho) hb

theorem rejects_alternative {d : TokenDef} (h : Decides family source id d.expr position none) :
    Rejects family id source d.alternative (source.drop position) := by
  have hall : RejectsAll family id source [d.expr] (source.drop position) := .head h
  unfold TokenDef.alternative
  split
  · exact .hide hall
  · exact .wrap hall

/-- What an alternative puts out stands for the token of its lexeme, if that has one. -/
theorem parses_alternative {d : TokenDef}
    (h : Decides family source id d.expr position (some stop)) :
    ∃ vs, Parses family id source d.alternative (source.drop position) (source.drop stop) vs ∧
      tokens? source vs = some (tokensOf source [⟨d, position, stop⟩]) := by
  obtain ⟨hle, hstop, vs, hparses⟩ := h
  have hall : ParsesAll family id source [d.expr] (source.drop position) (source.drop stop) _ :=
    .cons hparses .nil
  unfold TokenDef.alternative
  split
  · next hskip =>
    refine ⟨[], .hide hall, ?_⟩
    simp [tokens?, tokensOf, Lexeme.token?, hskip]
  · next hkept =>
    have hposition := Nat.le_trans hle hstop
    have hslice : Bytes.slice? source position stop =
        some ((source.drop position).take (stop - position)) := by
      have hlength : ((stop : Int) - position).toNat = stop - position := by omega
      rw [Bytes.slice?, if_pos (by omega), hlength, Int.toNat_natCast]
    refine ⟨_, .wrap d.kind hall, ?_⟩
    simp [tokens?, tokensOf, Lexeme.token?, hkept, Value.ofItems, Span.text?, place_drop hposition,
      place_drop hstop, hslice]

private theorem tokens?_append {vs ws : List Value} {tokens more : List Token}
    (hvs : tokens? source vs = some tokens) (hws : tokens? source ws = some more) :
    tokens? source (vs ++ ws) = some (tokens ++ more) := by
  induction vs generalizing tokens with
  | nil =>
    cases hvs
    exact hws
  | cons v vs ih =>
    cases v with
    | text content span notes => exact ih hvs
    | node name span items notes =>
      rw [tokens?] at hvs
      rw [List.cons_append, tokens?]
      split at hvs
      · next text rest htext hrest =>
        cases hvs
        rw [htext, ih hrest]
        rfl
      · cases hvs

variable {attempt : TokenDef → Nat → Option Nat} {defs : List TokenDef} {d : TokenDef}

private theorem rejects_of_firstMatch
    (hdecides : ∀ d ∈ defs, Decides family source id d.expr position (attempt d position))
    (h : firstMatch attempt position defs = none) :
    ∀ e ∈ defs.map TokenDef.alternative, Rejects family id source e (source.drop position) := by
  induction defs with
  | nil => simp
  | cons head defs ih =>
    rw [firstMatch] at h
    cases hattempt : attempt head position with
    | some first =>
      rw [hattempt] at h
      cases h
    | none =>
      rw [hattempt] at h
      have hhead := hdecides head (.head _)
      rw [hattempt] at hhead
      intro e he
      rcases List.mem_cons.1 he with rfl | he
      · exact rejects_alternative hhead
      · exact ih (fun d hd => hdecides d (.tail _ hd)) h e he

/-- The choice picks the definition that the plain loop takes. -/
theorem picks_of_firstMatch
    (hdecides : ∀ d ∈ defs, Decides family source id d.expr position (attempt d position))
    (h : firstMatch attempt position defs = some (d, stop)) :
    ∃ vs, Picks family id source (defs.map TokenDef.alternative) (source.drop position)
        (source.drop stop) vs ∧
      tokens? source vs = some (tokensOf source [⟨d, position, stop⟩]) := by
  induction defs with
  | nil => cases h
  | cons head defs ih =>
    rw [firstMatch] at h
    have hhead := hdecides head (.head _)
    cases hattempt : attempt head position with
    | some first =>
      rw [hattempt] at h hhead
      cases h
      obtain ⟨vs, hvs, htokens⟩ := parses_alternative hhead
      exact ⟨vs, .here hvs, htokens⟩
    | none =>
      rw [hattempt] at h hhead
      obtain ⟨vs, hvs, htokens⟩ := ih (fun d hd => hdecides d (.tail _ hd)) h
      exact ⟨vs, .next (rejects_alternative hhead) hvs, htokens⟩

theorem bounded_of_decides
    (hdecides : ∀ d ∈ defs, ∀ position ≤ source.length,
      Decides family source id d.expr position (attempt d position)) :
    Bounded attempt defs source.length := by
  intro d hd position hposition stop hattempt
  have hbounds := hdecides d hd position hposition
  rw [hattempt] at hbounds
  exact ⟨hbounds.1, hbounds.2.1⟩

/-- The loop of the machine goes on where the plain one does. -/
theorem stopsLoop_eq_false_iff {a : Activation} (hcursor : a.cursor = position)
    (hf : a.failed = false) (hle : position ≤ stop) (output : List Value) :
    (a.succeed stop output).stopsLoop (Input.text source).size a.cursor = false ↔
      position < stop ∧ stop < source.length := by
  simp only [Activation.stopsLoop, Activation.succeed, hf, hcursor, Input.size, Bool.false_or,
    Bool.not_eq_false', Bool.and_eq_true, decide_eq_true_eq, bne_iff_ne]
  omega

/-- The rounds of the grammar are those of the plain loop. -/
theorem scan_yields
    (hdecides : ∀ d ∈ defs, ∀ position ≤ source.length,
      Decides family source id d.expr position (attempt d position))
    (hposition : position ≤ source.length) {a : Activation} (hcursor : a.cursor = position)
    (hf : a.failed = false) (furthest : Int) :
    ∃ b further vs,
      LoopYields family (.text source) id (.choice (defs.map TokenDef.alternative)) a furthest
        (.done b further) ∧
      b.cursor = finalPosition position (scan attempt defs source.length position) ∧
      b.output = vs.reverse ++ a.output ∧
      tokens? source vs = some (tokensOf source (scan attempt defs source.length position)) := by
  fun_induction scan attempt defs source.length position generalizing a furthest with
  | case1 position hnone =>
    have hrejects := rejects_of_firstMatch (fun d hd => hdecides d hd position hposition) hnone
    obtain ⟨further, hy⟩ := Rejects.choice hrejects a furthest (at_drop hposition hcursor)
    exact ⟨a.fail, further, [], .stopped hy rfl, hcursor, rfl, rfl⟩
  | case2 position d stop hfirst ih =>
    obtain ⟨hd, hattempt⟩ := of_firstMatch hfirst
    obtain ⟨hle, hstop⟩ := bounded_of_decides hdecides d hd position hposition stop hattempt
    obtain ⟨vs, hvs, htokens⟩ :=
      picks_of_firstMatch (fun d hd => hdecides d hd position hposition) hfirst
    obtain ⟨further, hy⟩ := (Parses.choice hvs).yields a furthest (at_drop hposition hcursor)
    rw [place_drop hstop] at hy
    have hgoes : _ ↔ position < stop ∧ stop < source.length :=
      stopsLoop_eq_false_iff hcursor hf hle vs.reverse
    split
    · next hgo =>
      obtain ⟨b, last, ws, hb, hc, ho, hrest⟩ :=
        ih hgo hstop (a := a.succeed stop vs.reverse) rfl hf further
      have hall := tokens?_append htokens hrest
      rw [tokensOf, tokensOf, ← List.filterMap_append] at hall
      refine ⟨b, last, vs ++ ws, .again hy (hgoes.2 hgo) hb, hc, ?_, hall⟩
      rw [ho, List.reverse_append, List.append_assoc]
      rfl
    · next hdone =>
      have hstops := Bool.of_not_eq_false (mt hgoes.1 hdone)
      exact ⟨_, further, vs, .stopped hy hstops, rfl, rfl, htokens⟩

/-- A tokenizer as the grammar of a family. -/
theorem rule?_main (hgrammar : family[id]? = some (grammar defs)) :
    (family.grammarAt id).rule? "main" =
      some (.iterate .zeroOrMore (.choice (defs.map TokenDef.alternative))) := by
  rw [Family.grammarAt, hgrammar]
  rfl

private theorem evaluates_main (hgrammar : family[id]? = some (grammar defs))
    (hdecides : ∀ d ∈ defs, ∀ position ≤ source.length,
      Decides family source id d.expr position (attempt d position)) :
    ∃ b further,
      Evaluates family (.text source) id (.item (.rule "main")) (.start 0) 0 (.done b further) ∧
      b.failed = false ∧
      b.cursor = finalPosition 0 (scan attempt defs source.length 0) ∧
      tokens? source b.output.reverse =
        some (tokensOf source (scan attempt defs source.length 0)) := by
  obtain ⟨b, further, vs, hb, hcursor, houtput, htokens⟩ :=
    scan_yields hdecides (Nat.zero_le _) (a := .start 0) rfl rfl 0
  have hloop := Yields.of_rule (rule?_main hgrammar) (Yields.zeroOrMore (a := .start 0) hb)
  have htake : (Activation.start 0).takeLoop .zeroOrMore b =
      (Activation.start 0).succeed b.cursor b.output := by
    simp [Activation.takeLoop, Quota.admits]
  rw [htake] at hloop
  refine ⟨_, further, evaluates_iff.2 hloop, rfl, hcursor, ?_⟩
  simpa [Activation.succeed, Activation.start, houtput] using htokens

end

/-- An expression that a definition of tokens is made with. -/
def IsLexical : Expr → Prop
  | .literal _ | .pattern _ | .embed .. => True
  | _ => False

/-- The answer that the lexemes of a source amount to: their tokens when they reach its end, and
otherwise a mismatch where they stop. -/
structure Answers (source : Bytes) (lexemes : List Lexeme) (answer : Answer (List Token)) : Prop where
  complete : finalPosition 0 lexemes = source.length → answer = .value (tokensOf source lexemes)
  stuck : finalPosition 0 lexemes ≠ source.length → ∃ furthest,
    answer = .error (.failure
      (failureAt (.text source) .mismatch .nil (finalPosition 0 lexemes, furthest)))

private theorem Answers.of_value
    {source : Bytes} {lexemes : List Lexeme} {answer : Answer (List Token)}
    {tokens : List Token} (h : Answers source lexemes answer) (hvalue : answer = .value tokens) :
    finalPosition 0 lexemes = source.length ∧ tokens = tokensOf source lexemes := by
  by_cases hfinal : finalPosition 0 lexemes = source.length
  · cases hvalue.symm.trans (h.complete hfinal)
    exact ⟨hfinal, rfl⟩
  · obtain ⟨furthest, hstuck⟩ := h.stuck hfinal
    cases hvalue.symm.trans hstuck

private theorem Contiguous.tokens_ordered {source : Bytes} {position : Nat} {lexemes : List Lexeme}
    (h : Contiguous position lexemes) : Token.Ordered (tokensOf source lexemes) where
  proper := by
    intro token htoken
    obtain ⟨l, hl, htoken⟩ := List.mem_filterMap.1 htoken
    rw [(of_token? htoken).2]
    exact Int.ofNat_le.2 (h.bounds hl).2.1
  follow := h.tokens_pairwise.isChain

section

variable {family : Family} {host : Host} {source : Bytes} {id : Nat} {defs : List TokenDef}
  {d : TokenDef}

/-- The expressions of the definitions can be evaluated, in grammars that the tokenizer leads to. -/
theorem sound_definition (hr : SoundRules family (family.Embeds id) Plain)
    (hgrammar : family[id]? = some (grammar defs)) (hd : d ∈ defs) :
    Sound family (family.Embeds id) Plain id d.expr := by
  have hmain : Sound (environment family noHost (.text [])).family (family.Embeds id) Plain id
      (.iterate .zeroOrMore (.choice (defs.map TokenDef.alternative))) :=
    hr id .refl _ (Grammar.mem_rules_of_rule? _ _ _ (rule?_main hgrammar))
  have hchoice := hmain.child (List.mem_singleton.2 rfl)
  have halternative := hchoice.child (List.mem_map.2 ⟨d, hd, rfl⟩)
  refine halternative.child ?_
  unfold TokenDef.alternative
  split <;> exact List.mem_singleton.2 rfl

theorem customFree_of_embeds (hr : SoundRules family (family.Embeds id) Plain) {inner : Nat}
    (hinner : family.Embeds id inner) : family.CustomFree inner :=
  fun _ h rule hrule _ hm => (hr _ (hinner.trans h) rule hrule).action _ hm

private theorem expected_of_runEnds (hr : SoundRules family (family.Embeds id) Plain) {inner : Nat}
    (hinner : family.Embeds id inner) {main : Bytes}
    (hmain : ((family.grammarAt inner).rule? main).isSome) {position : Nat}
    (hposition : position ≤ source.length) {ending : Ending}
    (h : RunEnds family host source inner main position ending) : ending.Expected := by
  obtain ⟨fuel, s, hrun⟩ := h
  obtain ⟨n, u, hsteps, hstop⟩ := steps_of_run hrun
  have hsafe : Safe (environment family host (.text source)) (family.Embeds id) Plain
      { run := Run.start inner main false {} position } :=
    ⟨.start hinner settled_default hmain (Int.natCast_nonneg _) (Int.ofNat_le.2 hposition), by simp⟩
  have hk := step_keeps hr (fun _ h => h) (hsafe.steps hr (fun _ h => h) hsteps)
  rw [hstop] at hk
  exact hk fun h => h

/-- A run that ends as expected, but with no payload, tells whether its grammar matches. -/
theorem tries_of_runEnds {inner : Nat} {main : Bytes} {position : Nat} {ending : Ending}
    (hfree : family.CustomFree inner) (hposition : position ≤ source.length)
    (h : RunEnds family host source inner main position ending) (hexpected : ending.Expected)
    (hpayload : ∀ f cursor, ending = .error (.failure f) cursor → f.kind ≠ .payload) :
    ∃ r, Tries family host source (.embed (some inner) main) position r := by
  obtain ⟨o, ho, hending⟩ := outcome_of_runEnds hfree h
  cases ending with
  | values vs cursor =>
    obtain ⟨b, further, rfl, -, -, hcursor⟩ := ending_eq_values hending
    have hforward := ho.forward (Int.natCast_nonneg position) (Int.ofNat_le.2 hposition)
    have hnonneg : 0 ≤ cursor := hcursor ▸ Int.le_trans (Int.natCast_nonneg position) hforward.1
    obtain ⟨stop, rfl⟩ := Int.eq_ofNat_of_zero_le hnonneg
    exact ⟨some stop, .inside h⟩
  | error e cursor =>
    obtain ⟨f, rfl⟩ | ⟨further, rfl⟩ := ending_eq_error hending
    · obtain ⟨hmismatch, -⟩ | hkind := ho.failure_cases hending
      · exact ⟨none, .outside h hmismatch⟩
      · exact absurd hkind (hpayload f cursor rfl)
    · cases ho.aborted rfl <;> exact hexpected.elim
  | fault => exact hexpected.elim

/-- Each definition matches or does not at each position, if runs of grammars end. -/
theorem exists_tries (hr : SoundRules family (family.Embeds id) Plain)
    (hgrammar : family[id]? = some (grammar defs)) (hd : d ∈ defs) (hlexical : IsLexical d.expr)
    {position : Nat} (hposition : position ≤ source.length)
    (hruns : ∀ inner main, d.expr = .embed (some inner) main →
      ∃ ending, RunEnds family host source inner main position ending ∧
        ∀ f cursor, ending = .error (.failure f) cursor → f.kind ≠ .payload) :
    ∃ r, Tries family host source d.expr position r := by
  have hsound := sound_definition hr hgrammar hd
  cases he : d.expr with
  | literal text => exact ⟨_, .literal⟩
  | pattern p => exact ⟨_, .pattern⟩
  | embed outer main =>
    rw [he] at hsound
    cases outer with
    | none => cases hsound.flawless.flaws_eq
    | some inner =>
      obtain ⟨hinner, g, hg, hmain⟩ := hsound.embed inner main (Expr.mem_parts_self _ rfl)
      have hdefined : ((family.grammarAt inner).rule? main).isSome := by
        rw [Family.grammarAt, hg]
        exact hmain
      obtain ⟨ending, hends, hpayload⟩ := hruns inner main he
      exact tries_of_runEnds (customFree_of_embeds hr hinner) hposition hends
        (expected_of_runEnds hr hinner hdefined hposition hends) hpayload
  | missing | rule | sequence | choice | iterate | wrap | hide | action =>
    rw [he] at hlexical
    exact hlexical.elim

private theorem decides_of_tries (hr : SoundRules family (family.Embeds id) Plain)
    (hgrammar : family[id]? = some (grammar defs)) (hd : d ∈ defs) {position : Nat}
    (hposition : position ≤ source.length) {r : Option Nat}
    (h : Tries family host source d.expr position r) :
    Decides family source id d.expr position r := by
  refine h.decides hposition ?_
  intro inner main he
  have hsound := sound_definition hr hgrammar hd
  rw [he] at hsound
  exact customFree_of_embeds hr (hsound.embed inner main (Expr.mem_parts_self _ rfl)).1

/-- The machine answers what the lexemes amount to, given enough steps. -/
theorem exists_answer (hr : SoundRules family (family.Embeds id) Plain)
    (hgrammar : family[id]? = some (grammar defs)) (hcheck : family.check id = none)
    {attempt : TokenDef → Nat → Option Nat}
    (hdecides : ∀ d ∈ defs, ∀ position ≤ source.length,
      Decides family source id d.expr position (attempt d position)) :
    ∃ answer enough,
      (∀ fuel, enough ≤ fuel → tokenize fuel family host id source = some answer) ∧
      Answers source (scan attempt defs source.length 0) answer := by
  obtain ⟨b, further, hb, hf, hcursor, htokens⟩ := evaluates_main hgrammar hdecides
  have hle : finalPosition 0 (scan attempt defs source.length 0) ≤ source.length :=
    finalPosition_scan_le (bounded_of_decides hdecides) (Nat.zero_le _)
  generalize scan attempt defs source.length 0 = lexemes at hcursor htokens hle ⊢
  have hmain : ((family.grammarAt id).rule? ({} : Config).main).isSome :=
    Option.isSome_of_eq_some (rule?_main hgrammar)
  have hends : MatchEnds family host {} id (.text source)
      ((Outcome.done b further).result (.text source) true 0).ending :=
    (matchEnds_iff_run hcheck hmain).2
      ((run_iff_evaluates (Int.le_refl 0) (customFree_of_embeds hr .refl)).2 ⟨_, hb, rfl⟩)
  obtain ⟨enough, heval⟩ := hends.evaluate_eq
  by_cases hfinal : finalPosition 0 lexemes = source.length
  · have hall : ((Outcome.done b further).result (.text source) true 0).ending =
        .values b.output.reverse b.cursor := by
      simp [Outcome.result, Result.ending, hf, hcursor, hfinal, Input.size]
    refine ⟨.value (tokensOf source lexemes), enough, ?_, fun _ => rfl,
      fun hother => absurd hfinal hother⟩
    intro fuel hle
    simp only [tokenize, heval fuel hle, hall, Option.map_some, Ending.answer, htokens]
  · have hleft : ((Outcome.done b further).result (.text source) true 0).ending =
        .error (.failure (failureAt (.text source) .mismatch .nil (b.cursor, further))) b.cursor := by
      have hlt : finalPosition 0 lexemes < source.length := Nat.lt_of_le_of_ne hle hfinal
      simp [Outcome.result, Result.ending, failureResult, Evaluator.position?, Input.offset?, hcursor,
        hlt, Input.size]
    refine ⟨_, enough, ?_, fun hother => absurd hother hfinal, fun _ => ⟨further, rfl⟩⟩
    intro fuel hle
    simp only [tokenize, heval fuel hle, hleft, hcursor, Option.map_some, Ending.answer]

/-- Tokenizing a source is scanning it with the plain loop, for every list of definitions whose
grammar passes the check, if the runs of embedded grammars end and no payload ends them. The
tokens follow one another, and what they leave uncovered is what skipped definitions matched. -/
theorem tokenize_scan {family : Family} {host : Host} {id : Nat} {source : Bytes}
    {defs : List TokenDef} (hdefined : ∀ g ∈ family, g.Defined) (hclosed : family.Closed)
    (hgrammar : family[id]? = some (grammar defs)) (hcheck : family.check id = none)
    (hlexical : ∀ d ∈ defs, IsLexical d.expr)
    (hactions : ∀ inner, family.Embeds id inner → ∀ rule ∈ (family.grammarAt inner).rules,
      ∀ a, .action a ∈ rule.2.parts → Plain a)
    (hruns : ∀ d ∈ defs, ∀ inner main, d.expr = .embed (some inner) main →
      ∀ position ≤ source.length, ∃ ending,
        RunEnds family host source inner main position ending ∧
          ∀ f cursor, ending = .error (.failure f) cursor → f.kind ≠ .payload) :
    ∃ attempt : TokenDef → Nat → Option Nat,
      (∀ d ∈ defs, ∀ position ≤ source.length,
        Tries family host source d.expr position (attempt d position)) ∧
      ∃ answer enough,
        (∀ fuel, enough ≤ fuel → tokenize fuel family host id source = some answer) ∧
        Answers source (scan attempt defs source.length 0) answer ∧
        ∀ tokens, answer = .value tokens → Token.Ordered tokens ∧
          ∀ offset < source.length, (∀ token ∈ tokens, ¬token.Covers offset) ↔
            ∃ l ∈ scan attempt defs source.length 0,
              l.definition.skip = true ∧ l.Covers offset := by
  have hmain : ((family.grammarAt id).rule? ({} : Config).main).isSome :=
    Option.isSome_of_eq_some (rule?_main hgrammar)
  have hr := soundRules_of_check hdefined hclosed hcheck hmain hactions
  have htries (d : TokenDef) (position : Nat) : ∃ r, d ∈ defs → position ≤ source.length →
      Tries family host source d.expr position r := by
    by_cases h : d ∈ defs ∧ position ≤ source.length
    · obtain ⟨r, h⟩ := exists_tries hr hgrammar h.1 (hlexical d h.1) h.2
        fun inner main he => hruns d h.1 inner main he position h.2
      exact ⟨r, fun _ _ => h⟩
    · exact ⟨none, fun hd hposition => absurd ⟨hd, hposition⟩ h⟩
  choose attempt hattempt using htries
  have hdecides (d : TokenDef) (hd : d ∈ defs) (position : Nat) (hposition : position ≤ source.length) :=
    decides_of_tries hr hgrammar hd hposition (hattempt d position hd hposition)
  obtain ⟨answer, enough, htokenize, hanswers⟩ := exists_answer hr hgrammar hcheck hdecides
  refine ⟨attempt, fun d hd position => hattempt d position hd, answer, enough, htokenize, hanswers,
    ?_⟩
  have hcontiguous := contiguous_scan (bounded_of_decides hdecides) (Nat.zero_le _)
  intro tokens hvalue
  obtain ⟨hfinal, rfl⟩ := hanswers.of_value hvalue
  refine ⟨hcontiguous.tokens_ordered, ?_⟩
  intro offset hoffset
  exact hcontiguous.uncovered_iff (Nat.zero_le _) (Nat.lt_of_lt_of_eq hoffset hfinal.symm)

end

/-- Brackets, which may be nested, and the letter `w`; blanks are skipped. -/
def groupDefs : List TokenDef :=
  [.ofGrammar "group" (some 1) "main", .ofLiteral "word" "w",
    { TokenDef.ofLiteral "blank" " " with skip := true }]

def groups : Family :=
  [grammar groupDefs,
    .ofRules [("main", .sequence [.literal "[", .iterate .optional (.rule "main"), .literal "]"])]]

private theorem closed_groups : groups.Closed := by decide

private theorem actionless_groups (inner : Nat) : ∀ rule ∈ (groups.grammarAt inner).rules, ∀ a,
    .action a ∉ rule.2.parts := by
  intro rule hr a
  have hlacks : groups.lacks Expr.isAction = true := rfl
  exact Family.not_mem_of_lacks hlacks hr rfl

/-- Whether a run ended with values or with a mismatch. -/
def isOrdinary : Ending → Bool
  | .values .. => true
  | .error (.failure f) _ => f.kind == .mismatch
  | _ => false

private theorem runEnds_groups : ∀ position ≤ ("[[]] w" : Bytes).length, ∃ ending,
    RunEnds groups noHost "[[]] w" 1 "main" position ending ∧
      ∀ f cursor, ending = .error (.failure f) cursor → f.kind ≠ .payload := by
  intro position hposition
  have hall : ∀ position ≤ ("[[]] w" : Bytes).length,
      ((run (environment groups noHost (.text "[[]] w")) 40
        { run := Run.start 1 "main" false {} (position : Nat) }).map (isOrdinary ·.2)) = some true := by
    decide +kernel
  obtain ⟨⟨s, ending⟩, hrun, hordinary⟩ := Option.map_eq_some_iff.1 (hall position hposition)
  refine ⟨ending, ⟨40, s, hrun⟩, ?_⟩
  rintro f cursor rfl hpayload
  simp [isOrdinary, hpayload] at hordinary

/-- Two tokens, with a blank in between that makes none. -/
theorem tokenize_scan_groups : (∀ g ∈ groups, g.Defined) ∧ groups.Closed ∧ groups.check 0 = none ∧
    tokenize 60 groups noHost 0 "[[]] w" =
      some (.value [⟨"group", "[[]]", ⟨0, 4⟩⟩, ⟨"word", "w", ⟨5, 6⟩⟩]) ∧
    ∃ attempt : TokenDef → Nat → Option Nat,
      (∀ d ∈ groupDefs, ∀ position ≤ 6,
        Tries groups noHost "[[]] w" d.expr position (attempt d position)) ∧
      ∃ answer enough,
        (∀ fuel, enough ≤ fuel → tokenize fuel groups noHost 0 "[[]] w" = some answer) ∧
        Answers "[[]] w" (scan attempt groupDefs 6 0) answer := by
  have hdefined : ∀ g ∈ groups, g.Defined := Grammar.defined_map [_, _]
  have hcheck : groups.check 0 = none := rfl
  have hlexical : ∀ d ∈ groupDefs, IsLexical d.expr := by
    simp [groupDefs, IsLexical, TokenDef.ofGrammar, TokenDef.ofLiteral]
  have hruns : ∀ d ∈ groupDefs, ∀ inner main, d.expr = .embed (some inner) main →
      ∀ position ≤ ("[[]] w" : Bytes).length, ∃ ending,
        RunEnds groups noHost "[[]] w" inner main position ending ∧
          ∀ f cursor, ending = .error (.failure f) cursor → f.kind ≠ .payload := by
    intro d hd inner main he
    simp only [groupDefs, List.mem_cons, List.not_mem_nil, or_false] at hd
    obtain rfl | rfl | rfl := hd <;> cases he
    exact runEnds_groups
  obtain ⟨attempt, htries, answer, enough, htokenize, hanswers, -⟩ :=
    tokenize_scan hdefined closed_groups rfl hcheck hlexical
      (fun inner _ rule hr a hm => absurd hm (actionless_groups inner rule hr a)) hruns
  exact ⟨hdefined, closed_groups, hcheck, rfl, attempt, htries, answer, enough, htokenize, hanswers⟩

end PegMachine.Tokenizer
