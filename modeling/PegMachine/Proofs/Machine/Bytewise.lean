import PegMachine.Proofs.Evaluator.Agreement
import PegMachine.Proofs.Machine.Cursors
import PegMachine.Proofs.Machine.Pending

namespace PegMachine

/-- The tokens of a text of which each is one byte, of the kind of that byte. -/
def Token.ofBytes (source : Bytes) : List Token :=
  source.mapIdx fun i b => ⟨[b], [b], ⟨i, i + 1⟩⟩

/-- The other input answers like the first one at all cursors that are inside of it, as long as
literals of one byte are tried. -/
structure Input.Agrees (input other : Input) : Prop where
  size_eq : other.size = input.size
  source_eq : other.source = input.source
  literal_eq : ∀ {cursor}, 0 ≤ cursor → cursor ≤ input.size → ∀ b,
    other.tryLiteral cursor [b] = input.tryLiteral cursor [b]
  offset_eq : ∀ {cursor}, 0 ≤ cursor → cursor ≤ input.size →
    other.offset? cursor = input.offset? cursor
  span_eq : ∀ {start stop}, 0 ≤ start → start ≤ stop → stop ≤ input.size →
    other.span? start stop = input.span? start stop

/-- An expression whose leaves are literals of one byte. -/
structure Expr.Bytewise (e : Expr) : Prop where
  literal : ∀ text, .literal text ∈ e.parts → ∃ b, text = [b]
  pattern : ∀ p, .pattern p ∉ e.parts

theorem Expr.Bytewise.child {e child : Expr} (h : e.Bytewise) (hc : child ∈ e.children) :
    child.Bytewise where
  literal text hm := h.literal text (mem_parts_of_child e child _ hc hm)
  pattern p hm := h.pattern p (mem_parts_of_child e child _ hc hm)

namespace Input

variable {source : Bytes} {cursor : Int}

theorem getElem?_ofBytes (n : Nat) :
    (Token.ofBytes source)[n]? = source[n]?.map fun b => ⟨[b], [b], ⟨n, n + 1⟩⟩ :=
  List.getElem?_mapIdx

theorem length_ofBytes : (Token.ofBytes source).length = source.length := List.length_mapIdx

private theorem tryLiteral_ofBytes (h : 0 ≤ cursor) (hle : cursor ≤ source.length) (b : UInt8) :
    (Input.tokens source (Token.ofBytes source)).tryLiteral cursor [b] =
      (Input.text source).tryLiteral cursor [b] := by
  have hcursor : ¬cursor < 0 := by omega
  obtain ⟨n, rfl⟩ := Int.eq_ofNat_of_zero_le h
  simp only [tryLiteral, tryToken, if_neg hcursor, rest?_eq h hle, getElem?_ofBytes,
    Int.toNat_natCast]
  cases hn : source[n]? with
  | none =>
    have hempty : source.drop n = [] := List.drop_eq_nil_of_le (List.getElem?_eq_none_iff.1 hn)
    simp [hempty]
  | some c =>
    have hdrop : source.drop n = c :: source.drop (n + 1) := by
      obtain ⟨hlt, rfl⟩ := List.getElem?_eq_some_iff.1 hn
      exact List.drop_eq_getElem_cons hlt
    by_cases hc : c = b
    · subst hc
      simp [hdrop]
    · simp [hdrop, hc, Ne.symm hc]

theorem offset?_ofBytes (h : 0 ≤ cursor) (hle : cursor ≤ source.length) :
    (Input.tokens source (Token.ofBytes source)).offset? cursor = some cursor := by
  have hcursor : ¬cursor < 0 := by omega
  obtain ⟨n, rfl⟩ := Int.eq_ofNat_of_zero_le h
  simp only [offset?, if_neg hcursor, getElem?_ofBytes, Int.toNat_natCast]
  cases hn : source[n]? with
  | some b => rfl
  | none =>
    -- past the last byte a cursor stands where that one stops
    have hlength : n = source.length := by
      have := List.getElem?_eq_none_iff.1 hn
      omega
    rw [List.getLast?_eq_getElem?, length_ofBytes, getElem?_ofBytes]
    cases hlast : source[source.length - 1]? with
    | none =>
      have := List.getElem?_eq_none_iff.1 hlast
      simp only [Option.map_none, Option.some.injEq]
      omega
    | some b =>
      obtain ⟨hlt, -⟩ := List.getElem?_eq_some_iff.1 hlast
      have hstop : ((source.length - 1 : Nat) : Int) + 1 = n := by omega
      exact congrArg some hstop

private theorem span?_ofBytes {start stop : Int} (h : 0 ≤ start) (hle : start ≤ stop)
    (hstop : stop ≤ source.length) :
    (Input.tokens source (Token.ofBytes source)).span? start stop = some ⟨start, stop⟩ := by
  rcases Int.lt_or_eq_of_le hle with hlt | rfl
  · have hnonempty : ¬stop ≤ start := by omega
    have hstart : ¬start < 0 := by omega
    have hfirst : start.toNat < source.length := by omega
    have hlast : (stop - 1).toNat < source.length := by omega
    simp only [span?, if_neg hnonempty, if_neg hstart, getElem?_ofBytes,
      List.getElem?_eq_getElem hfirst, List.getElem?_eq_getElem hlast, Option.map_some]
    simp only [Option.some.injEq, Span.mk.injEq]
    omega
  · simp only [span?, Int.le_refl, if_true, offset?_ofBytes h hstop, Option.map_some]

private theorem agrees_ofBytes (source : Bytes) :
    (Input.text source).Agrees (.tokens source (Token.ofBytes source)) where
  size_eq := congrArg Int.ofNat length_ofBytes
  source_eq := rfl
  literal_eq := tryLiteral_ofBytes
  offset_eq := offset?_ofBytes
  span_eq := span?_ofBytes

end Input

namespace Machine

section

variable {env : Env} {other : Input} {known : Nat → Prop} {allowed : Action → Prop}
  {s : State} {top : Frame} {below : List Frame} {r : Run}

/-- The machine that runs on another input. -/
def Env.on (env : Env) (other : Input) : Env := { env with input := other }

@[simp] theorem on_input : (env.on other).input = other := rfl

theorem position?_agrees (ha : env.input.Agrees other) (h : SafeRun env known allowed r) :
    r.position? other = r.position? env.input := by
  have hroot := h.rootCursor_within
  have hfurthest := h.furthest_le
  have hnonneg := h.furthest_nonneg
  simp only [Run.position?, ha.offset_eq hroot.1 (Int.le_trans hroot.2 hfurthest),
    ha.offset_eq hnonneg hfurthest]

theorem failureAt_agrees (ha : env.input.Agrees other) (kind : FailureKind) (payload : Payload)
    (position : Int × Int) :
    failureAt other kind payload position = failureAt env.input kind payload position := by
  simp only [failureAt, ha.source_eq]

private theorem raise?_agrees (ha : env.input.Agrees other) (payload : Payload) {callers : List Run}
    (h : SafeRun env known allowed r) (hc : ∀ r ∈ callers, SafeRun env known allowed r) :
    raise? other payload r callers = raise? env.input payload r callers := by
  induction callers generalizing r with
  | nil => simp only [raise?, position?_agrees ha h, failureAt_agrees ha]
  | cons caller callers ih =>
    obtain ⟨hcaller, hcallers⟩ := List.forall_mem_cons.1 hc
    simp only [raise?, position?_agrees ha h, ih (hcaller.reach h.furthest_le) hcallers]

private theorem raise_agrees (ha : env.input.Agrees other) (h : Safe env known allowed s)
    (payload : Payload) : raise (env.on other) s payload = raise env s payload := by
  simp only [raise, on_input, raise?_agrees ha payload h.run h.callers]

private theorem finish_agrees
    (ha : env.input.Agrees other) (h : Safe env known allowed s) (root : Frame) :
    finish (env.on other) s root = finish env s root := by
  have htrace := (h.trace (.finish (!root.failed) root.cursor)).run
  simp only [finish, on_input, ha.size_eq, position?_agrees ha htrace, failureAt_agrees ha]

private theorem fold_agrees (ha : env.input.Agrees other) {child parent : Frame}
    (h0 : 0 ≤ child.start) (hle : child.start ≤ child.cursor)
    (hcursor : child.cursor ≤ env.input.size) :
    fold (env.on other) s child parent below = fold env s child parent below := by
  have hfold : Frame.fold? other child parent = Frame.fold? env.input child parent := by
    simp only [Frame.fold?, ha.span_eq h0 hle hcursor]
  simp only [fold, on_input, hfold]

private theorem act_agrees (ha : env.input.Agrees other) (h : Safe env known allowed s)
    (ht : SafeFrame env known allowed s.run.grammar s.run.furthest top)
    (hb : ∀ f ∈ below, SafeFrame env known allowed s.run.grammar s.run.furthest f) {a : Action}
    (hcustom : ∀ host, a ≠ .custom host) :
    act (env.on other) s top below a = act env s top below a := by
  have htrace := h.trace (.action a.render)
  have hcursor : top.cursor ≤ env.input.size := Int.le_trans ht.cursor_le h.run.furthest_le
  have emitted (output : List Value) : Safe env known allowed
      ((s.trace (.action a.render)).withFrames ({ top with output := output } :: below)) := by
    refine htrace.withFrames ?_ ?_ <;> rw [trace_run]
    · exact ht.emit output
    · exact hb
  unfold act
  simp only
  cases a with
  | insertText text =>
    simp only [on_input, ha.span_eq ht.cursor_nonneg (Int.le_refl _) hcursor]
  | convert f =>
    cases f with
    | none => rfl
    | some f =>
      simp only
      cases f top.output.head? with
      | error message => exact raise_agrees ha (emitted _) _
      | ok result => rfl
  | modify f =>
    cases top.output with
    | nil => rfl
    | cons last output =>
      cases f with
      | none => rfl
      | some f =>
        simp only
        cases f last with
        | error message => exact raise_agrees ha htrace _
        | ok last => rfl
  | throw datum => exact raise_agrees ha htrace _
  | custom host => exact absurd rfl (hcustom host)
  | insert | note | clear | log | unknown => rfl

private theorem evaluate_agrees (ha : env.input.Agrees other) (h : Safe env known allowed s)
    (ht : SafeFrame env known allowed s.run.grammar s.run.furthest top)
    (hb : ∀ f ∈ below, SafeFrame env known allowed s.run.grammar s.run.furthest f)
    (hw : ∀ e ∈ top.pending, e.Bytewise ∧ ∀ host, e ≠ .action (.custom host)) :
    evaluate (env.on other) s top below = evaluate env s top below := by
  have hcursor : top.cursor ≤ env.input.size := Int.le_trans ht.cursor_le h.run.furthest_le
  unfold evaluate
  cases hp : top.pending with
  | nil => rfl
  | cons e rest =>
    rw [hp] at hw
    obtain ⟨hbytes, hcustom⟩ := hw e (.head _)
    have hpending := ht.pending
    rw [hp] at hpending
    have hleft := ht.await (List.forall_mem_cons.1 hpending).2
    cases e with
    | literal text =>
      obtain ⟨b, rfl⟩ := hbytes.literal text (Expr.mem_parts_self _ rfl)
      simp only [on_input, ha.literal_eq ht.cursor_nonneg hcursor]
    | pattern p => exact absurd (Expr.mem_parts_self _ rfl) (hbytes.pattern p)
    | action a =>
      simp only
      refine act_agrees ha (h.withFrames hleft hb) hleft hb fun host ha => ?_
      exact hcustom host (congrArg Expr.action ha)
    | missing | rule | sequence | choice | iterate | wrap | hide | embed => rfl

/-- On inputs that agree a safe state leads to the same step. -/
theorem step_agrees (ha : env.input.Agrees other) (h : Safe env known allowed s)
    (hlinked : Linked (framesOf (s.run :: s.callers)))
    (hw : ∀ f ∈ s.run.stack.frames,
      f.Awaits fun e => e.Bytewise ∧ ∀ host, e ≠ .action (.custom host)) :
    step (env.on other) s = step env s := by
  unfold step
  simp only [Env.on, ha.size_eq]
  split
  · rfl
  have hs : Safe env known allowed { s with steps := s.steps + 1 } := ⟨h.run, h.callers⟩
  obtain ⟨top, below, hf⟩ := List.exists_cons_of_ne_nil h.run.nonempty
  have hframes := h.run.frames
  rw [hf] at hframes hw
  rw [framesOf_cons, hf] at hlinked
  obtain ⟨htop, hbelow⟩ := List.forall_mem_cons.1 hframes
  simp only [hf]
  split
  · cases below with
    | nil => exact finish_agrees ha hs top
    | cons parent below =>
      have hforward := hlinked.forward top (.head _)
      exact fold_agrees ha htop.start_nonneg hforward.start_le
        (Int.le_trans htop.cursor_le h.run.furthest_le)
  · exact evaluate_agrees ha (hs.withFrames htop.restart hbelow) htop.restart hbelow
      ((List.forall_mem_cons.1 hw).1.restart.pending)

variable (env) in
/-- Inputs that agree lead to the same run, from any safe state on. -/
theorem run_agrees (ha : env.input.Agrees other) (hr : SoundRules env.family known allowed)
    (hcustom : ∀ host, ¬allowed (.custom host))
    (hi : Inherited env.family known fun e => e.Bytewise ∧ Evaluator.Contained known e) (fuel : Nat)
    (h : Safe env known allowed s) (hlinked : Linked (framesOf (s.run :: s.callers)))
    (hw : ∀ r ∈ s.run :: s.callers,
      r.Awaits known fun e => e.Bytewise ∧ Evaluator.Contained known e) :
    run (env.on other) fuel s = run env fuel s := by
  induction fuel generalizing s with
  | zero => rfl
  | succ fuel ih =>
    have hstep : step (env.on other) s = step env s := by
      refine step_agrees ha h hlinked fun f hf => ?_
      have hf := (hw s.run (.head _)).frames f hf
      have plain {e : Expr} (he : e.Bytewise ∧ Evaluator.Contained known e) :
          e.Bytewise ∧ ∀ host, e ≠ .action (.custom host) := by
        refine ⟨he.1, ?_⟩
        rintro host rfl
        exact he.2.custom host (Expr.mem_parts_self _ rfl)
      exact ⟨fun e he => plain (hf.pending e he), fun quota item mark hk =>
        plain (hf.loop quota item mark hk)⟩
    simp only [run, hstep]
    cases hnext : step env s with
    | stop t ending => rfl
    | next t =>
      exact ih (h.steps hr hcustom (.single hnext)) (hlinked.step h hcustom hnext)
        (awaits_of_next hi hw hnext)

end

/-- The leaves of all rules are what those of the rules' parts are. -/
theorem inherited_bytewise {family : Family} {id : Nat} (hfree : family.CustomFree id)
    (hbytes : ∀ inner, family.Embeds id inner → ∀ rule ∈ (family.grammarAt inner).rules,
      rule.2.Bytewise) :
    Inherited family (family.Embeds id)
      fun e => e.Bytewise ∧ Evaluator.Contained (family.Embeds id) e where
  child h hc := ⟨h.1.child hc, (Evaluator.inherited_contained hfree).child h.2 hc⟩
  rule {inner} hinner rule hr :=
    ⟨hbytes inner hinner rule hr, (Evaluator.inherited_contained hfree).rule hinner rule hr⟩
  reference name :=
    ⟨⟨by simp [Expr.parts, Expr.visit], by simp [Expr.parts, Expr.visit]⟩,
      (Evaluator.inherited_contained hfree).reference name⟩
  embed h := (Evaluator.inherited_contained hfree).embed h.2
  custom host h := (Evaluator.inherited_contained hfree).custom host h.2

/-- A text and the stream of its bytes are matched alike by grammars whose leaves are literals of
one byte: with the same values, cursor, error, log and number of steps, if there is an end. -/
theorem match_bytewise (family : Family) (host : Host) (config : Config) (id : Nat) (source : Bytes)
    (hdefined : ∀ g ∈ family, g.Defined) (hclosed : family.Closed) (hfree : family.CustomFree id)
    (hbytes : ∀ inner, family.Embeds id inner → ∀ rule ∈ (family.grammarAt inner).rules,
      rule.2.Bytewise) (fuel : Nat) :
    matchInput fuel family host config id (.tokens source (Token.ofBytes source)) =
      matchInput fuel family host config id (.text source) := by
  cases hcheck : family.check id with
  | some e => simp only [matchInput, hcheck]
  | none =>
    cases hmain : (family.grammarAt id).rule? config.main with
    | none =>
      have hmain : ((family[id]?).getD {}).rule? config.main = none := hmain
      simp only [matchInput, hcheck, hmain]
    | some body =>
      have hmain' : ((family[id]?).getD {}).rule? config.main = some body := hmain
      have hmain := Option.isSome_of_eq_some hmain
      have hr := soundRules_of_check hdefined hclosed hcheck hmain (action_ne_custom hfree)
      have hcustom (host : Option Nat) : ¬∀ host', Action.custom host ≠ .custom host' :=
        fun h => h host rfl
      have hi := inherited_bytewise hfree hbytes
      have hsafe : Safe (environment family host (.text source)) (family.Embeds id) _
          (initial config id) := safe_of_steps hr hcustom hmain (.refl _)
      have hawaits : ∀ r ∈ (initial config id).run :: (initial config id).callers,
          r.Awaits (family.Embeds id)
            fun e => e.Bytewise ∧ Evaluator.Contained (family.Embeds id) e := by
        intro r hr
        obtain rfl := List.mem_singleton.1 hr
        exact .start hi .refl
      have hrun := run_agrees (environment family host (.text source))
        (Input.agrees_ofBytes source) hr hcustom hi fuel hsafe Linked.start hawaits
      simp only [matchInput, hcheck, hmain']
      exact congrArg (Option.map _) hrun

/-- Lists of words in brackets, with a blank text before each word. -/
def bytewiseLists : Family :=
  [.ofRules [("main", .wrap "list" [.hide [.literal "["],
    .iterate .zeroOrMore (.choice [.embed (some 0) "main",
      .wrap "word" [.action (.insertText ""), .iterate .oneOrMore (.literal "w")]]),
    .literal "]"])]]

private theorem defined_bytewiseLists : ∀ g ∈ bytewiseLists, g.Defined := Grammar.defined_map [_]

private theorem closed_bytewiseLists : bytewiseLists.Closed := by decide

private theorem customFree_bytewiseLists : bytewiseLists.CustomFree 0 :=
  Family.customFree_of_lacks rfl 0

private theorem bytewise_bytewiseLists : ∀ inner, ∀ rule ∈ (bytewiseLists.grammarAt inner).rules,
    rule.2.Bytewise := by
  intro inner rule hr
  match inner with
  | 0 =>
    obtain rfl := List.mem_singleton.1 hr
    refine ⟨fun text hm => ?_, by simp [Expr.parts, Expr.visit, Expr.visitAll]⟩
    have hbytes : text = "[" ∨ text = "w" ∨ text = "]" := by
      simpa [Expr.parts, Expr.visit, Expr.visitAll] using hm
    obtain rfl | rfl | rfl := hbytes
    · exact ⟨0x5B, rfl⟩
    · exact ⟨0x77, rfl⟩
    · exact ⟨0x5D, rfl⟩
  | inner + 1 => cases hr

/-- The lists and the inserted texts are at the same places in both. -/
theorem match_bytewise_lists :
    (∀ g ∈ bytewiseLists, g.Defined) ∧ bytewiseLists.Closed ∧ bytewiseLists.CustomFree 0 ∧
    (∀ inner, ∀ rule ∈ (bytewiseLists.grammarAt inner).rules, rule.2.Bytewise) ∧
    ∃ report, matchInput 150 bytewiseLists Host.idle {} 0
        (.text "[ww[w]]") = some report ∧
      matchInput 150 bytewiseLists Host.idle {} 0
        (.tokens "[ww[w]]" (Token.ofBytes "[ww[w]]")) = some report := by
  have hends : (matchInput 150 bytewiseLists Host.idle {} 0
      (.text "[ww[w]]")).isSome := rfl
  obtain ⟨report, hreport⟩ := Option.isSome_iff_exists.1 hends
  have halike := match_bytewise bytewiseLists Host.idle {} 0 "[ww[w]]"
    defined_bytewiseLists closed_bytewiseLists customFree_bytewiseLists
    (fun inner _ => bytewise_bytewiseLists inner) 150
  exact ⟨defined_bytewiseLists, closed_bytewiseLists, customFree_bytewiseLists,
    bytewise_bytewiseLists, report, hreport, halike.trans hreport⟩

end Machine

end PegMachine
