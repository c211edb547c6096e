import Mathlib.Data.List.Chain
import Mathlib.Order.Monotone.Basic
import PegMachine.Proofs.Value.Spans

namespace PegMachine

/-- Tokens that follow one another in their source, with or without gaps. -/
structure Token.Ordered (stream : List Token) : Prop where
  proper : ∀ token ∈ stream, token.span.start ≤ token.span.stop
  follow : stream.IsChain fun token next => token.span.stop ≤ next.span.start

/-- Where a cursor stands in the source: at the start of the next token, or past the last one. -/
def Token.place (stream : List Token) (cursor : Nat) : Int :=
  match stream[cursor]? with
  | some token => token.span.start
  | none => (stream.getLast?.map fun token => token.span.stop).getD 0

namespace Token.Ordered

variable {stream : List Token} {i j : Nat} {token next : Token}

theorem place_eq (ht : stream[i]? = some token) : place stream i = token.span.start := by
  simp [place, ht]

theorem start_le_stop (h : Ordered stream) (ht : stream[i]? = some token) :
    token.span.start ≤ token.span.stop :=
  h.proper token (List.mem_of_getElem? ht)

theorem place_after_last (ht : stream[i]? = some token) (hlast : stream[i + 1]? = none) :
    place stream (i + 1) = token.span.stop := by
  obtain ⟨hi, -⟩ := List.getElem?_eq_some_iff.1 ht
  have hlength : stream.length ≤ i + 1 := List.getElem?_eq_none_iff.1 hlast
  have hindex : stream.length - 1 = i := by omega
  have hgetLast : stream.getLast? = some token := by rw [List.getLast?_eq_getElem?, hindex, ht]
  simp [place, hlast, hgetLast]

/-- The cursor after a token stands behind that token. -/
theorem stop_le_place (h : Ordered stream) (ht : stream[i]? = some token) :
    token.span.stop ≤ place stream (i + 1) := by
  cases hnext : stream[i + 1]? with
  | none => exact Int.le_of_eq (place_after_last ht hnext).symm
  | some next =>
    rw [place_eq hnext]
    obtain ⟨hlt, rfl⟩ := List.getElem?_eq_some_iff.1 hnext
    obtain ⟨hlt', rfl⟩ := List.getElem?_eq_some_iff.1 ht
    exact List.isChain_iff_getElem.1 h.follow i hlt

/-- Cursors and the places where they stand have the same order. -/
theorem place_mono (h : Ordered stream) (hle : i ≤ j) : place stream i ≤ place stream j := by
  refine monotone_nat_of_le_succ (fun n => ?_) hle
  cases hn : stream[n]? with
  | some token =>
    rw [place_eq hn]
    exact Int.le_trans (h.start_le_stop hn) (h.stop_le_place hn)
  | none =>
    have hlength : stream.length ≤ n := List.getElem?_eq_none_iff.1 hn
    have hnext : stream[n + 1]? = none := List.getElem?_eq_none_iff.2 (by omega)
    simp [place, hn, hnext]

private theorem stop_mono (h : Ordered stream) (hle : i ≤ j) (ht : stream[i]? = some token)
    (hnext : stream[j]? = some next) : token.span.stop ≤ next.span.stop := by
  rcases Nat.eq_or_lt_of_le hle with rfl | hlt
  · rw [ht] at hnext
    cases hnext
    exact Int.le_refl _
  · have hbetween := h.place_mono (show i + 1 ≤ j by omega)
    rw [place_eq hnext] at hbetween
    have hbefore := h.stop_le_place ht
    have hproper := h.start_le_stop hnext
    omega

end Token.Ordered

namespace Input

variable {source : Bytes} {stream : List Token} {span : Span}

private theorem offset?_tokens {cursor : Int} (h : 0 ≤ cursor) :
    (Input.tokens source stream).offset? cursor = some (Token.place stream cursor.toNat) := by
  have hcursor : ¬cursor < 0 := by omega
  simp only [offset?, if_neg hcursor, Token.place]
  cases stream[cursor.toNat]? with
  | some token => rfl
  | none => cases stream.getLast? <;> rfl

/-- The span of cursors that no token lies between is a place. -/
theorem span?_empty {cursor : Nat} (h : (Input.tokens source stream).span? cursor cursor = some span) :
    span = ⟨Token.place stream cursor, Token.place stream cursor⟩ := by
  simp only [span?, Int.le_refl, if_true, offset?_tokens (Int.natCast_nonneg cursor),
    Int.toNat_natCast, Option.map_some, Option.some.injEq] at h
  exact h.symm

/-- Otherwise it reaches from the first of the tokens between them to the last. -/
theorem span?_tokens {first last : Nat} (hlt : first < last)
    (h : (Input.tokens source stream).span? first last = some span) :
    span.start = Token.place stream first ∧
      ∃ token, stream[last - 1]? = some token ∧ span.stop = token.span.stop := by
  have hstop : ¬(last : Int) ≤ first := by omega
  have hstart : ¬(first : Int) < 0 := by omega
  have hindex : ((last : Int) - 1).toNat = last - 1 := by omega
  simp only [span?, if_neg hstop, if_neg hstart, Int.toNat_natCast, hindex] at h
  cases hfirst : stream[first]? with
  | none => simp [hfirst] at h
  | some token =>
    cases hlast : stream[last - 1]? with
    | none => simp [hfirst, hlast] at h
    | some token' =>
      simp only [hfirst, hlast, Option.some.injEq] at h
      subst h
      exact ⟨(Token.Ordered.place_eq hfirst).symm, token', rfl, rfl⟩

/-- A leaf that matches in a stream gives a token. -/
theorem Reads.token {cursor next : Int} {value : Value}
    (h : (Input.tokens source stream).Reads cursor next value) :
    ∃ (i : Nat) (token : Token), cursor = i ∧ next = cursor + 1 ∧ stream[i]? = some token ∧
      value = Value.ofText token.value token.span := by
  have tried {accepts : Bytes → Bool} (h : tryToken stream cursor accepts = .success value next) :
      ∃ (i : Nat) (token : Token), cursor = i ∧ next = cursor + 1 ∧ stream[i]? = some token ∧
        value = Value.ofText token.value token.span := by
    unfold tryToken at h
    split at h
    · cases h
    · split at h
      · cases h
      · next token ht =>
        split at h
        · cases h
          exact ⟨cursor.toNat, token, by omega, rfl, ht, rfl⟩
        · cases h
  obtain ⟨literal, hsuccess⟩ | ⟨p, hsuccess⟩ := h
  · simp only [tryLiteral] at hsuccess
    exact tried hsuccess
  · simp only [tryPattern] at hsuccess
    exact tried hsuccess

end Input

namespace Value

variable {stream : List Token} {lo hi lo' hi' : Nat} {v w : Value}

/-- A value between two cursors, each value of which is between the cursors of the one around it.
A piece of text is one of the tokens, and a node has the span of its cursors. -/
inductive Between (stream : List Token) : Nat → Nat → Value → Prop
  | text {lo hi i : Nat} {token : Token} {content : Bytes} {notes : Notes} (hlo : lo ≤ i) (hhi : i < hi)
      (ht : stream[i]? = some token) : Between stream lo hi (.text content token.span notes)
  | node {lo hi first last : Nat} {source name : Bytes} {span : Span} {items : List Value}
      {notes : Notes} (hlo : lo ≤ first) (hle : first ≤ last) (hhi : last ≤ hi)
      (hspan : (Input.tokens source stream).span? first last = some span)
      (hitems : ∀ item ∈ items, Between stream first last item) (horder : InOrder items) :
      Between stream lo hi (.node name span items notes)

namespace Between

theorem mono (h : Between stream lo hi v) (hlo : lo' ≤ lo) (hhi : hi ≤ hi') :
    Between stream lo' hi' v := by
  cases h with
  | text h h' ht => exact .text (by omega) (by omega) ht
  | node h h' h'' hspan hitems horder => exact .node (by omega) h' (by omega) hspan hitems horder

theorem annotate (h : Between stream lo hi v) (key : Bytes) (datum : Payload) :
    Between stream lo hi (v.annotate key datum) := by
  cases h with
  | text h h' ht => exact .text h h' ht
  | node h h' h'' hspan hitems horder => exact .node h h' h'' hspan hitems horder

/-- The span of a value lies between the places where its cursors stand. -/
theorem bounds (h : Between stream lo hi v) (hs : Token.Ordered stream) :
    Token.place stream lo ≤ v.span.start ∧ v.span.start ≤ v.span.stop ∧
      v.span.stop ≤ Token.place stream hi := by
  cases h with
  | text hlo hhi ht =>
    have hbefore := hs.place_mono hlo
    have hafter := hs.place_mono hhi
    rw [Token.Ordered.place_eq ht] at hbefore
    exact ⟨hbefore, hs.start_le_stop ht, Int.le_trans (hs.stop_le_place ht) hafter⟩
  | @node _ _ first last _ _ span _ _ hlo hle hhi hspan hitems horder =>
    have hbefore := hs.place_mono hlo
    have hafter := hs.place_mono hhi
    rcases Nat.eq_or_lt_of_le hle with rfl | hlt
    · obtain rfl := Input.span?_empty hspan
      exact ⟨hbefore, Int.le_refl _, hafter⟩
    · obtain ⟨hstart, token, ht, hstop⟩ := Input.span?_tokens hlt hspan
      have hfirst := hs.place_mono (show first ≤ last - 1 by omega)
      have hproper := hs.start_le_stop ht
      have hbehind := hs.stop_le_place ht
      rw [Token.Ordered.place_eq ht] at hfirst
      rw [Nat.sub_add_cancel (by omega)] at hbehind
      simp only [Value.span]
      omega

/-- Every value of a tree is between the cursors of the tree. -/
theorem of_mem_tree (h : Between stream lo hi v) (hw : w ∈ v.tree) : Between stream lo hi w := by
  induction h with
  | text hlo hhi ht =>
    obtain rfl := List.mem_singleton.1 hw
    exact .text hlo hhi ht
  | node hlo hle hhi hspan hitems horder ih =>
    rcases List.mem_cons.1 hw with rfl | hw
    · exact .node hlo hle hhi hspan hitems horder
    · obtain ⟨item, hm, hw⟩ := mem_forest.1 hw
      exact (ih item hm hw).mono hlo hhi

/-- A value with no token between its cursors is a node at the place where they stand. -/
theorem eq_node (h : Between stream lo lo v) : ∃ name items notes,
    v = .node name ⟨Token.place stream lo, Token.place stream lo⟩ items notes := by
  cases h with
  | text hlo hhi => omega
  | @node _ _ first last _ name _ items notes hlo hle hhi hspan =>
    obtain rfl : first = lo := by omega
    obtain rfl : last = first := by omega
    obtain rfl := Input.span?_empty hspan
    exact ⟨name, items, notes, rfl⟩

/-- A value that ends behind the last token before its cursor has no tokens and stands at that
cursor. -/
theorem stop_le_or {token : Token} (h : Between stream lo (hi + 1) v) (hs : Token.Ordered stream)
    (ht : stream[hi]? = some token) :
    v.span.stop ≤ token.span.stop ∨ Between stream (hi + 1) (hi + 1) v := by
  cases h with
  | text hlo hhi ht' => exact .inl (hs.stop_mono (by omega) ht' ht)
  | @node _ _ first last _ _ span _ _ hlo hle hhi hspan hitems horder =>
    rcases Nat.eq_or_lt_of_le hle with rfl | hlt
    · rcases Nat.eq_or_lt_of_le hhi with rfl | hbefore
      · exact .inr (.node (Nat.le_refl _) (Nat.le_refl _) (Nat.le_refl _) hspan hitems horder)
      · obtain rfl := Input.span?_empty hspan
        have hplace := hs.place_mono (show first ≤ hi by omega)
        have hproper := hs.start_le_stop ht
        rw [Token.Ordered.place_eq ht] at hplace
        exact .inl (Int.le_trans hplace hproper)
    · obtain ⟨-, token', ht', hstop⟩ := Input.span?_tokens hlt hspan
      have hle := hs.stop_mono (show last - 1 ≤ hi by omega) ht' ht
      exact .inl (hstop ▸ hle)

end Between

/-- An item without tokens at the end of a node with that span: its values are nodes that lie where
the token after the node starts. -/
def Trails (stream : List Token) (span : Span) (item : Value) : Prop :=
  ∃ i token next, stream[i]? = some token ∧ stream[i + 1]? = some next ∧
    span.stop = token.span.stop ∧ ∀ w ∈ item.tree, ∃ name items notes,
      w = .node name ⟨next.span.start, next.span.start⟩ items notes

/-- Items are in order, and a node spans each of them that does not trail behind it. -/
def Nested (stream : List Token) : Value → Prop
  | .text .. => True
  | .node _ span items _ => InOrder items ∧
    ∀ item ∈ items, span.contains item.span = true ∨ item.Trails stream span

theorem Between.nested (h : Between stream lo hi v) (hs : Token.Ordered stream) :
    v.Nested stream := by
  cases h with
  | text => trivial
  | @node _ _ first last _ _ span items _ hlo hle hhi hspan hitems horder =>
    refine ⟨horder, fun item hm => ?_⟩
    have hitem := hitems item hm
    have hbounds := hitem.bounds hs
    simp only [Span.contains, Bool.and_eq_true, decide_eq_true_eq]
    rcases Nat.eq_or_lt_of_le hle with rfl | hlt
    · obtain rfl := Input.span?_empty hspan
      exact .inl ⟨hbounds.1, hbounds.2.2⟩
    · obtain ⟨hstart, token, ht, hstop⟩ := Input.span?_tokens hlt hspan
      obtain ⟨before, rfl⟩ : ∃ n, last = n + 1 := ⟨last - 1, by omega⟩
      rw [Nat.add_sub_cancel] at ht
      rw [hstart, hstop]
      obtain hinside | hempty := hitem.stop_le_or hs ht
      · exact .inl ⟨hbounds.1, hinside⟩
      · cases hnext : stream[before + 1]? with
        | none =>
          -- at the end of the stream the item stands where the last token stops
          rw [Token.Ordered.place_after_last ht hnext] at hbounds
          exact .inl ⟨hbounds.1, hbounds.2.2⟩
        | some next =>
          refine .inr ⟨before, token, next, ht, hnext, hstop, fun w hw => ?_⟩
          have hw := (hempty.of_mem_tree hw).eq_node
          rwa [Token.Ordered.place_eq hnext] at hw

/-- Values in order, all of them between two cursors. -/
structure Arranged (stream : List Token) (lo hi : Nat) (vs : List Value) : Prop where
  between : ∀ v ∈ vs, v.Between stream lo hi
  order : InOrder vs

namespace Arranged

variable {mid : Nat} {vs ws : List Value}

theorem nil : Arranged stream lo hi [] := ⟨nofun, .nil⟩

theorem single (h : v.Between stream lo hi) : Arranged stream lo hi [v] :=
  ⟨fun _ hw => List.mem_singleton.1 hw ▸ h, List.pairwise_singleton _ _⟩

theorem widen (h : Arranged stream lo mid vs) (hle : mid ≤ hi) : Arranged stream lo hi vs :=
  ⟨fun v hv => (h.between v hv).mono (Nat.le_refl _) hle, h.order⟩

/-- Values up to a cursor and values from there on do not overlap. -/
theorem append (h : Arranged stream lo mid vs) (h' : Arranged stream mid hi ws)
    (hs : Token.Ordered stream) (hlo : lo ≤ mid) (hhi : mid ≤ hi) :
    Arranged stream lo hi (vs ++ ws) where
  between v hv := by
    rcases List.mem_append.1 hv with hv | hv
    · exact (h.between v hv).mono (Nat.le_refl _) hhi
    · exact (h'.between v hv).mono hlo (Nat.le_refl _)
  order := by
    refine List.pairwise_append.2 ⟨h.order, h'.order, fun v hv w hw => ?_⟩
    have hbefore := (h.between v hv).bounds hs
    have hafter := (h'.between w hw).bounds hs
    exact Int.le_trans hbefore.2.2 hafter.1

theorem annotate_last (h : Arranged stream lo hi (vs ++ [v])) (key : Bytes) (datum : Payload) :
    Arranged stream lo hi (vs ++ [v.annotate key datum]) where
  between w hw := by
    rcases List.mem_append.1 hw with hw | hw
    · exact h.between w (List.mem_append_left _ hw)
    · obtain rfl := List.mem_singleton.1 hw
      exact (h.between v (by simp)).annotate key datum
  order := h.order.annotate_last key datum

end Arranged

end Value

namespace Evaluator

open Machine

variable {source : Bytes} {stream : List Token}

/-- The output of an activation is arranged between its start and its cursor. -/
theorem invariant_streams (source : Bytes) (hs : Token.Ordered stream) :
    Invariant (.tokens source stream) True Action.KeepsSpans fun s a =>
      ∃ lo hi : Nat, s = lo ∧ a.cursor = hi ∧ lo ≤ hi ∧
        Value.Arranged stream lo hi a.output.reverse where
  enter h := by
    obtain ⟨lo, hi, -, hcursor, -, -⟩ := h
    exact ⟨hi, hi, hcursor, hcursor, Nat.le_refl _, .nil⟩
  fail h := h
  pass h := h
  leaf {s a value next} hreads h := by
    obtain ⟨lo, hi, rfl, hcursor, hle, houtput⟩ := h
    obtain ⟨i, token, hi', rfl, ht, rfl⟩ := hreads.token
    obtain rfl : hi = i := by omega
    have hvalue : (Value.ofText token.value token.span).Between stream hi (hi + 1) :=
      .text (Nat.le_refl _) (Nat.lt_succ_self _) ht
    refine ⟨lo, hi + 1, rfl, by simp [Activation.succeed, hcursor], by omega, ?_⟩
    simpa [Activation.succeed] using houtput.append (.single hvalue) hs hle (Nat.le_succ hi)
  join ha hb := by
    obtain ⟨lo, mid, rfl, hcursor, hle, ha⟩ := ha
    obtain ⟨mid', hi, hmid, hcursor', hle', hb⟩ := hb
    obtain rfl : mid = mid' := by omega
    refine ⟨lo, hi, rfl, hcursor', by omega, ?_⟩
    simpa [Activation.succeed] using ha.append hb hs hle hle'
  wrap {s a b name span} hspan ha hb := by
    obtain ⟨lo, mid, rfl, hcursor, hle, ha⟩ := ha
    obtain ⟨mid', hi, hmid, hcursor', hle', hb⟩ := hb
    obtain rfl : mid = mid' := by omega
    rw [hcursor, hcursor'] at hspan
    have hnode : (Value.ofItems name span b.output.reverse).Between stream mid hi :=
      .node (Nat.le_refl _) hle' (Nat.le_refl _) hspan hb.between hb.order
    refine ⟨lo, hi, rfl, hcursor', by omega, ?_⟩
    simpa [Activation.succeed] using ha.append (.single hnode) hs hle hle'
  hide _ _ _ _ ha hb := by
    obtain ⟨lo, mid, rfl, hcursor, hle, ha⟩ := ha
    obtain ⟨mid', hi, hmid, hcursor', hle', -⟩ := hb
    obtain rfl : mid = mid' := by omega
    exact ⟨lo, hi, rfl, hcursor', by omega, ha.widen hle'⟩
  act {s a b effect furthest furthest'} hallowed hact h := by
    obtain ⟨lo, hi, rfl, hcursor, hle, houtput⟩ := h
    cases effect with
    | note key datum =>
      simp only [Evaluator.act] at hact
      cases hout : a.output with
      | nil =>
        rw [hout] at hact
        cases hact
        exact ⟨lo, hi, rfl, hcursor, hle, houtput⟩
      | cons last output =>
        rw [hout] at hact houtput
        cases hact
        rw [List.reverse_cons] at houtput
        refine ⟨lo, hi, rfl, hcursor, hle, ?_⟩
        rw [List.reverse_cons]
        exact houtput.annotate_last key datum
    | clear =>
      cases hact
      exact ⟨lo, hi, rfl, hcursor, hle, .nil⟩
    | throw datum => cases hact
    | log args =>
      cases hact
      exact ⟨lo, hi, rfl, hcursor, hle, houtput⟩
    | unknown => cases hact
    | insert | insertText | convert | modify | custom => exact hallowed.elim

end Evaluator

namespace Machine

/-- The values of a match in a stream of tokens follow one another in the source, on each level of
their trees. Nodes span their items, but for those that trail behind them without tokens. -/
theorem match_spans_stream (family : Family) (host : Host) (config : Config) (id : Nat)
    (source : Bytes) (stream : List Token) {vs : List Value} {cursor : Int}
    (hstream : Token.Ordered stream)
    (hactions : ∀ inner, family.Embeds id inner → ∀ rule ∈ (family.grammarAt inner).rules,
      ∀ a, .action a ∈ rule.2.parts → a.KeepsSpans)
    (h : MatchEnds family host config id (.tokens source stream) (.values vs cursor)) :
    (∀ v ∈ Value.forest vs, v.Nested stream) ∧ Value.InOrder vs := by
  have hfree : family.CustomFree id :=
    fun inner hi rule hr custom hm => hactions inner hi rule hr (.custom custom) hm
  obtain ⟨b, furthest, heval, -, rfl, rfl⟩ := Evaluator.evaluates_of_values hfree h
  have hrules : Evaluator.AdmittedRules family (family.Embeds id) True Action.KeepsSpans :=
    Evaluator.admittedRules_embeds (fun _ _ _ _ _ _ => trivial) hactions
  obtain ⟨lo, hi, -, -, -, harranged⟩ :=
    (Evaluator.invariant_streams source hstream).evaluates hrules heval .refl (.rule _) _ _ rfl _
      ⟨0, 0, rfl, rfl, Nat.le_refl 0, Value.Arranged.nil⟩
  refine ⟨fun w hw => ?_, harranged.order⟩
  obtain ⟨v, hv, hw⟩ := Value.mem_forest.1 hw
  exact ((harranged.between v hv).of_mem_tree hw).nested hstream

/-- A word with an empty node at its end, and another word after it. -/
def trailing : Family :=
  [.ofRules [("main", .sequence [.wrap "word" [.literal "a", .wrap "end" []], .literal "b"])]]

/-- Two words with a gap in between. -/
def spaced : List Token := [⟨"a", "a", ⟨0, 1⟩⟩, ⟨"b", "b", ⟨2, 3⟩⟩]

theorem keepsSpans_trailing : ∀ inner, ∀ rule ∈ (trailing.grammarAt inner).rules, ∀ a,
    .action a ∈ rule.2.parts → a.KeepsSpans := by
  intro inner rule hr a hm
  have hlacks : trailing.lacks Expr.isAction = true := rfl
  exact absurd hm (Family.not_mem_of_lacks hlacks hr rfl)

theorem ordered_spaced : Token.Ordered spaced := by
  refine ⟨?_, .cons_cons (by decide) (.singleton _)⟩
  intro token hm
  simp only [spaced, List.mem_cons, List.not_mem_nil, or_false] at hm
  obtain rfl | rfl := hm <;> decide

/-- The empty node comes after the first word and before the second, where the word around it has
ended: it lies past the gap. -/
theorem match_spans_stream_spaced :
    Token.Ordered spaced ∧
    (∀ inner, ∀ rule ∈ (trailing.grammarAt inner).rules, ∀ a, .action a ∈ rule.2.parts →
      a.KeepsSpans) ∧
    ∃ vs, MatchEnds trailing Host.idle {} 0 (.tokens "a b" spaced)
      (.values vs 2) ∧ (∀ v ∈ Value.forest vs, v.Nested spaced) ∧ Value.InOrder vs := by
  have hends : ∃ vs, MatchEnds trailing Host.idle {} 0
      (.tokens "a b" spaced) (.values vs 2) := ⟨_, 40, _, rfl, rfl⟩
  obtain ⟨vs, hvs⟩ := hends
  have hspans := match_spans_stream trailing Host.idle {} 0 "a b"
    spaced ordered_spaced (fun inner _ => keepsSpans_trailing inner) hvs
  exact ⟨ordered_spaced, keepsSpans_trailing, vs, hvs, hspans.1, hspans.2⟩

/-- So a node need not span its items, though the tokens are in order inside of the source. -/
theorem not_spans_items_spaced :
    ¬∀ vs cursor, Token.Ordered spaced →
      (∀ token ∈ spaced, 0 ≤ token.span.start ∧ token.span.stop ≤ ("a b" : Bytes).length) →
      (∀ inner, ∀ rule ∈ (trailing.grammarAt inner).rules, ∀ a, .action a ∈ rule.2.parts →
        a.KeepsSpans) →
      MatchEnds trailing Host.idle {} 0 (.tokens "a b" spaced)
        (.values vs cursor) →
      ∀ name span items notes, .node name span items notes ∈ Value.forest vs →
        ∀ item ∈ items, span.contains item.span = true := by
  intro hclaim
  have hends : MatchEnds trailing Host.idle {} 0
      (.tokens "a b" spaced)
      (.values [.ofItems "word" ⟨0, 1⟩ [.ofText "a" ⟨0, 1⟩, .ofItems "end" ⟨2, 2⟩ []],
        .ofText "b" ⟨2, 3⟩] 2) := ⟨40, _, rfl, rfl⟩
  have hcontains := hclaim _ _ ordered_spaced (by decide) keepsSpans_trailing hends "word" ⟨0, 1⟩
    [.ofText "a" ⟨0, 1⟩, .ofItems "end" ⟨2, 2⟩ []] [] (.head _) (.ofItems "end" ⟨2, 2⟩ [])
    (.tail _ (.head _))
  exact absurd hcontains (by decide)

end Machine

end PegMachine
