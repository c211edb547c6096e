import PegMachine.Proofs.Regex.Wrapped
import PegMachine.Proofs.Regex.Longest

namespace PegMachine

namespace Regex

/-- Matches of several expressions, one after the other. -/
def Chain : List Regex → Position → Position → Prop
  | [] => fun p q => p = q
  | r :: rs => fun p q => ∃ m, r.Matches p m ∧ Chain rs m q

section

variable {r : Regex} {rs ss : List Regex} {p q : Position}

theorem chain_singleton : Chain [r] p q ↔ r.Matches p q := by
  constructor
  · rintro ⟨m, hm, rfl⟩
    exact hm
  · intro h
    exact ⟨q, h, rfl⟩

theorem chain_append : Chain (rs ++ ss) p q ↔ ∃ m, Chain rs p m ∧ Chain ss m q := by
  induction rs generalizing p with
  | nil =>
    constructor
    · intro h
      exact ⟨p, rfl, h⟩
    · rintro ⟨m, rfl, h⟩
      exact h
  | cons r rs ih =>
    constructor
    · rintro ⟨m, hm, h⟩
      obtain ⟨n, hn, hq⟩ := ih.1 h
      exact ⟨n, ⟨m, hm, hn⟩, hq⟩
    · rintro ⟨n, ⟨m, hm, hn⟩, hq⟩
      exact ⟨m, hm, ih.2 ⟨n, hn, hq⟩⟩

private theorem matches_foldl_seq (last : Regex) :
    (rs.foldl (fun r part => .seq part r) last).Matches p q ↔ Chain (rs.reverse ++ [last]) p q := by
  induction rs generalizing last with
  | nil => exact chain_singleton.symm
  | cons r rs ih =>
    rw [List.foldl_cons, ih, List.reverse_cons, List.append_assoc, chain_append, chain_append]
    -- the last two expressions are one sequence
    have hpair (m : Position) : Chain [.seq r last] m q ↔ Chain [r, last] m q := by
      rw [chain_singleton]
      exact exists_congr fun n => and_congr_right fun _ => chain_singleton.symm
    exact exists_congr fun m => and_congr_right fun _ => hpair m

private theorem matches_joinSeq (parts : List Regex) :
    (Join.regex parts .seq).Matches p q ↔ Chain parts.reverse p q := by
  cases parts with
  | nil => exact Iff.rfl
  | cons last before =>
    rw [List.reverse_cons]
    exact matches_foldl_seq last

end

namespace Tree

variable {p q : Position} {t : Tree} {items : List Tree} {size : Option Nat} {height : Nat}

theorem regexesOnto_eq (done : List Regex) (items : List Tree) :
    regexesOnto done items = (items.map regex).reverse ++ done := by
  induction items generalizing done with
  | nil => rfl
  | cons item items ih =>
    rw [regexesOnto, ih, List.map_cons, List.reverse_cons, List.append_assoc, List.singleton_append]

theorem matches_seq : (Tree.join size height .seq items).regex.Matches p q ↔
    Chain (items.map regex) p q := by
  rw [regex, regexesOnto_eq, List.append_nil, matches_joinSeq, List.reverse_reverse]

/-- An expression matches what its parts match one after the other. -/
theorem chain_parts : Chain ((t.parts .seq).map regex) p q ↔ t.regex.Matches p q := by
  cases t with
  | leaf => exact chain_singleton
  | wrap => exact chain_singleton
  | join size height kind items =>
    cases kind with
    | seq => exact matches_seq.symm
    | alt => exact chain_singleton

theorem isAnchored_seq : (Tree.join size height .seq
    (.leaf none (.look .textStart) :: items)).regex.isAnchored = true := by
  rw [regex, regexesOnto_eq, List.append_nil, List.map_cons, List.reverse_cons]
  cases (items.map regex).reverse with
  | nil => rfl
  | cons last before =>
    simp only [List.cons_append, Join.regex, List.foldl_append, List.foldl_cons, List.foldl_nil]
    rfl

theorem map_regex_bare (ts : List Tree) : (ts.map bare).map regex = ts.map regex := by
  rw [List.map_map]
  exact List.map_congr_left fun t _ => regex_bare t

private theorem anyUnwritable_append (ts us : List Tree) :
    anyUnwritable (ts ++ us) = (anyUnwritable ts || anyUnwritable us) := by
  induction ts with
  | nil => rfl
  | cons t ts ih => rw [List.cons_append, anyUnwritable, anyUnwritable, ih, Bool.or_assoc]

theorem anyUnwritable_parts (kind : Join) (t : Tree) :
    anyUnwritable ((t.parts kind).map bare) = t.hasUnwritable := by
  have hself (t : Tree) : anyUnwritable [t] = t.hasUnwritable := Bool.or_false _
  rw [← bareAll_eq_map, anyUnwritable_bareAll]
  cases t with
  | leaf => exact hself _
  | wrap => exact hself _
  | join size height inner items =>
    simp only [parts]
    split
    · rw [hasUnwritable]
    · exact hself _

/-- Where all characters can be written an expression is compiled to its meaning. -/
theorem compile_of_bare {u : Tree} (h : t.bare = u) (hwritable : u.hasUnwritable = false) :
    t.compile = u.regex := by
  subst h
  rw [hasUnwritable_bare] at hwritable
  rw [regex_bare, compile, hwritable]
  rfl

end Tree

section

variable {source : Bytes} {t T : Tree} {p q : Position}

/-- The form that is tied to the start of a text matches what the source does, from there on. -/
theorem compile_atStart (halone : readTree source = .ok t) (hwritable : t.hasUnwritable = false)
    (h : readTree ("^(?:" ++ source ++ ")") = .ok T) :
    T.compile.isAnchored = true ∧
      ∀ p q, T.compile.Matches p q ↔ p.satisfies .textStart = true ∧ t.regex.Matches p q := by
  have hcompile := Tree.compile_of_bare (readTree_atStart halone h) (by
    rw [Tree.hasUnwritable, Tree.anyUnwritable, Tree.anyUnwritable_parts, hwritable]
    rfl)
  rw [hcompile]
  refine ⟨Tree.isAnchored_seq, fun p q => ?_⟩
  rw [Tree.matches_seq, List.map_cons, Tree.map_regex_bare]
  constructor
  · rintro ⟨m, ⟨hstart, rfl⟩, hq⟩
    exact ⟨hstart, Tree.chain_parts.1 hq⟩
  · rintro ⟨hstart, hq⟩
    exact ⟨p, ⟨hstart, rfl⟩, Tree.chain_parts.2 hq⟩

/-- The form that is tied to both ends of a text matches what the source does, from one to the
other. -/
theorem compile_whole (halone : readTree source = .ok t) (hwritable : t.hasUnwritable = false)
    (h : readTree ("^(?:" ++ source ++ ")$") = .ok T) :
    T.compile.isAnchored = true ∧
      ∀ p q, T.compile.Matches p q ↔ p.satisfies .textStart = true ∧ t.regex.Matches p q ∧
        q.satisfies .textEnd = true := by
  have hcompile := Tree.compile_of_bare (readTree_whole halone h) (by
    rw [Tree.hasUnwritable, Tree.anyUnwritable, Tree.anyUnwritable_append, Tree.anyUnwritable_parts,
      hwritable]
    rfl)
  rw [hcompile]
  refine ⟨Tree.isAnchored_seq, fun p q => ?_⟩
  rw [Tree.matches_seq, List.map_cons, List.map_append, Tree.map_regex_bare]
  constructor
  · rintro ⟨m, ⟨hstart, rfl⟩, hq⟩
    obtain ⟨n, hn, hlast⟩ := chain_append.1 hq
    obtain ⟨hend, rfl⟩ := chain_singleton.1 hlast
    exact ⟨hstart, Tree.chain_parts.1 hn, hend⟩
  · rintro ⟨hstart, hq, hend⟩
    refine ⟨p, ⟨hstart, rfl⟩, chain_append.2 ⟨q, Tree.chain_parts.2 hq, ?_⟩⟩
    exact chain_singleton.2 ⟨hend, rfl⟩

end

section

variable {r : Regex} {text : Bytes}

theorem search_of_isAnchored (h : r.isAnchored = true) (text : Bytes) :
    r.search text = ((r.advance [.start text]).head?).map Position.offset := by
  rw [search, if_pos h]

/-- A search that is tied to the start of the text finds something where there is a match. -/
theorem search_isSome_iff (h : r.isAnchored = true) :
    (r.search text).isSome = true ↔ ∃ q, r.Matches (.start text) q := by
  rw [search_of_isAnchored h, Option.isSome_map, List.isSome_head?, ← List.isEmpty_eq_false_iff,
    List.isEmpty_eq_false_iff_exists_mem]
  exact exists_congr fun q => mem_advance_iff

/-- The longest match ends where the text does if any match ends there. -/
theorem search_eq_length_iff (h : r.isAnchored = true) :
    r.search text = some text.length ↔ ∃ q, r.Matches (.start text) q ∧ q.rest = [] := by
  rw [search_of_isAnchored h, Option.map_eq_some_iff]
  refine exists_congr fun q => ?_
  constructor
  · rintro ⟨hq, hend⟩
    have hm := (head?_advance_iff.1 hq).1
    have hlength := hm.length_eq
    exact ⟨hm, List.length_eq_zero_iff.1 (by omega)⟩
  · rintro ⟨hm, hend⟩
    have hlength := hm.length_eq
    rw [hend, List.length_nil, Nat.add_zero] at hlength
    refine ⟨head?_advance_iff.2 ⟨hm, fun q' hm' => ?_⟩, hlength⟩
    have hlength' := hm'.length_eq
    omega

end

end Regex

namespace Pattern

variable {source : Bytes}

/-- Without an error both forms could be read. -/
theorem forms_of_error (h : (Pattern.ofSource source).error = none) : ∃ atStart whole,
    Regex.readTree ("^(?:" ++ source ++ ")") = .ok atStart ∧
      Regex.readTree ("^(?:" ++ source ++ ")$") = .ok whole ∧
      (Pattern.ofSource source).forms = ⟨some atStart.compile, some whole.compile, none⟩ := by
  change (Forms.ofSource source).error = none at h
  change ∃ atStart whole, _ ∧ _ ∧ Forms.ofSource source = _
  unfold Forms.ofSource Regex.read at h ⊢
  cases hstart : Regex.readTree ("^(?:" ++ source ++ ")") with
  | error e =>
    rw [hstart] at h
    cases h
  | ok atStart =>
    cases hwhole : Regex.readTree ("^(?:" ++ source ++ ")$") with
    | error e =>
      rw [hstart, hwhole] at h
      cases h
    | ok whole => exact ⟨atStart, whole, rfl, rfl, rfl⟩

/-- Where the source of a pattern is an expression of its own, the pattern matches a whole text just
in case it matches all of it at its start. -/
theorem matchWhole_iff_matchStart {t : Regex.Tree}
    (alone : Regex.readTree source = .ok t) (writable : t.hasUnwritable = false)
    (noError : (Pattern.ofSource source).error = none) (text : Bytes) :
    (Pattern.ofSource source).matchWhole text = true ↔
      (Pattern.ofSource source).matchStart text = some text.length := by
  obtain ⟨atStart, whole, hstart, hwhole, hforms⟩ := forms_of_error noError
  obtain ⟨hanchored, hmatches⟩ := Regex.compile_atStart alone writable hstart
  obtain ⟨hanchored', hmatches'⟩ := Regex.compile_whole alone writable hwhole
  rw [matchWhole, matchStart, hforms]
  refine (Regex.search_isSome_iff hanchored').trans (.trans ?_
    (Regex.search_eq_length_iff hanchored).symm)
  refine exists_congr fun q => ?_
  rw [hmatches', hmatches, and_assoc]
  simp only [Regex.Position.satisfies, List.isEmpty_iff]

/-- Of two alternatives the shorter one comes first, and both forms find the longer one. -/
theorem matchWhole_iff_matchStart_alternatives : ∃ t, Regex.readTree "a|ab" = .ok t ∧
    t.hasUnwritable = false ∧ (Pattern.ofSource "a|ab").error = none ∧
    ((Pattern.ofSource "a|ab").matchWhole "ab" = true ↔
      (Pattern.ofSource "a|ab").matchStart "ab" = some 2) := by
  have hread : (Regex.readTree "a|ab").toOption.map Regex.Tree.hasUnwritable = some false := by
    decide +kernel
  have hnone : (Pattern.ofSource "a|ab").error = none := by decide +kernel
  cases h : Regex.readTree "a|ab" with
  | error e =>
    rw [h] at hread
    cases hread
  | ok t =>
    rw [h] at hread
    have hwritable := Option.some.inj hread
    exact ⟨t, rfl, hwritable, hnone, matchWhole_iff_matchStart h hwritable hnone "ab"⟩

/-- A source that closes the group it is put in breaks each form into two alternatives, and only the
last one is tied to the end of the text. -/
theorem matchWhole_past_group : ¬∀ source text : Bytes, (Pattern.ofSource source).error = none →
    (Pattern.ofSource source).matchWhole text = true →
      (Pattern.ofSource source).matchStart text = some text.length := by
  intro h
  have hstart : (Pattern.ofSource "a)|(?:b").matchStart "ax" = some 1 := by decide +kernel
  have hwhole : (Pattern.ofSource "a)|(?:b").matchWhole "ax" = true := by decide +kernel
  have hlength := h "a)|(?:b" "ax" (by decide +kernel) hwhole
  rw [hstart] at hlength
  exact absurd hlength (by decide)

end Pattern

end PegMachine
