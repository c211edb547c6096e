import PegMachine.Tokenizer

namespace PegMachine

/-- A token covers an offset of the source. -/
def Token.Covers (token : Token) (offset : Nat) : Prop :=
  token.span.start ≤ offset ∧ (offset : Int) < token.span.stop

namespace Tokenizer

/-- What a definition matched, and from where to where. -/
structure Lexeme where
  definition : TokenDef
  start : Nat
  stop : Nat

/-- The first definition that matches at a position, and where it stops. The attempt tells of each
definition whether it matches. -/
def firstMatch (attempt : TokenDef → Nat → Option Nat) (position : Nat) :
    List TokenDef → Option (TokenDef × Nat)
  | [] => none
  | d :: defs =>
    match attempt d position with
    | some stop => some (d, stop)
    | none => firstMatch attempt position defs

/-- The lexemes from a position on, in a source of some size. There is always a first attempt, and
no further one behind an empty lexeme or at the end of the source. -/
def scan (attempt : TokenDef → Nat → Option Nat) (defs : List TokenDef) (size position : Nat) :
    List Lexeme :=
  match firstMatch attempt position defs with
  | none => []
  | some (d, stop) =>
    ⟨d, position, stop⟩ ::
      if position < stop ∧ stop < size then scan attempt defs size stop else []
termination_by size - position

/-- Where lexemes that begin at a position end. -/
def finalPosition (position : Nat) : List Lexeme → Nat
  | [] => position
  | lexeme :: lexemes => finalPosition lexeme.stop lexemes

/-- The token of a lexeme, unless it is skipped. -/
def Lexeme.token? (source : Bytes) (l : Lexeme) : Option Token :=
  if l.definition.skip then none
  else some ⟨l.definition.kind, (source.drop l.start).take (l.stop - l.start), ⟨l.start, l.stop⟩⟩

/-- The tokens of lexemes, in their order. -/
def tokensOf (source : Bytes) (lexemes : List Lexeme) : List Token :=
  lexemes.filterMap (Lexeme.token? source)

/-- A lexeme covers an offset of the source. -/
def Lexeme.Covers (l : Lexeme) (offset : Nat) : Prop := l.start ≤ offset ∧ offset < l.stop

/-- Lexemes from a position on, without gaps. -/
inductive Contiguous : Nat → List Lexeme → Prop
  | nil {position : Nat} : Contiguous position []
  | cons {position : Nat} {lexeme : Lexeme} {lexemes : List Lexeme}
    (hstart : lexeme.start = position) (hle : position ≤ lexeme.stop)
    (rest : Contiguous lexeme.stop lexemes) : Contiguous position (lexeme :: lexemes)

/-- Where the attempts of definitions stop: not before they start and inside of the source. -/
def Bounded (attempt : TokenDef → Nat → Option Nat) (defs : List TokenDef) (size : Nat) : Prop :=
  ∀ d ∈ defs, ∀ position ≤ size, ∀ stop, attempt d position = some stop →
    position ≤ stop ∧ stop ≤ size

section

variable {attempt : TokenDef → Nat → Option Nat} {defs : List TokenDef} {size position stop : Nat}
  {d : TokenDef}

theorem of_firstMatch (h : firstMatch attempt position defs = some (d, stop)) :
    d ∈ defs ∧ attempt d position = some stop := by
  induction defs with
  | nil => cases h
  | cons head defs ih =>
    rw [firstMatch] at h
    cases hattempt : attempt head position with
    | some first =>
      rw [hattempt] at h
      cases h
      exact ⟨.head _, hattempt⟩
    | none =>
      rw [hattempt] at h
      have htail := ih h
      exact ⟨.tail _ htail.1, htail.2⟩

/-- A scan leaves no gaps. -/
theorem contiguous_scan (hb : Bounded attempt defs size) (hposition : position ≤ size) :
    Contiguous position (scan attempt defs size position) := by
  fun_induction scan attempt defs size position with
  | case1 => exact .nil
  | case2 position d stop hfirst ih =>
    obtain ⟨hd, hattempt⟩ := of_firstMatch hfirst
    have hbounds := hb d hd position hposition stop hattempt
    refine .cons rfl hbounds.1 ?_
    split
    · next hgo => exact ih hgo hbounds.2
    · exact .nil

theorem finalPosition_scan_le (hb : Bounded attempt defs size) (hposition : position ≤ size) :
    finalPosition position (scan attempt defs size position) ≤ size := by
  fun_induction scan attempt defs size position with
  | case1 => exact hposition
  | case2 position d stop hfirst ih =>
    obtain ⟨hd, hattempt⟩ := of_firstMatch hfirst
    have hstop := (hb d hd position hposition stop hattempt).2
    rw [finalPosition]
    split
    · next hgo => exact ih hgo hstop
    · exact hstop

end

namespace Contiguous

variable {position : Nat} {lexemes : List Lexeme} {l : Lexeme}

private theorem position_le (h : Contiguous position lexemes) :
    position ≤ finalPosition position lexemes := by
  induction h with
  | nil => exact Nat.le_refl _
  | cons hstart hle rest ih => exact Nat.le_trans hle ih

theorem bounds (h : Contiguous position lexemes) (hl : l ∈ lexemes) :
    position ≤ l.start ∧ l.start ≤ l.stop ∧ l.stop ≤ finalPosition position lexemes := by
  induction h with
  | nil => cases hl
  | cons hstart hle rest ih =>
    rcases List.mem_cons.1 hl with rfl | hl
    · exact ⟨Nat.le_of_eq hstart.symm, hstart ▸ hle, rest.position_le⟩
    · have hbounds := ih hl
      exact ⟨Nat.le_trans hle hbounds.1, hbounds.2⟩

/-- Lexemes without gaps do not overlap. -/
theorem pairwise (h : Contiguous position lexemes) :
    lexemes.Pairwise fun l m => l.stop ≤ m.start := by
  induction h with
  | nil => exact .nil
  | cons hstart hle rest ih => exact .cons (fun m hm => (rest.bounds hm).1) ih

/-- They cover all that lies between their ends. -/
theorem exists_covers (h : Contiguous position lexemes) {offset : Nat} (hge : position ≤ offset)
    (hlt : offset < finalPosition position lexemes) : ∃ l ∈ lexemes, l.Covers offset := by
  induction h with
  | nil =>
    simp only [finalPosition] at hlt
    omega
  | @cons position lexeme lexemes hstart hle rest ih =>
    by_cases hinside : offset < lexeme.stop
    · exact ⟨lexeme, .head _, hstart ▸ hge, hinside⟩
    · obtain ⟨l, hl, hcovers⟩ := ih (Nat.le_of_not_lt hinside) hlt
      exact ⟨l, .tail _ hl, hcovers⟩

/-- And no offset is covered twice. -/
theorem covers_unique
    (h : Contiguous position lexemes) {offset : Nat} {m : Lexeme} (hl : l ∈ lexemes)
    (hm : m ∈ lexemes) (hcl : l.Covers offset) (hcm : m.Covers offset) : l = m := by
  induction h with
  | nil => cases hl
  | cons hstart hle rest ih =>
    have apart {k : Lexeme} (hk : k ∈ _) (hck : k.Covers offset) :=
      Nat.le_trans (rest.bounds hk).1 hck.1
    rcases List.mem_cons.1 hl with rfl | hltail <;> rcases List.mem_cons.1 hm with rfl | hmtail
    · rfl
    · have := apart hmtail hcm
      have := hcl.2
      omega
    · have := apart hltail hcl
      have := hcm.2
      omega
    · exact ih hltail hmtail

variable {source : Bytes} {token : Token}

theorem of_token? (h : l.token? source = some token) :
    l.definition.skip = false ∧ token.span = ⟨l.start, l.stop⟩ := by
  unfold Lexeme.token? at h
  split at h
  · cases h
  · next hskip =>
    cases h
    exact ⟨Bool.eq_false_iff.2 hskip, rfl⟩

/-- The tokens of lexemes are in order and do not overlap. -/
theorem tokens_pairwise (h : Contiguous position lexemes) :
    (tokensOf source lexemes).Pairwise fun t u => t.span.stop ≤ u.span.start := by
  refine h.pairwise.filterMap _ ?_
  intro l m hlm t ht u hu
  rw [(of_token? ht).2, (of_token? hu).2]
  exact Int.ofNat_le.2 hlm

/-- What no token covers was skipped. -/
theorem uncovered_iff (h : Contiguous position lexemes) {offset : Nat} (hge : position ≤ offset)
    (hlt : offset < finalPosition position lexemes) :
    (∀ token ∈ tokensOf source lexemes, ¬token.Covers offset) ↔
      ∃ l ∈ lexemes, l.definition.skip = true ∧ l.Covers offset := by
  constructor
  · intro huncovered
    obtain ⟨l, hl, hcovers⟩ := h.exists_covers hge hlt
    refine ⟨l, hl, ?_, hcovers⟩
    cases hskip : l.definition.skip with
    | true => rfl
    | false =>
      have htoken : _ ∈ tokensOf source lexemes :=
        List.mem_filterMap.2 ⟨l, hl, if_neg (hskip ▸ Bool.false_ne_true)⟩
      exact absurd ⟨Int.ofNat_le.2 hcovers.1, Int.ofNat_lt.2 hcovers.2⟩ (huncovered _ htoken)
  · rintro ⟨l, hl, hskip, hcovers⟩ token htoken hcovered
    obtain ⟨m, hm, htoken⟩ := List.mem_filterMap.1 htoken
    obtain ⟨hkept, hspan⟩ := of_token? htoken
    rw [Token.Covers, hspan] at hcovered
    have hcm : m.Covers offset := ⟨Int.ofNat_le.1 hcovered.1, Int.ofNat_lt.1 hcovered.2⟩
    obtain rfl := h.covers_unique hl hm hcovers hcm
    rw [hskip] at hkept
    cases hkept

end Contiguous

end Tokenizer

end PegMachine
