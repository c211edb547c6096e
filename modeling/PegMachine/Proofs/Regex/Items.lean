import PegMachine.Proofs.Regex.AlikeGroups
import PegMachine.Proofs.Regex.Escapes

namespace PegMachine.Regex

theorem Reading.run_of_advanceBy {whole : Bytes} {step : Build Unit} {r r' : Reading}
    (h : advanceBy whole step r = .ok r') : step r = .ok ((), r') := by
  unfold advanceBy at h
  split at h
  · next hstep =>
    cases h
    exact hstep
  · cases h

/-- The second reading reads in a larger expression what the first one reads by itself. What the
first one is outside of all groups stays as it was. -/
structure Inside (around : List Group) (r q : Reading) : Prop where
  alike : Alike around r q
  base : r.openings.getLast? = some ({}, false)

/-- From one reading inside of another two steps go on to such readings where they succeed. -/
def Carries (around : List Group) (step step' : Build Unit) : Prop :=
  ∀ ⦃r q r' q'⦄, Inside around r q → step r = .ok ((), r') → step' q = .ok ((), q') →
    Inside around r' q'

namespace Carries

variable {around : List Group} {step step' : Build Unit}

theorem of_agree (h : Build.Agree around (fun _ => ()) step step') : Carries around step step' := by
  intro r q r' q' hrq hr hq
  obtain ⟨-, halike, hopenings⟩ := h hrq.alike hr hq
  exact ⟨halike, by rw [hopenings, hrq.base]⟩

theorem openGroup (captures : Bool) :
    Carries around (Build.openGroup captures) (Build.openGroup captures) := by
  intro r q r' q' hrq hr hq
  obtain ⟨halike, opening, hopenings⟩ := Build.openGroup_alike hrq.alike hr hq
  refine ⟨halike, ?_⟩
  rw [hopenings, Reading.openings, List.map_cons, List.getLast?_cons_cons]
  exact hrq.base

theorem pushLeaf (content : Leaf) :
    Carries around (Build.pushLeaf content) (Build.pushLeaf content) :=
  of_agree (.pushLeaf content)

theorem pushLiteral (c : Nat) : Carries around (Build.pushLiteral c) (Build.pushLiteral c) :=
  of_agree (.pushLiteral c)

end Carries

namespace Inside

variable {around : List Group} {r q r' q' : Reading} {whole whole' : Bytes} {step step' : Build Unit}

theorem flags (h : Inside around r q) : q.flags = r.flags := h.alike.flags

theorem advance (h : Inside around r q) (hs : Carries around step step')
    (hr : advanceBy whole step r = .ok r') (hq : advanceBy whole' step' q = .ok q') :
    Inside around r' q' :=
  hs h (Reading.run_of_advanceBy hr) (Reading.run_of_advanceBy hq)

theorem setRepeat (h : Inside around r q) (a b : Option Bytes) :
    Inside around { r with lastRepeat := a } { q with lastRepeat := b } :=
  ⟨⟨h.alike.1, h.alike.2, h.alike.3⟩, h.base⟩

private theorem setFlags (h : Inside around r q) (flags : Flags) :
    Inside around { r with flags := flags } { q with flags := flags } :=
  ⟨⟨rfl, h.alike.2, h.alike.3⟩, h.base⟩

end Inside

/-- What was found in a larger expression goes with what was found in the expression itself, of
which a part of `text` is left. -/
structure Follows (around : List Group) (text x : Bytes) (found found' : Reading × Bytes) :
    Prop where
  suffix : found.2 <:+ text
  rest : found'.2 = found.2 ++ x
  inside : Inside around found.1 found'.1

section

variable {around : List Group} {r q : Reading} {whole whole' text rest x : Bytes} {b : UInt8}
  {found found' : Reading × Bytes} {step step' : Build Unit}

/-- A step that is carried out when its part of the text was read. -/
theorem follows_of_step (h : Inside around r q) (hs : Carries around step step')
    (hrest : rest <:+ text)
    (hr : (do Except.ok (← advanceBy whole step r, rest)) = .ok found)
    (hq : (do Except.ok (← advanceBy whole' step' q, rest ++ x)) = .ok found') :
    Follows around text x found found' := by
  obtain ⟨r', hr', hr⟩ := exists_of_bind hr
  obtain ⟨q', hq', hq⟩ := exists_of_bind hq
  cases hr
  cases hq
  exact ⟨hrest, rfl, h.advance hs hr' hq'⟩

private theorem escape_follows (h : Inside around r q) (hx : Closing x)
    (hr : escape whole r (Ascii.backslash :: text) = .ok found)
    (hq : escape whole' q (Ascii.backslash :: (text ++ x)) = .ok found') :
    Follows around text x found found' := by
  obtain ⟨cls, hcls, hr⟩ := exists_of_bind hr
  obtain ⟨cls', hcls', hq⟩ := exists_of_bind hq
  have hne : text ≠ [] := by
    rintro rfl
    cases hcls
    cases hr
  obtain ⟨hsuffix, hreads⟩ := classEscape?_closing hcls fun _ => hne
  rw [h.flags, hreads x hx] at hcls'
  cases hcls'
  cases cls with
  | some named => exact follows_of_step h (.pushLeaf _) (hsuffix _ rfl) hr hq
  | none =>
    obtain ⟨⟨c, rest⟩, hc, hr⟩ := exists_of_bind hr
    obtain ⟨⟨c', rest'⟩, hc', hq⟩ := exists_of_bind hq
    have hrune := escapedRune_obtains hc (Ascii.backslash :: (text ++ x))
    cases (hrune.reads x hx).symm.trans hc'
    exact follows_of_step h (.pushLiteral c) hrune.suffix hr hq

private theorem plainRunes_inside
    {quoted : Bytes} {fuel : Nat} {r' q' : Reading} (h : Inside around r q)
    (hr : plainRunes whole r fuel quoted = .ok r') (hq : plainRunes whole' q fuel quoted = .ok q') :
    Inside around r' q' := by
  induction fuel generalizing quoted r q with
  | zero =>
    cases quoted with
    | nil =>
      cases hr
      cases hq
      exact h
    | cons b quoted =>
      cases hr
      cases hq
      exact h
  | succ fuel ih =>
    cases quoted with
    | nil =>
      cases hr
      cases hq
      exact h
    | cons b quoted =>
      obtain ⟨⟨c, rest⟩, hc, hr⟩ := exists_of_bind hr
      obtain ⟨⟨c', rest'⟩, hc', hq⟩ := exists_of_bind hq
      cases hc.symm.trans hc'
      obtain ⟨r₁, hr₁, hr⟩ := exists_of_bind hr
      obtain ⟨q₁, hq₁, hq⟩ := exists_of_bind hq
      exact ih (h.advance (.pushLiteral c) hr₁ hq₁) hr hq

/-- Whether a repetition is turned around by what follows its operator. -/
def isTurned (after : Bytes) : Bool := after.head? == some Ascii.question

def pastTurn (after : Bytes) : Bytes := if isTurned after then after.drop 1 else after

theorem isTurned_closing (hx : Closing x) : isTurned (text ++ x) = isTurned text := by
  cases text with
  | nil =>
    obtain rfl | ⟨more, rfl, -⟩ := hx.eq_cons
    · rfl
    · rfl
  | cons b text => rfl

private theorem pastTurn_closing (hx : Closing x) : pastTurn (text ++ x) = pastTurn text ++ x := by
  rw [pastTurn, pastTurn, isTurned_closing hx]
  cases text with
  | nil => rfl
  | cons b text => split <;> rfl

private theorem pastTurn_suffix : pastTurn text <:+ text := by
  unfold pastTurn
  split
  · exact List.drop_suffix 1 text
  · exact List.suffix_refl text

private theorem repeatLast_ok {kind : Bool → Wrap} {before after : Bytes}
    (h : repeatLast whole r kind before after = .ok found) : ∃ item pieces r',
    r.current.pieces = item :: pieces ∧
      advanceBy whole
        (Build.repeatPiece (kind (r.flags.lazy != isTurned after)) item pieces) r = .ok r' ∧
      found = ({ r' with lastRepeat := some before }, pastTurn after) := by
  unfold repeatLast at h
  dsimp only at h
  split at h
  · cases h
  · split at h
    · cases h
    · next item pieces hpieces =>
      obtain ⟨r', hr', h⟩ := exists_of_bind h
      refine ⟨item, pieces, r', hpieces, hr', ?_⟩
      split at h
      · cases h
      · cases h
        rfl

theorem repeatLast_follows {kind : Bool → Wrap} {before before' after : Bytes}
    (h : Inside around r q) (hx : Closing x)
    (hr : repeatLast whole r kind before after = .ok found)
    (hq : repeatLast whole' q kind before' (after ++ x) = .ok found') :
    Follows around after x found found' := by
  obtain ⟨item, pieces, r', hpieces, hr', rfl⟩ := repeatLast_ok hr
  obtain ⟨item', pieces', q', hpieces', hq', rfl⟩ := repeatLast_ok hq
  have hbare := h.alike.pieces
  rw [hpieces, hpieces', List.map_cons, List.map_cons] at hbare
  obtain ⟨hitem, hrest⟩ := List.cons.inj hbare
  rw [h.flags, isTurned_closing hx] at hq'
  refine ⟨pastTurn_suffix, pastTurn_closing hx, ?_⟩
  exact (h.advance (.of_agree (.repeatPiece _ hitem hrest)) hr' hq').setRepeat _ _

private theorem brace_follows (h : Inside around r q) (hx : Closing x)
    (hr : brace whole r (b :: text) = .ok found)
    (hq : brace whole' q (b :: (text ++ x)) = .ok found') :
    Follows around text x found found' := by
  have hbounds : bounds? (b :: (text ++ x)) = _ := bounds?_closing hx
  unfold brace at hr hq
  rw [hbounds] at hq
  split at hr
  · next hnone =>
    rw [hnone] at hq
    exact follows_of_step (h.setRepeat none none) (.pushLiteral _) (List.suffix_refl text) hr hq
  · next least most rest hsome =>
    rw [hsome] at hq
    dsimp only [Option.map_some] at hq
    split at hr
    · cases hr
    · next hlimits =>
      rw [if_neg hlimits] at hq
      obtain ⟨hsuffix, hrest, hinside⟩ := repeatLast_follows h hx hr hq
      exact ⟨hsuffix.trans (bounds?_suffix hsome), hrest, hinside⟩

private theorem flagGroup_follows (h : Inside around r q)
    (hr : flagGroup whole r (b :: Ascii.question :: text) = .ok found)
    (hq : flagGroup whole' q (b :: Ascii.question :: (text ++ x)) = .ok found') :
    Follows around text x found found' := by
  obtain ⟨⟨flags, opens, rest⟩, hflags, hr⟩ := exists_of_bind hr
  obtain ⟨⟨flags', opens', rest'⟩, hflags', hq⟩ := exists_of_bind hq
  obtain ⟨hsuffix, hreads⟩ := flagLetters_obtains hflags (b :: Ascii.question :: (text ++ x))
  rw [h.flags] at hflags'
  cases (hreads x).symm.trans hflags'
  dsimp only at hr hq
  split at hr
  · next hopens =>
    rw [if_pos hopens] at hq
    obtain ⟨r', hr', hr⟩ := exists_of_bind hr
    obtain ⟨q', hq', hq⟩ := exists_of_bind hq
    cases hr
    cases hq
    exact ⟨hsuffix, rfl, (h.advance (.openGroup false) hr' hq').setFlags flags⟩
  · next hopens =>
    rw [if_neg hopens] at hq
    cases hr
    cases hq
    exact ⟨hsuffix, rfl, h.setFlags flags⟩

private theorem namedGroup_follows {start start' : Bytes} (h : Inside around r q)
    (hr : namedGroup whole r start text = .ok found)
    (hq : namedGroup whole' q start' (text ++ x) = .ok found') :
    Follows around text x found found' := by
  unfold namedGroup at hr hq
  split at hr
  · obtain ⟨_, -, hfail⟩ := exists_of_bind hr
    cases hfail
  · next name rest hsplit =>
    rw [splitAt?_append hsplit x] at hq
    obtain ⟨_, -, hr⟩ := exists_of_bind hr
    obtain ⟨_, -, hq⟩ := exists_of_bind hq
    split at hr
    · next hname =>
      rw [if_pos hname] at hq
      refine follows_of_step h (.openGroup true) ?_ hr hq
      exact ⟨name ++ [Ascii.greater], (splitAt?_eq_append hsplit).symm⟩
    · cases hr

theorem Follows.mono {text' : Bytes} (h : Follows around text x found found')
    (hsuffix : text <:+ text') : Follows around text' x found found' :=
  ⟨h.suffix.trans hsuffix, h.rest, h.inside⟩

private theorem parenthesis_plain (h : text.head? ≠ some Ascii.question) :
    parenthesis whole r (b :: text) =
      (do .ok (← advanceBy whole (Build.openGroup true) r, text)) := by
  unfold parenthesis
  split
  · next heq =>
    cases heq
    exact absurd rfl h
  · next heq =>
    cases heq
    exact absurd rfl h
  · next heq =>
    cases heq
    exact absurd rfl h
  · rfl

private theorem parenthesis_flags {letter : UInt8} (hP : letter ≠ Ascii.upperP)
    (hless : letter ≠ Ascii.less) :
    parenthesis whole r (b :: Ascii.question :: letter :: text) =
      flagGroup whole r (b :: Ascii.question :: letter :: text) := by
  unfold parenthesis
  split
  · next heq =>
    cases heq
    exact absurd rfl hP
  · next heq =>
    cases heq
    exact absurd rfl hless
  · rfl
  · next hno => exact (hno _ _ rfl).elim

/-- No flag has the letters that begin the name of a group. -/
theorem flagGroup_letter (h : flagGroup whole r (b :: Ascii.question :: text) = .ok found) :
    ∃ letter more, text = letter :: more ∧ letter ≠ Ascii.upperP ∧ letter ≠ Ascii.less := by
  obtain ⟨_, hflags, -⟩ := exists_of_bind h
  cases text with
  | nil => cases hflags
  | cons letter more =>
    refine ⟨letter, more, rfl, ?_, ?_⟩
    all_goals
      rintro rfl
      obtain ⟨_, -, hfail⟩ := exists_of_bind hflags
      cases hfail

private theorem parenthesis_follows (h : Inside around r q) (hx : Closing x)
    (hr : parenthesis whole r (b :: text) = .ok found)
    (hq : parenthesis whole' q (b :: (text ++ x)) = .ok found') :
    Follows around text x found found' := by
  by_cases hmark : text.head? = some Ascii.question
  · obtain ⟨text, rfl⟩ := List.head?_eq_some_iff.1 hmark
    rw [parenthesis.eq_def] at hr
    split at hr
    · next b' rest heq =>
      cases heq
      exact (namedGroup_follows h hr hq).mono (List.suffix_append [_, _, _] _)
    · next b' rest _ heq =>
      cases heq
      exact (namedGroup_follows h hr hq).mono (List.suffix_append [_, _] _)
    · next heq =>
      cases heq
      obtain ⟨letter, more, rfl, hP, hless⟩ := flagGroup_letter hr
      rw [List.cons_append, List.cons_append, parenthesis_flags hP hless] at hq
      exact (flagGroup_follows h hr hq).mono (List.suffix_cons _ _)
    · next hno => exact (hno _ _ rfl).elim
  · have hmark' : (text ++ x).head? ≠ some Ascii.question := by
      cases text with
      | nil =>
        obtain rfl | ⟨more, rfl, -⟩ := hx.eq_cons
        · exact hmark
        · exact fun h => absurd (Option.some.inj h) (by decide)
      | cons b text => exact hmark
    rw [parenthesis_plain hmark] at hr
    rw [parenthesis_plain hmark'] at hq
    exact follows_of_step h (.openGroup true) (List.suffix_refl text) hr hq

theorem closeGroup_ok {r' : Reading} (h : closeGroup whole r = .ok r') :
    ∃ r₁ outer enclosing item pieces, advanceBy whole Build.endGroup r = .ok r₁ ∧
      r₁.enclosing = outer :: enclosing ∧ r₁.current.pieces = item :: pieces ∧
      advanceBy whole
        (Build.push (if r₁.current.captures then Tree.inside none .capture item else item))
        { r₁ with flags := r₁.current.restore, current := outer, enclosing := enclosing } =
          .ok r' := by
  obtain ⟨r₁, hr₁, h⟩ := exists_of_bind h
  split at h
  · next outer enclosing item pieces henclosing hpieces =>
    exact ⟨r₁, outer, enclosing, item, pieces, hr₁, henclosing, hpieces, h⟩
  · cases h

private theorem closeGroup_inside {r' q' : Reading} (h : Inside around r q)
    (hr : closeGroup whole r = .ok r') (hq : closeGroup whole' q = .ok q') :
    Inside around r' q' := by
  obtain ⟨r₁, outer, enclosing, item, pieces, hr₁, hrenclosing, hrpieces, hr⟩ := closeGroup_ok hr
  obtain ⟨q₁, outer', enclosing', item', pieces', hq₁, hqenclosing, hqpieces, hq⟩ :=
    closeGroup_ok hq
  have h₁ := h.advance (.of_agree .endGroup) hr₁ hq₁
  have henclosing := h₁.alike.enclosing
  rw [hrenclosing, hqenclosing, List.map_cons, List.map_cons, List.cons_append] at henclosing
  obtain ⟨houter, henclosing⟩ := List.cons.inj henclosing
  have hpieces := h₁.alike.pieces
  rw [hrpieces, hqpieces, List.map_cons, List.map_cons] at hpieces
  obtain ⟨hitem, -⟩ := List.cons.inj hpieces
  rw [h₁.alike.captures, h₁.alike.restore] at hq
  have hpiece : (if r₁.current.captures then Tree.inside none .capture item' else item').bare =
      (if r₁.current.captures then Tree.inside none .capture item else item).bare := by
    split
    · rw [Tree.bare_inside, Tree.bare_inside, hitem]
    · exact hitem
  have houtside : Inside around
      { r₁ with flags := r₁.current.restore, current := outer, enclosing := enclosing }
      { q₁ with flags := r₁.current.restore, current := outer', enclosing := enclosing' } := by
    refine ⟨⟨rfl, houter, ?_⟩, ?_⟩
    · rw [henclosing, ← List.map_append]
      rfl
    · have hbase := h₁.base
      rw [Reading.openings, hrenclosing, List.map_cons, List.map_cons, List.getLast?_cons_cons]
        at hbase
      exact hbase
  exact houtside.advance (.of_agree (.push hpiece)) hr hq

end

/-- A step that does the same in all surroundings neither opens nor closes a group. -/
theorem level_of_advance {whole : Bytes} {step : Build Unit} {r r' : Reading}
    (hs : Build.Agree [] (fun _ => ()) step step) (h : advanceBy whole step r = .ok r') :
    r'.enclosing.length = r.enclosing.length := by
  have hstep := Reading.run_of_advanceBy h
  have hsame : Alike [] r r := ⟨rfl, rfl, by rw [Reading.within, List.append_nil]⟩
  obtain ⟨-, -, hopenings⟩ := hs hsame hstep hstep
  have hlength := congrArg List.length hopenings
  simpa [Reading.openings] using hlength

/-- A quotation goes on behind the expression, up to the end of the larger one. -/
structure Swallows (q : Reading) (found found' : Reading × Bytes) : Prop where
  rest : found.2 = []
  all : found'.2 = []
  level : found'.1.enclosing.length = q.enclosing.length

section

variable {around : List Group} {r q : Reading} {whole whole' text rest x : Bytes} {b : UInt8}
  {found found' : Reading × Bytes}

private theorem plainRunes_level
    {fuel : Nat} {r' : Reading} (h : plainRunes whole r fuel text = .ok r') :
    r'.enclosing.length = r.enclosing.length := by
  induction fuel generalizing text r with
  | zero =>
    cases text with
    | nil =>
      cases h
      rfl
    | cons b text =>
      cases h
      rfl
  | succ fuel ih =>
    cases text with
    | nil =>
      cases h
      rfl
    | cons b text =>
      obtain ⟨⟨c, rest⟩, -, h⟩ := exists_of_bind h
      obtain ⟨r₁, hr₁, h⟩ := exists_of_bind h
      rw [ih h, level_of_advance (.pushLiteral c) hr₁]

/-- What is quoted at the start of a text, and what is left after it. -/
def quotation (text : Bytes) : Bytes × Bytes := (splitAt? "\\E" text).getD (text, [])

private theorem quotation_closing (text : Bytes) (hx : Closing x) : (quotation text).2 <:+ text ∧
    (quotation (text ++ x) = ((quotation text).1, (quotation text).2 ++ x) ∨
      (quotation text).2 = [] ∧ (quotation (text ++ x)).2 = []) := by
  unfold quotation
  cases hsplit : splitAt? "\\E" text with
  | some parts =>
    obtain ⟨quoted, rest⟩ := parts
    rw [splitAt?_append hsplit x]
    exact ⟨⟨quoted ++ "\\E", (splitAt?_eq_append hsplit).symm⟩, .inl rfl⟩
  | none =>
    have hmark : ("\\E" : Bytes) = [Ascii.backslash, Ascii.code 'E'] := by decide
    rw [splitAt?_closing hmark (by decide) (by decide) hsplit hx]
    exact ⟨List.nil_suffix, .inr ⟨rfl, rfl⟩⟩

private theorem backslash_cons (whole : Bytes) (r : Reading) (letter : UInt8) (text : Bytes) :
    backslash whole r (Ascii.backslash :: letter :: text) =
      match letterAnchor? letter with
      | some anchor => leafThen whole r (.look anchor) text
      | none =>
        if letter = Ascii.code 'C' then fail .escape [Ascii.backslash, letter]
        else if letter = Ascii.code 'Q' then
          (do .ok (← plainRunes whole r (quotation text).1.length (quotation text).1,
            (quotation text).2))
        else escape whole r (Ascii.backslash :: letter :: text) := rfl

private theorem backslash_follows (h : Inside around r q) (hx : Closing x)
    (hr : backslash whole r (Ascii.backslash :: text) = .ok found)
    (hq : backslash whole' q (Ascii.backslash :: (text ++ x)) = .ok found') :
    Follows around text x found found' ∨ Swallows q found found' := by
  cases text with
  | nil => cases hr
  | cons letter text =>
    rw [backslash_cons] at hr
    rw [List.cons_append, backslash_cons] at hq
    cases hanchor : letterAnchor? letter with
    | some anchor =>
      simp only [hanchor] at hr hq
      exact .inl (follows_of_step h (.pushLeaf _) (List.suffix_cons letter text) hr hq)
    | none =>
      simp only [hanchor] at hr hq
      split at hr
      · cases hr
      · next hC =>
        rw [if_neg hC] at hq
        split at hr
        · next hQ =>
          rw [if_pos hQ] at hq
          obtain ⟨r', hr', hr⟩ := exists_of_bind hr
          obtain ⟨q', hq', hq⟩ := exists_of_bind hq
          cases hr
          cases hq
          obtain ⟨hsuffix, hquoted | ⟨hrest, hall⟩⟩ := quotation_closing text hx
          · rw [hquoted] at hq' ⊢
            exact .inl ⟨hsuffix.trans (List.suffix_cons letter text), rfl,
              plainRunes_inside h hr' hq'⟩
          · exact .inr ⟨hrest, hall, plainRunes_level hq'⟩
        · next hQ =>
          rw [if_neg hQ] at hq
          exact .inl (escape_follows h hx hr hq)

private theorem pushLeaf_of_flags (around : List Group) {flags flags' : Flags} (h : flags' = flags)
    (leaf : Flags → Leaf) :
    Carries around (Build.pushLeaf (leaf flags)) (Build.pushLeaf (leaf flags')) := by
  subst h
  exact .pushLeaf _

/-- An item of an expression that can be read by itself is read in the same way in a larger one. -/
theorem item_follows (h : Inside around r q) (hx : Closing x)
    (hr : item whole r (b :: text) = .ok found)
    (hq : item whole' q (b :: text ++ x) = .ok found') :
    Follows around text x found found' ∨ Swallows q found found' := by
  have hplain := h.setRepeat none none
  rw [List.cons_append] at hq
  unfold item at hr hq
  dsimp only at hr hq
  by_cases hparen : b = Ascii.code '('
  · rw [if_pos hparen] at hr hq
    exact .inl (parenthesis_follows hplain hx hr hq)
  rw [if_neg hparen] at hr hq
  by_cases hbar : b = Ascii.code '|'
  · rw [if_pos hbar] at hr hq
    exact .inl (follows_of_step hplain (.of_agree .endBranch) (List.suffix_refl text) hr hq)
  rw [if_neg hbar] at hr hq
  by_cases hclose : b = Ascii.code ')'
  · rw [if_pos hclose] at hr hq
    obtain ⟨r', hr', hr⟩ := exists_of_bind hr
    obtain ⟨q', hq', hq⟩ := exists_of_bind hq
    cases hr
    cases hq
    exact .inl ⟨List.suffix_refl text, rfl, closeGroup_inside hplain hr' hq'⟩
  rw [if_neg hclose] at hr hq
  by_cases hcaret : b = Ascii.caret
  · rw [if_pos hcaret] at hr hq
    have hleaf := pushLeaf_of_flags around h.flags fun flags =>
      .look (if flags.lines then .lineStart else .textStart)
    exact .inl (follows_of_step hplain hleaf (List.suffix_refl text) hr hq)
  rw [if_neg hcaret] at hr hq
  by_cases hdollar : b = Ascii.code '$'
  · rw [if_pos hdollar] at hr hq
    have hleaf := pushLeaf_of_flags around h.flags fun flags =>
      .look (if flags.lines then .lineEnd else .textEnd)
    exact .inl (follows_of_step hplain hleaf (List.suffix_refl text) hr hq)
  rw [if_neg hdollar] at hr hq
  by_cases hdot : b = Ascii.dot
  · rw [if_pos hdot] at hr hq
    have hleaf := pushLeaf_of_flags around h.flags fun flags =>
      if flags.dotAll then .anything else .notNewline
    exact .inl (follows_of_step hplain hleaf (List.suffix_refl text) hr hq)
  rw [if_neg hdot] at hr hq
  by_cases hbracket : b = Ascii.openBracket
  · rw [if_pos hbracket] at hr hq
    obtain ⟨⟨cls, rest⟩, hcls, hr⟩ := exists_of_bind hr
    obtain ⟨⟨cls', rest'⟩, hcls', hq⟩ := exists_of_bind hq
    rw [h.flags] at hcls'
    obtain ⟨hsuffix, hreads⟩ := bracketClass_closing hcls
    cases (hreads x hx).symm.trans hcls'
    exact .inl (follows_of_step hplain (.pushLeaf _) hsuffix hr hq)
  rw [if_neg hbracket] at hr hq
  by_cases hstar : b = Ascii.star
  · rw [if_pos hstar] at hr hq
    exact .inl (repeatLast_follows h hx hr hq)
  rw [if_neg hstar] at hr hq
  by_cases hplus : b = Ascii.plus
  · rw [if_pos hplus] at hr hq
    exact .inl (repeatLast_follows h hx hr hq)
  rw [if_neg hplus] at hr hq
  by_cases hquestion : b = Ascii.question
  · rw [if_pos hquestion] at hr hq
    exact .inl (repeatLast_follows h hx hr hq)
  rw [if_neg hquestion] at hr hq
  by_cases hbrace : b = Ascii.openBrace
  · rw [if_pos hbrace] at hr hq
    exact .inl (brace_follows h hx hr hq)
  rw [if_neg hbrace] at hr hq
  by_cases hbackslash : b = Ascii.backslash
  · rw [if_pos hbackslash] at hr hq
    subst hbackslash
    exact (backslash_follows hplain hx hr hq).imp_right fun hall => ⟨hall.rest, hall.all, hall.level⟩
  rw [if_neg hbackslash] at hr hq
  obtain ⟨⟨c, rest⟩, hc, hr⟩ := exists_of_bind hr
  obtain ⟨⟨c', rest'⟩, hc', hq⟩ := exists_of_bind hq
  have hrune := nextRune_obtains hc (List.cons_ne_nil b text)
  cases (hrune.reads x hx).symm.trans hc'
  exact .inl (follows_of_step hplain (.pushLiteral c) (nextRune_suffix hc) hr hq)

end

end PegMachine.Regex
