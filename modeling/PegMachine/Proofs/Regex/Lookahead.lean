import PegMachine.Proofs.Regex.Matching
import PegMachine.Proofs.Text.Utf8
import PegMachine.Regex.Reader

namespace PegMachine

theorem Utf8.decodeAt_append {b : UInt8} {rest : Bytes} (h : isIllFormed b rest = false)
    (x : Bytes) : decodeAt b (rest ++ x) = decodeAt b rest := by
  by_cases hb : b < 0x80
  · rw [decodeAt_of_lt hb, decodeAt_of_lt hb]
  · rw [UInt8.not_lt] at hb
    obtain hlone | ⟨more, after, c, rfl, hwide, hfound⟩ := finds_decodeAt hb rest
    · simp [isIllFormed, hlone, hb] at h
    · rw [hfound, List.append_assoc, hwide.decodeAt_eq]

private theorem Utf8.isIllFormed_append {b : UInt8} {rest : Bytes} (h : isIllFormed b rest = false)
    (x : Bytes) : isIllFormed b (rest ++ x) = false := by
  rw [← h, isIllFormed, isIllFormed, decodeAt_append h]

namespace Regex

/-- What follows an expression that is put between the parts of a pattern, if anything does. -/
def Closing (x : Bytes) : Prop := x = [] ∨ x = ")" ∨ x = ")$"

theorem Closing.eq_cons {x : Bytes} (h : Closing x) :
    x = [] ∨ ∃ more, x = Ascii.code ')' :: more ∧ (more = [] ∨ more = [Ascii.code '$']) := by
  obtain rfl | rfl | rfl := h
  · exact .inl rfl
  · exact .inr ⟨[], rfl, .inl rfl⟩
  · exact .inr ⟨_, rfl, .inr rfl⟩

/-- A reader finds something in a text and leaves the rest of it, also in front of a closing. -/
structure Obtains {α : Type} (read : Bytes → Except ReadError (α × Bytes)) (text : Bytes)
    (found : α) (rest : Bytes) : Prop where
  suffix : rest <:+ text
  reads : ∀ x, Closing x → read (text ++ x) = .ok (found, rest ++ x)

section

variable {text rest before after x mark : Bytes} {b : UInt8} {c n : Nat}

theorem nextRune_obtains (h : nextRune text = .ok (c, rest)) (hne : text ≠ []) :
    Obtains nextRune text c rest := by
  cases text with
  | nil => exact absurd rfl hne
  | cons b more =>
    simp only [nextRune] at h
    split at h
    · cases h
    · next hwell =>
      rw [Bool.not_eq_true] at hwell
      cases h
      refine ⟨List.drop_suffix _ _, fun x _ => ?_⟩
      have hwidth := (Utf8.width_decodeAt b more).2
      simp only [List.cons_append, nextRune, Utf8.isIllFormed_append hwell,
        Utf8.decodeAt_append hwell]
      rw [← List.cons_append, List.drop_append_of_le_length (by simpa using hwidth)]
      rfl

/-- The next character takes up a byte at least. -/
theorem nextRune_suffix (h : nextRune (b :: text) = .ok (c, rest)) : rest <:+ text := by
  simp only [nextRune] at h
  split at h
  · cases h
  · cases h
    obtain ⟨width, hwidth⟩ := Nat.exists_eq_add_of_le' (Utf8.width_decodeAt b text).1
    rw [hwidth, List.drop_succ_cons]
    exact List.drop_suffix width text

theorem splitAt?_eq_append (h : splitAt? mark text = some (before, after)) :
    text = before ++ mark ++ after := by
  induction text generalizing before with
  | nil => cases h
  | cons b text ih =>
    simp only [splitAt?] at h
    split at h
    · next hmark =>
      cases h
      obtain ⟨more, hmore⟩ := List.isPrefixOf_iff_prefix.1 hmark
      simp [← hmore]
    · obtain ⟨⟨before, after⟩, hrest, heq⟩ := Option.map_eq_some_iff.1 h
      cases heq
      rw [ih hrest]
      rfl

theorem splitAt?_append (h : splitAt? mark text = some (before, after)) (x : Bytes) :
    splitAt? mark (text ++ x) = some (before, after ++ x) := by
  induction text generalizing before with
  | nil => cases h
  | cons b text ih =>
    simp only [splitAt?] at h
    simp only [List.cons_append, splitAt?]
    split at h
    · next hmark =>
      cases h
      have hstart := List.isPrefixOf_iff_prefix.1 hmark
      have hmark' : mark.isPrefixOf (b :: (text ++ x)) = true :=
        List.isPrefixOf_iff_prefix.2 (hstart.trans (List.prefix_append (b :: text) x))
      rw [if_pos hmark', ← List.cons_append, List.drop_append_of_le_length hstart.length_le]
    · next hno =>
      obtain ⟨⟨before', after'⟩, hrest, heq⟩ := Option.map_eq_some_iff.1 h
      cases heq
      -- there is a whole mark behind, so one that starts here would end inside of the text
      have hlong := congrArg List.length (splitAt?_eq_append hrest)
      simp only [List.length_append] at hlong
      have hno' : ¬mark.isPrefixOf (b :: (text ++ x)) = true := by
        intro hmark
        refine hno (List.isPrefixOf_iff_prefix.2 ?_)
        refine List.prefix_of_prefix_length_le (List.isPrefixOf_iff_prefix.1 hmark)
          (List.prefix_append (b :: text) x) ?_
        simp only [List.length_cons]
        omega
      rw [if_neg hno', ih hrest]
      rfl

/-- No mark of two characters begins before a closing and ends in it. -/
theorem splitAt?_closing {m m' : UInt8} (htwo : mark = [m, m']) (hm : m ≠ Ascii.code ')')
    (hparen : m' ≠ Ascii.code ')') (h : splitAt? mark text = none) (hx : Closing x) :
    splitAt? mark (text ++ x) = none := by
  subst htwo
  induction text with
  | nil =>
    obtain rfl | ⟨more, rfl, rfl | rfl⟩ := hx.eq_cons
    all_goals simp [splitAt?, hm]
  | cons b text ih =>
    simp only [splitAt?] at h
    split at h
    · cases h
    · next hno =>
      rw [Option.map_eq_none_iff] at h
      simp only [List.cons_append, splitAt?]
      rw [if_neg, ih h]
      · rfl
      · intro hmark
        cases text with
        | nil =>
          obtain rfl | ⟨more, rfl, -⟩ := hx.eq_cons
          · simp at hmark
          · simp [hparen] at hmark
        | cons b' text => exact hno (by simpa using hmark)

private theorem takeWhile_isDigit_closing (hx : Closing x) :
    (text ++ x).takeWhile Ascii.isDigit = text.takeWhile Ascii.isDigit := by
  induction text with
  | nil =>
    obtain rfl | ⟨more, rfl, -⟩ := hx.eq_cons
    · rfl
    · exact List.takeWhile_cons_of_neg (by decide)
  | cons b text ih =>
    simp only [List.cons_append, List.takeWhile_cons, ih]

theorem count?_closing (hx : Closing x) :
    count? (text ++ x) = (count? text).map fun found => (found.1, found.2 ++ x) := by
  have hlength := (List.takeWhile_prefix Ascii.isDigit (l := text)).length_le
  simp only [count?, takeWhile_isDigit_closing hx]
  split
  · rfl
  · rw [List.drop_append_of_le_length hlength]
    rfl

/-- What follows a mark, if the text starts with it. -/
def past? (mark : UInt8) : Bytes → Option Bytes
  | [] => none
  | b :: rest => if b = mark then some rest else none

private theorem past?_closing {mark : UInt8} (hmark : mark ≠ Ascii.code ')') (hx : Closing x) :
    past? mark (text ++ x) = (past? mark text).map (· ++ x) := by
  cases text with
  | nil =>
    obtain rfl | ⟨more, rfl, -⟩ := hx.eq_cons
    · rfl
    · exact if_neg hmark.symm
  | cons b text =>
    simp only [List.cons_append, past?]
    split <;> rfl

private theorem past?_cons (mark : UInt8) (rest : Bytes) : past? mark (mark :: rest) = some rest :=
  if_pos rfl

private theorem past?_eq_none {mark : UInt8} (h : ∀ rest, text ≠ mark :: rest) :
    past? mark text = none := by
  cases text with
  | nil => rfl
  | cons b text =>
    refine if_neg ?_
    rintro rfl
    exact h text rfl

/-- The bounds that a first number and the text after it give. -/
def boundsAfter (least : Nat) (text : Bytes) : Option (Nat × Option Nat × Bytes) :=
  match past? Ascii.closeBrace text with
  | some rest => some (least, some least, rest)
  | none => (past? Ascii.comma text).bind fun text =>
    match past? Ascii.closeBrace text with
    | some rest => some (least, none, rest)
    | none => (count? text).bind fun found =>
      (past? Ascii.closeBrace found.2).map fun rest => (least, some found.1, rest)

theorem bounds?_cons (b : UInt8) (text : Bytes) :
    bounds? (b :: text) = (count? text).bind fun found => boundsAfter found.1 found.2 := by
  have hcomma (rest : Bytes) : past? Ascii.closeBrace (Ascii.comma :: rest) = none := rfl
  simp only [bounds?, List.drop_succ_cons, List.drop_zero]
  split
  · next h => rw [h, Option.bind_none]
  · next least rest h =>
    have h : count? text = some (least, Ascii.closeBrace :: rest) := h
    simp [h, boundsAfter, past?_cons Ascii.closeBrace]
  · next least rest h =>
    have h : count? text = some (least, Ascii.comma :: Ascii.closeBrace :: rest) := h
    simp [h, boundsAfter, hcomma, past?_cons Ascii.comma, past?_cons Ascii.closeBrace]
  · next least rest hopen h =>
    have h : count? text = some (least, Ascii.comma :: rest) := h
    have hopen : past? Ascii.closeBrace rest = none := past?_eq_none hopen
    simp only [h, Option.bind_some, boundsAfter, hcomma, past?_cons Ascii.comma, hopen]
    split
    · next most rest' h =>
      have h : count? rest = some (most, Ascii.closeBrace :: rest') := h
      simp [h, past?_cons Ascii.closeBrace]
    · next hno =>
      cases hmost : count? rest with
      | none => rfl
      | some found =>
        have hopen : past? Ascii.closeBrace found.2 = none :=
          past?_eq_none fun rest' h => hno found.1 rest' (hmost.trans (congrArg some (Prod.ext rfl h)))
        simp [hopen]
  · next hopen _ hcomma =>
    cases hleast : count? text with
    | none => rfl
    | some found =>
      have hopen : past? Ascii.closeBrace found.2 = none :=
        past?_eq_none fun rest' h => hopen found.1 rest' (hleast.trans (congrArg some (Prod.ext rfl h)))
      have hcomma : past? Ascii.comma found.2 = none :=
        past?_eq_none fun rest' h => hcomma found.1 rest' (hleast.trans (congrArg some (Prod.ext rfl h)))
      simp [boundsAfter, hopen, hcomma]

private theorem boundsAfter_closing (least : Nat) (hx : Closing x) : boundsAfter least (text ++ x) =
    (boundsAfter least text).map fun found => (found.1, found.2.1, found.2.2 ++ x) := by
  simp only [boundsAfter, past?_closing (by decide : Ascii.closeBrace ≠ Ascii.code ')') hx]
  cases past? Ascii.closeBrace text with
  | some rest => rfl
  | none =>
    simp only [past?_closing (by decide : Ascii.comma ≠ Ascii.code ')') hx]
    cases past? Ascii.comma text with
    | none => rfl
    | some text =>
      simp only [Option.map_some, Option.map_none, Option.bind_some,
        past?_closing (by decide : Ascii.closeBrace ≠ Ascii.code ')') hx, count?_closing hx]
      cases past? Ascii.closeBrace text with
      | some rest => rfl
      | none =>
        cases count? text with
        | none => rfl
        | some found =>
          simp only [Option.map_some, Option.bind_some,
            past?_closing (by decide : Ascii.closeBrace ≠ Ascii.code ')') hx]
          cases past? Ascii.closeBrace found.2 <;> rfl

theorem bounds?_closing (hx : Closing x) : bounds? (b :: text ++ x) =
    (bounds? (b :: text)).map fun found => (found.1, found.2.1, found.2.2 ++ x) := by
  rw [List.cons_append, bounds?_cons, bounds?_cons, count?_closing hx]
  cases count? text with
  | none => rfl
  | some found => exact boundsAfter_closing found.1 hx

private theorem past?_suffix {mark : UInt8} (h : past? mark text = some rest) : rest <:+ text := by
  cases text with
  | nil => cases h
  | cons b text =>
    simp only [past?] at h
    split at h
    · cases h
      exact List.suffix_cons b rest
    · cases h

private theorem count?_suffix (h : count? text = some (n, rest)) : rest <:+ text := by
  simp only [count?] at h
  split at h
  · cases h
  · cases h
    exact List.drop_suffix _ _

theorem bounds?_suffix {least : Nat} {most : Option Nat}
    (h : bounds? (b :: text) = some (least, most, rest)) : rest <:+ text := by
  rw [bounds?_cons] at h
  obtain ⟨⟨least, tail⟩, hleast, h⟩ := Option.bind_eq_some_iff.1 h
  refine List.IsSuffix.trans ?_ (count?_suffix hleast)
  simp only [boundsAfter] at h
  split at h
  · next hclose =>
    cases h
    exact past?_suffix hclose
  · obtain ⟨tail', hcomma, h⟩ := Option.bind_eq_some_iff.1 h
    refine List.IsSuffix.trans ?_ (past?_suffix hcomma)
    split at h
    · next hclose =>
      cases h
      exact past?_suffix hclose
    · obtain ⟨⟨most, tail''⟩, hmost, h⟩ := Option.bind_eq_some_iff.1 h
      obtain ⟨rest, hclose, heq⟩ := Option.map_eq_some_iff.1 h
      cases heq
      exact (past?_suffix hclose).trans (count?_suffix hmost)

/-- What is read after something else was read before it. -/
theorem exists_of_bind {α β : Type} {read : Except ReadError α} {next : α → Except ReadError β}
    {found : β} (h : read >>= next = .ok found) : ∃ a, read = .ok a ∧ next a = .ok found := by
  cases read with
  | error e => cases h
  | ok a => exact ⟨a, rfl, h⟩

theorem bind_of_eq_ok
    {α β : Type} {read : Except ReadError α} {next : α → Except ReadError β} {a : α}
    (h : read = .ok a) : read >>= next = next a := by
  rw [h]
  rfl

theorem flagLetters_obtains {start : Bytes} {flags flags' : Flags} {off any opens : Bool}
    (h : flagLetters start flags off any text = .ok (flags', opens, rest)) (start' : Bytes) :
    rest <:+ text ∧
      ∀ x, flagLetters start' flags off any (text ++ x) = .ok (flags', opens, rest ++ x) := by
  induction text generalizing flags off any with
  | nil => cases h
  | cons b text ih =>
    have hnext {flags : Flags} {off any : Bool}
        (h : flagLetters start flags off any text = .ok (flags', opens, rest)) :
        rest <:+ b :: text ∧
          ∀ x, flagLetters start' flags off any (text ++ x) = .ok (flags', opens, rest ++ x) :=
      (ih h).imp_left (·.trans (List.suffix_cons b text))
    simp only [flagLetters] at h
    simp only [List.cons_append, flagLetters]
    split at h
    · next hb =>
      simp only [if_pos hb]
      exact hnext h
    · next hi =>
      simp only [if_neg hi]
      split at h
      · next hb =>
        simp only [if_pos hb]
        exact hnext h
      · next hm =>
        simp only [if_neg hm]
        split at h
        · next hb =>
          simp only [if_pos hb]
          exact hnext h
        · next hs =>
          simp only [if_neg hs]
          split at h
          · next hb =>
            simp only [if_pos hb]
            exact hnext h
          · next hU =>
            simp only [if_neg hU]
            split at h
            · next hb =>
              simp only [if_pos hb]
              exact hnext h
            · next hoff =>
              simp only [if_neg hoff]
              split at h
              · next hend =>
                simp only [if_pos hend]
                cases h
                exact ⟨List.suffix_cons b _, fun x => rfl⟩
              · obtain ⟨_, -, hfail⟩ := exists_of_bind h
                cases hfail

end

end Regex

end PegMachine
