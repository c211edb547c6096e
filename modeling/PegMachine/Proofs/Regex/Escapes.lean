import PegMachine.Proofs.Regex.Lookahead

namespace PegMachine

/-- The names in a table of classes start with a capital letter. -/
theorem Unicode.name_of_mem_namedClasses {table : String} {entry : String × CharClass}
    (h : entry ∈ namedClasses table) : ∃ c cs, c.isUpper = true ∧ entry.1 = String.ofList (c :: cs) := by
  unfold namedClasses at h
  generalize words table = texts at h
  induction texts with
  | nil => cases h
  | cons word texts ih =>
    rw [List.foldr_cons] at h
    cases word with
    | nil => exact ih h
    | cons c cs =>
      simp only at h
      split at h
      · next hupper =>
        obtain rfl | h := List.mem_cons.1 h
        · exact ⟨c, cs, hupper, rfl⟩
        · exact ih h
      · exact ih h

namespace Regex.Named

private theorem canonical_ne_empty {c : Char} (hc : c.isUpper = true) (cs : List Char) :
    canonical (String.ofList (c :: cs)) ≠ "" := by
  have hkept : (c ≠ '_' && c ≠ '-' && c ≠ ' ') = true := by
    simp only [ne_eq, decide_not, Bool.and_eq_true, Bool.not_eq_true', decide_eq_false_iff_not]
    refine ⟨⟨?_, ?_⟩, ?_⟩ <;> (rintro rfl; revert hc; decide)
  simp only [canonical, String.toList_ofList, List.filter_cons, hkept, if_true]
  simp

private theorem byName?_empty {α : Type} {entries : List (String × α)}
    (h : ∀ entry ∈ entries, canonical entry.1 ≠ "") : byName? "" entries = none := by
  rw [byName?, List.find?_eq_none.2, Option.map_none]
  intro entry hentry
  simpa using h entry hentry

/-- No class has the empty name. -/
theorem unicode?_nil : unicode? [] = none := by
  have hcategory : Unicode.category? "" = none := by
    have hlookup : Unicode.categories.lookup "" = none := by
      rw [List.lookup_eq_none_iff]
      intro entry hentry
      obtain ⟨c, cs, -, hname⟩ := Unicode.name_of_mem_namedClasses hentry
      rw [hname]
      simp
    simp [Unicode.category?, hlookup]
  have hscripts : byName? "" Unicode.scripts = none := byName?_empty fun entry hentry => by
    obtain ⟨c, cs, hupper, hname⟩ := Unicode.name_of_mem_namedClasses hentry
    exact hname ▸ canonical_ne_empty hupper cs
  have hnames : byName? "" categoryNames = none := byName?_empty (by decide)
  have hname : canonical (String.ofList []) = "" := rfl
  simp [unicode?, hname, hcategory, hscripts, hnames]

end Regex.Named

namespace Regex

section

variable {text rest before after x : Bytes} {b : UInt8} {c : Nat}

private theorem hexBraced_obtains {start : Bytes} {value : Nat} {any : Bool}
    (h : hexBraced start value any text = .ok (c, rest)) (start' : Bytes) :
    Obtains (hexBraced start' value any) text c rest := by
  induction text generalizing value any with
  | nil => cases h
  | cons b text ih =>
    simp only [hexBraced] at h
    split at h
    · next hclose =>
      split at h
      · next hany =>
        cases h
        refine ⟨List.suffix_cons b _, fun x _ => ?_⟩
        simp only [List.cons_append, hexBraced, if_pos hclose, if_pos hany]
      · cases h
    · next hclose =>
      split at h
      · next d hd =>
        split at h
        · cases h
        · next hmax =>
          obtain ⟨hsuffix, hreads⟩ := ih h
          refine ⟨hsuffix.trans (List.suffix_cons b text), fun x hx => ?_⟩
          simp only [List.cons_append, hexBraced, if_neg hclose, hd, if_neg hmax, hreads x hx]
      · obtain ⟨_, -, hfail⟩ := exists_of_bind h
        cases hfail

private theorem octal_closing (n value : Nat) (hx : Closing x) :
    octal n value (text ++ x) = ((octal n value text).1, (octal n value text).2 ++ x) := by
  induction n generalizing value text with
  | zero => rfl
  | succ n ih =>
    cases text with
    | nil =>
      obtain rfl | ⟨more, rfl, -⟩ := hx.eq_cons
      · rfl
      · have hparen : Ascii.octalValue? (Ascii.code ')') = none := by decide
        simp only [List.nil_append, octal, hparen]
    | cons b text =>
      simp only [List.cons_append, octal]
      cases Ascii.octalValue? b with
      | none => rfl
      | some d => exact ih _

private theorem octal_suffix (n value : Nat) (text : Bytes) : (octal n value text).2 <:+ text := by
  induction n generalizing value text with
  | zero => exact List.suffix_refl _
  | succ n ih =>
    cases text with
    | nil => exact List.suffix_refl _
    | cons b text =>
      simp only [octal]
      split
      · exact (ih _ _).trans (List.suffix_cons b text)
      · exact List.suffix_refl _

private theorem startsOctal_closing (hx : Closing x) :
    startsOctal b (text ++ x) = startsOctal b text := by
  cases text with
  | nil =>
    obtain rfl | ⟨more, rfl, -⟩ := hx.eq_cons
    · rfl
    · have hparen : Ascii.octalValue? (Ascii.code ')') = none := by decide
      simp [startsOctal, hparen]
  | cons b' text => rfl

private theorem hexEscape_obtains {start : Bytes} (h : hexEscape start text = .ok (c, rest))
    (start' : Bytes) : Obtains (hexEscape start') text c rest := by
  cases text with
  | nil => cases h
  | cons b text =>
    simp only [hexEscape] at h
    obtain ⟨⟨high, after⟩, hhigh, h⟩ := exists_of_bind h
    have hfirst := nextRune_obtains hhigh (List.cons_ne_nil b text)
    split at h
    · next hbrace =>
      have hdigits := hexBraced_obtains h start'
      refine ⟨hdigits.suffix.trans hfirst.suffix, fun x hx => ?_⟩
      simp only [List.cons_append, hexEscape]
      rw [← List.cons_append, hfirst.reads x hx]
      exact (if_pos hbrace).trans (hdigits.reads x hx)
    · next hbrace =>
      obtain ⟨⟨low, after'⟩, hlow, h⟩ := exists_of_bind h
      have hne : after ≠ [] := by
        rintro rfl
        cases hlow
        have hnone : hexRune? Utf8.replacement = none := by decide
        simp only [hnone] at h
        split at h
        · next heq => cases heq
        · cases h
      have hsecond := nextRune_obtains hlow hne
      split at h
      · next high' low' hhigh' hlow' =>
        cases h
        refine ⟨hsecond.suffix.trans hfirst.suffix, fun x hx => ?_⟩
        simp only [List.cons_append, hexEscape]
        rw [← List.cons_append, hfirst.reads x hx]
        refine (if_neg hbrace).trans ((bind_of_eq_ok (hsecond.reads x hx)).trans ?_)
        simp only [hhigh', hlow']
      · cases h

private theorem escapedRune_closing
    {start after : Bytes} (h : nextRune (b :: text) = .ok (c, after))
    (hx : Closing x) : escapedRune start (b :: (text ++ x)) =
      if startsOctal b text then .ok (octal 2 (Ascii.digitValue b) (text ++ x))
      else if b = Ascii.code 'x' then hexEscape start (text ++ x)
      else
        match controlRune? b with
        | some c => .ok (c, text ++ x)
        | none =>
          if b < 0x80 ∧ !Ascii.isDigit b ∧ !Ascii.isLetter b then .ok (b.toNat, text ++ x)
          else fail .escape (consumed start (after ++ x)) := by
  have hfirst := nextRune_obtains h (List.cons_ne_nil b text)
  simp only [escapedRune]
  rw [← List.cons_append, hfirst.reads x hx, startsOctal_closing hx]
  rfl

theorem escapedRune_obtains {start : Bytes} (h : escapedRune start text = .ok (c, rest))
    (start' : Bytes) : Obtains (escapedRune start') text c rest := by
  cases text with
  | nil => cases h
  | cons b text =>
    simp only [escapedRune] at h
    obtain ⟨⟨c', after⟩, hnext, h⟩ := exists_of_bind h
    split at h
    · next hoctal =>
      have hfound : octal 2 (Ascii.digitValue b) text = (c, rest) := Except.ok.inj h
      have hsuffix := octal_suffix 2 (Ascii.digitValue b) text
      rw [hfound] at hsuffix
      refine ⟨hsuffix.trans (List.suffix_cons b text), fun x hx => ?_⟩
      rw [List.cons_append, escapedRune_closing hnext hx, if_pos hoctal, octal_closing 2 _ hx, hfound]
    · next hoctal =>
      split at h
      · next hhex =>
        have hdigits := hexEscape_obtains h start'
        refine ⟨hdigits.suffix.trans (List.suffix_cons b text), fun x hx => ?_⟩
        rw [List.cons_append, escapedRune_closing hnext hx, if_neg hoctal, if_pos hhex,
          hdigits.reads x hx]
      · next hhex =>
        split at h
        · next c hcontrol =>
          cases h
          refine ⟨List.suffix_cons b _, fun x hx => ?_⟩
          rw [List.cons_append, escapedRune_closing hnext hx, if_neg hoctal, if_neg hhex, hcontrol]
        · next hcontrol =>
          split at h
          · next hplain =>
            cases h
            refine ⟨List.suffix_cons b _, fun x hx => ?_⟩
            rw [List.cons_append, escapedRune_closing hnext hx, if_neg hoctal, if_neg hhex, hcontrol]
            exact if_pos hplain
          · cases h

private theorem consumed_append (text rest x : Bytes) (h : rest <:+ text) :
    consumed (text ++ x) (rest ++ x) = consumed text rest := by
  have hle := h.length_le
  simp only [consumed, List.length_append, Nat.add_sub_add_right]
  exact List.take_append_of_le_length (Nat.sub_le _ _)

private theorem className_obtains {start name : Bytes} (h : className start text = .ok (name, rest))
    (hne : text ≠ []) (start' : Bytes) : Obtains (className start') text name rest := by
  simp only [className] at h
  obtain ⟨⟨c, after⟩, hnext, h⟩ := exists_of_bind h
  have hfirst := nextRune_obtains hnext hne
  split at h
  · next hc =>
    cases h
    refine ⟨hfirst.suffix, fun x hx => ?_⟩
    simp only [className]
    rw [hfirst.reads x hx]
    refine (if_pos hc).trans ?_
    rw [consumed_append _ _ _ hfirst.suffix]
  · next hc =>
    split at h
    · obtain ⟨_, -, hfail⟩ := exists_of_bind h
      cases hfail
    · next before after' hsplit =>
      obtain ⟨⟨⟩, hcheck, h⟩ := exists_of_bind h
      cases h
      refine ⟨⟨before ++ [Ascii.closeBrace], (splitAt?_eq_append hsplit).symm⟩, fun x hx => ?_⟩
      simp only [className]
      rw [hfirst.reads x hx]
      refine (if_neg hc).trans ?_
      simp only [splitAt?_append hsplit, hcheck]
      rfl

private theorem unicodeClass_obtains
    {flags : Flags} {start : Bytes} {negated : Bool} {cls : CharClass}
    (h : unicodeClass flags start text negated = .ok (cls, rest)) (start' : Bytes) :
    Obtains (unicodeClass flags start' · negated) text cls rest := by
  simp only [unicodeClass] at h
  obtain ⟨⟨name, after⟩, hname, h⟩ := exists_of_bind h
  have hne : text ≠ [] := by
    rintro rfl
    cases hname
    simp only [consumed, List.take_nil, signed, Named.unicode?_nil] at h
    cases h
  have hfound := className_obtains hname hne start'
  split at h
  · cases h
  · next cls' hcls =>
    cases h
    refine ⟨hfound.suffix, fun x hx => ?_⟩
    simp only [unicodeClass]
    rw [hfound.reads x hx]
    simp only [bind, Except.bind, hcls]

private theorem classEscape?_of_ne {flags : Flags} (hb : b ≠ Ascii.backslash) :
    classEscape? flags (b :: text) = .ok none := by
  unfold classEscape?
  split
  · next heq => exact absurd (List.cons.inj heq).1 hb
  · rfl

private theorem classEscape?_cons (flags : Flags) (letter : UInt8) (rest : Bytes) :
    classEscape? flags (Ascii.backslash :: letter :: rest) =
      if letter = Ascii.code 'p' ∨ letter = Ascii.upperP then
        unicodeClass flags (Ascii.backslash :: letter :: rest) rest (letter == Ascii.upperP) >>=
          fun found => .ok (some found)
      else
        match Named.shorthand? letter with
        | some (cls, negated) => .ok (some (flags.applySigned cls negated, rest))
        | none => .ok none := rfl

theorem classEscape?_closing {flags : Flags} {found : Option (CharClass × Bytes)}
    (h : classEscape? flags (b :: text) = .ok found) (hlone : b = Ascii.backslash → text ≠ []) :
    (∀ f ∈ found, f.2 <:+ text) ∧ ∀ x, Closing x →
      classEscape? flags (b :: (text ++ x)) = .ok (found.map fun f => (f.1, f.2 ++ x)) := by
  by_cases hb : b = Ascii.backslash
  · subst hb
    obtain ⟨letter, text, rfl⟩ := List.exists_cons_of_ne_nil (hlone rfl)
    rw [classEscape?_cons] at h
    split at h
    · next hname =>
      obtain ⟨⟨cls, rest⟩, hfound, h⟩ := exists_of_bind h
      cases h
      constructor
      · rintro f ⟨⟩
        exact (unicodeClass_obtains hfound []).suffix.trans (List.suffix_cons letter text)
      · intro x hx
        rw [List.cons_append, classEscape?_cons, if_pos hname,
          (unicodeClass_obtains hfound _).reads x hx]
        rfl
    · next hname =>
      split at h
      · next cls negated hshort =>
        cases h
        constructor
        · rintro f ⟨⟩
          exact List.suffix_cons letter _
        · intro x hx
          rw [List.cons_append, classEscape?_cons, if_neg hname, hshort]
          rfl
      · next hshort =>
        cases h
        refine ⟨by simp, fun x hx => ?_⟩
        rw [List.cons_append, classEscape?_cons, if_neg hname, hshort]
        rfl
  · rw [classEscape?_of_ne hb] at h
    cases h
    exact ⟨by simp, fun x hx => classEscape?_of_ne hb⟩

private theorem posixClass?_of_ne {flags : Flags} {b' : UInt8}
    (h : b ≠ Ascii.openBracket ∨ b' ≠ Ascii.colon) :
    posixClass? flags (b :: b' :: text) = .ok none := by
  unfold posixClass?
  split
  · next heq =>
    obtain ⟨hb, heq⟩ := List.cons.inj heq
    exact h.elim (absurd hb) (absurd (List.cons.inj heq).1)
  · rfl

private theorem posixClass?_cons (flags : Flags) (rest : Bytes) :
    posixClass? flags (Ascii.openBracket :: Ascii.colon :: rest) =
      match splitAt? ":]" rest with
      | none => .ok none
      | some (name, after) =>
        match Named.posix.lookup (signed name false).1 with
        | none => fail .charRange (consumed (Ascii.openBracket :: Ascii.colon :: rest) after)
        | some cls => .ok (some (flags.applySigned cls (signed name false).2, after)) := rfl

private theorem posixClass?_closing {flags : Flags} {found : Option (CharClass × Bytes)}
    (h : posixClass? flags (b :: text) = .ok found) :
    (∀ f ∈ found, f.2 <:+ text) ∧ ∀ x, Closing x →
      posixClass? flags (b :: (text ++ x)) = .ok (found.map fun f => (f.1, f.2 ++ x)) := by
  cases text with
  | nil =>
    have hnone : posixClass? flags [b] = .ok none := by
      unfold posixClass?
      split
      · next heq => cases heq
      · rfl
    rw [hnone] at h
    cases h
    refine ⟨by simp, fun x hx => ?_⟩
    obtain rfl | ⟨more, rfl, -⟩ := hx.eq_cons
    · exact hnone
    · exact posixClass?_of_ne (.inr (by decide))
  | cons b' text =>
    by_cases hmark : b = Ascii.openBracket ∧ b' = Ascii.colon
    · obtain ⟨rfl, rfl⟩ := hmark
      rw [posixClass?_cons] at h
      split at h
      · next hsplit =>
        cases h
        refine ⟨by simp, fun x hx => ?_⟩
        have hcolon : (":]" : Bytes) = [Ascii.colon, Ascii.closeBracket] := by decide
        rw [List.cons_append, posixClass?_cons,
          splitAt?_closing hcolon (by decide) (by decide) hsplit hx]
        rfl
      · next name after hsplit =>
        split at h
        · cases h
        · next cls hcls =>
          cases h
          constructor
          · rintro f ⟨⟩
            exact ⟨Ascii.colon :: name ++ ":]", by simp [splitAt?_eq_append hsplit]⟩
          · intro x hx
            rw [List.cons_append, posixClass?_cons, splitAt?_append hsplit]
            simp only [hcls]
            rfl
    · have hne : b ≠ Ascii.openBracket ∨ b' ≠ Ascii.colon :=
        Decidable.not_and_iff_not_or_not.1 hmark
      rw [posixClass?_of_ne hne] at h
      cases h
      exact ⟨by simp, fun x hx => posixClass?_of_ne hne⟩

theorem classRune_obtains {whole : Bytes} (h : classRune whole text = .ok (c, rest))
    (whole' : Bytes) : Obtains (classRune whole') text c rest := by
  cases text with
  | nil => cases h
  | cons b text =>
    by_cases hb : b = Ascii.backslash
    · subst hb
      have h : escapedRune (Ascii.backslash :: text) text = .ok (c, rest) := h
      refine ⟨(escapedRune_obtains h []).suffix.trans (List.suffix_cons _ text), fun x hx => ?_⟩
      exact (escapedRune_obtains h (Ascii.backslash :: (text ++ x))).reads x hx
    · have hplain (more : Bytes) : ∀ whole, classRune whole (b :: more) = nextRune (b :: more) := by
        intro whole
        unfold classRune
        split
        · next heq => cases heq
        · next heq => exact absurd (List.cons.inj heq).1 hb
        · rfl
      rw [hplain] at h
      obtain ⟨hsuffix, hreads⟩ := nextRune_obtains h (List.cons_ne_nil b text)
      refine ⟨hsuffix, fun x hx => ?_⟩
      rw [List.cons_append, hplain]
      exact hreads x hx

private theorem classRange_closing {whole after : Bytes} {lo : Nat}
    (h : classRune whole text = .ok (lo, after)) (whole' : Bytes) (hx : Closing x) :
    classRange whole' (text ++ x) =
      match after ++ x with
      | Ascii.hyphen :: b :: more =>
        if b = Ascii.closeBracket then .ok ((lo, lo), after ++ x)
        else
          classRune whole' (b :: more) >>= fun found =>
            if found.1 < lo then fail .charRange (consumed (text ++ x) found.2)
            else .ok ((lo, found.1), found.2)
      | _ => .ok ((lo, lo), after ++ x) := by
  simp only [classRange]
  rw [(classRune_obtains h whole').reads x hx]
  rfl

private theorem classRange_obtains {whole : Bytes} {range : Nat × Nat}
    (h : classRange whole text = .ok (range, rest)) (hne : rest ≠ [])
    (hlone : rest ≠ [Ascii.hyphen]) (whole' : Bytes) :
    Obtains (classRange whole') text range rest := by
  simp only [classRange] at h
  obtain ⟨⟨lo, after⟩, hlo, h⟩ := exists_of_bind h
  have hfirst := classRune_obtains hlo whole'
  split at h
  · next b more heq =>
    have heq : after = Ascii.hyphen :: b :: more := heq
    subst heq
    split at h
    · next hb =>
      cases h
      refine ⟨hfirst.suffix, fun x hx => ?_⟩
      rw [classRange_closing hlo whole' hx]
      exact if_pos hb
    · next hb =>
      obtain ⟨⟨hi, after'⟩, hhi, h⟩ := exists_of_bind h
      have hsecond := classRune_obtains hhi whole'
      split at h
      · cases h
      · next hle =>
        cases h
        refine ⟨?_, fun x hx => ?_⟩
        · exact (hsecond.suffix.trans (List.suffix_cons _ _)).trans hfirst.suffix
        · rw [classRange_closing hlo whole' hx]
          change (if b = Ascii.closeBracket then _ else classRune whole' (b :: more ++ x) >>= _) = _
          rw [if_neg hb, hsecond.reads x hx]
          exact if_neg hle
  · next hno =>
    cases h
    refine ⟨hfirst.suffix, fun x hx => ?_⟩
    rw [classRange_closing hlo whole' hx]
    split
    · next b more heq =>
      -- the hyphen and what is after it stand in the text itself
      obtain ⟨b', after, rfl⟩ := List.exists_cons_of_ne_nil hne
      obtain ⟨hb', heq⟩ := List.cons.inj heq
      cases after with
      | nil => exact absurd (congrArg (fun c => [c]) hb') hlone
      | cons b'' after => exact absurd (congrArg (fun c => c :: b'' :: after) hb') (hno b'' after)
    · rfl

section

variable {flags : Flags} {whole : Bytes} {fuel : Nat} {first : Bool} {cls : CharClass}
  {found : CharClass × Bytes}

/-- Reads an item of a class that does not close it, and the items after it. -/
theorem classItems_cons (h : b ≠ Ascii.closeBracket ∨ first = true) :
    classItems flags whole (fuel + 1) first (b :: text) cls = (do
      match ← posixClass? flags (b :: text) with
      | some (named, rest) => classItems flags whole fuel false rest (cls.union named)
      | none =>
        match ← classEscape? flags (b :: text) with
        | some (named, rest) => classItems flags whole fuel false rest (cls.union named)
        | none =>
          let (range, rest) ← classRange whole (b :: text)
          classItems flags whole fuel false rest (cls.union (flags.apply [range]))) := by
  conv => lhs; unfold classItems
  split
  · next heq => exact h.elim (absurd (List.cons.inj heq).1) (by simp)
  · rfl

theorem classItems_nil (h : classItems flags whole fuel first [] cls = .ok found) : False := by
  cases fuel with
  | zero => cases h
  | succ fuel => cases h

/-- A hyphen that nothing follows does not end a class. -/
theorem classItems_hyphen
    (h : classItems flags whole fuel false [Ascii.hyphen] cls = .ok found) : False := by
  cases fuel with
  | zero => cases h
  | succ fuel =>
    rw [classItems_cons (.inl (by decide))] at h
    exact classItems_nil h

private theorem classItems_closing
    (h : classItems flags whole fuel first text cls = .ok (cls', rest)) :
    rest <:+ text ∧ ∀ whole' more x, fuel ≤ more → Closing x →
      classItems flags whole' more first (text ++ x) cls = .ok (cls', rest ++ x) := by
  induction fuel generalizing first text cls with
  | zero => cases h
  | succ fuel ih =>
    cases text with
    | nil => exact (classItems_nil h).elim
    | cons b text =>
      by_cases hclose : b = Ascii.closeBracket ∧ first = false
      · obtain ⟨rfl, rfl⟩ := hclose
        cases h
        refine ⟨List.suffix_cons _ _, fun whole' more x hmore hx => ?_⟩
        obtain ⟨more, rfl⟩ := Nat.exists_eq_add_of_lt hmore
        rfl
      · have hopen : b ≠ Ascii.closeBracket ∨ first = true := by
          rw [← Bool.not_eq_false]
          exact Decidable.not_and_iff_not_or_not.1 hclose
        -- what one item of the class leaves is read on, with as much fuel or more
        have hrest {named : CharClass} {after : Bytes} (hafter : after <:+ b :: text)
            (h : classItems flags whole fuel false after (cls.union named) = .ok (cls', rest))
            (hreads : ∀ whole' more x, Closing x →
              classItems flags whole' (more + 1) first (b :: (text ++ x)) cls =
                classItems flags whole' more false (after ++ x) (cls.union named)) :
            rest <:+ b :: text ∧ ∀ whole' more x, fuel + 1 ≤ more → Closing x →
              classItems flags whole' more first (b :: text ++ x) cls = .ok (cls', rest ++ x) := by
          obtain ⟨hsuffix, hclosing⟩ := ih h
          refine ⟨hsuffix.trans hafter, fun whole' more x hmore hx => ?_⟩
          cases more with
          | zero => omega
          | succ more =>
            rw [List.cons_append, hreads whole' more x hx]
            exact hclosing whole' more x (by omega) hx
        rw [classItems_cons hopen] at h
        obtain ⟨posix, hposix, h⟩ := exists_of_bind h
        obtain ⟨hposixSuffix, hposixReads⟩ := posixClass?_closing hposix
        cases posix with
        | some found =>
          obtain ⟨named, after⟩ := found
          refine hrest ((hposixSuffix _ rfl).trans (List.suffix_cons b text)) h
            fun whole' more x hx => ?_
          rw [classItems_cons hopen, hposixReads x hx]
          rfl
        | none =>
          obtain ⟨escape, hescape, h⟩ := exists_of_bind h
          have hlone : b = Ascii.backslash → text ≠ [] := by
            rintro rfl rfl
            cases hescape
            obtain ⟨_, hrange, -⟩ := exists_of_bind h
            cases hrange
          obtain ⟨hescapeSuffix, hescapeReads⟩ := classEscape?_closing hescape hlone
          cases escape with
          | some found =>
            obtain ⟨named, after⟩ := found
            refine hrest ((hescapeSuffix _ rfl).trans (List.suffix_cons b text)) h
              fun whole' more x hx => ?_
            rw [classItems_cons hopen, hposixReads x hx]
            simp only [bind, Except.bind, Option.map_none, hescapeReads x hx]
            rfl
          | none =>
            obtain ⟨⟨range, after⟩, hrange, h⟩ := exists_of_bind h
            have hne : after ≠ [] := by
              rintro rfl
              exact classItems_nil h
            have hhyphen : after ≠ [Ascii.hyphen] := by
              rintro rfl
              exact classItems_hyphen h
            refine hrest (classRange_obtains hrange hne hhyphen []).suffix h
              fun whole' more x hx => ?_
            rw [classItems_cons hopen, hposixReads x hx]
            have hread := (classRange_obtains hrange hne hhyphen whole').reads x hx
            rw [List.cons_append] at hread
            simp only [bind, Except.bind, Option.map_none, hescapeReads x hx, hread]

end

private theorem signed_append (negated : Bool) (hne : text ≠ []) (x : Bytes) :
    signed (text ++ x) negated = ((signed text negated).1 ++ x, (signed text negated).2) := by
  unfold signed
  split
  · next base heq =>
    obtain ⟨b, text, rfl⟩ := List.exists_cons_of_ne_nil hne
    obtain ⟨rfl, rfl⟩ := List.cons.inj heq
    rfl
  · next hno =>
    split
    · next base => exact absurd rfl (hno (base ++ x))
    · rfl

private theorem signed_suffix (negated : Bool) : (signed text negated).1 <:+ text := by
  unfold signed
  split
  · exact List.suffix_cons _ _
  · exact List.suffix_refl _

theorem bracketClass_closing {flags : Flags} {cls : CharClass}
    (h : bracketClass flags (b :: text) = .ok (cls, rest)) :
    rest <:+ text ∧
      ∀ x, Closing x → bracketClass flags (b :: (text ++ x)) = .ok (cls, rest ++ x) := by
  simp only [bracketClass, List.drop_succ_cons, List.drop_zero] at h
  obtain ⟨⟨found, after⟩, hitems, h⟩ := exists_of_bind h
  cases h
  obtain ⟨hsuffix, hreads⟩ := classItems_closing hitems
  have hne : text ≠ [] := by
    rintro rfl
    exact classItems_nil hitems
  refine ⟨hsuffix.trans (signed_suffix false), fun x hx => ?_⟩
  simp only [bracketClass, List.drop_succ_cons, List.drop_zero, signed_append false hne]
  rw [hreads _ _ x (by simp) hx]
  rfl

end

end Regex

end PegMachine
