import DiagramMacros.Proofs.Expression.Resolution
/-!
Texts of the characters of names. As a coordinate expression such a text is either the name that it
is or nothing at all, and its first character tells which (`read?_of_nameLetters`). The forms that
are tried before the name all need a separator or an operator, which no such text has. That also
holds of a text that begins like a crossing, since a crossing is written with separators between its
names.
-/

set_option autoImplicit false
set_option relaxedAutoImplicit false

namespace DiagramMacros

open Expression Peg Text

variable {s : Text}

/-- A text of the characters of names, the first of them included. -/
abbrev IsNameText : Text → Prop := IsWord isNameLetter isNameLetter

theorem IsNameText.all (h : IsNameText s) : s.all isNameLetter := by
  obtain ⟨c, t, rfl, hc, ht⟩ := h
  rw [List.all_cons, hc, ht]
  rfl

/-- A text of name letters has no first character that is none. -/
theorem not_startsWith_of_nameLetters {accepts : Char → Bool} (hs : s.all isNameLetter)
    (haccepts : ∀ c, accepts c → isNameLetter c = false) : startsWith accepts s = false := by
  cases s with
  | nil => rfl
  | cons c s =>
    rw [List.all_cons, Bool.and_eq_true] at hs
    rw [startsWith_cons, Bool.eq_false_iff]
    intro hc
    rw [haccepts c hc] at hs
    exact Bool.noConfusion hs.1

theorem not_startsWith_char {d : Char} (hd : isNameLetter d = false) (hs : s.all isNameLetter) :
    startsWith (· == d) s = false :=
  not_startsWith_of_nameLetters hs fun c hc ↦ by rwa [beq_iff_eq.1 hc]

theorem afterGap_of_nameLetters (hs : s.all isNameLetter) : afterGap s = s :=
  afterGap_of_not (not_startsWith_of_nameLetters hs fun _ ↦ not_isNameLetter_of_isGap)

theorem dropWhile_component_of_nameLetters (hs : s.all isNameLetter) :
    s.dropWhile isComponentLetter = [] := by
  rw [← List.append_nil s, List.dropWhile_append_of_pos]
  · rfl
  · exact fun c hc ↦ isComponentLetter_of_isNameLetter (List.all_eq_true.1 hs c hc)

namespace Peg

variable {rest : Text} {ps : List Part}

/-! ### The forms that are tried before a name -/

/-- An operand takes all of a text of name letters. -/
theorem eq_nil_of_yields_operand (hs : s.all isNameLetter)
    (h : (call .operand).Yields true s ps rest) : rest = [] := by
  rcases yields_operand.1 h with hparen | hdollar | hname
  · exact absurd (fails_parenGroup (not_startsWith_char rfl hs)) hparen.not_fails
  · exact absurd (fails_dollarGroup (not_startsWith_char rfl hs)) hdollar.not_fails
  · obtain ⟨_, _, _, hrest, _⟩ := yields_name.1 hname
    have hall := all_of_yields hs hname
    cases rest with
    | nil => rfl
    | cons c rest =>
      rw [startsWith_cons] at hrest
      rw [List.all_cons, hrest] at hall
      exact Bool.noConfusion hall

theorem fails_chain_of_nameLetters (hs : s.all isNameLetter) : (call .chain).Fails true s := by
  rcases fails_or_yields (call .operand) true s with hfails | ⟨ps, rest, hyields⟩
  · exact fails_chain_of_operand hfails
  · obtain rfl := eq_nil_of_yields_operand hs hyields
    exact fails_chain hyields (fails_link rfl)

theorem fails_merge_of_nameLetters (hs : s.all isNameLetter) : (call .merge).Fails true s := by
  rw [fails_call]
  exact fails_alt.2 ⟨fails_dollarGroup (not_startsWith_char rfl hs), fails_chain_of_nameLetters hs⟩

theorem fails_linePair_of_nameLetters (hs : s.all isNameLetter) :
    (call .linePair).Fails true s := by
  rw [fails_call]
  rcases fails_or_yields (call .operand) true s with hfails | ⟨ps, rest, hyields⟩
  · exact fails_seq.2 (Or.inl hfails)
  · obtain rfl := eq_nil_of_yields_operand hs hyields
    have hseparator : (call .lineSeparator).Fails true [] := Fails.nil rfl
    exact fails_seq.2 (Or.inr ⟨ps, [], hyields, fails_seq.2 (Or.inl hseparator)⟩)

/-- The words before a crossing may be the beginning of a name. What comes after them has only name
letters again. -/
theorem fails_intersection_of_nameLetters (hs : s.all isNameLetter) :
    (call .intersection).Fails true s := by
  rw [fails_call]
  refine fails_alt.2 ⟨?_, fails_linePair_of_nameLetters hs⟩
  rcases fails_or_yields (anyCase "intersection".toList) true s with hfails | ⟨ps, mid, hmid⟩
  · exact fails_seq.2 (Or.inl hfails)
  · have hmid' := all_gapped (all_of_yields hs hmid) true
    refine fails_seq.2 (Or.inr ⟨ps, mid, hmid, ?_⟩)
    rcases fails_or_yields (anyCase "of".toList) true (gapped true mid) with
      hfails | ⟨qs, rest, hrest⟩
    · exact fails_seq.2 (Or.inl hfails)
    · have hrest' := all_gapped (all_of_yields hmid' hrest) true
      exact fails_seq.2 (Or.inr ⟨qs, rest, hrest, fails_linePair_of_nameLetters hrest'⟩)

/-- A pair needs its separator after the first component, which takes all of the text. -/
theorem fails_pairs_of_nameLetters (hs : s.all isNameLetter) :
    (call .cartesian).Fails true s ∧ (call .polar).Fails true s := by
  have hend (separator : Char) :
      startsWith (· == separator) (s.dropWhile isComponentLetter) = false := by
    rw [dropWhile_component_of_nameLetters hs]
    rfl
  exact ⟨fails_pair ',' rfl rfl rfl (hend ','), fails_pair ':' rfl rfl rfl (hend ':')⟩

/-- Of the forms of a whole text only the last, a name, is left for a text of name letters. -/
theorem yields_wholeForms_of_name (hs : s.all isNameLetter)
    (h : (whole .name).Yields true s ps rest) : wholeForms.Yields true s ps rest := by
  obtain ⟨hcartesian, hpolar⟩ := fails_pairs_of_nameLetters hs
  have hmerge := fails_merge_of_nameLetters hs
  have hintersection := fails_intersection_of_nameLetters hs
  exact yields_alt.2 (Or.inr ⟨fails_whole_of_fails hcartesian, yields_alt.2
    (Or.inr ⟨fails_whole_of_fails hpolar, yields_alt.2
      (Or.inr ⟨fails_whole_of_fails hmerge, yields_alt.2
        (Or.inr ⟨fails_whole_of_fails hintersection, h⟩)⟩)⟩)⟩)

end Peg

/-! ### Names -/

/-- As a coordinate expression a text of name letters is the name that it is, if its first character
is one that a name may start with, and otherwise nothing. -/
theorem read?_of_nameLetters (h : IsNameText s) :
    read? s = if startsWith isNameStart s then some (.name s) else none := by
  have hs := h.all
  have hgap := afterGap_of_nameLetters hs
  split
  · rename_i hstart
    obtain ⟨c, t, rfl, _, ht⟩ := h
    have hname : (call .name).Yields true (c :: t) [.operand (.name (c :: t))] [] :=
      yields_name.2 ⟨c :: t, ⟨c, t, rfl, hstart, ht⟩, (List.append_nil _).symm, rfl, rfl⟩
    have hwhole : (whole .name).Yields true (c :: t) [.operand (.name (c :: t))] [] :=
      yields_whole.2 ⟨[], hname, rfl, rfl⟩
    apply read?_of_yields
    rw [hgap]
    exact yields_wholeForms_of_name hs hwhole
  · rename_i hstart
    have hname : (call .name).Fails true s := fails_name.2 (Bool.eq_false_iff.2 hstart)
    obtain ⟨hcartesian, hpolar⟩ := fails_pairs_of_nameLetters hs
    apply read?_of_fails
    rw [hgap]
    exact fails_wholeForms hcartesian hpolar (fails_whole_of_fails (fails_merge_of_nameLetters hs))
      (fails_intersection_of_nameLetters hs) hname

/-- What a text of name letters stands for, with blanks around it. -/
theorem Scope.resolve_of_nameLetters {name text : Text} (h : IsNameText name)
    (htext : trim text = name) (scope : Scope) :
    scope.resolve text =
      if startsWith isNameStart name then scope.lookup name else .error (.unreadable name) := by
  have hread := read?_of_nameLetters h
  by_cases hstart : startsWith isNameStart name
  · rw [if_pos hstart] at hread ⊢
    rw [Scope.resolve, htext, hread]
    rfl
  · rw [if_neg hstart] at hread ⊢
    rw [Scope.resolve, htext, hread]

end DiagramMacros
