import DiagramMacros.Proofs.Expression.OptionalDollars
import DiagramMacros.Proofs.Words
/-!
The ways to write the crossing of two lines. Each line is two operands with two dashes or the word
`and` between them, the lines are joined by the word `and`, and the words `intersection of` may
stand in front. All of these texts resolve to the crossing of the two lines
(`resolve_crossing_forms`).

The forms that are tried before do not get in the way. A pair would need a comma or a colon outside
all groups. A group between dollars, or a chain, ends after the first operand, since neither two
dashes nor a word can be an operator. And the word that may stand in front is not found in the first
operand, unless that is a name that starts with it.
-/

set_option autoImplicit false
set_option relaxedAutoImplicit false

namespace DiagramMacros

open Expression Peg Text

/-! ### What stands between the operands -/

/-- A text is a word of small letters, written with small or capital letters. -/
def IsInAnyCase (word t : Text) : Prop := t.map Char.toLower = word

instance (word t : Text) : Decidable (IsInAnyCase word t) := inferInstanceAs (Decidable (_ = _))

/-- A word with any blanks around it. -/
def IsAmidBlanks (word s : Text) : Prop :=
  ∃ before after : Text, before.all isGap ∧ after.all isGap ∧ s = before ++ word ++ after

/-- The word `and` after at least one blank. -/
def IsAnd (s : Text) : Prop := startsWith isGap s ∧ IsAmidBlanks "and" s

/-- What stands between the points of a line: two dashes, or the word `and`. -/
def IsLineSign (s : Text) : Prop := IsAmidBlanks "--" s ∨ IsAnd s

/-- What stands in front of a crossing: nothing, or the words `intersection of` with blanks after
each. -/
inductive IsOpening : Text → Prop
  | none : IsOpening []
  | words {first gap second gap' : Text} (hfirst : IsInAnyCase "intersection" first)
    (hgap : gap ≠ [] ∧ gap.all isGap) (hsecond : IsInAnyCase "of" second)
    (hgap' : gap' ≠ [] ∧ gap'.all isGap) : IsOpening (first ++ gap ++ second ++ gap')

/-- A text of the crossing of the line through `a` and `b` with the line through `c` and `d`. -/
inductive IsCrossing (a b c d : Text) : Text → Prop
  | intro {opening first middle second : Text} (hopening : IsOpening opening)
    (hfirst : IsLineSign first) (hmiddle : IsAnd middle) (hsecond : IsLineSign second) :
    IsCrossing a b c d (opening ++ a ++ first ++ b ++ middle ++ c ++ second ++ d)

/-- The crossing of the line through `a` and `b` with the line through `c` and `d`. Each operand has
the point that it stands for between dollars, and the first one that has none makes the whole
fail. The position of the crossing is where the lines through the four positions cross. -/
def Scope.crossingOf (scope : Scope) (a b c d : Text) : Except Failure (Point Float) := do
  let a ← scope.resolve ('$' :: a ++ ['$'])
  let b ← scope.resolve ('$' :: b ++ ['$'])
  let c ← scope.resolve ('$' :: c ++ ['$'])
  let d ← scope.resolve ('$' :: d ++ ['$'])
  (Line.intersection a.position b.position c.position d.position).map Point.ofVec

section Signs

variable {word s t rest : Text}

theorem IsInAnyCase.all_isLetter (h : IsInAnyCase word t) (hword : word.all isLetter) :
    t.all isLetter := by
  refine List.all_eq_true.2 fun c hc ↦ isLetter_of_toLower ?_
  exact List.all_eq_true.1 hword _ (h ▸ List.mem_map_of_mem hc)

theorem IsInAnyCase.ne_nil (h : IsInAnyCase word t) (hword : word ≠ []) : t ≠ [] := by
  rintro rfl
  exact hword h.symm

/-- A text of letters starts with no character of a class without letters. -/
theorem not_startsWith_of_letters {accepts : Char → Bool} (ht : t.all isLetter) (hne : t ≠ [])
    (haccepts : ∀ c, isLetter c → accepts c = false) (more : Text) :
    startsWith accepts (t ++ more) = false := by
  obtain ⟨c, t, rfl⟩ := List.exists_cons_of_ne_nil hne
  rw [List.all_cons, Bool.and_eq_true] at ht
  exact haccepts c ht.1

theorem isNameLetter_of_isLetter {c : Char} (h : isLetter c) : isNameLetter c := by
  simp [isNameLetter, isWordLetter, isLetterOrDigit, h]

theorem isComponentLetter_of_isLetter {c : Char} (h : isLetter c) : isComponentLetter c :=
  isComponentLetter_of_isNameLetter (isNameLetter_of_isLetter h)

theorem not_isOperatorSign_of_isLetter {c : Char} (h : isLetter c) : isOperatorSign c = false := by
  simp only [isOperatorSign, Bool.or_eq_false_iff, beq_eq_false_iff_ne]
  refine ⟨⟨?_, ?_⟩, ?_⟩ <;> rintro rfl <;> exact absurd h (by decide)

theorem not_isGap_of_isLetter {c : Char} (h : isLetter c) : isGap c = false := by
  rw [Bool.eq_false_iff]
  intro hgap
  exact absurd (not_isNameLetter_of_isGap hgap) (by simp [isNameLetter_of_isLetter h])

theorem startsWith_of_all {accepts : Char → Bool} (hne : s ≠ []) (hs : s.all accepts) :
    startsWith accepts s := by
  obtain ⟨c, s, rfl⟩ := List.exists_cons_of_ne_nil hne
  exact List.all_eq_true.1 hs c List.mem_cons_self

/-- No name goes on with a blank. -/
theorem not_startsWith_of_gap (h : startsWith isGap s) (more : Text) :
    startsWith isNameLetter (s ++ more) = false := by
  cases s with
  | nil => exact absurd h Bool.false_ne_true
  | cons c s => exact not_isNameLetter_of_isGap h

/-- After the blanks in front of it stands the word, and then the blanks behind it. -/
theorem IsAmidBlanks.exists_after (h : IsAmidBlanks word s) (hword : startsWith isGap word = false)
    (hne : word ≠ []) (t : Text) :
    ∃ after, afterGap (s ++ t) = word ++ after ∧ afterGap after = afterGap t := by
  obtain ⟨before, after, hbefore, hafter, rfl⟩ := h
  refine ⟨after ++ t, ?_, afterGap_append hafter⟩
  rw [List.append_assoc, List.append_assoc, afterGap_append hbefore, afterGap_of_not]
  rwa [startsWith_append_of_ne_nil _ hne]

theorem afterGap_of_isTrimmed (h : IsTrimmed s) : afterGap s = s := by
  refine afterGap_of_not ?_
  cases s with
  | nil => rfl
  | cons c s =>
    refine Bool.eq_false_iff.2 fun hgap ↦ ?_
    exact Bool.noConfusion (h.1.symm.trans (isBlank_of_isGap hgap))

theorem IsAmidBlanks.all_isComponentLetter (h : IsAmidBlanks word s)
    (hword : word.all isComponentLetter) : s.all isComponentLetter := by
  obtain ⟨before, after, hbefore, hafter, rfl⟩ := h
  rw [List.all_append, List.all_append, all_isComponentLetter_of_gap hbefore, hword,
    all_isComponentLetter_of_gap hafter]
  rfl

theorem IsLineSign.not_startsWith (h : IsLineSign s) (t : Text) :
    startsWith isNameLetter (s ++ t) = false := by
  rcases h with ⟨before, after, hbefore, hafter, rfl⟩ | h
  · by_cases hnil : before = []
    · rw [hnil]
      rfl
    · rw [List.append_assoc, List.append_assoc]
      exact not_startsWith_of_gap (startsWith_of_all hnil hbefore) _
  · exact not_startsWith_of_gap h.1 t

theorem IsLineSign.all_isComponentLetter (h : IsLineSign s) : s.all isComponentLetter := by
  rcases h with h | h
  · exact h.all_isComponentLetter (by decide)
  · exact h.2.all_isComponentLetter (by decide)

/-- Between the points of a line the sign is read with all blanks around it. -/
theorem IsLineSign.exists_after (h : IsLineSign s) (t : Text) :
    ∃ after, (call .lineSeparator).Yields true (afterGap (s ++ t)) [] after ∧
      afterGap after = afterGap t := by
  rcases h with h | h
  · obtain ⟨after, hword, hafter⟩ := h.exists_after rfl (by decide) t
    refine ⟨after, yields_call.2 ⟨_, [], hword, ?_, rfl⟩, hafter⟩
    exact yields_alt.2 (Or.inl (yields_lit.2 ⟨hword, rfl⟩))
  · obtain ⟨after, hword, hafter⟩ := h.2.exists_after rfl (by decide) t
    refine ⟨after, yields_call.2 ⟨_, [], hword, ?_, rfl⟩, hafter⟩
    refine yields_alt.2 (Or.inr ⟨fails_lit.2 fun more hmore ↦ ?_, yields_lit.2 ⟨hword, rfl⟩⟩)
    rw [hword] at hmore
    simp at hmore

/-- A sign is no operator. -/
theorem IsLineSign.fails_link (h : IsLineSign s) (t : Text) :
    link.Fails true (afterGap (s ++ t)) ∧ afterGap (s ++ t) ≠ [] := by
  rcases h with h | h
  · obtain ⟨after, hword, -⟩ := h.exists_after rfl (by decide) t
    rw [hword]
    refine ⟨fails_seq.2 (Or.inl ?_), List.append_ne_nil_of_left_ne_nil (by decide) _⟩
    rcases fails_or_yields (call .mergeOperator) true ("--".toList ++ after) with
      hfails | ⟨ps, rest, hyields⟩
    · exact hfails
    · obtain ⟨o, -, ho, -⟩ := yields_mergeOperator.1 hyields
      cases o <;> simp [Operation.written] at ho
  · obtain ⟨after, hword, -⟩ := h.2.exists_after rfl (by decide) t
    rw [hword]
    exact ⟨Peg.fails_link rfl, List.append_ne_nil_of_left_ne_nil (by decide) _⟩

end Signs

/-! ### Operands in a longer text -/

section Operands

variable {t rest : Text}

theorem startsWith_of_spells_operand (h : Rule.operand.Spells t) :
    startsWith isOperandStart t := by
  obtain ⟨o, ho, hopen, -⟩ := exists_tree h
  rw [← afterGap_of_spells_operand h]
  exact Operand.startsWith_of_opens ho hopen

theorem ne_nil_of_spells_operand (h : Rule.operand.Spells t) : t ≠ [] := by
  rintro rfl
  exact absurd (startsWith_of_spells_operand h) nofun

theorem exists_last_of_spells_operand (h : Rule.operand.Spells t) :
    ∃ u c, t = u ++ [c] ∧ isBlank c = false := by
  obtain ⟨o, ho, hopen, -⟩ := exists_tree h
  exact Operand.exists_last ho hopen

theorem afterGap_operand_append (h : Rule.operand.Spells t) (rest : Text) :
    afterGap (t ++ rest) = t ++ rest := by
  have hgap := afterGap_of_spells_operand h
  rw [afterGap_append_of_ne_nil (hgap.symm ▸ ne_nil_of_spells_operand h), hgap]

/-- An operand is read where it stands, with the value that it has alone between dollars. -/
theorem exists_operand_append (h : Rule.operand.Spells t)
    (hrest : startsWith isNameLetter rest = false) :
    ∃ e, (call .operand).Yields true (t ++ rest) [.operand e] rest ∧
      ∀ scope : Scope, scope.evaluate e = scope.resolve ('$' :: t ++ ['$']) := by
  obtain ⟨o, ho, hopen, hopens⟩ := exists_tree h
  have hgap := afterGap_operand_append h rest
  obtain ⟨e, he, hvalue⟩ := o.isRead ho (t ++ rest) rest (hopens _ _ hgap) hrest
  rw [hgap] at he
  refine ⟨e, he, fun scope ↦ ?_⟩
  have hdone : Links.done.Proper := trivial
  have hspaced : Spaced (o.tokens ++ Links.done.tokens) t :=
    ⟨[], by rwa [Links.tokens, List.append_nil], rfl⟩
  rw [hvalue, resolve_dollars ⟨ho, hdone⟩ (spaced_dollars ho hdone hspaced) scope, Operand.value]
  cases o.value scope <;> rfl

theorem startsNoPair_operand_append (h : Rule.operand.Spells t) (hrest : rest.StartsNoPair) :
    (t ++ rest).StartsNoPair := by
  obtain ⟨o, ho, -, hopens⟩ := exists_tree h
  exact Operand.startsNoPair ho (hopens _ _ (afterGap_operand_append h rest)) hrest

/-- An operand that starts with a letter is a name. -/
theorem spells_name_of_letter {c : Char} (h : Rule.operand.Spells (c :: t)) (hc : isLetter c) :
    Rule.name.Spells (c :: t) := by
  obtain ⟨ps, hyields⟩ := spells_iff.1 h
  rcases yields_operand.1 hyields with hparen | hdollar | hname
  · obtain ⟨after, mid, heq, -⟩ := yields_parenGroup.1 hparen
    obtain ⟨rfl, -⟩ := List.cons.inj heq
    exact absurd hc (by decide)
  · obtain ⟨after, mid, heq, -⟩ := yields_dollarGroup.1 hdollar
    obtain ⟨rfl, -⟩ := List.cons.inj heq
    exact absurd hc (by decide)
  · exact spells_iff.2 ⟨ps, hname⟩

theorem spells_operand_of_letters (ht : t.all isLetter) (hne : t ≠ []) :
    Rule.operand.Spells t := by
  obtain ⟨c, t, rfl⟩ := List.exists_cons_of_ne_nil hne
  rw [List.all_cons, Bool.and_eq_true] at ht
  have hletters : t.all isNameLetter := List.all_eq_true.2 fun d hd ↦
    isNameLetter_of_isLetter (List.all_eq_true.1 ht.2 d hd)
  have hstart : isNameStart c := by simp [isNameStart, ht.1]
  exact spells_iff.2 ⟨_, yields_operand.2 (Or.inr (Or.inr
    (yields_name.2 ⟨_, ⟨c, t, rfl, hstart, hletters⟩, (List.append_nil _).symm, rfl, rfl⟩)))⟩

/-- A word is not found in front of an operand that is no name starting with it. -/
theorem fails_anyCase {word : Text} (hword : word.all isLetter) (hne : word ≠ [])
    (hlower : word.map Char.toLower = word) (h : Rule.operand.Spells t)
    (hname : ¬(Rule.name.Spells t ∧ IsInAnyCase word (t.take word.length)))
    (hrest : startsWith isNameLetter rest = false) : (anyCase word).Fails true (t ++ rest) := by
  rcases fails_or_yields (anyCase word) true (t ++ rest) with hfails | ⟨ps, mid, hyields⟩
  · exact hfails
  · obtain ⟨w, hw, hs, -⟩ := yields_anyCase.1 hyields
    rw [hlower] at hw
    have hletters := IsInAnyCase.all_isLetter hw hword
    have hlength : w.length = word.length := by rw [← hw, List.length_map]
    obtain ⟨u, rfl⟩ : ∃ u, t = w ++ u := by
      rcases List.append_eq_append_iff.1 hs with ⟨u, hu, hmore⟩ | ⟨u, hu, -⟩
      · -- The word would reach beyond the operand, with a letter that no name goes on with.
        cases u with
        | nil => exact ⟨[], by rw [hu, List.append_nil, List.append_nil]⟩
        | cons c u =>
          rw [hmore, List.cons_append, startsWith_cons] at hrest
          rw [hu, List.all_append, List.all_cons, Bool.and_eq_true, Bool.and_eq_true] at hletters
          rw [isNameLetter_of_isLetter hletters.2.1] at hrest
          exact absurd hrest nofun
      · exact ⟨u, hu⟩
    obtain ⟨c, w, rfl⟩ := List.exists_cons_of_ne_nil (IsInAnyCase.ne_nil hw hne)
    have hc : isLetter c := (Bool.and_eq_true_iff.1 (List.all_cons ▸ hletters)).1
    refine absurd ⟨spells_name_of_letter h hc, ?_⟩ hname
    rw [← hlength, List.take_left']
    · exact hw
    · rfl

/-- Neither a group nor a chain is the whole of a text in which no link follows the first
operand. -/
theorem fails_whole_merge (h : Rule.operand.Spells t) (hrest : startsWith isNameLetter rest = false)
    (hlink : link.Fails true (afterGap rest)) (hne : afterGap rest ≠ []) :
    (whole .merge).Fails true (t ++ rest) := by
  obtain ⟨e, he, -⟩ := exists_operand_append h hrest
  refine fails_whole fun ps mid hyields ↦ ?_
  rcases yields_merge.1 hyields with hdollar | ⟨-, hchain⟩
  · obtain ⟨-, rfl⟩ := he.unique (yields_operand.2 (Or.inr (Or.inl hdollar)))
    exact hne
  · exact absurd (fails_chain he hlink) hchain.not_fails

end Operands

/-! ### Crossings -/

section Crossings

variable {a b c d first middle second : Text}

/-- Two lines are read as the crossing of what their operands are read as. -/
theorem exists_linePair (ha : Rule.operand.Spells a) (hb : Rule.operand.Spells b)
    (hc : Rule.operand.Spells c) (hd : Rule.operand.Spells d) (hfirst : IsLineSign first)
    (hmiddle : IsAnd middle) (hsecond : IsLineSign second) :
    ∃ e, (call .linePair).Yields true
        (a ++ (first ++ (b ++ (middle ++ (c ++ (second ++ d)))))) [.operand e] [] ∧
      ∀ scope : Scope, scope.evaluate e = scope.crossingOf a b c d := by
  obtain ⟨e₁, he₁, hvalue₁⟩ := exists_operand_append ha (hfirst.not_startsWith _)
  obtain ⟨e₂, he₂, hvalue₂⟩ := exists_operand_append hb (not_startsWith_of_gap hmiddle.1 _)
  obtain ⟨e₃, he₃, hvalue₃⟩ := exists_operand_append hc (hsecond.not_startsWith d)
  have hend : startsWith isNameLetter [] = false := rfl
  obtain ⟨e₄, he₄, hvalue₄⟩ := exists_operand_append hd hend
  rw [List.append_nil] at he₄
  obtain ⟨after₁, hsign₁, hafter₁⟩ :=
    hfirst.exists_after (b ++ (middle ++ (c ++ (second ++ d))))
  obtain ⟨after₂, hword, hafter₂⟩ := hmiddle.2.exists_after rfl (by decide) (c ++ (second ++ d))
  obtain ⟨after₃, hsign₃, hafter₃⟩ := hsecond.exists_after d
  rw [afterGap_operand_append hb] at hafter₁
  rw [afterGap_operand_append hc] at hafter₂
  rw [afterGap_of_spells_operand hd] at hafter₃
  refine ⟨.crossing e₁ e₂ e₃ e₄, (yields_plain rfl).2 ⟨[.operand e₁, .operand e₂, .operand e₃,
    .operand e₄], ?_, rfl⟩, fun scope ↦ ?_⟩
  · refine yields_seq.2 ⟨[.operand e₁], _, _, he₁, ?_, rfl⟩
    refine yields_seq.2 ⟨[], after₁, _, hsign₁, ?_, rfl⟩
    rw [gapped_true, hafter₁]
    refine yields_seq.2 ⟨[.operand e₂], _, _, he₂, ?_, rfl⟩
    refine yields_seq.2 ⟨[], after₂, _, yields_lit.2 ⟨hword, rfl⟩, ?_, rfl⟩
    rw [gapped_true, hafter₂]
    refine yields_seq.2 ⟨[.operand e₃], _, _, he₃, ?_, rfl⟩
    refine yields_seq.2 ⟨[], after₃, _, hsign₃, ?_, rfl⟩
    rw [gapped_true, hafter₃]
    exact he₄
  · rw [Scope.evaluate, hvalue₁, hvalue₂, hvalue₃, hvalue₄]
    rfl

theorem startsNoPair_crossing (ha : Rule.operand.Spells a) (hb : Rule.operand.Spells b)
    (hc : Rule.operand.Spells c) (hd : Rule.operand.Spells d) (hfirst : IsLineSign first)
    (hmiddle : IsAnd middle) (hsecond : IsLineSign second) :
    (a ++ (first ++ (b ++ (middle ++ (c ++ (second ++ d)))))).StartsNoPair := by
  have hnil : d.StartsNoPair := by
    rw [← List.append_nil d]
    exact startsNoPair_operand_append hd fun _ _ ↦ rfl
  refine startsNoPair_operand_append ha (startsNoPair_append hfirst.all_isComponentLetter ?_)
  refine startsNoPair_operand_append hb
    (startsNoPair_append (hmiddle.2.all_isComponentLetter (by decide)) ?_)
  exact startsNoPair_operand_append hc (startsNoPair_append hsecond.all_isComponentLetter hnil)

/-- A crossing to the end of a text is read, where no pair and no group or chain is. -/
theorem yields_wholeForms_of_intersection {s : Text} {ps : List Part} (hpair : s.StartsNoPair)
    (hmerge : (whole .merge).Fails true s) (h : (call .intersection).Yields true s ps []) :
    wholeForms.Yields true s ps [] := by
  have hcartesian : (call .cartesian).Fails true s :=
    fails_pair ',' rfl rfl rfl (hpair ',' (Or.inl rfl))
  have hpolar : (call .polar).Fails true s := fails_pair ':' rfl rfl rfl (hpair ':' (Or.inr rfl))
  have hwhole : (whole .intersection).Yields true s ps [] := yields_whole.2 ⟨[], h, rfl, rfl⟩
  exact yields_alt.2 (Or.inr ⟨fails_whole_of_fails hcartesian, yields_alt.2
    (Or.inr ⟨fails_whole_of_fails hpolar, yields_alt.2
      (Or.inr ⟨hmerge, yields_alt.2 (Or.inl hwhole)⟩)⟩)⟩)

/-- What stands in front of a crossing makes no difference to what is read. -/
theorem exists_crossing {opening : Text} (ha : Rule.operand.Spells a) (hb : Rule.operand.Spells b)
    (hc : Rule.operand.Spells c) (hd : Rule.operand.Spells d)
    (hname : ¬(Rule.name.Spells a ∧ IsInAnyCase "intersection" (a.take 12)))
    (hopening : IsOpening opening) (hfirst : IsLineSign first) (hmiddle : IsAnd middle)
    (hsecond : IsLineSign second) :
    ∃ e, wholeForms.Yields true
        (opening ++ (a ++ (first ++ (b ++ (middle ++ (c ++ (second ++ d))))))) [.operand e] [] ∧
      ∀ scope : Scope, scope.evaluate e = scope.crossingOf a b c d := by
  obtain ⟨e, he, hvalue⟩ := exists_linePair ha hb hc hd hfirst hmiddle hsecond
  have hpair := startsNoPair_crossing ha hb hc hd hfirst hmiddle hsecond
  refine ⟨e, ?_, hvalue⟩
  cases hopening with
  | none =>
    obtain ⟨hlink, hne⟩ := hfirst.fails_link (b ++ (middle ++ (c ++ (second ++ d))))
    have hword : (anyCase "intersection").Fails true
        (a ++ (first ++ (b ++ (middle ++ (c ++ (second ++ d)))))) :=
      fails_anyCase (by decide) (by decide) (by decide) ha hname (hfirst.not_startsWith _)
    rw [List.nil_append]
    refine yields_wholeForms_of_intersection hpair
      (fails_whole_merge ha (hfirst.not_startsWith _) hlink hne) ?_
    exact (yields_passed rfl fun _ ↦ rfl).2
      (yields_alt.2 (Or.inr ⟨fails_seq.2 (Or.inl hword), he⟩))
  | @words w gap v gap' hw hgap hv hgap' =>
    have hletters := hw.all_isLetter (by decide)
    have hletters' := hv.all_isLetter (by decide)
    have hcore := afterGap_operand_append ha
      (first ++ (b ++ (middle ++ (c ++ (second ++ d)))))
    generalize a ++ (first ++ (b ++ (middle ++ (c ++ (second ++ d))))) = core at *
    have hgapped : afterGap (gap ++ (v ++ (gap' ++ core))) = v ++ (gap' ++ core) := by
      rw [afterGap_append hgap.2]
      exact afterGap_of_not (not_startsWith_of_letters hletters' (hv.ne_nil (by decide))
        (fun _ ↦ not_isGap_of_isLetter) _)
    have hgapped' : afterGap (gap' ++ core) = core := by rw [afterGap_append hgap'.2, hcore]
    have hlink : link.Fails true (afterGap (gap ++ (v ++ (gap' ++ core)))) := by
      rw [hgapped]
      exact fails_link (not_startsWith_of_letters hletters' (hv.ne_nil (by decide))
        (fun _ ↦ not_isOperatorSign_of_isLetter) _)
    have hne : afterGap (gap ++ (v ++ (gap' ++ core))) ≠ [] := by
      rw [hgapped]
      exact List.append_ne_nil_of_left_ne_nil (hv.ne_nil (by decide)) _
    have hall {t : Text} (ht : t.all isLetter) : t.all isComponentLetter :=
      List.all_eq_true.2 fun c hc ↦ isComponentLetter_of_isLetter (List.all_eq_true.1 ht c hc)
    simp only [List.append_assoc]
    refine yields_wholeForms_of_intersection ?_ ?_ ?_
    · exact startsNoPair_append (hall hletters) (startsNoPair_append
        (all_isComponentLetter_of_gap hgap.2) (startsNoPair_append (hall hletters')
          (startsNoPair_append (all_isComponentLetter_of_gap hgap'.2) hpair)))
    · exact fails_whole_merge (spells_operand_of_letters hletters (hw.ne_nil (by decide)))
        (not_startsWith_of_gap (startsWith_of_all hgap.1 hgap.2) _) hlink hne
    · refine (yields_passed rfl fun _ ↦ rfl).2 (yields_alt.2 (Or.inl ?_))
      refine yields_seq.2 ⟨[], _, _, yields_anyCase.2 ⟨w, hw, rfl, rfl⟩, ?_, rfl⟩
      rw [gapped_true, hgapped]
      refine yields_seq.2 ⟨[], _, _, yields_anyCase.2 ⟨v, hv, rfl, rfl⟩, ?_, rfl⟩
      rw [gapped_true, hgapped']
      exact he

/-- A text that starts with an operand or a letter, and ends with an operand, is trimmed. -/
theorem isTrimmed_crossing {opening : Text} (ha : Rule.operand.Spells a)
    (hd : Rule.operand.Spells d) (hopening : IsOpening opening) (between : Text) :
    IsTrimmed (opening ++ a ++ between ++ d) := by
  constructor
  · cases hopening with
    | none =>
      have hstart := startsWith_of_spells_operand ha
      obtain ⟨c, a, rfl⟩ := List.exists_cons_of_ne_nil (ne_nil_of_spells_operand ha)
      exact not_isBlank_of_isOperandStart hstart
    | @words w gap v gap' hw hgap hv hgap' =>
      simp only [List.append_assoc]
      exact not_startsWith_of_letters (hw.all_isLetter (by decide)) (hw.ne_nil (by decide))
        (fun _ hc ↦ not_isBlank_of_isNameLetter (isNameLetter_of_isLetter hc)) _
  · obtain ⟨u, c, rfl, hc⟩ := exists_last_of_spells_operand hd
    rw [endsWith_append_of_ne_nil _ (by simp), endsWith_append_of_ne_nil _ (by simp)]
    exact hc

end Crossings

/-- However the crossing of two lines is written, it resolves to what its four operands stand for:
the first failure among them, or else the point where the two lines cross. The first operand must
not be a name that starts with the word `intersection`, which would be taken for that word. -/
theorem resolve_crossing_forms (scope : Scope) {a b c d text : Text}
    (ha : Rule.operand.Spells a) (hb : Rule.operand.Spells b) (hc : Rule.operand.Spells c)
    (hd : Rule.operand.Spells d)
    (hname : ¬(Rule.name.Spells a ∧ IsInAnyCase "intersection" (a.take 12)))
    (h : IsCrossing a b c d text) : scope.resolve text = scope.crossingOf a b c d := by
  obtain ⟨hopening, hfirst, hmiddle, hsecond⟩ := h
  rename_i opening first middle second
  obtain ⟨e, he, hvalue⟩ := exists_crossing ha hb hc hd hname hopening hfirst hmiddle hsecond
  have htrimmed := isTrimmed_crossing ha hd hopening (first ++ b ++ middle ++ c ++ second)
  simp only [List.append_assoc] at htrimmed ⊢
  rw [← afterGap_of_isTrimmed htrimmed] at he
  rw [Scope.resolve, htrimmed.trim_eq, read?_of_yields he]
  exact hvalue scope

/-- The eight ways to write the crossing of the same two lines, the first of them through a group
between dollars, and two names that start like the words around them. -/
theorem resolve_crossing_forms_groups :
    let scope : Scope := ⟨[("A".toList, Point.ofVec ⟨1, 2⟩), ("andy".toList, Point.ofVec ⟨3, 4⟩),
      ("of".toList, Point.ofVec ⟨0, 4⟩)]⟩
    let a : Text := "$A + (1, 2)$"
    let b : Text := "andy"
    let c : Text := "( A !0.5! $andy$ )"
    let d : Text := "of"
    ∀ opening ∈ [[], "InterSection OF ".toList], ∀ first ∈ ["--".toList, " and ".toList],
      ∀ second ∈ ["--".toList, " and ".toList],
        scope.resolve (opening ++ a ++ first ++ b ++ " and ".toList ++ c ++ second ++ d) =
          scope.crossingOf a b c d := by
  intro scope a b c d opening hopening first hfirst second hsecond
  have hand : IsAnd " and ".toList := ⟨rfl, [' '], [' '], rfl, rfl, rfl⟩
  have hsign : ∀ s ∈ ["--".toList, " and ".toList], IsLineSign s :=
    List.forall_mem_cons.2 ⟨.inl ⟨[], [], rfl, rfl, rfl⟩, List.forall_mem_singleton.2 (.inr hand)⟩
  have hwords : IsOpening ("InterSection".toList ++ [' '] ++ "OF".toList ++ [' ']) :=
    .words (by decide) (by decide) (by decide) (by decide)
  have hopen : ∀ s ∈ [[], "InterSection OF ".toList], IsOpening s :=
    List.forall_mem_cons.2 ⟨.none, List.forall_mem_singleton.2 hwords⟩
  exact resolve_crossing_forms scope (by decide +kernel) (by decide +kernel) (by decide +kernel)
    (by decide +kernel) (by decide +kernel)
    (.intro (hopen _ hopening) (hsign _ hfirst) hand (hsign _ hsecond))

end DiagramMacros
