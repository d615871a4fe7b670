import DiagramMacros.Proofs.Expression.Rules
/-!
Operands, pairs and chains of the grammar. An operand is a group in parentheses, a group in dollars
or a name, and its first character says which (`yields_operand`). A pair is two components around a
comma or a colon.

A chain is an operand and at least one link, an operator with an operand after it. Where a chain may
also be a lone operand, both are an operand followed by rounds of links, and what they yield is the
chain of the parts grouped from the left (`of_yields_chain`, `yields_chainOrOperand`). Blanks after
a chain may or may not belong to it, so these statements are about the text after them.
-/

set_option autoImplicit false
set_option relaxedAutoImplicit false

namespace DiagramMacros

open Expression

namespace Peg

variable {s rest : Text} {ps : List Part}

/-- An operator with an operand after it. -/
def link : Peg Rule := seq (call .mergeOperator) (call .operand)

theorem consumes_link : consumes Rule.takes link := rfl

/-! ### Operands -/

theorem yields_operand :
    (call .operand).Yields true s ps rest ↔
      (call .parenGroup).Yields true s ps rest ∨ (call .dollarGroup).Yields true s ps rest ∨
        (call .name).Yields true s ps rest := by
  rw [yields_passed rfl fun _ ↦ rfl]
  show (alt (call .parenGroup) (alt (call .dollarGroup) (call .name))).Yields _ _ _ _ ↔ _
  rw [yields_alt, yields_alt]
  constructor
  · rintro (h | ⟨_, h | ⟨_, h⟩⟩)
    · exact Or.inl h
    · exact Or.inr (Or.inl h)
    · exact Or.inr (Or.inr h)
  · rintro (h | h | h)
    · exact Or.inl h
    · obtain ⟨after, mid, rfl, _⟩ := yields_dollarGroup.1 h
      exact Or.inr ⟨fails_parenGroup rfl, Or.inl h⟩
    · obtain ⟨n, ⟨c, t, rfl, hc, _⟩, rfl, _⟩ := yields_name.1 h
      have hparen : (c == '(') = false := by
        rw [beq_eq_false_iff_ne]
        rintro rfl
        exact absurd hc (by decide)
      have hdollar : (c == '$') = false := by
        rw [beq_eq_false_iff_ne]
        rintro rfl
        exact absurd hc (by decide)
      exact Or.inr ⟨fails_parenGroup hparen, Or.inr ⟨fails_dollarGroup hdollar, h⟩⟩

/-- The first characters of operands. -/
def isOperandStart (c : Char) : Bool := c == '(' || c == '$' || isNameStart c

theorem fails_operand (h : Text.startsWith isOperandStart s = false) :
    (call .operand).Fails true s := by
  rcases fails_or_yields (call .operand) true s with hfails | ⟨ps, rest, hyields⟩
  · exact hfails
  · rcases yields_operand.1 hyields with hparen | hdollar | hname
    · obtain ⟨after, mid, rfl, _⟩ := yields_parenGroup.1 hparen
      simp [isOperandStart] at h
    · obtain ⟨after, mid, rfl, _⟩ := yields_dollarGroup.1 hdollar
      simp [isOperandStart] at h
    · obtain ⟨n, ⟨c, t, rfl, hc, _⟩, rfl, _⟩ := yields_name.1 hname
      rw [List.cons_append, Text.startsWith_cons, isOperandStart, hc] at h
      simp at h

/-! ### Pairs -/

/-- A component of a pair. -/
abbrev IsComponent : Text → Prop := IsWord isComponentLetter isComponentLetter

theorem not_isGap_of_not_isComponentLetter {c : Char} (h : isComponentLetter c = false) :
    isGap c = false := by
  rw [Bool.eq_false_iff]
  intro hc
  simp only [isGap, Bool.or_eq_true, beq_iff_eq] at hc
  rcases hc with ((rfl | rfl) | rfl) | rfl <;> exact absurd h (by decide)

/-- Blanks are component letters. -/
theorem all_isComponentLetter_of_gap {gap : Text} (hgap : gap.all isGap) :
    gap.all isComponentLetter := by
  rw [List.all_eq_true] at hgap ⊢
  intro c hc
  rw [← Bool.not_eq_false]
  intro hcomponent
  have hgap' := hgap c hc
  rw [not_isGap_of_not_isComponentLetter hcomponent] at hgap'
  simp at hgap'

theorem IsComponent.all {x : Text} (hx : IsComponent x) : x.all isComponentLetter := by
  obtain ⟨c, t, rfl, hc, ht⟩ := hx
  rw [List.all_cons, hc, ht]
  rfl

/-- A component does not start with a dollar. -/
theorem IsComponent.fails_dollarGroup {x : Text} (hx : IsComponent x) (more : Text) :
    (call .dollarGroup).Fails true (x ++ more) := by
  obtain ⟨c, t, rfl, hc, _⟩ := hx
  apply Peg.fails_dollarGroup
  rw [List.cons_append, Text.startsWith_cons, beq_eq_false_iff_ne]
  rintro rfl
  exact absurd hc (by decide)

theorem afterGap_of_not_component {t : Text} (h : Text.startsWith isComponentLetter t = false) :
    Text.afterGap t = t := by
  cases t with
  | nil => rfl
  | cons c t => exact Text.afterGap_of_not (not_isGap_of_not_isComponentLetter h)

/-- A pair of components. Blanks before the separator belong to the first component. -/
theorem yields_pair {rule : Rule} {separator : Char}
    (hbody : rule.body = seq (call .component) (seq (lit [separator]) (call .component)))
    (hkind : rule.kind = .plain)
    (hseparator : isComponentLetter separator = false) :
    (call rule).Yields true s ps rest ↔
      ∃ x y after, IsComponent x ∧ s = x ++ separator :: after ∧ IsComponent y ∧
        Text.afterGap after = y ++ rest ∧ Text.startsWith isComponentLetter rest = false ∧
        ps = ofNode rule [] [.written x, .written y] := by
  rw [yields_plain hkind, hbody]
  constructor
  · rintro ⟨qs, hqs, rfl⟩
    obtain ⟨p, mid, q, hp, hq, rfl⟩ := yields_seq.1 hqs
    obtain ⟨x, hx, rfl, hmid, rfl⟩ := yields_component.1 hp
    obtain ⟨p', after, q', hp', hq', rfl⟩ := yields_seq.1 hq
    obtain ⟨y, hy, hafter, hrest, rfl⟩ := yields_component.1 hq'
    obtain ⟨hmid', rfl⟩ := yields_lit.1 hp'
    rw [gapped_true, afterGap_of_not_component hmid] at hmid'
    exact ⟨x, y, after, hx, by rw [hmid']; rfl, hy, hafter, hrest, rfl⟩
  · rintro ⟨x, y, after, hx, rfl, hy, hafter, hrest, rfl⟩
    have hstop : Text.startsWith isComponentLetter (separator :: after) = false := hseparator
    refine ⟨_, yields_seq.2 ⟨[.written x], separator :: after, [.written y],
      yields_component.2 ⟨x, hx, rfl, hstop, rfl⟩, ?_, rfl⟩, rfl⟩
    rw [gapped_true, afterGap_of_not_component hstop, yields_seq]
    exact ⟨[], after, [.written y], yields_lit.2 ⟨rfl, rfl⟩,
      yields_component.2 ⟨y, hy, hafter, hrest, rfl⟩, rfl⟩

theorem yields_cartesian :
    (call .cartesian).Yields true s ps rest ↔
      ∃ x y after, IsComponent x ∧ s = x ++ ',' :: after ∧ IsComponent y ∧
        Text.afterGap after = y ++ rest ∧ Text.startsWith isComponentLetter rest = false ∧
        ps = [.operand (.cartesian x y)] :=
  yields_pair rfl rfl rfl

theorem yields_polar :
    (call .polar).Yields true s ps rest ↔
      ∃ x y after, IsComponent x ∧ s = x ++ ':' :: after ∧ IsComponent y ∧
        Text.afterGap after = y ++ rest ∧ Text.startsWith isComponentLetter rest = false ∧
        ps = [.operand (.polar x y)] :=
  yields_pair rfl rfl rfl

theorem fails_pair {rule : Rule} (separator : Char)
    (hbody : rule.body = seq (call .component) (seq (lit [separator]) (call .component)))
    (hkind : rule.kind = .plain) (hseparator : isComponentLetter separator = false)
    (h : Text.startsWith (· == separator) (s.dropWhile isComponentLetter) = false) :
    (call rule).Fails true s := by
  rcases fails_or_yields (call rule) true s with hfails | ⟨ps, rest, hyields⟩
  · exact hfails
  · obtain ⟨x, y, after, ⟨c, t, rfl, hc, ht⟩, rfl, _⟩ :=
      (yields_pair hbody hkind hseparator).1 hyields
    have hall : (c :: t).all isComponentLetter := by rw [List.all_cons, hc, ht]; rfl
    have hstop : Text.startsWith isComponentLetter (separator :: after) = false := hseparator
    rw [Text.dropWhile_append_of_all hall hstop] at h
    simp at h

/-! ### Chains -/

theorem yields_link :
    link.Yields true s ps rest ↔
      ∃ o after qs, Operation.Proper o ∧ s = o.written ++ after ∧
        (call .operand).Yields true (Text.afterGap after) qs rest ∧ ps = .operation o :: qs := by
  rw [link, yields_seq]
  constructor
  · rintro ⟨p, after, qs, hp, hq, rfl⟩
    obtain ⟨o, ho, rfl, rfl⟩ := yields_mergeOperator.1 hp
    exact ⟨o, after, qs, ho, rfl, hq, rfl⟩
  · rintro ⟨o, after, qs, ho, rfl, hq, rfl⟩
    exact ⟨_, after, qs, yields_mergeOperator.2 ⟨o, ho, rfl, rfl⟩, hq, rfl⟩

theorem fails_link (h : Text.startsWith isOperatorSign s = false) : link.Fails true s :=
  fails_seq.2 (Or.inl (fails_mergeOperator h))

/-- A chain is an operand, a link and more rounds of links. -/
theorem of_yields_chain (h : (call .chain).Yields true s ps rest) :
    ∃ p mid q mid' qs rest', (call .operand).Yields true s p mid ∧
      link.Yields true (Text.afterGap mid) q mid' ∧ Rounds link true mid' qs rest' ∧
      Text.afterGap rest' = Text.afterGap rest ∧ ps = ofNode .chain [] (p ++ (q ++ qs)) := by
  obtain ⟨_, hbody, rfl⟩ := (yields_plain rfl).1 h
  obtain ⟨p, mid, _, hp, htail, rfl⟩ := yields_seq.1 hbody
  obtain ⟨q, mid', qs, hq, hstar, rfl⟩ := yields_seq.1 htail
  refine ⟨p, mid, q, mid', qs, ?_⟩
  rcases (yields_star consumes_link).1 hstar with
    ⟨hstop, rfl, rfl⟩ | ⟨r, mid'', rs, hr, hmore, rfl⟩
  · exact ⟨mid', hp, hq, Rounds.stop hstop, (Text.afterGap_afterGap mid').symm, rfl⟩
  · exact ⟨rest, hp, hq, Rounds.step hr hmore, rfl, rfl⟩

theorem yields_chain {p q qs : List Part} {mid mid' : Text}
    (hp : (call .operand).Yields true s p mid) (hq : link.Yields true (Text.afterGap mid) q mid')
    (hmore : Rounds link true mid' qs rest) :
    ∃ rest', (call .chain).Yields true s (ofNode .chain [] (p ++ (q ++ qs))) rest' ∧
      Text.afterGap rest' = Text.afterGap rest := by
  obtain ⟨rest', hstar, hrest⟩ : ∃ rest', (star link).Yields true (gapped true mid') qs rest' ∧
      Text.afterGap rest' = Text.afterGap rest := by
    cases hmore with
    | stop hstop =>
      exact ⟨_, (yields_star consumes_link).2 (Or.inl ⟨hstop, rfl, rfl⟩), Text.afterGap_afterGap _⟩
    | step hr hmore =>
      exact ⟨rest, (yields_star consumes_link).2 (Or.inr ⟨_, _, _, hr, hmore, rfl⟩), rfl⟩
  refine ⟨rest', (yields_plain rfl).2 ⟨_, ?_, rfl⟩, hrest⟩
  exact yields_seq.2 ⟨p, mid, _, hp, yields_seq.2 ⟨q, mid', qs, hq, hstar, rfl⟩, rfl⟩

/-- There is no chain where no link follows the operand. -/
theorem fails_chain {p : List Part} {mid : Text} (hp : (call .operand).Yields true s p mid)
    (hlink : link.Fails true (Text.afterGap mid)) : (call .chain).Fails true s := by
  rw [fails_call]
  exact fails_seq.2 (Or.inr ⟨p, mid, hp, fails_seq.2 (Or.inl hlink)⟩)

theorem fails_chain_of_operand (h : (call .operand).Fails true s) : (call .chain).Fails true s := by
  rw [fails_call]
  exact fails_seq.2 (Or.inl h)

/-- Where a chain may also be a lone operand, the links after the operand may be none. -/
theorem yields_chainOrOperand {e e' : Expression} {qs : List Part} {mid : Text}
    (he : (call .operand).Yields true s [.operand e] mid) (hlinks : Rounds link true mid qs rest)
    (hchain : chain? e qs = some e') :
    ∃ rest', chainOrOperand.Yields true s [.operand e'] rest' ∧
      Text.afterGap rest' = Text.afterGap rest := by
  cases hlinks with
  | stop hstop =>
    obtain rfl : e = e' := Option.some.inj hchain
    exact ⟨rest, yields_alt.2 (Or.inr ⟨fails_chain he hstop, he⟩), rfl⟩
  | step hq hmore =>
    obtain ⟨rest', hyields, hrest⟩ := yields_chain he hq hmore
    refine ⟨rest', yields_alt.2 (Or.inl ?_), hrest⟩
    rwa [List.singleton_append, ofNode, hchain] at hyields

/-! ### Chains inside a component -/

/-- The characters at which the first component of a pair may end. -/
def pairStops : List Char := " \t\r\n,:".toList

/-- What follows the first component of a pair: blanks, the separator and anything. -/
def IsPairTail (tail : Text) : Prop :=
  ∃ gap c more, gap.all isGap ∧ (c = ',' ∨ c = ':') ∧ tail = gap ++ c :: more

theorem areTails_pairTail : AreTails IsPairTail := by
  rintro tail ⟨gap, c, more, hgap, hc, rfl⟩
  refine ⟨by simp, [], c, more, rfl, hc, ?_⟩
  rw [Text.afterGap_append hgap]
  apply Text.afterGap_of_not
  rcases hc with rfl | rfl <;> rfl

theorem mem_pairStops {c : Char} {more : Text} (h : IsPairTail (c :: more)) : c ∈ pairStops := by
  obtain ⟨gap, d, more', hgap, hd, heq⟩ := h
  cases gap with
  | nil =>
    obtain rfl := (List.cons.inj heq).1
    rcases hd with rfl | rfl <;> decide
  | cons g gap =>
    obtain rfl := (List.cons.inj heq).1
    rw [List.all_cons, Bool.and_eq_true] at hgap
    have hc := hgap.1
    simp only [isGap, Bool.or_eq_true, beq_iff_eq] at hc
    rcases hc with ((rfl | rfl) | rfl) | rfl <;> decide

/-- A class that refuses the characters at which a component may end is left at its tail. -/
theorem not_startsWith_pairTail {accepts : Char → Bool} {tail : Text} (htail : IsPairTail tail)
    (h : pairStops.all fun c ↦ !accepts c) : Text.startsWith accepts tail = false := by
  obtain ⟨c, more, rfl⟩ := List.exists_cons_of_ne_nil (areTails_pairTail tail htail).1
  rw [Text.startsWith_cons, ← Bool.not_eq_true']
  exact List.all_eq_true.1 h c (mem_pairStops htail)

theorem stops_mergeOperator :
    Stops isComponentLetter IsPairTail (call .mergeOperator) true := by
  have hdigits : pairStops.all fun c ↦ refuses (fun _ ↦ false) c Rule.number.body := by decide
  have hnumber : ∀ spaced, Stops isComponentLetter IsPairTail (call .number) spaced :=
    stops_number _ areTails_pairTail fun c more h ↦ List.all_eq_true.1 hdigits c (mem_pairStops h)
  have hrule : ∀ (known : Rule → Bool) (rule : Rule),
      (∀ r, known r → Stops isComponentLetter IsPairTail (call r)
        (diagramGrammar.spacing rule true)) →
      (pairStops.all fun c ↦ refuses known c rule.body) →
      Stops isComponentLetter IsPairTail (call rule) true := by
    intro known rule hknown hfirst
    exact stops_call (stops_of_refuses known areTails_pairTail hknown _
      fun c more h ↦ List.all_eq_true.1 hfirst c (mem_pairStops h))
  have hproject := hrule (fun _ ↦ false) .project (by simp) (by decide)
  have hadd := hrule (fun _ ↦ false) .add (by simp) (by decide)
  have hinterpolate := hrule (· == .number) .interpolate
    (fun r hr ↦ eq_of_beq hr ▸ hnumber _) (by decide)
  refine hrule [Rule.project, .add, .interpolate].contains .mergeOperator ?_ (by decide)
  intro r hr
  simp only [List.contains_iff_mem, List.mem_cons, List.not_mem_nil, or_false] at hr
  rcases hr with rfl | rfl | rfl
  · exact hproject
  · exact hadd
  · exact hinterpolate

theorem stops_operand : Stops isComponentLetter IsPairTail (call .operand) true := by
  intro x tail hx htail
  constructor
  · intro ps rest h
    refine ⟨tail, ⟨htail, fun _ ↦ rfl⟩, ?_⟩
    rcases yields_operand.1 h with hparen | hdollar | hname
    · obtain ⟨after, _, rfl, _⟩ := yields_parenGroup.1 hparen
      exact absurd hx (by simp [isComponentLetter])
    · obtain ⟨after, _, rfl, _⟩ := yields_dollarGroup.1 hdollar
      exact absurd hx (by simp [isComponentLetter])
    · obtain ⟨n, hn, rfl, hrest, rfl⟩ := yields_name.1 hname
      refine yields_operand.2 (Or.inr (Or.inr (yields_name.2 ⟨n, hn, by simp, ?_, rfl⟩)))
      cases rest with
      | nil => exact not_startsWith_pairTail htail (by decide)
      | cons c rest => exact hrest
  · intro h
    apply fails_operand
    cases x with
    | nil => exact not_startsWith_pairTail htail (by decide)
    | cons c x =>
      -- A component starts with no parenthesis and no dollar, so only a name could start here.
      have hnone : (call .name).Fails true (c :: x) := by
        rcases fails_or_yields (call .name) true (c :: x) with hfails | ⟨ps, rest, hyields⟩
        · exact hfails
        · exact absurd h (yields_operand.2 (Or.inr (Or.inr hyields))).not_fails
      rw [List.all_cons, Bool.and_eq_true] at hx
      have hname : isNameStart c = false := fails_name.1 hnone
      rw [List.cons_append, Text.startsWith_cons, isOperandStart, hname, Bool.or_false,
        Bool.or_eq_false_iff, beq_eq_false_iff_ne, beq_eq_false_iff_ne]
      constructor <;> (rintro rfl; exact absurd hx.1 (by decide))

theorem fails_chain_append {x tail : Text} (hx : x.all isComponentLetter)
    (htail : IsPairTail tail) :
    (call .chain).Fails true (x ++ tail) ↔ (call .chain).Fails true x := by
  refine Stops.fails_iff (stops_call ?_) hx htail
  refine stops_of_refuses [Rule.mergeOperator, .operand].contains areTails_pairTail ?_ _ ?_
  · intro r hr
    simp only [List.contains_iff_mem, List.mem_cons, List.not_mem_nil, or_false] at hr
    rcases hr with rfl | rfl
    · exact stops_mergeOperator
    · exact stops_operand
  · intro c more _
    rfl

end Peg

end DiagramMacros
