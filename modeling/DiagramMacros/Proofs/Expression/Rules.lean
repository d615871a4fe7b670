import DiagramMacros.Proofs.Grammar.Boundary
/-!
The rules of coordinate expressions, each as a statement about the texts that it matches. A name and
a component are the longest texts of their characters. An operator is `+`, `-|`, or a number between
exclamation marks (`yields_mergeOperator`), and a text that starts with none of their first
characters has no operator (`fails_mergeOperator`). The three kinds of operands are told apart by
their first characters.
-/

set_option autoImplicit false
set_option relaxedAutoImplicit false

namespace DiagramMacros

open Expression

/-- The characters a name may start with. -/
def isNameStart (c : Char) : Bool := isLetter c || c == '_'

/-- The characters of a component. -/
def isComponentLetter (c : Char) : Bool := !(",:()$".toList).contains c

/-- A character of a class is in no list without characters of that class. -/
theorem contains_eq_false_of_all {accepts : Char → Bool} {excluded : Text} {c : Char}
    (h : excluded.all fun d ↦ !accepts d) (hc : accepts c) : excluded.contains c = false := by
  rw [List.contains_eq_mem, decide_eq_false_iff_not]
  intro hmem
  have hnone := List.all_eq_true.1 h c hmem
  rw [hc] at hnone
  exact Bool.noConfusion hnone

/-- The first characters of the operators. -/
def isOperatorSign (c : Char) : Bool := c == '+' || c == '-' || c == '!'

/-- How an operation is written. -/
def Operation.written : Operation → Text
  | .add => "+".toList
  | .project => "-|".toList
  | .interpolate factor => '!' :: factor ++ ['!']

/-- The factor of an operation, if it has one, is a number. -/
def Operation.Proper : Operation → Prop
  | .interpolate factor => Rule.number.Spells factor
  | _ => True

/-- A text of a first character and later characters. -/
def IsWord (first later : Char → Bool) (w : Text) : Prop :=
  ∃ c t, w = c :: t ∧ first c ∧ t.all later

namespace Peg

variable {s rest : Text} {ps : List Part} {spaced : Bool}

theorem yields_plain {rule : Rule} (hkind : rule.kind = .plain) :
    (call rule).Yields spaced s ps rest ↔
      ∃ qs, rule.body.Yields spaced s qs rest ∧ ps = ofNode rule [] qs := by
  have hcontribute : ∀ t qs, contribute rule t qs = ofNode rule [] qs := by
    intro t qs
    rw [contribute, hkind]
    exact ofNode_of_plain hkind t qs
  rw [yields_call, spacing_of_plain hkind]
  constructor
  · rintro ⟨t, qs, _, hqs, rfl⟩
    exact ⟨qs, hqs, hcontribute t qs⟩
  · rintro ⟨qs, hqs, rfl⟩
    obtain ⟨t, ht⟩ := hqs.exists_append
    exact ⟨t, qs, ht, hqs, (hcontribute t qs).symm⟩

/-- A rule that passes on what its body yields. -/
theorem yields_passed {rule : Rule} (hkind : rule.kind = .plain)
    (hpass : ∀ qs, ofNode rule [] qs = qs) :
    (call rule).Yields spaced s ps rest ↔ rule.body.Yields spaced s ps rest := by
  rw [yields_plain hkind]
  constructor
  · rintro ⟨qs, hqs, rfl⟩
    rwa [hpass]
  · intro h
    exact ⟨ps, h, (hpass ps).symm⟩

/-! ### Tokens -/

theorem yields_word {first later : Char → Bool} :
    (seq (one first) (star (one later))).Yields false s ps rest ↔
      ∃ w, IsWord first later w ∧ s = w ++ rest ∧ Text.startsWith later rest = false ∧
        ps = [] := by
  rw [yields_seq]
  constructor
  · rintro ⟨p, mid, q, hp, hq, rfl⟩
    obtain ⟨c, rfl, hc, rfl⟩ := yields_one.1 hp
    obtain ⟨rfl, rfl⟩ := yields_star_one.1 hq
    refine ⟨c :: mid.takeWhile later, ⟨c, _, rfl, hc, List.all_takeWhile⟩, ?_, ?_, rfl⟩
    · rw [List.cons_append, gapped_false, List.takeWhile_append_dropWhile]
    · exact Text.startsWith_dropWhile later mid
  · rintro ⟨w, ⟨c, t, rfl, hc, ht⟩, rfl, hrest, rfl⟩
    refine ⟨[], t ++ rest, [], yields_one.2 ⟨c, rfl, hc, rfl⟩, yields_star_one.2 ⟨rfl, ?_⟩, rfl⟩
    exact (Text.dropWhile_append_of_all ht hrest).symm

/-- A token of a first character and the longest text of later characters. -/
theorem yields_token {rule : Rule} {first later : Char → Bool}
    (hbody : rule.body = seq (one first) (star (one later))) (hkind : rule.kind = .token) :
    (call rule).Yields spaced s ps rest ↔
      ∃ w, IsWord first later w ∧ s = w ++ rest ∧ Text.startsWith later rest = false ∧
        ps = ofNode rule w [] := by
  rw [yields_call, spacing_of_token hkind, hbody]
  constructor
  · rintro ⟨w, qs, hs, hqs, rfl⟩
    obtain ⟨w', hw, hs', hrest, rfl⟩ := yields_word.1 hqs
    obtain rfl : w' = w := List.append_cancel_right (hs'.symm.trans hs)
    exact ⟨w', hw, hs, hrest, by rw [contribute, hkind]⟩
  · rintro ⟨w, hw, hs, hrest, rfl⟩
    exact ⟨w, [], hs, yields_word.2 ⟨w, hw, hs, hrest, rfl⟩, by rw [contribute, hkind]⟩

theorem yields_name :
    (call .name).Yields spaced s ps rest ↔
      ∃ n, IsWord isNameStart isNameLetter n ∧ s = n ++ rest ∧
        Text.startsWith isNameLetter rest = false ∧ ps = [.operand (.name n)] :=
  yields_token rfl rfl

theorem yields_component :
    (call .component).Yields spaced s ps rest ↔
      ∃ x, IsWord isComponentLetter isComponentLetter x ∧ s = x ++ rest ∧
        Text.startsWith isComponentLetter rest = false ∧ ps = [.written x] :=
  yields_token rfl rfl

theorem spells_name {n : Text} : Rule.name.Spells n ↔ IsWord isNameStart isNameLetter n := by
  rw [spells_iff]
  constructor
  · rintro ⟨ps, h⟩
    obtain ⟨w, hw, hn, _⟩ := yields_name.1 h
    rwa [hn, List.append_nil]
  · intro h
    exact ⟨_, yields_name.2 ⟨n, h, (List.append_nil n).symm, rfl, rfl⟩⟩

theorem fails_name :
    (call .name).Fails spaced s ↔ Text.startsWith isNameStart s = false := by
  constructor
  · intro h
    cases s with
    | nil => rfl
    | cons c s =>
      rw [Text.startsWith_cons, Bool.eq_false_iff]
      intro hc
      have hword : IsWord isNameStart isNameLetter (c :: s.takeWhile isNameLetter) :=
        ⟨c, _, rfl, hc, List.all_takeWhile⟩
      have hname : (call .name).Yields spaced (c :: s) _ (s.dropWhile isNameLetter) :=
        yields_name.2 ⟨_, hword, by simp, Text.startsWith_dropWhile isNameLetter s, rfl⟩
      exact hname.not_fails h
  · intro h
    rcases fails_or_yields (call .name) spaced s with hfails | ⟨ps, rest, hyields⟩
    · exact hfails
    · obtain ⟨w, ⟨c, t, rfl, hc, _⟩, rfl, _⟩ := yields_name.1 hyields
      rw [List.cons_append, Text.startsWith_cons, hc] at h
      simp at h

theorem fails_component (h : Text.startsWith isComponentLetter s = false) :
    (call .component).Fails spaced s := by
  rcases fails_or_yields (call .component) spaced s with hfails | ⟨ps, rest, hyields⟩
  · exact hfails
  · obtain ⟨w, ⟨c, t, rfl, hc, _⟩, rfl, _⟩ := yields_component.1 hyields
    rw [List.cons_append, Text.startsWith_cons, hc] at h
    simp at h

/-! ### Operators -/

theorem yields_written {rule : Rule} {t : Text} (hbody : rule.body = lit t)
    (hkind : rule.kind = .plain) :
    (call rule).Yields spaced s ps rest ↔ s = t ++ rest ∧ ps = ofNode rule [] [] := by
  rw [yields_plain hkind, hbody]
  constructor
  · rintro ⟨qs, hqs, rfl⟩
    obtain ⟨hs, rfl⟩ := yields_lit.1 hqs
    exact ⟨hs, rfl⟩
  · rintro ⟨hs, rfl⟩
    exact ⟨[], yields_lit.2 ⟨hs, rfl⟩, rfl⟩

theorem yields_number_spaced :
    (call .number).Yields spaced s ps rest ↔ (call .number).Yields true s ps rest := by
  rw [yields_call, yields_call]
  cases spaced <;> rfl

theorem parts_of_yields_number {t : Text} (h : (call .number).Yields spaced (t ++ rest) ps rest) :
    ps = [.written t] := by
  obtain ⟨w, qs, hs, _, rfl⟩ := yields_call.1 h
  obtain rfl : t = w := List.append_cancel_right hs
  rfl

theorem stops_number (inside : Char → Bool) {tails : Text → Prop} (htails : AreTails tails)
    (hfirst : ∀ c more, tails (c :: more) → refuses (fun _ ↦ false) c Rule.number.body)
    (spaced : Bool) : Stops inside tails (call .number) spaced :=
  stops_call (stops_of_refuses (fun _ ↦ false) htails (by simp) _ hfirst)

/-- The number rule takes a number from a text that goes on with an exclamation mark. -/
theorem yields_number_append {t more : Text} :
    (call .number).Yields spaced (t ++ '!' :: more) ps ('!' :: more) ↔
      Rule.number.Spells t ∧ ps = [.written t] := by
  have hall : t.all (fun _ ↦ true) := by simp
  have htails : AreTails (· = '!' :: more) := by
    rintro _ rfl
    exact ⟨List.cons_ne_nil _ _, Text.afterGap_of_not rfl⟩
  have hfirst : ∀ c tail, c :: tail = '!' :: more →
      refuses (fun _ ↦ false) c Rule.number.body := by
    intro c tail htail
    obtain rfl := (List.cons.inj htail).1
    decide
  have hstop := stops_number (fun _ ↦ true) htails hfirst true t ('!' :: more) hall rfl
  rw [yields_number_spaced, spells_iff]
  constructor
  · intro h
    refine ⟨?_, parts_of_yields_number h⟩
    rcases fails_or_yields (call .number) true t with hfails | ⟨qs, rest, hyields⟩
    · exact absurd (hstop.2 hfails) h.not_fails
    · obtain ⟨_, ⟨rfl, _⟩, hyields'⟩ := hstop.1 _ _ hyields
      obtain ⟨_, heq⟩ := h.unique hyields'
      obtain rfl : rest = [] := List.self_eq_append_left.1 heq
      exact ⟨qs, hyields⟩
  · rintro ⟨⟨qs, h⟩, rfl⟩
    obtain ⟨_, ⟨rfl, _⟩, h'⟩ := hstop.1 _ _ h
    obtain rfl := parts_of_yields_number h'
    exact h'

theorem yields_interpolate :
    (call .interpolate).Yields spaced s ps rest ↔
      ∃ t, Rule.number.Spells t ∧ s = '!' :: t ++ '!' :: rest ∧
        ps = [.operation (.interpolate t)] := by
  have hbody : ∀ qs, Rule.interpolate.body.Yields false s qs rest ↔
      ∃ t, Rule.number.Spells t ∧ s = '!' :: t ++ '!' :: rest ∧ qs = [.written t] := by
    intro qs
    show (seq (lit "!".toList) (seq (call .number) (lit "!".toList))).Yields _ _ _ _ ↔ _
    rw [yields_seq]
    constructor
    · rintro ⟨p, mid, q, hp, hq, rfl⟩
      obtain ⟨rfl, rfl⟩ := yields_lit.1 hp
      obtain ⟨p', mid', q', hp', hq', rfl⟩ := yields_seq.1 hq
      obtain ⟨hmid, rfl⟩ := yields_lit.1 hq'
      rw [gapped_false] at hp' hmid
      obtain ⟨t, rfl⟩ := hp'.exists_append
      obtain rfl : mid' = '!' :: rest := hmid
      obtain ⟨hspells, rfl⟩ := yields_number_append.1 hp'
      exact ⟨t, hspells, rfl, rfl⟩
    · rintro ⟨t, hspells, rfl, rfl⟩
      refine ⟨[], t ++ '!' :: rest, [.written t], yields_lit.2 ⟨rfl, rfl⟩, ?_, rfl⟩
      rw [gapped_false, yields_seq]
      exact ⟨[.written t], '!' :: rest, [], yields_number_append.2 ⟨hspells, rfl⟩,
        yields_lit.2 ⟨rfl, rfl⟩, rfl⟩
  rw [yields_call]
  constructor
  · rintro ⟨w, qs, _, hqs, rfl⟩
    obtain ⟨t, hspells, hs, rfl⟩ := (hbody qs).1 hqs
    exact ⟨t, hspells, hs, rfl⟩
  · rintro ⟨t, hspells, rfl, rfl⟩
    exact ⟨'!' :: t ++ ['!'], [.written t], by simp, (hbody _).2 ⟨t, hspells, rfl, rfl⟩, rfl⟩

/-- Before a text with an operator at its start, each operator is tried in its turn. -/
theorem yields_mergeOperator :
    (call .mergeOperator).Yields spaced s ps rest ↔
      ∃ o : Operation, o.Proper ∧ s = o.written ++ rest ∧ ps = [.operation o] := by
  have hproject : (call .project).Yields spaced s ps rest ↔
      s = "-|".toList ++ rest ∧ ps = [.operation .project] := yields_written rfl rfl
  have hadd : (call .add).Yields spaced s ps rest ↔
      s = "+".toList ++ rest ∧ ps = [.operation .add] := yields_written rfl rfl
  rw [yields_passed rfl fun _ ↦ rfl]
  show (alt (call .project) (alt (call .add) (call .interpolate))).Yields _ _ _ _ ↔ _
  rw [yields_alt, yields_alt, hproject, hadd, yields_interpolate]
  constructor
  · rintro (⟨rfl, rfl⟩ | ⟨_, ⟨rfl, rfl⟩ | ⟨_, t, ht, rfl, rfl⟩⟩)
    · exact ⟨.project, trivial, rfl, rfl⟩
    · exact ⟨.add, trivial, rfl, rfl⟩
    · exact ⟨.interpolate t, ht, by simp [Operation.written], rfl⟩
  · rintro ⟨o, ho, rfl, rfl⟩
    cases o with
    | project => exact Or.inl ⟨rfl, rfl⟩
    | add =>
      refine Or.inr ⟨fails_call.2 (fails_lit.2 fun more h ↦ ?_), Or.inl ⟨rfl, rfl⟩⟩
      simp [Operation.written] at h
    | interpolate t =>
      refine Or.inr ⟨fails_call.2 (fails_lit.2 fun more h ↦ ?_), Or.inr ⟨?_, ?_⟩⟩
      · simp [Operation.written] at h
      · refine fails_call.2 (fails_lit.2 fun more h ↦ ?_)
        simp [Operation.written] at h
      · exact ⟨t, ho, by simp [Operation.written], rfl⟩

theorem startsWith_written (o : Operation) (more : Text) :
    Text.startsWith isOperatorSign (o.written ++ more) = true := by
  cases o <;> rfl

theorem fails_mergeOperator (h : Text.startsWith isOperatorSign s = false) :
    (call .mergeOperator).Fails spaced s := by
  rcases fails_or_yields (call .mergeOperator) spaced s with hfails | ⟨ps, rest, hyields⟩
  · exact hfails
  · obtain ⟨o, _, rfl, _⟩ := yields_mergeOperator.1 hyields
    rw [startsWith_written] at h
    simp at h

/-! ### Groups -/

/-- A rule that encloses an expression in two characters and passes on what it yields. -/
theorem yields_enclosed {rule : Rule} {inner : Peg Rule} {opening closing : Char}
    (hbody : rule.body = seq (lit [opening]) (seq inner (lit [closing])))
    (hkind : rule.kind = .plain) (hpass : ∀ qs, ofNode rule [] qs = qs) :
    (call rule).Yields true s ps rest ↔
      ∃ after mid, s = opening :: after ∧ inner.Yields true (Text.afterGap after) ps mid ∧
        Text.afterGap mid = closing :: rest := by
  rw [yields_passed hkind hpass, hbody, yields_seq]
  constructor
  · rintro ⟨p, after, q, hp, hq, rfl⟩
    obtain ⟨rfl, rfl⟩ := yields_lit.1 hp
    obtain ⟨p', mid, q', hp', hq', rfl⟩ := yields_seq.1 hq
    obtain ⟨hmid, rfl⟩ := yields_lit.1 hq'
    exact ⟨after, mid, rfl, by simpa using hp', hmid⟩
  · rintro ⟨after, mid, rfl, hmid, hclose⟩
    refine ⟨[], after, ps, yields_lit.2 ⟨rfl, rfl⟩, ?_, rfl⟩
    rw [gapped_true, yields_seq]
    exact ⟨ps, mid, [], hmid, yields_lit.2 ⟨hclose, rfl⟩, by simp⟩

theorem fails_enclosed {rule : Rule} (inner : Peg Rule) {opening : Char} (closing : Char)
    (hbody : rule.body = seq (lit [opening]) (seq inner (lit [closing])))
    (h : Text.startsWith (· == opening) s = false) : (call rule).Fails spaced s := by
  rw [fails_call, hbody, fails_seq]
  refine Or.inl (fails_lit.2 ?_)
  rintro more rfl
  simp at h

/-- What stands between dollars: a chain or a lone operand. -/
def chainOrOperand : Peg Rule := alt (call .chain) (call .operand)

/-- What stands between parentheses. -/
def insideParens : Peg Rule :=
  firstOf [call .chain, call .dollarGroup, call .cartesian, call .polar, call .name]

theorem yields_dollarGroup :
    (call .dollarGroup).Yields true s ps rest ↔
      ∃ after mid, s = '$' :: after ∧ chainOrOperand.Yields true (Text.afterGap after) ps mid ∧
        Text.afterGap mid = '$' :: rest :=
  yields_enclosed rfl rfl fun _ ↦ rfl

theorem fails_dollarGroup (h : Text.startsWith (· == '$') s = false) :
    (call .dollarGroup).Fails spaced s :=
  fails_enclosed chainOrOperand '$' rfl h

theorem yields_parenGroup :
    (call .parenGroup).Yields true s ps rest ↔
      ∃ after mid, s = '(' :: after ∧ insideParens.Yields true (Text.afterGap after) ps mid ∧
        Text.afterGap mid = ')' :: rest :=
  yields_enclosed rfl rfl fun _ ↦ rfl

theorem fails_parenGroup (h : Text.startsWith (· == '(') s = false) :
    (call .parenGroup).Fails spaced s :=
  fails_enclosed insideParens ')' rfl h

end Peg

end DiagramMacros
