import DiagramMacros.Proofs.Expression.Numbers
import DiagramMacros.Proofs.Expression.Reading
/-!
Resolving a whole text. The text is trimmed, and then five forms are tried in turn, each to the end
of the text: a Cartesian pair, a polar pair, a group between dollars or else a chain, the crossing
of two lines, a name. A group between dollars that matches rules the chain out, even if it does not
reach the end of the text.

A group between dollars has the value of its tree (`resolve_dollars`), and so has a chain without
dollars whose first operand is no such group (`resolve_chain`). Where it is one, the text is not
read at all (`resolve_chain_of_dollars`).
-/

set_option autoImplicit false
set_option relaxedAutoImplicit false

namespace DiagramMacros

open Expression Peg Text

/-! ### Trimmed texts -/

namespace Text

theorem Opens.exists_append {tokens : List Text} {s rest : Text} (h : Opens tokens s rest) :
    ∃ t : Text, s = t ++ rest := by
  induction tokens generalizing s with
  | nil => exact ⟨[], h⟩
  | cons token tokens ih =>
    obtain ⟨mid, hmid, hmore⟩ := h
    obtain ⟨t, rfl⟩ := ih hmore
    obtain ⟨gap, _, hs⟩ := exists_gap s
    exact ⟨gap ++ token ++ t, by rw [hs, hmid, List.append_assoc, List.append_assoc]⟩

/-- What comes after the tokens can be cut off. -/
theorem Opens.cancel {tokens : List Text} {s rest : Text} (h : Opens tokens (s ++ rest) rest) :
    Opens tokens s [] := by
  induction tokens generalizing s with
  | nil => exact List.append_left_eq_self.1 h
  | cons token tokens ih =>
    obtain ⟨mid, hmid, hmore⟩ := h
    obtain ⟨t, rfl⟩ := hmore.exists_append
    refine ⟨t, ?_, ih hmore⟩
    by_cases hs : afterGap s = []
    · -- Then the tokens would have to come from the rest, which they leave whole.
      obtain ⟨gap, hgap, hsplit⟩ := exists_gap s
      rw [hs, List.append_nil] at hsplit
      have hlength := length_afterGap_le rest
      rw [hsplit, afterGap_append hgap] at hmid
      rw [hmid, List.length_append, List.length_append] at hlength
      have htoken : token = [] := List.eq_nil_of_length_eq_zero (by omega)
      have ht : t = [] := List.eq_nil_of_length_eq_zero (by omega)
      rw [hs, htoken, ht]
      rfl
    · rw [afterGap_append_of_ne_nil hs, ← List.append_assoc] at hmid
      exact List.append_cancel_right hmid

/-- Trimming leaves the tokens with nothing around them, if the first and the last character of the
tokens are no blanks. -/
theorem Spaced.opens_trim {tokens : List Text} {s : Text} (h : Spaced tokens s)
    (hne : tokens ≠ [])
    (hfirst : ∀ s rest, Opens tokens s rest → startsWith isBlank (afterGap s) = false)
    (hlast : ∀ s rest, Opens tokens s rest → ∃ t c, s = t ++ c :: rest ∧ isBlank c = false) :
    Opens tokens (trim s) [] := by
  obtain ⟨token, tokens, rfl⟩ := List.exists_cons_of_ne_nil hne
  obtain ⟨rest, hopen, hrest⟩ := h
  obtain ⟨gap, hgap, hs⟩ := exists_gap s
  have hopen' := opens_afterGap.2 hopen
  obtain ⟨t, c, ht, hc⟩ := hlast _ _ hopen'
  have hcore : afterGap s = (t ++ [c]) ++ rest := by
    rw [ht, List.append_assoc, List.singleton_append]
  have hstart : startsWith isBlank (t ++ [c]) = false := by
    have hs' := hfirst _ _ hopen
    rw [hcore] at hs'
    cases t with
    | nil => exact hs'
    | cons d t => exact hs'
  have htrim : trim s = t ++ [c] := by
    rw [hs, trim_prepend (all_isBlank_of_gap hgap), hcore, trim_append (all_isBlank_of_gap hrest)]
    exact trim_eq_self hstart rfl hc
  rw [htrim]
  rw [hcore] at hopen'
  exact hopen'.cancel

end Text

theorem toNat_of_isNameLetter {c : Char} (h : isNameLetter c) : 33 ≤ c.toNat ∧ c.toNat ≤ 122 := by
  simp only [isNameLetter, isWordLetter, isLetterOrDigit, Bool.or_eq_true, beq_iff_eq, isLetter_iff,
    isDigit_iff] at h
  rcases h with (((hupper | hlower) | hdigit) | rfl) | rfl
  · omega
  · omega
  · omega
  · decide
  · decide

theorem not_isBlank_of_isNameLetter {c : Char} (h : isNameLetter c) : isBlank c = false := by
  have hc := toNat_of_isNameLetter h
  rw [isBlank, List.any_eq_false]
  intro r hr
  simp only [blankRanges, List.mem_cons, List.not_mem_nil, or_false] at hr
  simp only [Bool.and_eq_true, decide_eq_true_eq, not_and]
  rcases hr with rfl | rfl | rfl | rfl | rfl | rfl | rfl | rfl | rfl | rfl <;> simp <;> omega

theorem not_isBlank_of_isOperandStart {c : Char} (h : isOperandStart c) : isBlank c = false := by
  simp only [isOperandStart, Bool.or_eq_true, beq_iff_eq] at h
  rcases h with (rfl | rfl) | h
  · decide
  · decide
  · exact not_isBlank_of_isNameLetter (isNameLetter_of_isNameStart h)

/-- The first character of an operand after the blanks. -/
theorem Operand.startsWith_of_opens {o : Operand} (ho : o.Proper) {s rest : Text}
    (h : Opens o.tokens s rest) : startsWith isOperandStart (afterGap s) := by
  cases o with
  | name n =>
    obtain ⟨c, t, rfl, hc, _⟩ := spells_name.1 ho
    rw [opens_singleton.1 h, List.cons_append, startsWith_cons, isOperandStart, hc, Bool.or_true]
  | _ =>
    obtain ⟨mid, hmid, _⟩ := h
    rw [hmid]
    rfl

/-- The last character of a text that ends with a token of one character. -/
theorem Text.Opens.exists_last {before : List Text} {c : Char} {s rest : Text}
    (h : Opens (before ++ [[c]]) s rest) : ∃ t, s = t ++ c :: rest := by
  obtain ⟨mid, hopen, hclose⟩ := opens_append.1 h
  obtain ⟨t, rfl⟩ := hopen.exists_append
  obtain ⟨gap, _, hgap⟩ := exists_gap mid
  rw [opens_singleton.1 hclose] at hgap
  exact ⟨t ++ gap, by rw [hgap, List.append_assoc]; rfl⟩

/-- The last character of an operand is no blank. -/
theorem Operand.exists_last {o : Operand} (ho : o.Proper) {s rest : Text}
    (h : Opens o.tokens s rest) : ∃ t c, s = t ++ c :: rest ∧ isBlank c = false := by
  have hclosing : ∀ before c, isBlank c = false → o.tokens = before ++ [[c]] →
      ∃ t c, s = t ++ c :: rest ∧ isBlank c = false := by
    intro before c hc hlast
    rw [hlast] at h
    obtain ⟨t, ht⟩ := h.exists_last
    exact ⟨t, c, ht, hc⟩
  cases o with
  | name n =>
    obtain ⟨c, t, rfl, hc, ht⟩ := spells_name.1 ho
    obtain ⟨gap, _, hs⟩ := exists_gap s
    rw [opens_singleton.1 h] at hs
    have hletters : ∀ d ∈ c :: t, isNameLetter d := by
      intro d hd
      rcases List.mem_cons.1 hd with rfl | hd
      · exact isNameLetter_of_isNameStart hc
      · exact List.all_eq_true.1 ht d hd
    have hne : c :: t ≠ [] := List.cons_ne_nil c t
    refine ⟨gap ++ (c :: t).dropLast, (c :: t).getLast hne, ?_,
      not_isBlank_of_isNameLetter (hletters _ (List.getLast_mem hne))⟩
    have hsplit := List.dropLast_concat_getLast hne
    calc s = gap ++ ((c :: t).dropLast ++ [(c :: t).getLast hne] ++ rest) := by rw [hsplit, hs]
      _ = gap ++ (c :: t).dropLast ++ (c :: t).getLast hne :: rest := by simp
  | dollars first links =>
    exact hclosing (['$'] :: (first.tokens ++ links.tokens)) '$' (by decide) rfl
  | parens first links =>
    exact hclosing (['('] :: (first.tokens ++ links.tokens)) ')' (by decide) rfl
  | parensDollars first links =>
    exact hclosing (['('] :: ['$'] :: (first.tokens ++ links.tokens ++ [['$']])) ')' (by decide)
      (by simp [Operand.tokens])
  | cartesian x y => exact hclosing [['('], x, [','], y] ')' (by decide) rfl
  | polar x y => exact hclosing [['('], x, [':'], y] ')' (by decide) rfl
  | parensName n => exact hclosing [['('], n] ')' (by decide) rfl

/-- The last character of a chain is no blank. -/
theorem Links.exists_last : ∀ {links : Links}, links.Proper → links ≠ .done → ∀ {s rest : Text},
    Opens links.tokens s rest → ∃ t c, s = t ++ c :: rest ∧ isBlank c = false
  | .done, _, hdone, _, _, _ => absurd rfl hdone
  | .next operation operand more, hlinks, _, s, rest, h => by
    obtain ⟨after, hafter, h⟩ := h
    obtain ⟨mid, hopen, hopens⟩ := opens_append.1 h
    obtain ⟨gap, _, hs⟩ := exists_gap s
    rw [hafter] at hs
    by_cases hmore : more = .done
    · subst hmore
      obtain rfl : mid = rest := hopens
      obtain ⟨t, c, rfl, hc⟩ := Operand.exists_last hlinks.2.1 hopen
      exact ⟨gap ++ operation.written ++ t, c, by rw [hs]; simp, hc⟩
    · obtain ⟨t, c, rfl, hc⟩ := Links.exists_last hlinks.2.2 hmore hopens
      obtain ⟨u, rfl⟩ := hopen.exists_append
      exact ⟨gap ++ operation.written ++ u ++ t, c, by rw [hs]; simp, hc⟩

/-! ### The forms of a whole text -/

namespace Peg

variable {s rest : Text} {ps : List Part}

/-- A rule that has to reach the end of the text. -/
def whole (rule : Rule) : Peg Rule := seq (call rule) (call .endOfInput)

theorem yields_endOfInput :
    (call .endOfInput).Yields true s ps rest ↔ s = [] ∧ rest = [] ∧ ps = [] := by
  rw [yields_plain rfl]
  constructor
  · rintro ⟨qs, hqs, rfl⟩
    obtain ⟨hfails, _, hrest⟩ := yields_absent.1 hqs
    have hs : s = [] := by
      cases s with
      | nil => rfl
      | cons c s => exact absurd (fails_one.1 hfails) (by simp)
    exact ⟨hs, hrest.trans hs, rfl⟩
  · rintro ⟨rfl, rfl, rfl⟩
    exact ⟨[], yields_absent.2 ⟨fails_one.2 rfl, rfl, rfl⟩, rfl⟩

theorem yields_whole {rule : Rule} :
    (whole rule).Yields true s ps rest ↔
      ∃ mid, (call rule).Yields true s ps mid ∧ Text.afterGap mid = [] ∧ rest = [] := by
  rw [whole, yields_seq]
  constructor
  · rintro ⟨p, mid, q, hp, hq, rfl⟩
    obtain ⟨hmid, rfl, rfl⟩ := yields_endOfInput.1 hq
    exact ⟨mid, by rwa [List.append_nil], hmid, rfl⟩
  · rintro ⟨mid, hp, hmid, rfl⟩
    exact ⟨ps, mid, [], hp, yields_endOfInput.2 ⟨hmid, rfl, rfl⟩, (List.append_nil ps).symm⟩

/-- A rule that fails or stops before the end does not match a whole text. -/
theorem fails_whole {rule : Rule}
    (h : ∀ ps mid, (call rule).Yields true s ps mid → Text.afterGap mid ≠ []) :
    (whole rule).Fails true s := by
  rcases fails_or_yields (whole rule) true s with hfails | ⟨ps, rest, hyields⟩
  · exact hfails
  · obtain ⟨mid, hmid, hnil, _⟩ := yields_whole.1 hyields
    exact absurd hnil (h ps mid hmid)

theorem fails_whole_of_fails {rule : Rule} (h : (call rule).Fails true s) :
    (whole rule).Fails true s :=
  fails_seq.2 (Or.inl h)

/-- The forms of a whole text, in the order in which they are tried. -/
def wholeForms : Peg Rule :=
  firstOf [whole .cartesian, whole .polar, whole .merge, whole .intersection, whole .name]

theorem fails_wholeForms (hcartesian : (call .cartesian).Fails true s)
    (hpolar : (call .polar).Fails true s) (hmerge : (whole .merge).Fails true s)
    (hintersection : (call .intersection).Fails true s) (hname : (call .name).Fails true s) :
    wholeForms.Fails true s :=
  fails_alt.2 ⟨fails_whole_of_fails hcartesian, fails_alt.2 ⟨fails_whole_of_fails hpolar,
    fails_alt.2 ⟨hmerge, fails_alt.2
      ⟨fails_whole_of_fails hintersection, fails_whole_of_fails hname⟩⟩⟩⟩

theorem read?_of_yields {e : Expression}
    (h : wholeForms.Yields true (Text.afterGap s) [.operand e] rest) :
    read? s = some e := by
  have hempty : (empty : Peg Rule).Yields true s [] s := yields_lit.2 ⟨rfl, rfl⟩
  have hbody : (call .coordinateExpression).Yields true s [.operand e] rest :=
    (yields_passed rfl fun _ ↦ rfl).2 (yields_seq.2 ⟨[], s, _, hempty, h, rfl⟩)
  obtain ⟨f, hf, hparts⟩ := hbody
  have hparse : Rule.coordinateExpression.parse s = some (f, rest) := hf
  rw [read?, hparse, Option.bind_some, ofForest?, hparts]

theorem read?_of_fails (h : wholeForms.Fails true (Text.afterGap s)) : read? s = none := by
  have hempty : (empty : Peg Rule).Yields true s [] s := yields_lit.2 ⟨rfl, rfl⟩
  have hbody : (call .coordinateExpression).Fails true s := by
    rw [fails_call]
    exact fails_seq.2 (Or.inr ⟨[], s, hempty, h⟩)
  have hparse : Rule.coordinateExpression.parse s = none := hbody
  rw [read?, hparse]
  rfl

theorem yields_merge :
    (call .merge).Yields true s ps rest ↔
      (call .dollarGroup).Yields true s ps rest ∨
        (call .dollarGroup).Fails true s ∧ (call .chain).Yields true s ps rest := by
  rw [yields_passed rfl fun _ ↦ rfl]
  exact yields_alt

/-- A group or a chain to the end of a text is read, where no pair is. -/
theorem read?_of_merge {e : Expression} {mid : Text}
    (hcartesian : (call .cartesian).Fails true (Text.afterGap s))
    (hpolar : (call .polar).Fails true (Text.afterGap s))
    (hmerge : (call .merge).Yields true (Text.afterGap s) [.operand e] mid)
    (hmid : Text.afterGap mid = []) : read? s = some e := by
  have hyields : (whole .merge).Yields true (Text.afterGap s) [.operand e] [] :=
    yields_whole.2 ⟨mid, hmerge, hmid, rfl⟩
  exact read?_of_yields (yields_alt.2 (Or.inr ⟨fails_whole_of_fails hcartesian,
    yields_alt.2 (Or.inr ⟨fails_whole_of_fails hpolar, yields_alt.2 (Or.inl hyields)⟩)⟩))

end Peg

/-! ### Groups and chains as whole texts -/

/-- Every text of a group between dollars resolves to the value of its tree. -/
theorem resolve_dollars {first : Operand} {links : Links}
    (h : (Operand.dollars first links).Proper) {s : Text}
    (hs : Spaced (Operand.dollars first links).tokens s) (scope : Scope) :
    scope.resolve s = (Operand.dollars first links).value scope := by
  have htrim : Opens (Operand.dollars first links).tokens (trim s) [] := by
    refine Spaced.opens_trim hs (List.cons_ne_nil _ _) (fun s rest hopen ↦ ?_)
      fun s rest hopen ↦ Operand.exists_last h hopen
    obtain ⟨mid, hmid, _⟩ := hopen
    rw [hmid]
    rfl
  obtain ⟨e, he, hvalue⟩ := exists_dollarGroup (first.isRead h.1) (links.areRead h.2) htrim
  have hcomponent : ∀ {separator : Char} {rule : Rule},
      rule.body = seq (call .component) (seq (lit [separator]) (call .component)) →
      (call rule).Fails true (afterGap (trim s)) := by
    intro separator rule hbody
    rw [fails_call, hbody]
    refine fails_seq.2 (Or.inl (fails_component ?_))
    obtain ⟨mid, hmid, _⟩ := htrim
    rw [hmid]
    rfl
  have hread := read?_of_merge (hcomponent rfl) (hcomponent rfl) (yields_merge.2 (Or.inl he)) rfl
  rw [Scope.resolve, hread]
  exact hvalue scope

theorem Operand.tokens_ne_nil (o : Operand) : o.tokens ≠ [] := by
  cases o <;> exact List.cons_ne_nil _ _

/-- A text of a chain, trimmed. -/
theorem opens_trim_chain {first : Operand} {links : Links} (hfirst : first.Proper)
    (hlinks : links.Proper) (hdone : links ≠ .done) {s : Text}
    (hs : Spaced (first.tokens ++ links.tokens) s) :
    Opens (first.tokens ++ links.tokens) (trim s) [] := by
  refine Spaced.opens_trim hs ?_ (fun s rest hopen ↦ ?_) fun s rest hopen ↦ ?_
  · exact List.append_ne_nil_of_left_ne_nil first.tokens_ne_nil _
  · obtain ⟨mid, hopen, _⟩ := opens_append.1 hopen
    have hstart := Operand.startsWith_of_opens hfirst hopen
    cases hafter : afterGap s with
    | nil => rfl
    | cons c t =>
      rw [hafter] at hstart
      exact not_isBlank_of_isOperandStart hstart
  · obtain ⟨mid, hopen, hopens⟩ := opens_append.1 hopen
    obtain ⟨t, c, rfl, hc⟩ := Links.exists_last hlinks hdone hopens
    obtain ⟨u, rfl⟩ := hopen.exists_append
    exact ⟨u ++ t, c, by rw [List.append_assoc], hc⟩

/-- The longest component at the start of a text is followed by no separator, so no pair starts
there. -/
def Text.StartsNoPair (s : Text) : Prop :=
  ∀ c, c = ',' ∨ c = ':' → startsWith (· == c) (s.dropWhile isComponentLetter) = false

theorem Text.startsNoPair_append {t s : Text} (ht : t.all isComponentLetter)
    (hs : s.StartsNoPair) : (t ++ s).StartsNoPair := by
  intro c hc
  rw [List.dropWhile_append_of_pos (List.all_eq_true.1 ht)]
  exact hs c hc

theorem Text.startsNoPair_of_afterGap {s : Text} (h : (afterGap s).StartsNoPair) :
    s.StartsNoPair := by
  obtain ⟨gap, hgap, hs⟩ := exists_gap s
  rw [hs]
  exact startsNoPair_append (all_isComponentLetter_of_gap hgap) h

theorem all_isComponentLetter_written {o : Operation} (ho : o.Proper) :
    o.written.all isComponentLetter := by
  cases o with
  | add => decide
  | project => decide
  | interpolate factor =>
    have hfactor := all_isComponentLetter_of_number ho
    simp only [Operation.written, List.cons_append, List.all_cons, List.all_append, hfactor,
      List.all_nil, Bool.and_true, Bool.true_and]
    decide

theorem Operand.startsNoPair {o : Operand} (ho : o.Proper) {s rest : Text}
    (h : Opens o.tokens s rest) (hrest : rest.StartsNoPair) : s.StartsNoPair := by
  apply startsNoPair_of_afterGap
  cases o with
  | name n =>
    rw [opens_singleton.1 h]
    obtain ⟨c, t, rfl, hc, ht⟩ := isComponent_of_spells_name ho
    exact startsNoPair_append (by rw [List.all_cons, hc, ht]; rfl) hrest
  | _ =>
    obtain ⟨mid, hmid, _⟩ := h
    rw [hmid]
    rintro c (rfl | rfl) <;> rfl

theorem Links.startsNoPair : ∀ {links : Links}, links.Proper → ∀ {s rest : Text},
    Opens links.tokens s rest → rest.StartsNoPair → s.StartsNoPair
  | .done, _, s, rest, h, hrest => by
    obtain rfl : s = rest := h
    exact hrest
  | .next operation operand more, hlinks, s, rest, h, hrest => by
    obtain ⟨after, hafter, h⟩ := h
    obtain ⟨mid, hopen, hopens⟩ := opens_append.1 h
    have hmid := Links.startsNoPair hlinks.2.2 hopens hrest
    apply startsNoPair_of_afterGap
    rw [hafter]
    exact startsNoPair_append (all_isComponentLetter_written hlinks.1)
      (Operand.startsNoPair hlinks.2.1 hopen hmid)

/-- No pair is read where a chain starts. -/
theorem fails_pairs_of_opens {first : Operand} {links : Links} (hfirst : first.Proper)
    (hlinks : links.Proper) {s : Text} (hopen : Opens (first.tokens ++ links.tokens) s []) :
    (call .cartesian).Fails true (afterGap s) ∧ (call .polar).Fails true (afterGap s) := by
  obtain ⟨mid, hopen, hopens⟩ := opens_append.1 hopen
  have hmid : mid.StartsNoPair := Links.startsNoPair hlinks hopens fun c _ ↦ rfl
  have hstart := Operand.startsNoPair hfirst (opens_tokens_afterGap.2 hopen) hmid
  exact ⟨fails_pair ',' rfl rfl rfl (hstart ',' (Or.inl rfl)),
    fails_pair ':' rfl rfl rfl (hstart ':' (Or.inr rfl))⟩

/-- Only a group between dollars starts with a dollar. -/
theorem Operand.not_startsWith_dollar {o : Operand} (ho : o.Proper)
    (hplain : ∀ first links, o ≠ .dollars first links) {s rest : Text}
    (h : Opens o.tokens s rest) : startsWith (· == '$') (afterGap s) = false := by
  cases o with
  | name n =>
    obtain ⟨c, t, rfl, hc, _⟩ := isComponent_of_spells_name ho
    rw [opens_singleton.1 h, List.cons_append, startsWith_cons, beq_eq_false_iff_ne]
    rintro rfl
    exact absurd hc (by decide)
  | dollars first links => exact absurd rfl (hplain first links)
  | _ =>
    obtain ⟨mid, hmid, _⟩ := h
    rw [hmid]
    rfl

/-- The value of a chain, folded from the left. -/
def chainValue (scope : Scope) (first : Operand) (links : Links) : Except Failure (Point Float) :=
  first.value scope >>= links.foldFrom scope

/-- A chain without dollars resolves to its value, unless its first operand is a group between
dollars. -/
theorem resolve_chain {first : Operand} {links : Links} (hfirst : first.Proper)
    (hlinks : links.Proper) (hdone : links ≠ .done) (hplain : ∀ f ls, first ≠ .dollars f ls)
    {s : Text} (hs : Spaced (first.tokens ++ links.tokens) s) (scope : Scope) :
    scope.resolve s = chainValue scope first links := by
  have htrim := opens_trim_chain hfirst hlinks hdone hs
  obtain ⟨hcartesian, hpolar⟩ := fails_pairs_of_opens hfirst hlinks htrim
  obtain ⟨e, mid, qs, e', he, hqs, hqs', hchain, hevaluate⟩ :=
    exists_rounds (first.isRead hfirst) (links.areRead hlinks) htrim (endsChain_of_all rfl)
  have hdollar : (call .dollarGroup).Fails true (afterGap (trim s)) := by
    obtain ⟨mid', hopen, _⟩ := opens_append.1 htrim
    exact fails_dollarGroup (Operand.not_startsWith_dollar hfirst hplain hopen)
  cases hqs with
  | stop _ => exact absurd (hqs' rfl) hdone
  | step hq hmore =>
    obtain ⟨rest, hyields, hrest⟩ := yields_chain he hq hmore
    rw [List.singleton_append, ofNode, hchain] at hyields
    have hmerge := yields_merge.2 (Or.inr ⟨hdollar, hyields⟩)
    have hread := read?_of_merge hcartesian hpolar hmerge hrest
    rw [Scope.resolve, hread]
    exact hevaluate scope

/-- No line is written where an operator stands. -/
theorem fails_lineSeparator {o : Operation} {after : Text} :
    (call .lineSeparator).Fails true (o.written ++ after) := by
  rw [fails_call]
  refine fails_alt.2 ⟨fails_lit.2 fun more h ↦ ?_, fails_lit.2 fun more h ↦ ?_⟩ <;>
    cases o <;> simp [Operation.written] at h

/-- A chain without dollars is not read where its first operand is a group between dollars: the
group is taken for the whole, and then a link follows. -/
theorem resolve_chain_of_dollars {f : Operand} {ls links : Links}
    (hfirst : (Operand.dollars f ls).Proper) (hlinks : links.Proper) (hdone : links ≠ .done)
    {s : Text} (hs : Spaced ((Operand.dollars f ls).tokens ++ links.tokens) s) (scope : Scope) :
    scope.resolve s = .error (.unreadable (trim s)) := by
  have htrim := opens_trim_chain hfirst hlinks hdone hs
  obtain ⟨hcartesian, hpolar⟩ := fails_pairs_of_opens hfirst hlinks htrim
  obtain ⟨mid, hopen, hopens⟩ := opens_append.1 htrim
  obtain ⟨e, he, _⟩ := exists_dollarGroup (f.isRead hfirst.1) (ls.areRead hfirst.2) hopen
  obtain ⟨text, htext, _⟩ := hopen
  obtain ⟨o, after, hmid⟩ :
      ∃ (o : Operation) (after : Text), afterGap mid = o.written ++ after := by
    cases links with
    | done => exact absurd rfl hdone
    | next operation operand more =>
      obtain ⟨after, hafter, _⟩ := hopens
      exact ⟨operation, after, hafter⟩
  have hmerge : (whole .merge).Fails true (afterGap (trim s)) := by
    refine fails_whole fun ps mid' hyields ↦ ?_
    rcases yields_merge.1 hyields with hdollar | ⟨hfails, _⟩
    · obtain ⟨_, rfl⟩ := he.unique hdollar
      rw [hmid]
      cases o <;> simp [Operation.written]
    · exact absurd hfails he.not_fails
  have hlines : (call .linePair).Fails true (afterGap (trim s)) := by
    rw [fails_call, spacing_of_plain rfl]
    refine fails_seq.2 (Or.inr ⟨_, mid, yields_operand.2 (Or.inr (Or.inl he)), ?_⟩)
    refine fails_seq.2 (Or.inl ?_)
    rw [gapped_true, hmid]
    exact fails_lineSeparator
  have hintersection : (call .intersection).Fails true (afterGap (trim s)) := by
    rw [fails_call]
    refine fails_alt.2 ⟨fails_seq.2 (Or.inl ?_), hlines⟩
    rw [htext]
    rfl
  have hname : (call .name).Fails true (afterGap (trim s)) := by
    rw [fails_name, htext]
    rfl
  have hread : read? (trim s) = none :=
    read?_of_fails (fails_wholeForms hcartesian hpolar hmerge hintersection hname)
  rw [Scope.resolve, hread]

end DiagramMacros
