import DiagramMacros.Proofs.Expression.Operand
/-!
What the grammar reads where an operand may stand: exactly the texts of trees. A text that opens
with the tokens of a tree is read as an operand of the same value (`Operand.isRead`), and whatever
is read as an operand is the text of such a tree (`exists_operand`).

Both directions go from a tree or a text to the parts inside it. Between its parts a chain is
decided by the next character after the blanks: an operator goes on with it, and anything else ends
it (`Text.EndsChain`).
-/

set_option autoImplicit false
set_option relaxedAutoImplicit false

namespace DiagramMacros

open Expression Peg Text

/-- No name is continued here, and no link follows after the blanks. -/
def Text.EndsChain (s : Text) : Prop :=
  startsWith isNameLetter s = false ∧ startsWith isOperatorSign (afterGap s) = false

theorem not_isNameLetter_of_isGap {c : Char} (h : isGap c) : isNameLetter c = false := by
  simp only [isGap, Bool.or_eq_true, beq_iff_eq] at h
  rcases h with ((rfl | rfl) | rfl) | rfl <;> decide

theorem not_isNameLetter_of_isOperatorSign {c : Char} (h : isOperatorSign c) :
    isNameLetter c = false := by
  simp only [isOperatorSign, Bool.or_eq_true, beq_iff_eq] at h
  rcases h with (rfl | rfl) | rfl <;> decide

/-- A chain ends where the text goes on with a character that continues no name and starts no
operator. -/
theorem Text.endsChain_of_cons {s rest : Text} {c : Char} (h : afterGap s = c :: rest)
    (hname : isNameLetter c = false) (hsign : isOperatorSign c = false) : s.EndsChain := by
  constructor
  · refine not_startsWith_of_afterGap (fun d ↦ not_isNameLetter_of_isGap) ?_
    rw [h]
    exact hname
  · rw [h]
    exact hsign

theorem Text.endsChain_of_all {s : Text} (h : s.all isGap) : s.EndsChain := by
  have hnil : afterGap s = [] := by
    rw [← List.append_nil s, afterGap_append h]
    rfl
  constructor
  · refine not_startsWith_of_afterGap (fun d ↦ not_isNameLetter_of_isGap) ?_
    rw [hnil]
    rfl
  · rw [hnil]
    rfl

theorem Text.EndsChain.fails_link {s : Text} (h : s.EndsChain) : link.Fails true (afterGap s) :=
  Peg.fails_link h.2

theorem isBlank_of_isGap {c : Char} (h : isGap c) : isBlank c := by
  simp only [isGap, Bool.or_eq_true, beq_iff_eq] at h
  rcases h with ((rfl | rfl) | rfl) | rfl <;> decide

theorem all_isBlank_of_gap {gap : Text} (hgap : gap.all isGap) : gap.all isBlank := by
  rw [List.all_eq_true] at hgap ⊢
  exact fun c hc ↦ isBlank_of_isGap (hgap c hc)

/-! ### From trees to matches -/

/-- A text of this operand is read as an operand of the same value. -/
def Operand.IsRead (o : Operand) : Prop :=
  ∀ s rest : Text, Opens o.tokens s rest → startsWith isNameLetter rest = false →
    ∃ e, (call .operand).Yields true (afterGap s) [.operand e] rest ∧
      ∀ scope : Scope, scope.evaluate e = o.value scope

/-- A text of these links is read as rounds of links that fold to the same value. -/
def Links.AreRead (links : Links) : Prop :=
  ∀ s rest : Text, Opens links.tokens s rest → rest.EndsChain →
    ∃ qs, Rounds link true s qs rest ∧ (qs = [] → links = .done) ∧
      ∀ e, ∃ e', chain? e qs = some e' ∧
        ∀ scope : Scope, scope.evaluate e' = scope.evaluate e >>= links.foldFrom scope

/-- No name goes on where links start. -/
theorem Links.not_startsWith {links : Links} {s rest : Text} (h : Opens links.tokens s rest)
    (hrest : rest.EndsChain) : startsWith isNameLetter s = false := by
  cases links with
  | done =>
    obtain rfl : s = rest := h
    exact hrest.1
  | next operation operand more =>
    obtain ⟨mid, hmid, _⟩ := h
    refine not_startsWith_of_afterGap (fun d ↦ not_isNameLetter_of_isGap) ?_
    have hsign := startsWith_written operation mid
    rw [hmid]
    cases hwritten : operation.written ++ mid with
    | nil => rfl
    | cons c t =>
      rw [hwritten] at hsign
      exact not_isNameLetter_of_isOperatorSign hsign

theorem Links.areRead_done : Links.done.AreRead := by
  intro s rest h hrest
  obtain rfl : s = rest := h
  refine ⟨[], Rounds.stop hrest.fails_link, fun _ ↦ rfl, fun e ↦ ⟨e, rfl, fun scope ↦ ?_⟩⟩
  cases scope.evaluate e <;> rfl

theorem Links.areRead_next {operation : Operation} {operand : Operand} {more : Links}
    (hoperation : operation.Proper) (hoperand : operand.IsRead) (hmore : more.AreRead) :
    (Links.next operation operand more).AreRead := by
  intro s rest h hrest
  obtain ⟨after, hafter, h⟩ := h
  obtain ⟨mid, hopen, hopens⟩ := opens_append.1 h
  obtain ⟨e₁, he₁, hvalue⟩ := hoperand after mid hopen (Links.not_startsWith hopens hrest)
  obtain ⟨qs, hqs, _, hfold⟩ := hmore mid rest hopens hrest
  have hlink : link.Yields true (gapped true s) [.operation operation, .operand e₁] mid := by
    rw [gapped_true, hafter]
    exact yields_link.2 ⟨operation, after, _, hoperation, rfl, he₁, rfl⟩
  refine ⟨_, Rounds.step hlink hqs, by simp, fun e ↦ ?_⟩
  obtain ⟨e', hchain, hevaluate⟩ := hfold (.combine operation e e₁)
  refine ⟨e', hchain, fun scope ↦ ?_⟩
  rw [hevaluate, Scope.evaluate, hvalue, bind_assoc]
  congr 1
  funext p
  rw [Links.foldFrom_next, bind_assoc]

/-- A first operand and its links are read as an operand and rounds of links. -/
theorem exists_rounds {first : Operand} {links : Links} (hfirst : first.IsRead)
    (hlinks : links.AreRead) {s rest : Text} (h : Opens (first.tokens ++ links.tokens) s rest)
    (hrest : rest.EndsChain) :
    ∃ e mid qs e', (call .operand).Yields true (afterGap s) [.operand e] mid ∧
      Rounds link true mid qs rest ∧ (qs = [] → links = .done) ∧ chain? e qs = some e' ∧
      ∀ scope : Scope, scope.evaluate e' = first.value scope >>= links.foldFrom scope := by
  obtain ⟨mid, hopen, hopens⟩ := opens_append.1 h
  obtain ⟨e, he, hvalue⟩ := hfirst s mid hopen (Links.not_startsWith hopens hrest)
  obtain ⟨qs, hqs, hdone, hfold⟩ := hlinks mid rest hopens hrest
  obtain ⟨e', hchain, hevaluate⟩ := hfold e
  refine ⟨e, mid, qs, e', he, hqs, hdone, hchain, fun scope ↦ ?_⟩
  rw [hevaluate, hvalue]

/-- A chain or a lone operand between dollars is read as a group. -/
theorem exists_dollarGroup {first : Operand} {links : Links} (hfirst : first.IsRead)
    (hlinks : links.AreRead) {s rest : Text}
    (h : Opens (Operand.dollars first links).tokens s rest) :
    ∃ e, (call .dollarGroup).Yields true (afterGap s) [.operand e] rest ∧
      ∀ scope : Scope, scope.evaluate e = first.value scope >>= links.foldFrom scope := by
  obtain ⟨after, hafter, h⟩ := h
  obtain ⟨mid', h, hclose⟩ := opens_append.1 h
  rw [opens_singleton] at hclose
  obtain ⟨e, mid, qs, e', he, hqs, _, hchain, hevaluate⟩ :=
    exists_rounds hfirst hlinks h (endsChain_of_cons hclose rfl rfl)
  obtain ⟨rest', hyields, hrest'⟩ := yields_chainOrOperand he hqs hchain
  refine ⟨e', yields_dollarGroup.2 ⟨after, rest', hafter, hyields, ?_⟩, hevaluate⟩
  rw [hrest', hclose]
  rfl

theorem Operand.isRead_name {n : Text} (hn : Rule.name.Spells n) : (Operand.name n).IsRead := by
  intro s rest h hrest
  refine ⟨.name n, ?_, fun scope ↦ rfl⟩
  rw [opens_singleton.1 h]
  exact yields_operand.2 (Or.inr (Or.inr (yields_name.2 ⟨n, spells_name.1 hn, rfl, hrest, rfl⟩)))

theorem Operand.isRead_dollars {first : Operand} {links : Links} (hfirst : first.IsRead)
    (hlinks : links.AreRead) : (Operand.dollars first links).IsRead := by
  intro s rest h _
  obtain ⟨e, he, hvalue⟩ := exists_dollarGroup hfirst hlinks h
  exact ⟨e, yields_operand.2 (Or.inr (Or.inl he)), hvalue⟩

/-- What stands between parentheses is read as a group. -/
theorem yields_operand_of_inside {s rest after mid : Text} {ps : List Part}
    (hafter : afterGap s = '(' :: after)
    (hinside : insideParens.Yields true (afterGap after) ps mid)
    (hclose : afterGap mid = ')' :: rest) :
    (call .operand).Yields true (afterGap s) ps rest :=
  yields_operand.2 (Or.inl (yields_parenGroup.2 ⟨after, mid, hafter, hinside, hclose⟩))

theorem Operand.isRead_parens {first : Operand} {links : Links} (hdone : links ≠ .done)
    (hfirst : first.IsRead) (hlinks : links.AreRead) : (Operand.parens first links).IsRead := by
  intro s rest h _
  obtain ⟨after, hafter, h⟩ := h
  obtain ⟨mid', h, hclose⟩ := opens_append.1 h
  rw [opens_singleton] at hclose
  obtain ⟨e, mid, qs, e', he, hqs, hqs', hchain, hevaluate⟩ :=
    exists_rounds hfirst hlinks h (endsChain_of_cons hclose rfl rfl)
  cases hqs with
  | stop _ => exact absurd (hqs' rfl) hdone
  | step hq hmore =>
    obtain ⟨rest', hyields, hrest'⟩ := yields_chain he hq hmore
    rw [List.singleton_append, ofNode, hchain] at hyields
    refine ⟨e', yields_operand_of_inside hafter (yields_alt.2 (Or.inl hyields)) ?_, hevaluate⟩
    rw [hrest', hclose]
    rfl

/-- Before a closing parenthesis a lone operand is no chain. -/
theorem fails_chain_of_paren {s mid rest : Text} {ps : List Part}
    (h : (call .operand).Yields true s ps mid) (hclose : afterGap mid = ')' :: rest) :
    (call .chain).Fails true s := by
  refine fails_chain h (fails_link ?_)
  rw [hclose]
  rfl

theorem Operand.isRead_parensDollars {first : Operand} {links : Links} (hfirst : first.IsRead)
    (hlinks : links.AreRead) : (Operand.parensDollars first links).IsRead := by
  intro s rest h _
  obtain ⟨after, hafter, h⟩ := h
  have hsplit : Opens ((Operand.dollars first links).tokens ++ [[')']]) after rest := by
    simpa [Operand.tokens] using h
  obtain ⟨mid, hdollars, hclose⟩ := opens_append.1 hsplit
  rw [opens_singleton] at hclose
  obtain ⟨e, he, hvalue⟩ := exists_dollarGroup hfirst hlinks hdollars
  have hchain := fails_chain_of_paren (yields_operand.2 (Or.inr (Or.inl he))) hclose
  have hinside : insideParens.Yields true (afterGap after) [.operand e] mid :=
    yields_alt.2 (Or.inr ⟨hchain, yields_alt.2 (Or.inl he)⟩)
  exact ⟨e, yields_operand_of_inside hafter hinside hclose, hvalue⟩

/-- Blanks after a number do not change what it reads as. -/
theorem readNumber_append {x gap : Text} (hgap : gap.all isGap) :
    Scope.readNumber (x ++ gap) = Scope.readNumber x := by
  rw [Scope.readNumber, trim_append (all_isBlank_of_gap hgap), Scope.readNumber]

/-- A component takes the blanks after it. -/
theorem exists_component {x mid after : Text} {c : Char} (hx : IsComponent x)
    (hmid : afterGap mid = c :: after) :
    ∃ gap, gap.all isGap ∧ IsComponent (x ++ gap) ∧ mid = gap ++ c :: after := by
  obtain ⟨gap, hgap, hsplit⟩ := exists_gap mid
  rw [hmid] at hsplit
  refine ⟨gap, hgap, ?_, hsplit⟩
  obtain ⟨d, t, rfl, hd, ht⟩ := hx
  refine ⟨d, t ++ gap, rfl, hd, ?_⟩
  rw [List.all_append, ht, Bool.true_and]
  exact all_isComponentLetter_of_gap hgap

/-- A pair before a closing parenthesis is read as a pair of the same components up to the blanks
after them, and nothing tried before a pair matches there. -/
theorem exists_pair (rule : Rule) {separator : Char}
    (hbody : rule.body = seq (call .component) (seq (lit [separator]) (call .component)))
    (hkind : rule.kind = .plain) (hseparator : separator = ',' ∨ separator = ':')
    {x y s rest : Text} (hpair : IsPair x y) (h : Opens [x, [separator], y, [')']] s rest) :
    ∃ x' y', (call rule).Yields true (afterGap s) (ofNode rule [] [.written x', .written y'])
        (')' :: rest) ∧
      Scope.readNumber x' = Scope.readNumber x ∧ Scope.readNumber y' = Scope.readNumber y ∧
      (call .chain).Fails true (afterGap s) ∧ (call .dollarGroup).Fails true (afterGap s) ∧
      ∃ after, (afterGap s).dropWhile isComponentLetter = separator :: after := by
  obtain ⟨hx, _, hchain, hy, _⟩ := hpair
  obtain ⟨mid, hmid, after, hafter, mid', hmid', hclose⟩ := h
  rw [opens_singleton] at hclose
  obtain ⟨gap, hgap, hxgap, rfl⟩ := exists_component hx hafter
  obtain ⟨gap', hgap', hygap', rfl⟩ := exists_component hy hclose
  have hstop : isComponentLetter separator = false := by rcases hseparator with rfl | rfl <;> rfl
  have htext : afterGap s = x ++ gap ++ separator :: after := by
    rw [hmid, List.append_assoc]
    rfl
  refine ⟨x ++ gap, y ++ gap', ?_, readNumber_append hgap, readNumber_append hgap', ?_, ?_, after,
    ?_⟩
  · refine (yields_pair hbody hkind hstop).2
      ⟨x ++ gap, y ++ gap', after, hxgap, htext, hygap', ?_, rfl, rfl⟩
    rw [hmid', List.append_assoc]
    rfl
  · rw [hmid]
    exact (fails_chain_append hx.all ⟨gap, separator, after, hgap, hseparator, rfl⟩).2 hchain
  · rw [hmid]
    exact hx.fails_dollarGroup _
  · rw [htext]
    exact dropWhile_append_of_all hxgap.all hstop

theorem Operand.isRead_cartesian {x y : Text} (hpair : IsPair x y) :
    (Operand.cartesian x y).IsRead := by
  intro s rest h _
  obtain ⟨after, hafter, h⟩ := h
  obtain ⟨x', y', hyields, hx, hy, hchain, hdollar, _⟩ :=
    exists_pair .cartesian rfl rfl (Or.inl rfl) hpair h
  have hinside : insideParens.Yields true (afterGap after) [.operand (.cartesian x' y')] _ :=
    yields_alt.2 (Or.inr ⟨hchain, yields_alt.2 (Or.inr ⟨hdollar, yields_alt.2 (Or.inl hyields)⟩)⟩)
  refine ⟨_, yields_operand_of_inside hafter hinside (afterGap_of_not rfl), fun scope ↦ ?_⟩
  rw [Scope.evaluate, hx, hy]
  rfl

theorem Operand.isRead_polar {x y : Text} (hpair : IsPair x y) : (Operand.polar x y).IsRead := by
  intro s rest h _
  obtain ⟨after, hafter, h⟩ := h
  obtain ⟨x', y', hyields, hx, hy, hchain, hdollar, more, hmore⟩ :=
    exists_pair .polar rfl rfl (Or.inr rfl) hpair h
  have hcartesian : (call .cartesian).Fails true (afterGap after) := by
    apply fails_pair ',' rfl rfl rfl
    rw [hmore]
    rfl
  have hinside : insideParens.Yields true (afterGap after) [.operand (.polar x' y')] _ :=
    yields_alt.2 (Or.inr ⟨hchain, yields_alt.2 (Or.inr ⟨hdollar, yields_alt.2
      (Or.inr ⟨hcartesian, yields_alt.2 (Or.inl hyields)⟩)⟩)⟩)
  refine ⟨_, yields_operand_of_inside hafter hinside (afterGap_of_not rfl), fun scope ↦ ?_⟩
  rw [Scope.evaluate, hx, hy]
  rfl

/-- Name letters are component letters. -/
theorem isComponentLetter_of_isNameLetter {c : Char} (h : isNameLetter c) :
    isComponentLetter c := by
  rw [isComponentLetter, contains_eq_false_of_all (by decide) h]
  rfl

theorem isNameLetter_of_isNameStart {c : Char} (h : isNameStart c) : isNameLetter c := by
  simp only [isNameStart, Bool.or_eq_true] at h
  simp only [isNameLetter, isWordLetter, isLetterOrDigit, Bool.or_eq_true]
  rcases h with h | h
  · exact Or.inl (Or.inl (Or.inl h))
  · exact Or.inl (Or.inr h)

theorem isComponent_of_spells_name {n : Text} (hn : Rule.name.Spells n) : IsComponent n := by
  obtain ⟨c, t, rfl, hc, ht⟩ := spells_name.1 hn
  refine ⟨c, t, rfl, isComponentLetter_of_isNameLetter (isNameLetter_of_isNameStart hc), ?_⟩
  rw [List.all_eq_true] at ht ⊢
  exact fun d hd ↦ isComponentLetter_of_isNameLetter (ht d hd)

theorem Operand.isRead_parensName {n : Text} (hn : Rule.name.Spells n) :
    (Operand.parensName n).IsRead := by
  intro s rest h _
  obtain ⟨after, hafter, mid, hmid, hclose⟩ := h
  rw [opens_singleton] at hclose
  have hrest := (endsChain_of_cons hclose rfl rfl).1
  have hname : (call .name).Yields true (afterGap after) [.operand (.name n)] mid :=
    yields_name.2 ⟨n, spells_name.1 hn, hmid, hrest, rfl⟩
  have hoperand := yields_operand.2 (Or.inr (Or.inr hname))
  have hdollar : (call .dollarGroup).Fails true (afterGap after) := by
    rw [hmid]
    exact (isComponent_of_spells_name hn).fails_dollarGroup mid
  -- The name and the blanks after it could be a component, but then a separator would follow.
  obtain ⟨gap, _, ⟨c, t, heq, hc, ht⟩, rfl⟩ :=
    exists_component (isComponent_of_spells_name hn) hclose
  have hcomponent : (afterGap after).dropWhile isComponentLetter = ')' :: rest := by
    have htext : afterGap after = (c :: t) ++ ')' :: rest := by
      rw [hmid, ← heq, List.append_assoc]
      rfl
    have hall : (c :: t).all isComponentLetter := by
      rw [List.all_cons, hc, ht]
      rfl
    rw [htext]
    exact dropWhile_append_of_all hall rfl
  have hcartesian : (call .cartesian).Fails true (afterGap after) :=
    fails_pair ',' rfl rfl rfl (by rw [hcomponent]; rfl)
  have hpolar : (call .polar).Fails true (afterGap after) :=
    fails_pair ':' rfl rfl rfl (by rw [hcomponent]; rfl)
  have hpairs := yields_alt.2 (Or.inr ⟨hcartesian, yields_alt.2 (Or.inr ⟨hpolar, hname⟩)⟩)
  have hinside : insideParens.Yields true (afterGap after) [.operand (.name n)] _ :=
    yields_alt.2 (Or.inr ⟨fails_chain_of_paren hoperand hclose, yields_alt.2
      (Or.inr ⟨hdollar, hpairs⟩)⟩)
  exact ⟨_, yields_operand_of_inside hafter hinside hclose, fun scope ↦ rfl⟩

mutual

/-- Every text of a tree is read as an operand of the same value. -/
theorem Operand.isRead : ∀ o : Operand, o.Proper → o.IsRead
  | .name _, h => Operand.isRead_name h
  | .dollars first links, h => Operand.isRead_dollars (first.isRead h.1) (links.areRead h.2)
  | .parens first links, h =>
    Operand.isRead_parens h.1 (first.isRead h.2.1) (links.areRead h.2.2)
  | .parensDollars first links, h =>
    Operand.isRead_parensDollars (first.isRead h.1) (links.areRead h.2)
  | .cartesian _ _, h => Operand.isRead_cartesian h
  | .polar _ _, h => Operand.isRead_polar h
  | .parensName _, h => Operand.isRead_parensName h

theorem Links.areRead : ∀ links : Links, links.Proper → links.AreRead
  | .done, _ => Links.areRead_done
  | .next _ operand more, h =>
    Links.areRead_next h.1 (operand.isRead h.2.1) (more.areRead h.2.2)

end

/-! ### From matches to trees -/

/-- A text opens with a tree, and these are the parts of an operand of its value. -/
def IsOperandText (s rest : Text) (ps : List Part) : Prop :=
  ∃ o : Operand, o.Proper ∧ Opens o.tokens s rest ∧
    ∃ e, ps = [.operand e] ∧ ∀ scope : Scope, scope.evaluate e = o.value scope

/-- A text opens with links, and these are the parts of links that fold to the same value. -/
def AreLinksText (s rest : Text) (qs : List Part) : Prop :=
  ∃ links : Links, links.Proper ∧ Opens links.tokens s rest ∧ (links = .done → qs = []) ∧
    ∀ e, ∃ e', chain? e qs = some e' ∧
      ∀ scope : Scope, scope.evaluate e' = scope.evaluate e >>= links.foldFrom scope

/-- A text opens with a first operand and links, up to blanks, and these are the parts of a chain of
their value. -/
def IsChainText (s rest : Text) (first : Operand) (links : Links) (ps : List Part) : Prop :=
  first.Proper ∧ links.Proper ∧
    (∃ rest', Opens (first.tokens ++ links.tokens) s rest' ∧ afterGap rest' = afterGap rest) ∧
    ∃ e, ps = [.operand e] ∧
      ∀ scope : Scope, scope.evaluate e = first.value scope >>= links.foldFrom scope

theorem opens_tokens_afterGap {o : Operand} {s rest : Text} :
    Opens o.tokens (afterGap s) rest ↔ Opens o.tokens s rest := by
  cases o <;> exact opens_afterGap

/-- After the blanks that a chain may have taken or left, a token closes it. -/
theorem IsChainText.opens_closing {after mid rest : Text} {first : Operand} {links : Links}
    {ps : List Part} {c : Char} (h : IsChainText (afterGap after) mid first links ps)
    (hclose : afterGap mid = c :: rest) :
    Opens (first.tokens ++ links.tokens ++ [[c]]) after rest := by
  obtain ⟨_, _, ⟨rest', hopen, hrest⟩, _⟩ := h
  obtain ⟨mid', hfirst, hlinks⟩ := opens_append.1 hopen
  refine opens_append.2 ⟨rest', opens_append.2 ⟨mid', opens_tokens_afterGap.1 hfirst, hlinks⟩, ?_⟩
  rw [opens_singleton, hrest, hclose]
  rfl

/-- A first component with a separator after it starts no chain where none was read. -/
theorem isPair_of_fails {s x y after after' rest : Text} {separator : Char}
    (hchain : (call .chain).Fails true (afterGap s)) (htext : afterGap s = x ++ separator :: after)
    (hseparator : separator = ',' ∨ separator = ':') (hx : IsComponent x) (hy : IsComponent y)
    (htext' : afterGap after' = y ++ rest) : IsPair x y := by
  have hstart : ∀ {w t more : Text}, IsComponent w → afterGap t = w ++ more →
      startsWith isGap w = false := by
    rintro w t more ⟨c, w', rfl, _⟩ ht
    have hgap := startsWith_afterGap t
    rwa [ht] at hgap
  refine ⟨hx, hstart hx htext, ?_, hy, hstart hy htext'⟩
  rw [htext] at hchain
  exact (fails_chain_append hx.all ⟨[], separator, after, rfl, hseparator, rfl⟩).1 hchain

theorem areLinksText_nil (s : Text) : AreLinksText s s [] := by
  refine ⟨.done, trivial, rfl, fun _ ↦ rfl, fun e ↦ ⟨e, rfl, fun scope ↦ ?_⟩⟩
  cases scope.evaluate e <;> rfl

section Soundness

variable {n : Nat}
  (ih : ∀ s ps rest, s.length ≤ n → (call .operand).Yields true s ps rest → IsOperandText s rest ps)

include ih

theorem areLinksText_of_rounds {s rest : Text} {qs : List Part} (h : Rounds link true s qs rest) :
    s.length ≤ n → AreLinksText s rest qs := by
  induction h with
  | @stop s _ => exact fun _ ↦ areLinksText_nil s
  | @step s mid rest p q hlink _ ihmore =>
    intro hs
    obtain ⟨operation, after, ps, hoperation, hafter, hyields, rfl⟩ := yields_link.1 hlink
    rw [gapped_true] at hafter
    have hlength := length_afterGap_le s
    have hlength' := length_afterGap_le after
    have hlength'' := hyields.length_le
    rw [hafter, List.length_append] at hlength
    obtain ⟨operand, hoperand, hopen, e₁, rfl, hvalue⟩ := ih _ _ _ (by omega) hyields
    obtain ⟨more, hmore, hopens, _, hfold⟩ := ihmore (by omega)
    refine ⟨.next operation operand more, ⟨hoperation, hoperand, hmore⟩, ⟨after, hafter, ?_⟩,
      by simp, fun e ↦ ?_⟩
    · exact opens_append.2 ⟨mid, opens_tokens_afterGap.1 hopen, hopens⟩
    · obtain ⟨e', hchain, hevaluate⟩ := hfold (.combine operation e e₁)
      refine ⟨e', hchain, fun scope ↦ ?_⟩
      rw [hevaluate, Scope.evaluate, hvalue, bind_assoc]
      congr 1
      funext p
      rw [Links.foldFrom_next, bind_assoc]

theorem exists_isChainText_of_chain {s rest : Text} {ps : List Part} (hs : s.length ≤ n)
    (h : (call .chain).Yields true s ps rest) :
    ∃ first links, links ≠ .done ∧ IsChainText s rest first links ps := by
  obtain ⟨p, mid, q, mid', qs, rest', hp, hq, hmore, hrest, rfl⟩ := of_yields_chain h
  have hlength := hp.length_le
  obtain ⟨first, hfirst, hopen, e, rfl, hvalue⟩ := ih _ _ _ hs hp
  obtain ⟨links, hlinks, hopens, hdone, hfold⟩ :=
    areLinksText_of_rounds ih (Rounds.step hq hmore) (by omega)
  obtain ⟨e', hchain, hevaluate⟩ := hfold e
  refine ⟨first, links, fun hnil ↦ ?_, hfirst, hlinks, ⟨rest', ?_, hrest⟩, e', ?_, fun scope ↦ ?_⟩
  · obtain ⟨operation, _, _, _, _, _, rfl⟩ := yields_link.1 hq
    simpa using hdone hnil
  · exact opens_append.2 ⟨mid, hopen, hopens⟩
  · rw [List.singleton_append, ofNode, hchain]
    rfl
  · rw [hevaluate, hvalue]

theorem exists_isChainText {s rest : Text} {ps : List Part} (hs : s.length ≤ n)
    (h : chainOrOperand.Yields true s ps rest) :
    ∃ first links, IsChainText s rest first links ps := by
  rcases yields_alt.1 h with hchain | ⟨_, hoperand⟩
  · obtain ⟨first, links, _, htext⟩ := exists_isChainText_of_chain ih hs hchain
    exact ⟨first, links, htext⟩
  · obtain ⟨first, hfirst, hopen, e, rfl, hvalue⟩ := ih _ _ _ hs hoperand
    refine ⟨first, .done, hfirst, trivial, ⟨rest, ?_, rfl⟩, e, rfl, fun scope ↦ ?_⟩
    · rwa [Links.tokens, List.append_nil]
    · rw [hvalue]
      cases first.value scope <;> rfl

/-- The text of a group between dollars. -/
theorem exists_dollars {s rest : Text} {ps : List Part} (hs : s.length ≤ n + 1)
    (h : (call .dollarGroup).Yields true s ps rest) :
    ∃ first links, first.Proper ∧ links.Proper ∧
      Opens (Operand.dollars first links).tokens s rest ∧
      ∃ e, ps = [.operand e] ∧
        ∀ scope : Scope, scope.evaluate e = first.value scope >>= links.foldFrom scope := by
  obtain ⟨after, mid, rfl, hinside, hclose⟩ := yields_dollarGroup.1 h
  have hlength := length_afterGap_le after
  rw [List.length_cons] at hs
  obtain ⟨first, links, htext⟩ := exists_isChainText ih (by omega) hinside
  exact ⟨first, links, htext.1, htext.2.1,
    ⟨after, afterGap_of_not rfl, htext.opens_closing hclose⟩, htext.2.2.2⟩

/-- The text of a group between parentheses, by what is tried there in turn. -/
theorem isOperandText_parenGroup {s rest : Text} {ps : List Part} (hs : s.length ≤ n + 1)
    (h : (call .parenGroup).Yields true s ps rest) : IsOperandText s rest ps := by
  obtain ⟨after, mid, rfl, hinside, hclose⟩ := yields_parenGroup.1 h
  have hlength := length_afterGap_le after
  rw [List.length_cons] at hs
  have hafter : afterGap ('(' :: after) = ['('] ++ after := afterGap_of_not rfl
  rcases yields_alt.1 hinside with hchain | ⟨hchain, hinside⟩
  · obtain ⟨first, links, hdone, htext⟩ := exists_isChainText_of_chain ih (by omega) hchain
    exact ⟨.parens first links, ⟨hdone, htext.1, htext.2.1⟩,
      ⟨after, hafter, htext.opens_closing hclose⟩, htext.2.2.2⟩
  rcases yields_alt.1 hinside with hdollar | ⟨_, hinside⟩
  · obtain ⟨first, links, hfirst, hlinks, hopen, hvalue⟩ :=
      exists_dollars ih (by omega) hdollar
    refine ⟨.parensDollars first links, ⟨hfirst, hlinks⟩, ⟨after, hafter, ?_⟩, hvalue⟩
    have hsplit : Opens ((Operand.dollars first links).tokens ++ [[')']]) after rest :=
      opens_append.2 ⟨mid, opens_afterGap.1 hopen, opens_singleton.2 hclose⟩
    simpa [Operand.tokens] using hsplit
  rcases yields_alt.1 hinside with hpair | ⟨_, hinside⟩
  · obtain ⟨x, y, more, hx, hmore, hy, hmore', hstop, rfl⟩ := yields_cartesian.1 hpair
    have hclose' := hclose
    rw [afterGap_of_not_component hstop] at hclose'
    have hopens : Opens (Operand.cartesian x y).tokens ('(' :: after) rest :=
      ⟨after, hafter, _, hmore, more, afterGap_of_not rfl, _, hmore', opens_singleton.2 hclose⟩
    exact ⟨.cartesian x y, isPair_of_fails hchain hmore (Or.inl rfl) hx hy hmore', hopens, _, rfl,
      fun _ ↦ rfl⟩
  rcases yields_alt.1 hinside with hpair | ⟨_, hname⟩
  · obtain ⟨x, y, more, hx, hmore, hy, hmore', hstop, rfl⟩ := yields_polar.1 hpair
    have hopens : Opens (Operand.polar x y).tokens ('(' :: after) rest :=
      ⟨after, hafter, _, hmore, more, afterGap_of_not rfl, _, hmore', opens_singleton.2 hclose⟩
    exact ⟨.polar x y, isPair_of_fails hchain hmore (Or.inr rfl) hx hy hmore', hopens, _, rfl,
      fun _ ↦ rfl⟩
  · obtain ⟨name, hword, hmore, _, rfl⟩ := yields_name.1 hname
    exact ⟨.parensName name, spells_name.2 hword,
      ⟨after, hafter, mid, hmore, opens_singleton.2 hclose⟩, _, rfl, fun _ ↦ rfl⟩

end Soundness

/-- Whatever is read as an operand is the text of a tree of the same value. -/
theorem exists_operand {s rest : Text} {ps : List Part}
    (h : (call .operand).Yields true s ps rest) : IsOperandText s rest ps := by
  have hall : ∀ n s ps rest, s.length ≤ n → (call .operand).Yields true s ps rest →
      IsOperandText s rest ps := by
    intro n
    induction n with
    | zero =>
      intro s ps rest hs hyields
      have hlength := hyields.length_lt rfl
      omega
    | succ n ih =>
      intro s ps rest hs hyields
      rcases yields_operand.1 hyields with hparen | hdollar | hname
      · exact isOperandText_parenGroup ih hs hparen
      · obtain ⟨first, links, hfirst, hlinks, hopen, hvalue⟩ := exists_dollars ih hs hdollar
        exact ⟨.dollars first links, ⟨hfirst, hlinks⟩, hopen, hvalue⟩
      · obtain ⟨name, hword, rfl, _, rfl⟩ := yields_name.1 hname
        refine ⟨.name name, spells_name.2 hword, opens_singleton.2 ?_, _, rfl, fun _ ↦ rfl⟩
        obtain ⟨c, t, rfl, hc, _⟩ := hword
        apply afterGap_of_not
        rw [List.cons_append, startsWith_cons, Bool.eq_false_iff]
        intro hgap
        have hletter := isNameLetter_of_isNameStart hc
        rw [not_isNameLetter_of_isGap hgap] at hletter
        simp at hletter
  exact hall s.length s ps rest (Nat.le_refl _) h

end DiagramMacros
