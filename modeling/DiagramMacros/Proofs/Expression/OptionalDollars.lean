import DiagramMacros.Proofs.Expression.Resolution
/-!
The dollars around a chain are optional, with one exception. A chain without them means the same as
with them unless its first operand is itself a group between dollars: then only the text with the
dollars is read, because a whole text that starts with such a group is taken to be that group
(`resolve_chain_iff_enclosed`).
-/

set_option autoImplicit false
set_option relaxedAutoImplicit false

namespace DiagramMacros

open Expression Peg Text

/-- The tokens of a chain, its operands as whole texts. -/
def chainTokens (first : Text) (links : List (Operation × Text)) : List Text :=
  first :: links.flatMap fun link ↦ [link.1.written, link.2]

/-- A text is a chain of two or more operands, with any blanks around the operators. -/
structure IsChain (c first : Text) (links : List (Operation × Text)) : Prop where
  operand : Rule.operand.Spells first
  later : ∀ link ∈ links, link.1.Proper ∧ Rule.operand.Spells link.2
  nonempty : links ≠ []
  spaced : Spaced (chainTokens first links) c

/-! ### The trees of a chain -/

theorem written_ne_nil (o : Operation) : o.written ≠ [] := by
  cases o <;> exact List.cons_ne_nil _ _

theorem ne_nil_of_isPair {x y : Text} (h : IsPair x y) : x ≠ [] ∧ y ≠ [] := by
  obtain ⟨⟨c, t, rfl, _⟩, _, _, ⟨d, u, rfl, _⟩, _⟩ := h
  exact ⟨List.cons_ne_nil c t, List.cons_ne_nil d u⟩

theorem ne_nil_of_spells_name {n : Text} (h : Rule.name.Spells n) : n ≠ [] := by
  obtain ⟨c, t, rfl, _⟩ := spells_name.1 h
  exact List.cons_ne_nil c t

mutual

/-- No token of an operand is empty. -/
theorem Operand.nil_not_mem : ∀ o : Operand, o.Proper → [] ∉ o.tokens
  | .name n, h => by simpa [Operand.tokens] using (ne_nil_of_spells_name h).symm
  | .parensName n, h => by simpa [Operand.tokens] using (ne_nil_of_spells_name h).symm
  | .dollars first links, h => by
    simp [Operand.tokens, first.nil_not_mem h.1, links.nil_not_mem h.2]
  | .parens first links, h => by
    simp [Operand.tokens, first.nil_not_mem h.2.1, links.nil_not_mem h.2.2]
  | .parensDollars first links, h => by
    simp [Operand.tokens, first.nil_not_mem h.1, links.nil_not_mem h.2]
  | .cartesian x y, h => by
    obtain ⟨hx, hy⟩ := ne_nil_of_isPair h
    simp [Operand.tokens, hx.symm, hy.symm]
  | .polar x y, h => by
    obtain ⟨hx, hy⟩ := ne_nil_of_isPair h
    simp [Operand.tokens, hx.symm, hy.symm]

theorem Links.nil_not_mem : ∀ links : Links, links.Proper → [] ∉ links.tokens
  | .done, _ => by simp [Links.tokens]
  | .next operation operand more, h => by
    simp [Links.tokens, (written_ne_nil operation).symm, operand.nil_not_mem h.2.1,
      more.nil_not_mem h.2.2]

end

/-- The tree of an operand given as a text, which any text may follow. -/
theorem exists_tree {t : Text} (h : Rule.operand.Spells t) :
    ∃ o : Operand, o.Proper ∧ Opens o.tokens t [] ∧
      ∀ s rest, afterGap s = t ++ rest → Opens o.tokens s rest := by
  obtain ⟨ps, hyields⟩ := spells_iff.1 h
  obtain ⟨o, ho, hopen, _⟩ := exists_operand hyields
  refine ⟨o, ho, hopen, fun s rest hs ↦ opens_tokens_afterGap.1 ?_⟩
  rw [hs]
  exact hopen.append (o.nil_not_mem ho) rest

/-- No blanks stand before an operand. -/
theorem afterGap_of_spells_operand {t : Text} (h : Rule.operand.Spells t) : afterGap t = t := by
  obtain ⟨ps, hyields⟩ := spells_iff.1 h
  apply afterGap_of_not
  cases t with
  | nil => rfl
  | cons c t =>
    by_cases hc : isOperandStart c
    · rw [startsWith_cons, Bool.eq_false_iff]
      intro hgap
      have hblank := isBlank_of_isGap hgap
      rw [not_isBlank_of_isOperandStart hc] at hblank
      simp at hblank
    · exact absurd (fails_operand (by simpa using hc)) hyields.not_fails

/-- Only the tree of a group between dollars is one of those. -/
theorem spells_dollarGroup_iff {t : Text} {o : Operand} (ht : Rule.operand.Spells t)
    (ho : o.Proper) (hopen : Opens o.tokens t []) :
    Rule.dollarGroup.Spells t ↔ ∃ first links, o = .dollars first links := by
  constructor
  · intro h
    obtain ⟨ps, hyields⟩ := spells_iff.1 h
    obtain ⟨after, mid, rfl, _⟩ := yields_dollarGroup.1 hyields
    by_cases hdollars : ∃ first links, o = .dollars first links
    · exact hdollars
    · have hstart := Operand.not_startsWith_dollar ho
        (fun first links heq ↦ hdollars ⟨first, links, heq⟩) hopen
      rw [afterGap_of_not rfl] at hstart
      simp at hstart
  · rintro ⟨first, links, rfl⟩
    obtain ⟨e, he, _⟩ := exists_dollarGroup (first.isRead ho.1) (links.areRead ho.2) hopen
    rw [afterGap_of_spells_operand ht] at he
    exact spells_iff.2 ⟨_, he⟩

theorem exists_links {links : List (Operation × Text)}
    (hlinks : ∀ link ∈ links, link.1.Proper ∧ Rule.operand.Spells link.2) :
    ∃ trees : Links, trees.Proper ∧ (trees = .done → links = []) ∧
      ∀ s rest, Opens (links.flatMap fun link ↦ [link.1.written, link.2]) s rest →
        Opens trees.tokens s rest := by
  induction links with
  | nil => exact ⟨.done, trivial, fun _ ↦ rfl, fun s rest h ↦ h⟩
  | cons link links ih =>
    obtain ⟨trees, htrees, _, hopens⟩ := ih fun link' hlink' ↦
      hlinks link' (List.mem_cons_of_mem _ hlink')
    obtain ⟨hoperation, hspells⟩ := hlinks link List.mem_cons_self
    obtain ⟨operand, hoperand, _, hopen⟩ := exists_tree hspells
    refine ⟨.next link.1 operand trees, ⟨hoperation, hoperand, htrees⟩, nofun, ?_⟩
    rintro s rest ⟨after, hafter, mid, hmid, hmore⟩
    exact ⟨after, hafter, opens_append.2 ⟨mid, hopen after mid hmid, hopens mid rest hmore⟩⟩

/-- The trees of a chain: they are read from it, and the first one tells whether the first operand
is a group between dollars. -/
theorem IsChain.exists_trees {c first : Text} {links : List (Operation × Text)}
    (h : IsChain c first links) :
    ∃ (tree : Operand) (trees : Links), tree.Proper ∧ trees.Proper ∧ trees ≠ .done ∧
      Spaced (tree.tokens ++ trees.tokens) c ∧
      (Rule.dollarGroup.Spells first ↔ ∃ f ls, tree = .dollars f ls) := by
  obtain ⟨tree, htree, hfirst, hopen⟩ := exists_tree h.operand
  obtain ⟨trees, htrees, hdone, hopens⟩ := exists_links h.later
  obtain ⟨rest, ⟨mid, hmid, hmore⟩, hrest⟩ := h.spaced
  exact ⟨tree, trees, htree, htrees, fun hnil ↦ h.nonempty (hdone hnil),
    ⟨rest, opens_append.2 ⟨mid, hopen c mid hmid, hopens mid rest hmore⟩, hrest⟩,
    spells_dollarGroup_iff h.operand htree hfirst⟩

/-- A chain between dollars is a group. -/
theorem spaced_dollars {first : Operand} {links : Links} (hfirst : first.Proper)
    (hlinks : links.Proper) {c : Text} (hc : Spaced (first.tokens ++ links.tokens) c) :
    Spaced (Operand.dollars first links).tokens ('$' :: c ++ ['$']) := by
  obtain ⟨rest, hopen, hrest⟩ := hc
  have hnil : [] ∉ first.tokens ++ links.tokens := by
    simp [first.nil_not_mem hfirst, links.nil_not_mem hlinks]
  have hclose : afterGap (rest ++ ['$']) = ['$'] := afterGap_append hrest
  refine ⟨[], ⟨c ++ ['$'], afterGap_of_not rfl, opens_append.2 ⟨rest ++ ['$'], ?_, ?_⟩⟩, rfl⟩
  · exact hopen.append hnil ['$']
  · rw [opens_singleton, hclose]
    rfl

/-! ### With and without dollars -/

/-- A chain means the same with and without dollars around it, if and only if its first operand is
no group between dollars or the chain has no value anyway. Otherwise it is not read without them. -/
theorem resolve_chain_iff_enclosed (scope : Scope) {c first : Text}
    {links : List (Operation × Text)} (h : IsChain c first links) :
    ((∀ p, scope.resolve c = .ok p ↔ scope.resolve ('$' :: c ++ ['$']) = .ok p) ↔
      ¬ Rule.dollarGroup.Spells first ∨ ∀ p, scope.resolve ('$' :: c ++ ['$']) ≠ .ok p) ∧
    (¬ Rule.dollarGroup.Spells first → scope.resolve c = scope.resolve ('$' :: c ++ ['$'])) ∧
    (Rule.dollarGroup.Spells first → scope.resolve c = .error (.unreadable (trim c))) := by
  obtain ⟨tree, trees, htree, htrees, hdone, hc, hdollars⟩ := h.exists_trees
  have henclosed : scope.resolve ('$' :: c ++ ['$']) = chainValue scope tree trees :=
    resolve_dollars ⟨htree, htrees⟩ (spaced_dollars htree htrees hc) scope
  have hplain : ¬ Rule.dollarGroup.Spells first →
      scope.resolve c = scope.resolve ('$' :: c ++ ['$']) := by
    intro hfirst
    rw [henclosed]
    exact resolve_chain htree htrees hdone
      (fun f ls heq ↦ hfirst (hdollars.2 ⟨f, ls, heq⟩)) hc scope
  have hunread : Rule.dollarGroup.Spells first →
      scope.resolve c = .error (.unreadable (trim c)) := by
    intro hfirst
    obtain ⟨f, ls, rfl⟩ := hdollars.1 hfirst
    exact resolve_chain_of_dollars htree htrees hdone hc scope
  refine ⟨⟨fun hsame ↦ ?_, ?_⟩, hplain, hunread⟩
  · by_cases hfirst : Rule.dollarGroup.Spells first
    · refine Or.inr fun p hp ↦ ?_
      have hresolve := (hsame p).2 hp
      rw [hunread hfirst] at hresolve
      simp at hresolve
    · exact Or.inl hfirst
  · rintro (hfirst | hnone) p
    · rw [hplain hfirst]
    · by_cases hfirst : Rule.dollarGroup.Spells first
      · rw [hunread hfirst]
        exact ⟨nofun, fun hp ↦ absurd hp (hnone p)⟩
      · rw [hplain hfirst]

/-- Groups of every kind after a group between parentheses. -/
theorem resolve_chain_iff_enclosed_groups :
    let scope : Scope := ⟨[("A".toList, Point.ofVec ⟨1, 2⟩), ("B".toList, Point.ofVec ⟨3, 4⟩)]⟩
    let c : Text := "( A !0.5! (1, 2) ) -|$A$+ ($ $B$ $)!-2!B ".toList
    let links : List (Operation × Text) :=
      [(.project, "$A$".toList), (.add, "($ $B$ $)".toList), (.interpolate "-2".toList, "B".toList)]
    IsChain c "( A !0.5! (1, 2) )".toList links ∧
      scope.resolve c = scope.resolve ('$' :: c ++ ['$']) := by
  intro scope c links
  have hchain : IsChain c "( A !0.5! (1, 2) )".toList links := by
    refine ⟨by decide +kernel, ?_, by decide, by decide +kernel⟩
    intro link hlink
    simp only [links, List.mem_cons, List.not_mem_nil, or_false] at hlink
    rcases hlink with rfl | rfl | rfl
    · exact ⟨trivial, by decide +kernel⟩
    · exact ⟨trivial, by decide +kernel⟩
    · exact ⟨by unfold Operation.Proper; decide +kernel, by decide +kernel⟩
  exact ⟨hchain, (resolve_chain_iff_enclosed scope hchain).2.1 (by decide +kernel)⟩

/-- With a group between dollars in front, the chain is read only if it has dollars of its own. -/
theorem leading_group_needs_dollars :
    let scope : Scope := ⟨[("A".toList, Point.ofVec ⟨1, 2⟩), ("B".toList, Point.ofVec ⟨3, 4⟩)]⟩
    IsChain "$A$+B".toList "$A$".toList [(.add, "B".toList)] ∧
      ¬ ∀ p, scope.resolve "$A$+B".toList = .ok p ↔ scope.resolve "$$A$+B$".toList = .ok p := by
  intro scope
  have hchain : IsChain "$A$+B".toList "$A$".toList [(.add, "B".toList)] := by
    refine ⟨by decide +kernel, ?_, by decide, by decide +kernel⟩
    intro link hlink
    obtain rfl := List.mem_singleton.1 hlink
    exact ⟨trivial, by decide +kernel⟩
  have hbare : read? (trim "$A$+B".toList) = none := by decide +kernel
  have hdollars : read? (trim "$$A$+B$".toList) =
      some (.combine .add (.name "A".toList) (.name "B".toList)) := by decide +kernel
  refine ⟨hchain, fun hsame ↦ ?_⟩
  have hvalue : scope.resolve "$$A$+B$".toList =
      .ok ((Point.ofVec ⟨1, 2⟩).add (Point.ofVec ⟨3, 4⟩)) := by
    rw [Scope.resolve, hdollars]
    rfl
  have hresolve := (hsame _).2 hvalue
  rw [Scope.resolve, hbare] at hresolve
  simp at hresolve

end DiagramMacros
