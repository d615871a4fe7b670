import DiagramMacros.Proofs.Grammar.Closed
/-!
The outermost nodes of a match. An expression without repetitions leaves one of finitely many rows
of nodes, which can be read off the expression, and each node is what its rule leaves of some text
(`Peg.nodes_of_scan`).
-/

set_option autoImplicit false
set_option relaxedAutoImplicit false

namespace DiagramMacros

namespace Forest

theorem nodes_append (f g : Forest Rule) : (f ++ g).nodes = f.nodes ++ g.nodes := by
  show (append f g).nodes = _
  induction f with
  | nil => rfl
  | text piece next ih => exact ih
  | node rule inside next _ ih => exact congrArg (_ :: ·) ih

theorem length_inside (rule : Rule) (f : Forest Rule) :
    (f.inside rule).length = (f.nodes.map Prod.fst).count rule := by
  rw [inside, List.length_filterMap_eq_countP, List.count_eq_countP, List.countP_map]
  refine List.countP_congr fun n _ ↦ ?_
  by_cases h : n.1 = rule <;> simp [h]

/-- A rule that has nodes has a first one. -/
theorem exists_first {rule : Rule} {f : Forest Rule} (h : rule ∈ f.nodes.map Prod.fst) :
    ∃ inside, (rule, inside) ∈ f.nodes ∧ (f.inside rule).head? = some inside := by
  have hne : f.inside rule ≠ [] := by
    rw [← List.length_pos_iff, length_inside]
    exact List.count_pos_iff.2 h
  obtain ⟨first, more, hfirst⟩ := List.exists_cons_of_ne_nil hne
  have hmem : first ∈ f.inside rule := hfirst ▸ List.mem_cons_self
  obtain ⟨⟨rule', inside⟩, hnode, heq⟩ := List.mem_filterMap.1 hmem
  obtain ⟨rfl, rfl⟩ : rule' = rule ∧ inside = first := by simpa using heq
  exact ⟨inside, hnode, by rw [hfirst]; rfl⟩

/-- The text of a rule that has a node is the text inside such a node. -/
theorem exists_textOf {rule : Rule} {f : Forest Rule} (h : rule ∈ f.nodes.map Prod.fst) :
    ∃ inside, (rule, inside) ∈ f.nodes ∧ f.textOf rule = inside.flatten := by
  obtain ⟨inside, hnode, hhead⟩ := exists_first h
  exact ⟨inside, hnode, by rw [textOf, hhead]; rfl⟩

theorem exists_textIn {outer : Rule} (inner : Rule) {f : Forest Rule}
    (h : outer ∈ f.nodes.map Prod.fst) :
    ∃ inside, (outer, inside) ∈ f.nodes ∧ f.textIn outer inner = inside.textOf inner := by
  obtain ⟨inside, hnode, hhead⟩ := exists_first h
  exact ⟨inside, hnode, by rw [textIn, hhead]; rfl⟩

end Forest

namespace Peg

variable {e : Peg Rule} {spaced : Bool} {s rest : Text} {f : Forest Rule}

/-- A node and its rule, as the rule leaves it of some text. -/
def IsNode (spaced : Bool) (n : Rule × Forest Rule) : Prop :=
  ∃ s rest, diagramGrammar.parseAt n.1 spaced s = some (.node n.1 n.2 .nil, rest)

/-- Whether an expression has no repetition and calls no silent rule. -/
def isFixed : Peg Rule → Bool
  | lit _ | anyCase _ | one _ | absent _ => true
  | seq a b | alt a b => a.isFixed && b.isFixed
  | star _ => false
  | call rule => rule.kind != .silent

/-- The rows of rules whose nodes an expression without repetitions may leave. -/
def outlines : Peg Rule → List (List Rule)
  | lit _ | anyCase _ | one _ | absent _ => [[]]
  | seq a b => a.outlines.flatMap fun first ↦ b.outlines.map (first ++ ·)
  | alt a b => a.outlines ++ b.outlines
  | star _ => []
  | call rule => [[rule]]

theorem scan_alt_eq_some {a b : Peg Rule} {m : Forest Rule × Text}
    (h : (alt a b).scan spaced s = some m) :
    a.scan spaced s = some m ∨ b.scan spaced s = some m := by
  simp only [scan, read] at h ⊢
  split at h
  · exact Or.inr h
  · rename_i hfirst
    exact Or.inl (hfirst.trans h)

theorem nodes_of_scan (he : e.isFixed) (h : e.scan spaced s = some (f, rest)) :
    f.nodes.map Prod.fst ∈ e.outlines ∧ ∀ n ∈ f.nodes, IsNode spaced n := by
  have hnone {e : Peg Rule} (houtlines : e.outlines = [[]]) {f : Forest Rule} (hf : f.nodes = []) :
      f.nodes.map Prod.fst ∈ e.outlines ∧ ∀ n ∈ f.nodes, IsNode spaced n := by
    rw [houtlines, hf]
    exact ⟨List.mem_singleton_self _, by simp⟩
  induction e generalizing s f rest with
  | lit t =>
    obtain ⟨_, _, heq⟩ := Option.map_eq_some_iff.1 h
    obtain ⟨rfl, _⟩ := Prod.mk.inj heq
    exact hnone rfl rfl
  | anyCase t =>
    obtain ⟨_, _, heq⟩ := Option.map_eq_some_iff.1 h
    obtain ⟨rfl, _⟩ := Prod.mk.inj heq
    exact hnone rfl rfl
  | one accepts =>
    cases s with
    | nil => simp [scan, read] at h
    | cons c s =>
      simp only [scan, read, Option.ite_none_right_eq_some] at h
      obtain ⟨rfl, _⟩ := Prod.mk.inj (Option.some.inj h.2)
      exact hnone rfl rfl
  | seq a b iha ihb =>
    rw [isFixed, Bool.and_eq_true] at he
    obtain ⟨first, mid, second, hfirst, hsecond, rfl⟩ := scan_seq_eq_some_iff.1 h
    obtain ⟨hrow, hnodes⟩ := iha he.1 hfirst
    obtain ⟨hrow', hnodes'⟩ := ihb he.2 hsecond
    rw [Forest.nodes_append, List.map_append]
    exact ⟨List.mem_flatMap.2 ⟨_, hrow, List.mem_map_of_mem hrow'⟩,
      List.forall_mem_append.2 ⟨hnodes, hnodes'⟩⟩
  | alt a b iha ihb =>
    rw [isFixed, Bool.and_eq_true] at he
    rcases scan_alt_eq_some h with h | h
    · exact (iha he.1 h).imp_left (List.mem_append_left _)
    · exact (ihb he.2 h).imp_left (List.mem_append_right _)
  | star e _ => exact Bool.noConfusion he
  | absent e _ =>
    simp only [scan, read] at h
    split at h
    · obtain ⟨rfl, _⟩ := Prod.mk.inj (Option.some.inj h)
      exact hnone rfl rfl
    · simp at h
  | call rule =>
    obtain ⟨inside, rfl⟩ := Rule.exists_node (bne_iff_ne.1 he) h
    refine ⟨List.mem_singleton_self _, fun n hn ↦ ?_⟩
    obtain rfl := List.mem_singleton.1 hn
    exact ⟨s, rest, h⟩

/-! ### Arguments -/

/-- The body of a group is a text of whole groups. -/
theorem isBalanced_of_groupBody (h : IsNode spaced (.groupBody, f)) :
    IsBalanced '{' '}' ['{', '}'] f.flatten := by
  obtain ⟨s, rest, hparse⟩ := h
  have htoken : Rule.groupBody.kind = .token := rfl
  obtain ⟨t, ps, rfl, hyields, heq⟩ := (scan_token_iff htoken).1 hparse
  obtain ⟨t', ht, hbalanced⟩ := isBalanced_of_yields nests_brace hyields
  obtain rfl := List.append_cancel_right ht
  obtain ⟨-, rfl, -⟩ := Forest.node.inj heq
  rwa [Forest.flatten, Forest.flatten, List.append_nil]

/-- The text of an argument is a text of whole groups. -/
theorem isBalanced_of_argument (h : IsNode spaced (.argument, f)) :
    IsBalanced '{' '}' ['{', '}'] (f.textOf .groupBody) := by
  obtain ⟨s, rest, hparse⟩ := h
  obtain ⟨inside, hbody, heq⟩ := scan_call_eq_some_iff.1 hparse
  obtain ⟨-, rfl, -⟩ := Forest.node.inj heq
  obtain ⟨hrow, hnodes⟩ := nodes_of_scan rfl hbody
  have houtlines : ∀ rules ∈ Rule.argument.body.outlines, Rule.groupBody ∈ rules := by decide
  obtain ⟨body, hnode, htext⟩ := Forest.exists_textOf (houtlines _ hrow)
  rw [htext]
  exact isBalanced_of_groupBody (hnodes _ hnode)

end Peg

end DiagramMacros
