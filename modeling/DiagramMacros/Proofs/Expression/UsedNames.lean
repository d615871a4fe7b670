import DiagramMacros.Scope
/-!
The names that a coordinate expression uses. They are the texts of the name nodes in its parse tree
(`namesIn`). Whatever is looked up while the expression is evaluated is one of them
(`names_subset_namesIn`), so two scopes that agree on them give the same outcome (`resolve_congr`).
-/

set_option autoImplicit false
set_option relaxedAutoImplicit false

namespace DiagramMacros

/-- The texts of the nodes of a rule, at every depth. -/
def Forest.textsOf {ρ : Type} [DecidableEq ρ] (rule : ρ) : Forest ρ → List Text
  | nil => []
  | text _ next => textsOf rule next
  | node r inside next =>
    (if r = rule then [inside.flatten] else []) ++ textsOf rule inside ++ textsOf rule next

namespace Expression

/-- The names in an expression. -/
def names : Expression → List Text
  | cartesian _ _ | polar _ _ => []
  | name n => [n]
  | combine _ left right => left.names ++ right.names
  | crossing a₁ a₂ b₁ b₂ => a₁.names ++ a₂.names ++ b₁.names ++ b₂.names

/-- The names in a part of an expression. -/
def Part.names : Part → List Text
  | operand e => e.names
  | _ => []

/-- The texts of the name nodes in the parse tree of a coordinate expression. -/
def namesIn (s : Text) : List Text :=
  ((Rule.coordinateExpression.parse s).map fun m ↦ m.1.textsOf .name).getD []

theorem names_of_chain? {first e : Expression} {rest : List Part}
    (h : chain? first rest = some e) : e.names ⊆ first.names ++ rest.flatMap Part.names := by
  fun_induction chain? first rest with
  | case1 first =>
    obtain rfl := Option.some.inj h
    simp
  | case2 first o operand rest ih =>
    have hrest := ih h
    simpa [names, Part.names] using hrest
  | case3 => simp at h

/-- A node names what its parts name, and itself if it is a name. -/
theorem names_of_ofNode (rule : Rule) (text : Text) (inside : List Part) :
    (ofNode rule text inside).flatMap Part.names ⊆
      (if rule = .name then [text] else []) ++ inside.flatMap Part.names := by
  unfold ofNode
  split
  case h_9 first rest =>
    cases hchain : chain? first rest with
    | none => simp
    | some e => simpa [Part.names] using names_of_chain? hchain
  all_goals simp [Part.names, names]

theorem names_of_parts (f : Forest Rule) :
    (parts f).flatMap Part.names ⊆ f.textsOf .name := by
  induction f with
  | nil => simp [parts]
  | text piece next ih => exact ih
  | node rule inside next hinside hnext =>
    rw [parts, List.flatMap_append, Forest.textsOf]
    refine List.append_subset.2 ⟨?_, List.Subset.trans hnext (List.subset_append_right _ _)⟩
    refine List.Subset.trans (names_of_ofNode rule _ _) ?_
    refine List.append_subset.2 ⟨?_, List.Subset.trans hinside ?_⟩
    · exact List.subset_append_of_subset_left _ (List.subset_append_left _ _)
    · exact List.subset_append_of_subset_left _ (List.subset_append_right _ _)

theorem parts_of_ofForest? {f : Forest Rule} {e : Expression} (h : ofForest? f = some e) :
    parts f = [.operand e] := by
  unfold ofForest? at h
  split at h
  · rename_i e' heq
    rw [heq, Option.some.inj h]
  · simp at h

theorem names_subset_namesIn {s : Text} {e : Expression} (h : read? s = some e) :
    e.names ⊆ namesIn s := by
  obtain ⟨⟨f, rest⟩, hparse, he⟩ := Option.bind_eq_some_iff.1 h
  have hnames := names_of_parts f
  rw [parts_of_ofForest? he] at hnames
  rw [namesIn, hparse]
  simpa [Part.names] using hnames

end Expression

namespace Scope

variable {scope scope' : Scope}

theorem lookup_congr {name : Text} (h : scope.get? name = scope'.get? name) :
    scope.lookup name = scope'.lookup name := by
  rw [lookup, lookup, h]

theorem evaluate_congr {e : Expression} (h : ∀ name ∈ e.names, scope.get? name = scope'.get? name) :
    scope.evaluate e = scope'.evaluate e := by
  induction e with
  | cartesian x y => rfl
  | polar angle length => rfl
  | name n => exact lookup_congr (h n (List.mem_singleton_self n))
  | combine o left right hleft hright =>
    have hl := hleft fun n hn ↦ h n (List.mem_append_left _ hn)
    have hr := hright fun n hn ↦ h n (List.mem_append_right _ hn)
    rw [evaluate, evaluate, hl, hr]
  | crossing a₁ a₂ b₁ b₂ ha₁ ha₂ hb₁ hb₂ =>
    simp only [Expression.names, List.mem_append, or_assoc] at h
    have h₁ := ha₁ fun n hn ↦ h n (.inl hn)
    have h₂ := ha₂ fun n hn ↦ h n (.inr (.inl hn))
    have h₃ := hb₁ fun n hn ↦ h n (.inr (.inr (.inl hn)))
    have h₄ := hb₂ fun n hn ↦ h n (.inr (.inr (.inr hn)))
    rw [evaluate, evaluate, h₁, h₂, h₃, h₄]

/-- What a text stands for depends only on the names in its parse tree. -/
theorem resolve_congr {text : Text}
    (h : ∀ name ∈ Expression.namesIn (Text.trim text), scope.get? name = scope'.get? name) :
    scope.resolve text = scope'.resolve text := by
  rw [resolve, resolve]
  cases hread : Expression.read? (Text.trim text) with
  | none => rfl
  | some e => exact evaluate_congr fun n hn ↦ h n (Expression.names_subset_namesIn hread hn)

end Scope

end DiagramMacros
