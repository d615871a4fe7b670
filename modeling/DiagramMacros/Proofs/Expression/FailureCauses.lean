import DiagramMacros.Proofs.Expression.TreeWalk
/-!
Why a coordinate expression has no value, traced back to its text. A text that the grammar does not
match is reported as a whole. Every other failure points to something in the parse tree: a name that
is not defined, a component or a factor that is no finite number, or two lines that do not cross,
which only an intersection has. A walk through the tree adds nothing to that
(`resolve_failure_causes`).
-/

set_option autoImplicit false
set_option relaxedAutoImplicit false

namespace DiagramMacros

open Expression

/-- The number written in an operation. -/
def Operation.numbers : Operation → List Text
  | interpolate factor => [factor]
  | _ => []

namespace Expression

/-- The numbers written in an expression. -/
def numbers : Expression → List Text
  | cartesian x y => [x, y]
  | polar angle length => [angle, length]
  | name _ => []
  | combine o left right => left.numbers ++ right.numbers ++ o.numbers
  | crossing a₁ a₂ b₁ b₂ => a₁.numbers ++ a₂.numbers ++ b₁.numbers ++ b₂.numbers

/-- The numbers written in a part of an expression. -/
def Part.numbers : Part → List Text
  | written t => [t]
  | operation o => o.numbers
  | operand e => e.numbers

/-- The texts of the components and of the factors in the parse tree of a coordinate expression. -/
def numbersIn (s : Text) : List Text :=
  ((Rule.coordinateExpression.parse s).map fun m ↦
    m.1.textsOf .component ++ m.1.textsOf .number).getD []

theorem numbers_of_chain? {first e : Expression} {rest : List Part}
    (h : chain? first rest = some e) : e.numbers ⊆ first.numbers ++ rest.flatMap Part.numbers := by
  fun_induction chain? first rest with
  | case1 first =>
    obtain rfl := Option.some.inj h
    simp
  | case2 first o operand rest ih =>
    refine List.Subset.trans (ih h) fun t ht ↦ ?_
    simp only [numbers, Part.numbers, List.flatMap_cons, List.mem_append] at ht ⊢
    tauto
  | case3 => simp at h

/-- A node writes what its parts write, and its text if it is a component or a factor. -/
theorem numbers_of_ofNode (rule : Rule) (text : Text) (inside : List Part) :
    (ofNode rule text inside).flatMap Part.numbers ⊆
      (if rule = .component ∨ rule = .number then [text] else []) ++
        inside.flatMap Part.numbers := by
  unfold ofNode
  split
  case h_9 first rest =>
    cases hchain : chain? first rest with
    | none => simp
    | some e => simpa [Part.numbers] using numbers_of_chain? hchain
  all_goals simp [Part.numbers, numbers, Operation.numbers]

theorem numbers_of_parts (f : Forest Rule) :
    (parts f).flatMap Part.numbers ⊆ f.textsOf .component ++ f.textsOf .number := by
  induction f with
  | nil => simp [parts]
  | text piece next ih => exact ih
  | node rule inside next hinside hnext =>
    intro t ht
    rw [parts, List.flatMap_append, List.mem_append] at ht
    simp only [Forest.textsOf, List.mem_append]
    rcases ht with ht | ht
    · rcases List.mem_append.1 (numbers_of_ofNode rule _ _ ht) with htext | ht
      · split at htext
        · rename_i hrule
          rcases hrule with rfl | rfl <;> simp [List.mem_singleton.1 htext]
        · exact absurd htext List.not_mem_nil
      · have := List.mem_append.1 (hinside ht)
        tauto
    · have := List.mem_append.1 (hnext ht)
      tauto

theorem numbers_subset_numbersIn {s : Text} {e : Expression} (h : read? s = some e) :
    e.numbers ⊆ numbersIn s := by
  obtain ⟨⟨f, rest⟩, hparse, he⟩ := Option.bind_eq_some_iff.1 h
  have hnumbers := numbers_of_parts f
  rw [parts_of_ofForest? he] at hnumbers
  rw [numbersIn, hparse]
  simpa [Part.numbers] using hnumbers

end Expression

namespace Scope

variable {scope : Scope} {e e' : Expression} {failure : Failure}

/-- What in an expression a failure of its evaluation points to. -/
inductive FailsBy (scope : Scope) (e : Expression) : Failure → Prop
  | name {n : Text} (hn : n ∈ e.names) (hnone : scope.get? n = none) :
    FailsBy scope e (.unknownCoordinate n)
  | number {t : Text} (ht : t ∈ e.numbers)
    (hbad : readNumber t = .error (.invalidNumber (Text.trim t))) :
    FailsBy scope e (.invalidNumber (Text.trim t))
  | crossing (h : e.isUncrossed = false) : FailsBy scope e .parallelLines

/-- What a part of an expression fails by, the expression fails by. -/
theorem FailsBy.mono (h : FailsBy scope e failure) (hnames : e.names ⊆ e'.names)
    (hnumbers : e.numbers ⊆ e'.numbers) (hcrossed : e'.isUncrossed → e.isUncrossed) :
    FailsBy scope e' failure := by
  cases h with
  | name hn hnone => exact .name (hnames hn) hnone
  | number ht hbad => exact .number (hnumbers ht) hbad
  | crossing h =>
    refine .crossing (Bool.eq_false_iff.2 fun hall ↦ ?_)
    rw [hcrossed hall] at h
    exact Bool.noConfusion h

theorem failsBy_readNumber {t : Text} (ht : t ∈ e.numbers) (h : readNumber t = .error failure) :
    FailsBy scope e failure := by
  have hfailure : failure = .invalidNumber (Text.trim t) := by
    rw [readNumber] at h
    split at h
    · split at h
      · exact absurd h ok_ne_error
      · exact (Except.error.inj h).symm
    · exact (Except.error.inj h).symm
  subst hfailure
  exact .number ht h

theorem failsBy_lookup {n : Text} (h : scope.lookup n = .error failure) :
    FailsBy scope (.name n) failure := by
  rw [lookup] at h
  split at h
  · exact absurd h ok_ne_error
  · rename_i hnone
    obtain rfl := Except.error.inj h
    exact .name (List.mem_singleton_self n) hnone

theorem failsBy_combine {p q : Point Float} {o : Operation} {left right : Expression}
    (h : Scope.combine p q o = .error failure) :
    FailsBy scope (.combine o left right) failure := by
  cases o with
  | add => exact absurd h ok_ne_error
  | project => exact absurd h ok_ne_error
  | interpolate factor =>
    rcases bind_eq_error_iff.1 h with h | ⟨_, _, h⟩
    · exact failsBy_readNumber (by simp [numbers, Operation.numbers]) h
    · exact absurd h ok_ne_error

theorem failsBy_of_evaluate (h : scope.evaluate e = .error failure) : FailsBy scope e failure := by
  induction e with
  | cartesian x y =>
    rcases bind_eq_error_iff.1 h with h | ⟨_, _, h⟩
    · exact failsBy_readNumber (by simp [numbers]) h
    · rcases bind_eq_error_iff.1 h with h | ⟨_, _, h⟩
      · exact failsBy_readNumber (by simp [numbers]) h
      · exact absurd h ok_ne_error
  | polar angle length =>
    rcases bind_eq_error_iff.1 h with h | ⟨_, _, h⟩
    · exact failsBy_readNumber (by simp [numbers]) h
    · rcases bind_eq_error_iff.1 h with h | ⟨_, _, h⟩
      · exact failsBy_readNumber (by simp [numbers]) h
      · exact absurd h ok_ne_error
  | name n => exact failsBy_lookup h
  | combine o left right hleft hright =>
    rcases bind_eq_error_iff.1 h with h | ⟨_, _, h⟩
    · exact (hleft h).mono (by simp [names]) (by simp [numbers]) (by simp +contextual [isUncrossed])
    · rcases bind_eq_error_iff.1 h with h | ⟨_, _, h⟩
      · exact (hright h).mono (by simp [names]) (by simp [numbers])
          (by simp +contextual [isUncrossed])
      · exact failsBy_combine h
  | crossing a₁ a₂ b₁ b₂ ha₁ ha₂ hb₁ hb₂ =>
    have hpoint {e : Expression} (he : e ∈ [a₁, a₂, b₁, b₂]) (hfails : FailsBy scope e failure) :
        FailsBy scope (.crossing a₁ a₂ b₁ b₂) failure := by
      simp only [List.mem_cons, List.not_mem_nil, or_false] at he
      rcases he with rfl | rfl | rfl | rfl <;>
        exact hfails.mono (fun n hn ↦ by simp [names, hn]) (fun t ht ↦ by simp [numbers, ht])
          fun hall ↦ Bool.noConfusion hall
    rcases bind_eq_error_iff.1 h with h | ⟨_, _, h⟩
    · exact hpoint (by simp) (ha₁ h)
    rcases bind_eq_error_iff.1 h with h | ⟨_, _, h⟩
    · exact hpoint (by simp) (ha₂ h)
    rcases bind_eq_error_iff.1 h with h | ⟨_, _, h⟩
    · exact hpoint (by simp) (hb₁ h)
    rcases bind_eq_error_iff.1 h with h | ⟨_, _, h⟩
    · exact hpoint (by simp) (hb₂ h)
    · rw [Scope.crossing, Line.intersection] at h
      split at h
      · exact absurd h ok_ne_error
      · obtain rfl := Except.error.inj h
        exact .crossing rfl

/-- A text is resolved to the value of the expression that its parse tree stands for, unless it has
no parse tree. -/
theorem resolve_cases (scope : Scope) (text : Text) :
    Rule.coordinateExpression.parse (Text.trim text) = none ∧
      scope.resolve text = .error (.unreadable (Text.trim text)) ∨
    ∃ m e, Rule.coordinateExpression.parse (Text.trim text) = some m ∧
      Expression.read? (Text.trim text) = some e ∧ scope.resolve text = scope.evaluate e ∧
      (form? (Text.trim text) ≠ some .intersection → e.isUncrossed) := by
  rw [resolve]
  cases hparse : Rule.coordinateExpression.parse (Text.trim text) with
  | none => exact .inl ⟨rfl, by rw [read?, hparse, Option.bind_none]⟩
  | some m =>
    obtain ⟨e, he, _, hcrossed⟩ := treeValue_of_parse scope hparse
    have hread : Expression.read? (Text.trim text) = some e := by
      rw [read?, hparse, Option.bind_some, he]
    exact .inr ⟨m, e, rfl, hread, by rw [hread], hcrossed⟩

end Scope

/-- What resolving a text reports. A walk through the parse tree finds the same as the expression
read off it, and no misfit in any tree that the grammar leaves of any text. The text is reported,
without the blanks around it, if and only if the grammar does not match it. A name that is reported
is in the tree and not defined. A number that is reported is, without the blanks around it, a
component or a factor in the tree. Lines that do not cross are those of an intersection. -/
theorem resolve_failure_causes (scope : Scope) (text : Text) :
    (∀ s f rest misfit, Rule.coordinateExpression.parse s = some (f, rest) →
      scope.treeValue f ≠ .error (.misfit misfit)) ∧
    scope.resolveOnTree text = onTree (scope.resolve text) ∧
    (∀ t, scope.resolve text = .error (.unreadable t) ↔
      Rule.coordinateExpression.parse (Text.trim text) = none ∧ t = Text.trim text) ∧
    (∀ name, scope.resolve text = .error (.unknownCoordinate name) →
      name ∈ namesIn (Text.trim text) ∧ scope.get? name = none) ∧
    (∀ t, scope.resolve text = .error (.invalidNumber t) →
      ∃ number ∈ numbersIn (Text.trim text), t = Text.trim number) ∧
    (scope.resolve text = .error .parallelLines →
      form? (Text.trim text) = some .intersection) := by
  refine ⟨fun s f rest misfit hparse h ↦ ?_, Scope.resolveOnTree_eq text, ?_⟩
  · obtain ⟨e, _, hvalue, _⟩ := Scope.treeValue_of_parse scope hparse
    rw [hvalue] at h
    cases hevaluate : scope.evaluate e <;> rw [hevaluate] at h <;> exact absurd h nofun
  rcases scope.resolve_cases text with ⟨hnone, hresolve⟩ | ⟨m, e, hparse, hread, hresolve, hcrossed⟩
  · rw [hnone, hresolve]
    refine ⟨fun t ↦ ?_, nofun, nofun, nofun⟩
    simp [eq_comm]
  · rw [hparse, hresolve]
    refine ⟨fun t ↦ ?_, fun n h ↦ ?_, fun t h ↦ ?_, fun h ↦ ?_⟩
    · refine ⟨fun h ↦ ?_, fun h ↦ absurd h.1 nofun⟩
      cases Scope.failsBy_of_evaluate h
    · cases Scope.failsBy_of_evaluate h with
      | name hn hnone => exact ⟨names_subset_namesIn hread hn, hnone⟩
    · generalize hfailure : Failure.invalidNumber t = failure at h
      cases Scope.failsBy_of_evaluate h with
      | number ht =>
        obtain rfl := Failure.invalidNumber.inj hfailure
        exact ⟨_, numbers_subset_numbersIn hread ht, rfl⟩
      | name | crossing => exact absurd hfailure nofun
    · by_contra hform
      cases Scope.failsBy_of_evaluate h with
      | crossing hcross =>
        rw [hcrossed hform] at hcross
        exact Bool.noConfusion hcross

theorem resolve_failure_causes_each :
    ({} : Scope).resolve "x ,2".toList = .error (.invalidNumber "x".toList) ∧
      (∃ number ∈ numbersIn "x ,2".toList, "x".toList = Text.trim number) ∧
      ({} : Scope).resolve "A+(1,0)".toList = .error (.unknownCoordinate "A".toList) ∧
      ("A".toList ∈ namesIn "A+(1,0)".toList ∧ ({} : Scope).get? "A".toList = none) ∧
      ({} : Scope).resolve "(0,0)--(1,1) and (0,1)--(1,2)".toList = .error .parallelLines ∧
      form? "(0,0)--(1,1) and (0,1)--(1,2)".toList = some .intersection := by
  have hfails (text : Text) (failure : Failure)
      (h : (({} : Scope).resolve text).map (fun _ ↦ ()) = .error failure) :
      ({} : Scope).resolve text = .error failure := map_eq_error_iff.1 h
  have hnumber := hfails "x ,2".toList (.invalidNumber "x".toList)
    (by decide +kernel)
  have hname := hfails "A+(1,0)".toList (.unknownCoordinate "A".toList)
    (by decide +kernel)
  have hparallel := hfails "(0,0)--(1,1) and (0,1)--(1,2)".toList .parallelLines
    (by decide +kernel)
  exact ⟨hnumber, (resolve_failure_causes {} _).2.2.2.2.1 _ hnumber, hname,
    (resolve_failure_causes {} _).2.2.2.1 _ hname, hparallel,
    (resolve_failure_causes {} _).2.2.2.2.2 hparallel⟩

end DiagramMacros
