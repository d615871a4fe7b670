import DiagramMacros.Proofs.Outcome
import DiagramMacros.Scope
/-!
The failures of coordinate expressions. A text that is resolved in a scope is no expression, or has
a number that is none, or a name that is not defined, or lines that do not cross
(`Scope.failsInExpression_resolve`). Whatever fails for another reason fails outside an expression.
-/

set_option autoImplicit false
set_option relaxedAutoImplicit false

namespace DiagramMacros

/-- Whether a failure is about a coordinate expression, and not about a call or a path around it. -/
def Failure.isOfExpression : Failure → Bool
  | unknownCoordinate _ | invalidNumber _ | unreadable _ | parallelLines => true
  | malformedCall _ | stuckPath _ | missingAnchor => false

/-- If this fails, it is about a coordinate expression. -/
def FailsInExpression {α : Type} (r : Except Failure α) : Prop :=
  ∀ ⦃failure : Failure⦄, r = .error failure → failure.isOfExpression

section Steps

variable {α β : Type}

theorem failsInExpression_ok (a : α) : FailsInExpression (.ok a) := nofun

theorem failsInExpression_error {failure : Failure} (h : failure.isOfExpression) :
    FailsInExpression (.error failure : Except Failure α) := by
  rintro _ ⟨⟩
  exact h

theorem FailsInExpression.bind {r : Except Failure α} {f : α → Except Failure β}
    (hr : FailsInExpression r) (hf : ∀ a, FailsInExpression (f a)) :
    FailsInExpression (r >>= f) := by
  intro failure h
  rcases bind_eq_error_iff.1 h with h | ⟨a, _, h⟩
  · exact hr h
  · exact hf a h

end Steps

namespace Scope

variable (scope : Scope)

theorem failsInExpression_lookup (name : Text) : FailsInExpression (scope.lookup name) := by
  rw [lookup]
  split
  · exact failsInExpression_ok _
  · exact failsInExpression_error rfl

theorem failsInExpression_readNumber (written : Text) :
    FailsInExpression (readNumber written) := by
  rw [readNumber]
  split
  · split
    · exact failsInExpression_ok _
    · exact failsInExpression_error rfl
  · exact failsInExpression_error rfl

theorem failsInExpression_combine (p q : Point Float) (operation : Operation) :
    FailsInExpression (combine p q operation) := by
  cases operation with
  | add => exact failsInExpression_ok _
  | project => exact failsInExpression_ok _
  | interpolate factor =>
    exact (failsInExpression_readNumber factor).bind fun _ ↦ failsInExpression_ok _

theorem failsInExpression_crossing (a₁ a₂ b₁ b₂ : Point Float) :
    FailsInExpression (crossing a₁ a₂ b₁ b₂) := by
  rw [crossing, Line.intersection]
  split
  · exact failsInExpression_ok _
  · exact failsInExpression_error rfl

theorem failsInExpression_evaluate (e : Expression) : FailsInExpression (scope.evaluate e) := by
  induction e with
  | cartesian x y =>
    exact (failsInExpression_readNumber x).bind fun _ ↦
      (failsInExpression_readNumber y).bind fun _ ↦ failsInExpression_ok _
  | polar angle length =>
    exact (failsInExpression_readNumber angle).bind fun _ ↦
      (failsInExpression_readNumber length).bind fun _ ↦ failsInExpression_ok _
  | name name => exact scope.failsInExpression_lookup name
  | combine operation left right hleft hright =>
    exact hleft.bind fun p ↦ hright.bind fun q ↦ failsInExpression_combine p q operation
  | crossing a₁ a₂ b₁ b₂ ha₁ ha₂ hb₁ hb₂ =>
    exact ha₁.bind fun p₁ ↦ ha₂.bind fun p₂ ↦ hb₁.bind fun q₁ ↦ hb₂.bind fun q₂ ↦
      failsInExpression_crossing p₁ p₂ q₁ q₂

theorem failsInExpression_resolve (text : Text) : FailsInExpression (scope.resolve text) := by
  rw [resolve]
  split
  · exact scope.failsInExpression_evaluate _
  · exact failsInExpression_error rfl

end Scope

end DiagramMacros
