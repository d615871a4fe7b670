import DiagramMacros.Assoc
import DiagramMacros.Expression
import DiagramMacros.Failure
import DiagramMacros.Geometry.Line
import DiagramMacros.Geometry.Point
/-!
Scopes and the values of coordinate expressions. A scope holds the coordinates defined so far, each
under its name. Defining a name again replaces its point, and the names stay in the order of their
first definition.

The value of an expression is found from the left: the operands of an operation before the factor
written in it, and the four points of a crossing before it is known whether the lines cross. The
first failure on the way is the failure of the expression.
-/

set_option autoImplicit false
set_option relaxedAutoImplicit false

namespace DiagramMacros

/-- The coordinates defined so far. -/
structure Scope where
  points : List (Text × Point Float) := []

namespace Scope

/-- The scope with a point under a name. The point carries that name. -/
def define (scope : Scope) (name : Text) (point : Point Float) : Scope :=
  ⟨Assoc.put scope.points name (point.named name)⟩

/-- The point under a name. -/
def get? (scope : Scope) (name : Text) : Option (Point Float) := Assoc.get? scope.points name

/-- The point under a name, which has to be defined. -/
def lookup (scope : Scope) (name : Text) : Except Failure (Point Float) :=
  match scope.get? name with
  | some p => .ok p
  | none => .error (.unknownCoordinate name)

/-- Reads a finite number with blanks around it. -/
def readNumber (written : Text) : Except Failure Float :=
  let trimmed := Text.trim written
  match (Numeral.read? trimmed).map Numeral.toScalar with
  | some v => if Scalar.isFinite v then .ok v else .error (.invalidNumber trimmed)
  | none => .error (.invalidNumber trimmed)

/-- Joins two points by an operation. -/
def combine (p q : Point Float) : Operation → Except Failure (Point Float)
  | .add => .ok (p.add q)
  | .project => .ok (p.project q)
  | .interpolate factor => do
    let t ← readNumber factor
    pure (p.interpolate q t)

/-- The crossing of the line through two points with the line through two others. -/
def crossing (a₁ a₂ b₁ b₂ : Point Float) : Except Failure (Point Float) :=
  (Line.intersection a₁.position a₂.position b₁.position b₂.position).map Point.ofVec

/-- The value of an expression. -/
def evaluate (scope : Scope) : Expression → Except Failure (Point Float)
  | .cartesian x y => do
    let x ← readNumber x
    let y ← readNumber y
    pure (Point.ofVec ⟨x, y⟩)
  | .polar angle length => do
    let angle ← readNumber angle
    let length ← readNumber length
    pure (Point.ofPolar ⟨angle, length⟩)
  | .name name => scope.lookup name
  | .combine operation left right => do
    let p ← scope.evaluate left
    let q ← scope.evaluate right
    combine p q operation
  | .crossing a₁ a₂ b₁ b₂ => do
    let a₁ ← scope.evaluate a₁
    let a₂ ← scope.evaluate a₂
    let b₁ ← scope.evaluate b₁
    let b₂ ← scope.evaluate b₂
    crossing a₁ a₂ b₁ b₂

/-- The point that a text stands for. -/
def resolve (scope : Scope) (text : Text) : Except Failure (Point Float) :=
  let trimmed := Text.trim text
  match Expression.read? trimmed with
  | some e => scope.evaluate e
  | none => .error (.unreadable trimmed)

/-- The point that a text stands for, taken as a step from an anchor. -/
def resolveFrom (scope : Scope) (anchor : Point Float) (text : Text) :
    Except Failure (Point Float) := do
  let step ← scope.resolve text
  pure (anchor.add step)

end Scope

end DiagramMacros
