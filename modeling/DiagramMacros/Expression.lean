import DiagramMacros.Grammar.Rule
/-!
Coordinate expressions. An expression is a pair of components, a polar pair, a name, two expressions
joined by an operation, or the crossing of two lines with two points each. Operations are written
one after the other without precedence, and a chain of them is grouped from the left.

`ofForest?` reads an expression off what the grammar leaves: from the inside outwards, each node
turns the parts found in it into one part of its own, or passes them on.
-/

set_option autoImplicit false
set_option relaxedAutoImplicit false

namespace DiagramMacros

/-- What joins two points. -/
inductive Operation
  /-- the vector sum -/
  | add
  /-- the abscissa of the second point with the ordinate of the first -/
  | project
  /-- the sum times a factor, as it is written -/
  | interpolate (factor : Text)
deriving DecidableEq

/-- A coordinate expression, its numbers as they are written. -/
inductive Expression
  | cartesian (x y : Text)
  | polar (angle length : Text)
  | name (name : Text)
  | combine (operation : Operation) (left right : Expression)
  /-- the crossing of the line through the first two points with the line through the others -/
  | crossing (a₁ a₂ b₁ b₂ : Expression)
deriving DecidableEq

namespace Expression

/-- What a node of the grammar contributes to the node around it. -/
inductive Part
  | written (text : Text)
  | operation (operation : Operation)
  | operand (value : Expression)
deriving DecidableEq

/-- Groups a chain from the left. -/
def chain? (first : Expression) : List Part → Option Expression
  | [] => some first
  | .operation o :: .operand e :: rest => chain? (combine o first e) rest
  | _ => none

/-- The parts of a node of a rule, given its text and the parts inside it. -/
def ofNode (rule : Rule) (text : Text) (inside : List Part) : List Part :=
  match rule, inside with
  | .component, _ | .number, _ => [.written text]
  | .name, _ => [.operand (name text)]
  | .cartesian, [.written x, .written y] => [.operand (cartesian x y)]
  | .polar, [.written angle, .written length] => [.operand (polar angle length)]
  | .add, _ => [.operation .add]
  | .project, _ => [.operation .project]
  | .interpolate, [.written factor] => [.operation (.interpolate factor)]
  | .chain, .operand first :: rest => ((chain? first rest).map Part.operand).toList
  | .linePair, [.operand a₁, .operand a₂, .operand b₁, .operand b₂] =>
    [.operand (crossing a₁ a₂ b₁ b₂)]
  | .endOfInput, _ => []
  | _, inside => inside

/-- The parts of a forest in order. -/
def parts : Forest Rule → List Part
  | .nil => []
  | .text _ next => parts next
  | .node rule inside next => ofNode rule inside.flatten (parts inside) ++ parts next

/-- The expression that a forest stands for. -/
def ofForest? (f : Forest Rule) : Option Expression :=
  match parts f with
  | [.operand e] => some e
  | _ => none

/-- Reads a text that is a coordinate expression as a whole. -/
def read? (s : Text) : Option Expression :=
  (Rule.coordinateExpression.parse s).bind fun r ↦ ofForest? r.1

end Expression

end DiagramMacros
