import DiagramMacros.Geometry.Vec
/-!
The four quadrants around a midpoint. A point on one of the lines through the midpoint belongs to
the lower or left side of it. A label in a quadrant is placed away from the midpoint.
-/

set_option autoImplicit false
set_option relaxedAutoImplicit false

namespace DiagramMacros

/-- A region of the plane relative to a midpoint, numbered from one in this order. -/
inductive Quadrant
  | upperRight
  | upperLeft
  | lowerLeft
  | lowerRight
deriving DecidableEq

namespace Quadrant

def number : Quadrant → Nat
  | upperRight => 1
  | upperLeft => 2
  | lowerLeft => 3
  | lowerRight => 4

/-- The quadrant of a point around a midpoint. -/
def classify {K : Type} [Scalar K] (p midpoint : Vec K) : Quadrant :=
  if Scalar.lt midpoint.y p.y then
    if Scalar.lt midpoint.x p.x then upperRight else upperLeft
  else if Scalar.lt midpoint.x p.x then lowerRight else lowerLeft

def isUpper : Quadrant → Bool
  | upperRight | upperLeft => true
  | lowerLeft | lowerRight => false

def isRight : Quadrant → Bool
  | upperRight | lowerRight => true
  | upperLeft | lowerLeft => false

/-- The placement that points away from the midpoint. -/
def outward : Quadrant → Text
  | upperRight => "above right"
  | upperLeft => "above left"
  | lowerLeft => "below left"
  | lowerRight => "below right"

end Quadrant

end DiagramMacros
