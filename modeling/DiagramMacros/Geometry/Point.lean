import DiagramMacros.Geometry.Polar
import DiagramMacros.Geometry.Quadrant
/-!
Points of a diagram. A point has a position and the canonical polar pair of that position, perhaps a
name, and, once a midpoint is known, a quadrant. A point given by a polar pair keeps that pair in
its canonical form; a point given by components has its pair computed from them.

The operations on points give points without name and quadrant.
-/

set_option autoImplicit false
set_option relaxedAutoImplicit false

namespace DiagramMacros

/-- A point of a diagram. -/
structure Point (K : Type) where
  position : Vec K
  polar : Polar K
  name : Option Text
  quadrant : Option Quadrant
deriving DecidableEq

namespace Point

variable {K : Type}

/-- The point with a name. -/
def named (p : Point K) (name : Text) : Point K := { p with name := some name }

/-- The point with its quadrant around a midpoint. -/
def classify [Scalar K] (p : Point K) (midpoint : Vec K) : Point K :=
  { p with quadrant := some (Quadrant.classify p.position midpoint) }

/-- The printed position. -/
def print [Scalar K] (p : Point K) : Text := p.position.print

variable [Trigonometry K]

/-- The point at a position. -/
def ofVec (v : Vec K) : Point K := ⟨v, .ofVec v, none, none⟩

/-- The point of a polar pair. -/
def ofPolar (p : Polar K) : Point K := ⟨p.toVec, p.normalize, none, none⟩

/-- The point moved to a position, with its name and quadrant. -/
def moveTo (p : Point K) (v : Vec K) : Point K := { p with position := v, polar := .ofVec v }

/-- The point moved to where a polar pair leads, with its name and quadrant. -/
def moveToPolar (p : Point K) (q : Polar K) : Point K :=
  { p with position := q.toVec, polar := q.normalize }

/-- The sum of two points as vectors. -/
def add (p q : Point K) : Point K := ofVec (p.position.add q.position)

/-- The point above or below the second point at the height of the first. -/
def project (p q : Point K) : Point K := ofVec ⟨q.position.x, p.position.y⟩

/-- The sum of two points times a factor; with the factor one half, the point between them. -/
def interpolate (p q : Point K) (t : K) : Point K := ofVec ((p.position.add q.position).scale t)

/-- The mean of a list of points. -/
def mean? (points : List (Point K)) : Option (Point K) :=
  (Vec.mean? (points.map position)).map ofVec

end Point

end DiagramMacros
