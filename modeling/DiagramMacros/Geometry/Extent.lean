import DiagramMacros.Geometry.Vec
/-!
The extent of a set of points: the least box with sides along the axes that holds them. The empty
extent has its corners inverted, the lower one at the largest number and the upper one at its
negative, so that taking in a first point makes both corners that point.

A frame is the box around an extent and the origin with a margin of one on every side. A grid uses
its corners rounded outwards to integers, and the axes run through the origin along its sides.
-/

set_option autoImplicit false
set_option relaxedAutoImplicit false

namespace DiagramMacros

/-- A box with sides along the axes, by its lower left and upper right corner. -/
structure Extent (K : Type) where
  min : Vec K
  max : Vec K
deriving DecidableEq

namespace Extent

variable {K : Type} [Scalar K]

/-- The extent of no points. -/
def empty : Extent K := ⟨.diagonal Scalar.largest, .diagonal (-Scalar.largest)⟩

/-- Whether the corners are inverted in some direction. -/
def isEmpty (e : Extent K) : Bool := Scalar.lt e.max.x e.min.x || Scalar.lt e.max.y e.min.y

/-- The least box that also holds a point. -/
def expand (e : Extent K) (p : Vec K) : Extent K where
  min := ⟨Scalar.min e.min.x p.x, Scalar.min e.min.y p.y⟩
  max := ⟨Scalar.max e.max.x p.x, Scalar.max e.max.y p.y⟩

/-- Moves every side outwards by a margin. -/
def padded (e : Extent K) (margin : K) : Extent K :=
  ⟨e.min.sub (.diagonal margin), e.max.add (.diagonal margin)⟩

def width (e : Extent K) : K := e.max.x - e.min.x

def height (e : Extent K) : K := e.max.y - e.min.y

/-- The extent of a list of points. -/
def ofPoints (points : List (Vec K)) : Extent K := points.foldl expand empty

/-- The box around an extent and the origin with a margin of one. -/
def frame (e : Extent K) : Extent K := (e.expand .zero).padded (Scalar.ofInt 1)

/-- The frame with its corners rounded outwards to integers. -/
def gridFrame (e : Extent K) : Extent K where
  min := ⟨Scalar.floor e.frame.min.x, Scalar.floor e.frame.min.y⟩
  max := ⟨Scalar.ceil e.frame.max.x, Scalar.ceil e.frame.max.y⟩

/-- The ends of the horizontal axis: on the axis, at the left and right side of the frame. -/
def horizontalAxis (e : Extent K) : Vec K × Vec K :=
  (⟨e.frame.min.x, Scalar.ofInt 0⟩, ⟨e.frame.max.x, Scalar.ofInt 0⟩)

/-- The ends of the vertical axis: on the axis, at the lower and upper side of the frame. -/
def verticalAxis (e : Extent K) : Vec K × Vec K :=
  (⟨Scalar.ofInt 0, e.frame.min.y⟩, ⟨Scalar.ofInt 0, e.frame.max.y⟩)

end Extent

end DiagramMacros
