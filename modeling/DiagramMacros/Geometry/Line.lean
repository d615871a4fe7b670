import DiagramMacros.Failure
import DiagramMacros.Geometry.Vec
/-!
Slopes and crossings of lines. A line through two points has a slope, and a vertical one has an
infinite slope whose sign says whether the second point is below the first. Two lines given by a
point and a slope each cross in one point unless both are vertical or their slopes are equal.

The circle through three points has its centre where the perpendicular bisectors of two chords
cross, so it exists unless those bisectors are parallel. Where there is no crossing, the failure is
that the lines are parallel.
-/

set_option autoImplicit false
set_option relaxedAutoImplicit false

namespace DiagramMacros.Line

variable {K : Type} [Scalar K]

/-- The slope of the line from one point to another. Points above each other, also equal ones, have
an infinite slope, which is negative if the second point is below the first. -/
def slope (a b : Vec K) : K :=
  let d := b.sub a
  if Scalar.eq d.x (Scalar.ofInt 0) then
    if Scalar.le (Scalar.ofInt 0) d.y then Scalar.infinity else Scalar.negInfinity
  else d.y / d.x

/-- The slope of the lines perpendicular to those of a slope. -/
def perpendicularSlope (m : K) : K :=
  if Scalar.isInfinite m then Scalar.ofInt 0
  else if Scalar.eq m (Scalar.ofInt 0) then Scalar.infinity
  else Scalar.ofInt (-1) / m

/-- The point where the line through `a` with slope `m` crosses the line through `b` with slope `n`;
none if the lines are parallel. -/
def crossing? (a b : Vec K) (m n : K) : Option (Vec K) :=
  if Scalar.isInfinite m then
    if Scalar.isInfinite n then none
    else some ⟨a.x, b.y + n * (a.x - b.x)⟩
  else if Scalar.isInfinite n then some ⟨b.x, a.y + m * (b.x - a.x)⟩
  else if Scalar.eq m n then none
  else
    let x := (m * a.x - n * b.x + b.y - a.y) / (m - n)
    some ⟨x, a.y + m * (x - a.x)⟩

/-- The point where the line through `a₁` and `a₂` crosses the line through `b₁` and `b₂`. -/
def intersection? (a₁ a₂ b₁ b₂ : Vec K) : Option (Vec K) :=
  crossing? a₁ b₁ (slope a₁ a₂) (slope b₁ b₂)

/-- The centre of the circle through three points: the crossing of the perpendicular bisectors of
the first and the second two of them. -/
def circumcentre? (a b c : Vec K) : Option (Vec K) :=
  crossing? (a.middle b) (b.middle c) (perpendicularSlope (slope a b))
    (perpendicularSlope (slope b c))

/-- The point where two lines cross, each through two points. -/
def intersection (a₁ a₂ b₁ b₂ : Vec K) : Except Failure (Vec K) :=
  match intersection? a₁ a₂ b₁ b₂ with
  | some v => .ok v
  | none => .error .parallelLines

/-- The centre and the radius of the circle through three points. The radius is the root of a
squared distance, and may be of another kind of number than the points. -/
def circumcircle {R : Type} (root : K → R) (a b c : Vec K) : Except Failure (Vec K × R) :=
  match circumcentre? a b c with
  | some centre => .ok (centre, root (centre.distanceSquared a))
  | none => .error .parallelLines

end DiagramMacros.Line
