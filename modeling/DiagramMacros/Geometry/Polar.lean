import DiagramMacros.Geometry.Length
/-!
Polar pairs: an angle in degrees and a length. The canonical pair of a vector has a length that is
not negative and an angle from zero up to but not including a full turn, and a length of zero comes
with the angle zero. `normalize` brings any pair into that form; it needs exact remainders only.
Going between pairs and vectors needs trigonometry too.
-/

set_option autoImplicit false
set_option relaxedAutoImplicit false

namespace DiagramMacros

/-- An angle in degrees and a length. -/
structure Polar (K : Type) where
  angle : K
  length : K
deriving DecidableEq

namespace Polar

section Normal

variable {K : Type} [Scalar K]

/-- The canonical pair of the same vector: a negative length is half a turn more, whole turns are
dropped, and the angle of a zero length is zero. Where the remainder of a small negative angle
rounds up to a full turn, the angle is zero too. -/
def normalize (p : Polar K) : Polar K :=
  let turned := if Scalar.lt p.length (Scalar.ofInt 0) then p.angle + Scalar.ofInt 180 else p.angle
  let length := Scalar.absolute p.length
  let angle := Scalar.mod turned 360
  if Scalar.le (Scalar.ofInt 360) angle || Scalar.eq length (Scalar.ofInt 0) then
    ⟨Scalar.ofInt 0, length⟩
  else ⟨angle, length⟩

end Normal

variable {K : Type} [Trigonometry K]

def radians (degrees : K) : K := degrees * (Trigonometry.pi / Scalar.ofInt 180)

def degrees (radians : K) : K := radians * (Scalar.ofInt 180 / Trigonometry.pi)

/-- The vector of a pair, which need not be canonical. -/
def toVec (p : Polar K) : Vec K :=
  let a := radians p.angle
  ⟨p.length * Trigonometry.cos a, p.length * Trigonometry.sin a⟩

/-- The canonical pair of a vector. -/
def ofVec (v : Vec K) : Polar K :=
  normalize ⟨degrees (Trigonometry.arctangent v.y v.x), v.length⟩

end Polar

end DiagramMacros
