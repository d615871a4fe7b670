import DiagramMacros.Number.Binary64
/-!
What going between angles and vectors asks of a kind of number besides its arithmetic: sines,
cosines, arc tangents and square roots. Angles are in radians.
-/

set_option autoImplicit false
set_option relaxedAutoImplicit false

namespace DiagramMacros

/-- Numbers with trigonometry and square roots. -/
class Trigonometry (K : Type) extends Scalar K where
  pi : K
  sin : K → K
  cos : K → K
  /-- The angle of the vector with this second and first component. -/
  arctangent : K → K → K
  squareRoot : K → K

instance : Trigonometry Float where
  pi := 3.141592653589793
  sin := Float.sin
  cos := Float.cos
  arctangent := Float.atan2
  squareRoot := Float.sqrt

end DiagramMacros
