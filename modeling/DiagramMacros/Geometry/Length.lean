import DiagramMacros.Geometry.Vec
import DiagramMacros.Number.Trigonometry
/-!
The length of a vector. The root of the sum of the squares carries the rounding of the squares and
of their sum, so one Newton step corrects it: with `h` the root, the error `h² - a² - b²` is divided
by `2h` and taken off. Subtracting squares would lose that error again, so it is put together from
differences of the numbers themselves. Without rounding it is the same error (`excess_finite`).

Vectors are scaled by a power of two where their squares would overflow or vanish. A length below
the smallest normal number is thereby rounded twice, first to a full run of digits and then to the
digits that are left at its size.
-/

set_option autoImplicit false
set_option relaxedAutoImplicit false

namespace DiagramMacros

namespace Vec

section Error

variable {K : Type} [Scalar K]

/-- By how much the square of `h` exceeds the sum of the squares of `a` and `b`. It is written in
what `h` exceeds `b` by if `b` is at least half of `h`, and in what it exceeds `a` by otherwise. -/
def excess (h a b : K) : K :=
  let two := Scalar.ofInt 2
  if Scalar.le h (two * b) then
    let d := h - b
    a * (two * d - a) + (d - two * (a - b)) * d
  else
    let d := h - a
    two * d * (a - two * b) + ((Scalar.ofInt 4 * d - b) * b + d * d)

theorem excess_finite (h a b : Rat) :
    excess (.finite h) (.finite a) (.finite b) = Exact.finite (h * h - a * a - b * b) := by
  simp only [excess, Scalar.ofInt, Scalar.ofExact, id, Exact.finite_add_finite,
    Exact.finite_sub_finite, Exact.finite_mul_finite]
  split
  · congr 1
    grind
  · congr 1
    grind

end Error

variable {K : Type} [Trigonometry K]

/-- The root of the sum of the squares of `a` and `b`, corrected once. -/
def correctedRoot (a b : K) : K :=
  let h := Trigonometry.squareRoot (a * a + b * b)
  h - excess h a b / (Scalar.ofInt 2 * h)

/-- The length of a vector. A component too small to change the last digit of the other is left out.
A vector with an infinite component is infinitely long, whatever the other is. -/
def length (v : Vec K) : K :=
  if Scalar.isInfinite v.x || Scalar.isInfinite v.y then Scalar.infinity
  else
    let x := Scalar.absolute v.x
    let y := Scalar.absolute v.y
    let larger := if Scalar.lt x y then y else x
    let smaller := if Scalar.lt x y then x else y
    let step := Scalar.powerOfTwo 600
    if Scalar.le (smaller * Scalar.powerOfTwo 54) larger then larger
    else if Scalar.lt (Scalar.powerOfTwo 511) larger then
      correctedRoot (larger / step) (smaller / step) * step
    else if Scalar.lt smaller (Scalar.powerOfTwo (-459)) then
      correctedRoot (larger * step) (smaller * step) / step
    else correctedRoot larger smaller

end Vec

end DiagramMacros
