import DiagramMacros.Number.Numeral
/-!
Vectors of the plane, over any kind of number. A vector is printed as a pair `(x,y)` of printed
numbers. The mean of a list of vectors is their sum, taken from the left and starting at zero,
divided by their count; an empty list has none.
-/

set_option autoImplicit false
set_option relaxedAutoImplicit false

namespace DiagramMacros

/-- A vector of the plane. -/
structure Vec (K : Type) where
  x : K
  y : K
deriving DecidableEq

namespace Vec

variable {K : Type} [Scalar K]

/-- The same component in both directions. -/
def diagonal (a : K) : Vec K := ⟨a, a⟩

def zero : Vec K := diagonal (Scalar.ofInt 0)

def add (a b : Vec K) : Vec K := ⟨a.x + b.x, a.y + b.y⟩

def sub (a b : Vec K) : Vec K := ⟨a.x - b.x, a.y - b.y⟩

/-- Multiplies both components. -/
def scale (a : Vec K) (t : K) : Vec K := ⟨a.x * t, a.y * t⟩

/-- Divides both components. -/
def divide (a : Vec K) (t : K) : Vec K := ⟨a.x / t, a.y / t⟩

/-- The square of the distance between two points. -/
def distanceSquared (a b : Vec K) : K :=
  (a.x - b.x) * (a.x - b.x) + (a.y - b.y) * (a.y - b.y)

/-- The point halfway between two points. -/
def middle (a b : Vec K) : Vec K := divide (add a b) (Scalar.ofInt 2)

/-- The mean of a list of points. -/
def mean? (points : List (Vec K)) : Option (Vec K) :=
  if points.isEmpty then none
  else some (divide (points.foldl add zero) (Scalar.ofInt points.length))

/-- The printed pair. -/
def print (a : Vec K) : Text := '(' :: Numeral.print a.x ++ ',' :: Numeral.print a.y ++ [')']

end Vec

end DiagramMacros
