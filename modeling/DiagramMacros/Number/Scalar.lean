import DiagramMacros.Number.Exact
/-!
What the geometry asks of its numbers: arithmetic, which may round, an exact value for each number,
and the number that stands for an exact value. Comparisons, rounding to integers and remainders are
all taken from the exact value, so that they are the same functions for every kind of number; only
the four operations and the choice of a nearest number differ.

`Exact` is the kind of number that never rounds.
-/

set_option autoImplicit false
set_option relaxedAutoImplicit false

namespace DiagramMacros

/-- A kind of number with arithmetic, an exact value, and a number for each exact value. -/
class Scalar (K : Type) extends Add K, Sub K, Mul K, Div K, Neg K where
  value : K → Exact
  ofExact : Exact → K

instance : Scalar Exact where
  value := id
  ofExact := id

namespace Scalar

variable {K : Type} [Scalar K]

/-- The number for an integer. -/
def ofInt (n : Int) : K := ofExact (.finite n)

/-- A power of two. -/
def powerOfTwo (e : Int) : K := ofExact (.finite (2 ^ e))

/-- Positive infinity. -/
def infinity : K := ofExact (.infinite false)

/-- Negative infinity. -/
def negInfinity : K := ofExact (.infinite true)

/-- The largest finite number of 53 binary digits with an exponent below 1024. -/
def largest : K := ofExact (.finite (((Int.pow 2 53 - 1) * Int.pow 2 971 : Int) : Rat))

def lt (a b : K) : Bool := (value a).lt (value b)

def eq (a b : K) : Bool := (value a).eq (value b)

def le (a b : K) : Bool := lt a b || eq a b

def isInfinite (a : K) : Bool :=
  match value a with
  | .infinite _ => true
  | _ => false

def isFinite (a : K) : Bool :=
  match value a with
  | .finite _ => true
  | _ => false

def isUndefined (a : K) : Bool :=
  match value a with
  | .undefined => true
  | _ => false

/-- The size of a number. -/
def absolute (a : K) : K := if lt a (ofInt 0) then -a else a

/-- The smaller of two numbers; an undefined one is ignored. -/
def min (a b : K) : K :=
  if isUndefined a then b else if isUndefined b then a else if lt b a then b else a

/-- The larger of two numbers; an undefined one is ignored. -/
def max (a b : K) : K :=
  if isUndefined a then b else if isUndefined b then a else if lt a b then b else a

/-- The largest integer not above a number. -/
def floor (a : K) : K := ofExact ((value a).map fun q ↦ (q.floor : Int))

/-- The smallest integer not below a number. -/
def ceil (a : K) : K := ofExact ((value a).map fun q ↦ (q.ceil : Int))

/-- The integer nearest to a number; a half goes away from zero. -/
def round (a : K) : K := ofExact ((value a).map fun q ↦ (Exact.roundAway q : Int))

/-- The remainder on division by a positive integer; an infinity has none. -/
def mod (a : K) (n : Int) : K :=
  match value a with
  | .finite q => ofExact (.finite (Exact.mod q n))
  | _ => ofExact .undefined

end Scalar

end DiagramMacros
