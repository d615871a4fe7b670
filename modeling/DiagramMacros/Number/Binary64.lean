import DiagramMacros.Number.Scalar
/-!
Binary numbers of 64 bits: a sign, 53 binary digits and an exponent. A positive finite one is
`m · 2^u` with `m < 2^53` and `-1074 ≤ u`, and its bits, read as a natural number, grow with its
value. So the number nearest to a quotient is found by scaling the quotient to 53 digits, or to the
unit `2^-1074` if it is small, rounding that once, and adding the exponent field.
-/

set_option autoImplicit false
set_option relaxedAutoImplicit false

namespace DiagramMacros.Binary64

/-- The natural number nearest to `n / d`; of two equally near, the even one. -/
def roundDiv (n d : Nat) : Nat :=
  let q := n / d
  let r := n % d
  if d < 2 * r ∨ (2 * r = d ∧ q % 2 = 1) then q + 1 else q

/-- The bits of positive infinity. -/
def infinityBits : Nat := 2047 * Nat.pow 2 52

/-- Whether `2^e ≤ n / d`. -/
def powLe (e : Int) (n d : Nat) : Bool :=
  decide (Nat.pow 2 e.toNat * d ≤ n * Nat.pow 2 (-e).toNat)

/-- The exponent `u` of the unit in which `n / d` has 53 digits, or `-1074` if that is larger. -/
def unitExponent (n d : Nat) : Int :=
  let e : Int := (n.log2 : Int) - d.log2
  Max.max ((if powLe e n d then e else e - 1) - 52) (-1074)

/-- The bits of the positive number nearest to `n / d`, ties going to an even last digit; infinity
if that number would need an exponent of 1024 or more. -/
def nearestBits (n d : Nat) : Nat :=
  if n = 0 then 0
  else
    let u := unitExponent n d
    let m := roundDiv (n * Nat.pow 2 (-u).toNat) (d * Nat.pow 2 u.toNat)
    Nat.min ((u + 1074).toNat * Nat.pow 2 52 + m) infinityBits

/-- The bits of a number with its sign in front. -/
def withSign (negative : Bool) (bits : Nat) : Float :=
  Float.ofBits (UInt64.ofNat (if negative then Nat.pow 2 63 + bits else bits))

/-- The number nearest to an exact value. -/
def ofExact : Exact → Float
  | .finite q => withSign (decide (q < 0)) (nearestBits q.num.natAbs q.den)
  | .infinite negative => withSign negative infinityBits
  | .undefined => Float.ofBits 0x7FF8000000000000

/-- The exact value of a number. -/
def value (x : Float) : Exact :=
  let bits := x.toBits.toNat
  let negative := decide (Nat.pow 2 63 ≤ bits)
  let field := bits / Nat.pow 2 52 % 2048
  let fraction := bits % Nat.pow 2 52
  if field = 2047 then
    if fraction = 0 then .infinite negative else .undefined
  else
    let m : Nat := if field = 0 then fraction else fraction + Nat.pow 2 52
    let u : Int := (Nat.max field 1 : Int) - 1075
    let scaled : Int := m * Nat.pow 2 u.toNat
    .finite (mkRat (if negative then -scaled else scaled) (Nat.pow 2 (-u).toNat))

end DiagramMacros.Binary64

namespace DiagramMacros

instance : Scalar Float where
  value := Binary64.value
  ofExact := Binary64.ofExact

end DiagramMacros
