import DiagramMacros.Text
import DiagramMacros.Number.Binary64
/-!
Decimal numerals. A written number is an optional sign and then `inf`, `infinity` or `nan` in any
letter case, or decimal digits with at most one point among them and at least one digit, followed by
an optional exponent. Nothing else may stand in the text, blanks included.

Written out, a number has a fixed count of decimals. Its exact value is rounded once, and a tie goes
to the even neighbour.
-/

set_option autoImplicit false
set_option relaxedAutoImplicit false

namespace DiagramMacros

/-- What a written number says: `digits · 10^exponent` with a sign, an infinity, or no number. -/
inductive Numeral
  | decimal (negative : Bool) (digits : Nat) (exponent : Int)
  | infinite (negative : Bool)
  | undefined
deriving DecidableEq

namespace Numeral

/-- The value of a digit. -/
def digitValue (c : Char) : Nat := c.toNat - '0'.toNat

/-- The value of a run of decimal digits. -/
def digitsValue (s : Text) : Nat := s.foldl (fun n c ↦ 10 * n + digitValue c) 0

/-- A sign, if there is one, and what follows it. -/
def sign : Text → Bool × Text
  | '-' :: s => (true, s)
  | '+' :: s => (false, s)
  | s => (false, s)

/-- A whole exponent part: nothing, or `e` or `E`, an optional sign and at least one digit. -/
def exponent? : Text → Option Int
  | [] => some 0
  | c :: s =>
    if c = 'e' ∨ c = 'E' then
      let (negative, digits) := sign s
      if digits ≠ [] ∧ digits.all isDigit then
        some (if negative then -(digitsValue digits : Int) else digitsValue digits)
      else none
    else none

/-- The decimals after the digits of the integer part: those after a point, or none. -/
def decimals : Text → Text × Text
  | '.' :: s => Text.cutWhile isDigit s
  | s => ([], s)

/-- Reads an unsigned decimal numeral. -/
def readDecimal? (negative : Bool) (s : Text) : Option Numeral :=
  let (whole, rest) := Text.cutWhile isDigit s
  let (fraction, rest) := decimals rest
  if whole = [] ∧ fraction = [] then none
  else (exponent? rest).map fun e ↦
    decimal negative (digitsValue (whole ++ fraction)) (e - fraction.length)

/-- Reads a numeral that makes up the whole text. -/
def read? (s : Text) : Option Numeral :=
  let (negative, body) := sign s
  let lower := body.map Char.toLower
  if lower = "inf".toList ∨ lower = "infinity".toList then some (infinite negative)
  else if lower = "nan".toList then some undefined
  else readDecimal? negative body

/-- The exact value of a numeral. Decimals beyond `10^400` count as infinite and decimals below
`10^-400` as zero, so that a long exponent costs nothing; no number of 64 bits lies there. -/
def value : Numeral → Exact
  | decimal negative digits exponent =>
    let width : Int := digits.log2 + 1
    if digits = 0 ∨ exponent + width < -400 then .finite 0
    else if 400 < exponent then .infinite negative
    else
      let magnitude : Rat :=
        mkRat (digits * Nat.pow 10 exponent.toNat : Nat) (Nat.pow 10 (-exponent).toNat)
      .finite (if negative then -magnitude else magnitude)
  | infinite negative => .infinite negative
  | undefined => .undefined

/-- The number nearest to a numeral. -/
def toScalar {K : Type} [Scalar K] (n : Numeral) : K := Scalar.ofExact n.value

/-- The decimal digits of a natural number. -/
def digitsOf (n : Nat) : Text := Nat.toDigits 10 n

/-- Puts a minus sign in front. -/
def signed (negative : Bool) (s : Text) : Text := if negative then '-' :: s else s

/-- A rational as a multiple of `10^-places`, rounded to the nearest, a tie to the even one. -/
def scaledDigits (places : Nat) (q : Rat) : Nat :=
  Binary64.roundDiv (q.num.natAbs * Nat.pow 10 places) q.den

/-- Writes a rational with a fixed count of decimals. -/
def fixed (places : Nat) (q : Rat) : Text :=
  let n := scaledDigits places q
  let fraction := digitsOf (n % Nat.pow 10 places)
  signed (decide (q < 0)) <|
    digitsOf (n / Nat.pow 10 places) ++
      '.' :: (List.replicate (places - fraction.length) '0' ++ fraction)

/-- Drops the zeros at the end of a text with decimals, and then a point left at the end. -/
def dropZeros (s : Text) : Text :=
  match s.reverse.dropWhile (· == '0') with
  | '.' :: r => r.reverse
  | r => r.reverse

/-- Rounds a number to four decimals, a half going away from zero. -/
def toFourDecimals {K : Type} [Scalar K] (v : K) : K :=
  Scalar.round (v * Scalar.ofInt 10000) / Scalar.ofInt 10000

/-- How a number is printed: rounded to at most four decimals, with no zeros at the end. -/
def print {K : Type} [Scalar K] (v : K) : Text :=
  match Scalar.value (toFourDecimals v) with
  | .finite q => if q = 0 then "0" else dropZeros (fixed 4 q)
  | .infinite negative => signed negative "inf"
  | .undefined => "NaN"

end Numeral

end DiagramMacros
