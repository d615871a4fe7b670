/-!
The exact value of a number: a rational, one of the two infinities, or undefined. The arithmetic
follows the usual rules for infinities (a difference of equal infinities, an infinity times zero
and zero over zero are undefined) and does not round. Zero has no sign here, so a quotient by zero
takes its sign from the dividend.

Comparisons with an undefined value are false, as is the test that it equals itself.
-/

set_option autoImplicit false
set_option relaxedAutoImplicit false

namespace DiagramMacros

/-- A rational, an infinity with its sign, or no value at all. -/
inductive Exact
  | finite (value : Rat)
  | infinite (negative : Bool)
  | undefined
deriving DecidableEq

namespace Exact

def neg : Exact → Exact
  | finite a => finite (-a)
  | infinite s => infinite (!s)
  | undefined => undefined

def add : Exact → Exact → Exact
  | finite a, finite b => finite (a + b)
  | finite _, infinite t => infinite t
  | infinite s, finite _ => infinite s
  | infinite s, infinite t => if s = t then infinite s else undefined
  | _, _ => undefined

def sub (a b : Exact) : Exact := add a (neg b)

/-- An infinity with the given sign times a rational. -/
def scaleInfinity (negative : Bool) (b : Rat) : Exact :=
  if b = 0 then undefined else infinite (negative != decide (b < 0))

def mul : Exact → Exact → Exact
  | finite a, finite b => finite (a * b)
  | finite a, infinite t => scaleInfinity t a
  | infinite s, finite b => scaleInfinity s b
  | infinite s, infinite t => infinite (s != t)
  | _, _ => undefined

def div : Exact → Exact → Exact
  | finite a, finite b =>
    if b = 0 then (if a = 0 then undefined else infinite (decide (a < 0))) else finite (a / b)
  | finite _, infinite _ => finite 0
  | infinite s, finite b => infinite (s != decide (b < 0))
  | _, _ => undefined

instance : Neg Exact := ⟨neg⟩
instance : Add Exact := ⟨add⟩
instance : Sub Exact := ⟨sub⟩
instance : Mul Exact := ⟨mul⟩
instance : Div Exact := ⟨div⟩

@[simp] theorem neg_finite (a : Rat) : -finite a = finite (-a) := rfl

@[simp] theorem finite_add_finite (a b : Rat) : finite a + finite b = finite (a + b) := rfl

@[simp] theorem finite_sub_finite (a b : Rat) : finite a - finite b = finite (a - b) := by
  rw [Rat.sub_eq_add_neg]
  rfl

@[simp] theorem finite_mul_finite (a b : Rat) : finite a * finite b = finite (a * b) := rfl

theorem finite_div_finite {a b : Rat} (h : b ≠ 0) : finite a / finite b = finite (a / b) := by
  show (if b = 0 then _ else _) = _
  rw [if_neg h]

/-- Strictly less. Nothing is less than an undefined value, nor is it less than anything. -/
def lt : Exact → Exact → Bool
  | finite a, finite b => decide (a < b)
  | finite _, infinite t => !t
  | infinite s, finite _ => s
  | infinite s, infinite t => s && !t
  | _, _ => false

/-- Equal as numbers. An undefined value equals nothing. -/
def eq : Exact → Exact → Bool
  | finite a, finite b => decide (a = b)
  | infinite s, infinite t => s == t
  | _, _ => false

@[simp] theorem lt_finite (a b : Rat) : lt (finite a) (finite b) = decide (a < b) := rfl

@[simp] theorem eq_finite (a b : Rat) : eq (finite a) (finite b) = decide (a = b) := rfl

/-- Applies a function to a rational value and keeps the others. -/
def map (f : Rat → Rat) : Exact → Exact
  | finite a => finite (f a)
  | a => a

/-- The integer nearest to a rational; a half goes away from zero. -/
def roundAway (a : Rat) : Int :=
  if a < 0 then -(-a + 1 / 2).floor else (a + 1 / 2).floor

/-- The remainder on division by a positive rational, at least zero and below the divisor. -/
def mod (a b : Rat) : Rat := a - b * ((a / b).floor : Int)

end Exact

end DiagramMacros
