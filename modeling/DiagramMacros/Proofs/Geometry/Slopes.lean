import DiagramMacros.Geometry.Line
import Mathlib.Algebra.Order.Ring.Rat
import Mathlib.Tactic.FieldSimp
import Mathlib.Tactic.Ring
/-!
Slopes in numbers that are not rounded. A line has the same slope in both directions, except that
the infinite slope of a vertical line changes its sign (`Line.slope_swap`).

Between points with rational components, the slope is one of the step from the first to the second
(`Line.isSlope_slope`): a vertical step has both infinities, every other step its quotient. The slope
perpendicular to it is one of the step after a quarter of a turn (`Line.IsSlope.perpendicular`), so
that level and vertical lines need no care later on.
-/

set_option autoImplicit false
set_option relaxedAutoImplicit false

namespace DiagramMacros

namespace Scalar

@[simp] theorem value_exact (a : Exact) : value a = a := rfl

@[simp] theorem ofExact_exact (a : Exact) : (ofExact a : Exact) = a := rfl

end Scalar

namespace Exact

theorem neg_sub (a b : Exact) : -(a - b) = b - a := by
  cases a with
  | undefined => cases b <;> rfl
  | finite a =>
    cases b with
    | undefined => rfl
    | finite b => simp
    | infinite t => exact congrArg infinite (Bool.not_not t)
  | infinite s =>
    cases b with
    | undefined => rfl
    | finite b => rfl
    | infinite t => cases s <;> cases t <;> rfl

theorem eq_neg_zero (a : Exact) : eq (-a) (finite 0) = eq a (finite 0) := by
  cases a with
  | undefined => rfl
  | finite a => simp
  | infinite s => rfl

theorem neg_div_neg {a b : Exact} (h : eq b (finite 0) = false) : -a / -b = a / b := by
  cases b with
  | undefined => cases a <;> rfl
  | infinite t => cases a <;> rfl
  | finite b =>
    have hb : b ≠ 0 := by simpa using h
    cases a with
    | undefined => rfl
    | finite a =>
      rw [neg_finite, neg_finite, finite_div_finite hb, finite_div_finite (neg_ne_zero.2 hb),
        neg_div_neg_eq]
    | infinite s =>
      have hsign : decide (-b < 0) = !decide (b < 0) := by grind
      show infinite ((!s) != decide (-b < 0)) = infinite (s != decide (b < 0))
      rw [hsign, Bool.not_bne_not]

end Exact

namespace Vec

/-- The vector with rational components, as exact numbers. -/
def exact (p : Vec Rat) : Vec Exact := ⟨.finite p.x, .finite p.y⟩

/-- The step that leads from one point to another. -/
def stepTo (a b : Vec Rat) : Vec Rat := ⟨b.x - a.x, b.y - a.y⟩

/-- A quarter of a turn to the left. -/
def turned (v : Vec Rat) : Vec Rat := ⟨-v.y, v.x⟩

theorem exact_inj {p q : Vec Rat} (h : p.exact = q.exact) : p = q := by
  cases p
  cases q
  simpa [exact] using h

theorem exact_sub_x (a b : Vec Rat) : b.exact.x - a.exact.x = .finite (a.stepTo b).x :=
  Exact.finite_sub_finite ..

theorem exact_sub_y (a b : Vec Rat) : b.exact.y - a.exact.y = .finite (a.stepTo b).y :=
  Exact.finite_sub_finite ..

theorem stepTo_ne_zero {a b : Vec Rat} (h : a ≠ b) : a.stepTo b ≠ ⟨0, 0⟩ := by
  intro hstep
  rw [stepTo, mk.injEq, sub_eq_zero, sub_eq_zero] at hstep
  cases a
  cases b
  exact h (congrArg₂ mk hstep.1.symm hstep.2.symm)

theorem x_ne_zero_or_y_ne_zero {v : Vec Rat} (h : v ≠ ⟨0, 0⟩) : v.x ≠ 0 ∨ v.y ≠ 0 := by
  by_contra hzero
  push Not at hzero
  exact h (congrArg₂ mk hzero.1 hzero.2)

end Vec

namespace Line

/-! ### Both directions of a line -/

section Directions

variable {a b : Vec Exact}

theorem slope_of_vertical (h : Exact.eq (b.x - a.x) (.finite 0)) :
    ∃ negative, slope a b = .infinite negative := by
  rw [slope]
  split
  · split <;> exact ⟨_, rfl⟩
  · exact absurd h ‹_›

theorem slope_of_not_vertical (h : Exact.eq (b.x - a.x) (.finite 0) = false) :
    slope a b = (b.y - a.y) / (b.x - a.x) := if_neg (Bool.not_eq_true _ ▸ h)

/-- A line has the same slope in both directions, unless both slopes are infinite. -/
theorem slope_swap (a b : Vec Exact) :
    slope b a = slope a b ∨
      ∃ negative negative', slope a b = .infinite negative ∧ slope b a = .infinite negative' := by
  have hx : a.x - b.x = -(b.x - a.x) := (Exact.neg_sub _ _).symm
  have hy : a.y - b.y = -(b.y - a.y) := (Exact.neg_sub _ _).symm
  have hzero : Exact.eq (a.x - b.x) (.finite 0) = Exact.eq (b.x - a.x) (.finite 0) :=
    hx ▸ Exact.eq_neg_zero _
  cases h : Exact.eq (b.x - a.x) (.finite 0) with
  | true =>
    obtain ⟨negative, hslope⟩ := slope_of_vertical h
    obtain ⟨negative', hslope'⟩ := slope_of_vertical (hzero.trans h)
    exact Or.inr ⟨negative, negative', hslope, hslope'⟩
  | false =>
    rw [slope_of_not_vertical h, slope_of_not_vertical (hzero.trans h), hx, hy,
      Exact.neg_div_neg h]
    exact Or.inl rfl

end Directions

/-! ### Slopes of directions -/

variable {a b v : Vec Rat} {m : Exact}

/-- The slopes of a direction. A vertical direction has both infinities. -/
inductive IsSlope (v : Vec Rat) : Exact → Prop
  | vertical (negative : Bool) (hx : v.x = 0) (hy : v.y ≠ 0) : IsSlope v (.infinite negative)
  | sloped (m : Rat) (hx : v.x ≠ 0) (hy : v.y = m * v.x) : IsSlope v (.finite m)

theorem isSlope_slope (h : a ≠ b) : IsSlope (a.stepTo b) (slope a.exact b.exact) := by
  have hzero : Exact.eq (b.exact.x - a.exact.x) (.finite 0) = decide ((a.stepTo b).x = 0) := by
    rw [Vec.exact_sub_x, Exact.eq_finite]
  by_cases hx : (a.stepTo b).x = 0
  · obtain ⟨negative, hslope⟩ := slope_of_vertical (hzero.trans (decide_eq_true hx))
    rw [hslope]
    exact .vertical negative hx
      ((Vec.x_ne_zero_or_y_ne_zero (Vec.stepTo_ne_zero h)).resolve_left (not_not_intro hx))
  · rw [slope_of_not_vertical (hzero.trans (decide_eq_false hx)), Vec.exact_sub_x,
      Vec.exact_sub_y, Exact.finite_div_finite hx]
    exact .sloped _ hx (div_mul_cancel₀ _ hx).symm

theorem perpendicularSlope_finite {m : Rat} (hm : m ≠ 0) :
    perpendicularSlope (Exact.finite m) = .finite (-1 / m) := by
  simp [perpendicularSlope, Scalar.isInfinite, Scalar.eq, Scalar.ofInt,
    Exact.finite_div_finite hm, hm]

theorem IsSlope.perpendicular (h : IsSlope v m) : IsSlope v.turned (perpendicularSlope m) := by
  cases h with
  | vertical negative hx hy =>
    have hlevel : v.turned.y = 0 * v.turned.x := hx.trans (zero_mul _).symm
    exact .sloped 0 (neg_ne_zero.2 hy) hlevel
  | sloped m hx hy =>
    by_cases hm : m = 0
    · have hzero : v.turned.x = 0 := by simp [Vec.turned, hy, hm]
      rw [hm]
      exact .vertical false hzero hx
    · rw [perpendicularSlope_finite hm]
      refine .sloped _ (neg_ne_zero.2 (hy ▸ mul_ne_zero hm hx)) ?_
      simp only [Vec.turned, hy]
      field_simp

end Line

end DiagramMacros
