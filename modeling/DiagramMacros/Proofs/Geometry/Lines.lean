import DiagramMacros.Proofs.Geometry.Slopes
import Mathlib.Tactic.LinearCombination
/-!
Lines that cross, in numbers that are not rounded. Whichever formula a pair of slopes calls for, the
crossing of two lines is the point on both of them, and there is none only if their directions are
parallel (`Line.crossing_cases`).

So the crossing of two lines through two points each is decided by the points that the lines have in
common: it is their only common point, and a failure if they have none or more than one
(`Line.intersection_is_common_point`). The ends of a line and the order of the two lines have no say
in it.
-/

set_option autoImplicit false
set_option relaxedAutoImplicit false

namespace DiagramMacros

namespace Vec

/-- The signed area between two vectors. It vanishes if they are parallel. -/
def cross (v w : Vec Rat) : Rat := v.x * w.y - v.y * w.x

/-- Vectors that are parallel to the same vector are parallel, unless that one vanishes. -/
theorem cross_eq_zero_trans {v w s : Vec Rat} (hv : v ≠ ⟨0, 0⟩) (hw : v.cross w = 0)
    (hs : v.cross s = 0) : w.cross s = 0 := by
  unfold cross at *
  rcases x_ne_zero_or_y_ne_zero hv with hx | hy
  · refine (mul_eq_zero.1 ?_).resolve_left hx
    linear_combination w.x * hs - s.x * hw
  · refine (mul_eq_zero.1 ?_).resolve_left hy
    linear_combination w.y * hs - s.y * hw

end Vec

namespace Line

variable {a b p q v w : Vec Rat} {m n : Exact}

/-! ### Lines given by a point and a direction -/

/-- The point `p` is on the line through `a` along `v`. -/
def IsAlong (a v p : Vec Rat) : Prop := v.cross (a.stepTo p) = 0

theorem isAlong_of_x_eq (hv : v.x = 0) (h : p.x = a.x) : IsAlong a v p := by
  simp [IsAlong, Vec.cross, Vec.stepTo, hv, h]

/-- The point above or below `x` on a line with a slope. -/
theorem isAlong_of_y_eq {m : Rat} (hv : v.y = m * v.x) (h : p.y = a.y + m * (p.x - a.x)) :
    IsAlong a v p := by
  rw [IsAlong, Vec.cross, Vec.stepTo, h, hv]
  ring

theorem cross_of_slopes {m n : Rat} (hv : v.y = m * v.x) (hw : w.y = n * w.x) :
    v.cross w = (n - m) * (v.x * w.x) := by
  rw [Vec.cross, hv, hw]
  ring

/-- What becomes of two lines: their directions are parallel and there is no crossing, or the
crossing is a point on both of them. -/
theorem crossing_cases (hm : IsSlope v m) (hn : IsSlope w n) (a b : Vec Rat) :
    v.cross w = 0 ∧ crossing? a.exact b.exact m n = none ∨
      ∃ p : Vec Rat, v.cross w ≠ 0 ∧ IsAlong a v p ∧ IsAlong b w p ∧
        crossing? a.exact b.exact m n = some p.exact := by
  cases hm with
  | vertical _ hv hvy =>
    cases hn with
    | vertical _ hw hwy => exact Or.inl ⟨by simp [Vec.cross, hv, hw], rfl⟩
    | sloped n hw hwy =>
      refine Or.inr ⟨⟨a.x, b.y + n * (a.x - b.x)⟩, ?_, isAlong_of_x_eq hv rfl,
        isAlong_of_y_eq hwy rfl, ?_⟩
      · simp [Vec.cross, hv, hw, hvy]
      · simp [crossing?, Vec.exact, Scalar.isInfinite]
  | sloped m hv hvy =>
    cases hn with
    | vertical _ hw hwy =>
      refine Or.inr ⟨⟨b.x, a.y + m * (b.x - a.x)⟩, ?_, isAlong_of_y_eq hvy rfl,
        isAlong_of_x_eq hw rfl, ?_⟩
      · simp [Vec.cross, hw, hv, hwy]
      · simp [crossing?, Vec.exact, Scalar.isInfinite]
    | sloped n hw hwy =>
      have hcross := cross_of_slopes hvy hwy
      by_cases hmn : m = n
      · refine Or.inl ⟨by rw [hcross, hmn, sub_self, zero_mul], ?_⟩
        simp [crossing?, Scalar.isInfinite, Scalar.eq, hmn]
      · -- the abscissa of the crossing solves the equation of the two lines
        have hdifference : m - n ≠ 0 := sub_ne_zero.2 hmn
        have hsolved : (m - n) * ((m * a.x - n * b.x + b.y - a.y) / (m - n)) =
            m * a.x - n * b.x + b.y - a.y := mul_div_cancel₀ _ hdifference
        generalize hx : (m * a.x - n * b.x + b.y - a.y) / (m - n) = x at hsolved
        refine Or.inr ⟨⟨x, a.y + m * (x - a.x)⟩, ?_, isAlong_of_y_eq hvy rfl,
          isAlong_of_y_eq hwy ?_, ?_⟩
        · rw [hcross]
          exact mul_ne_zero (sub_ne_zero.2 (Ne.symm hmn)) (mul_ne_zero hv hw)
        · linear_combination hsolved
        · simp [crossing?, Vec.exact, Scalar.isInfinite, Scalar.eq, hmn,
            Exact.finite_div_finite hdifference, hx]

/-- Lines with different directions have at most one point in common. -/
theorem eq_of_isAlong (h : v.cross w ≠ 0) (hp : IsAlong a v p ∧ IsAlong b w p)
    (hq : IsAlong a v q ∧ IsAlong b w q) : p = q := by
  obtain ⟨px, py⟩ := p
  obtain ⟨qx, qy⟩ := q
  simp only [IsAlong, Vec.cross, Vec.stepTo] at h hp hq
  have hx : px = qx := mul_left_cancel₀ h (by
    linear_combination w.x * (hp.1 - hq.1) - v.x * (hp.2 - hq.2))
  have hy : py = qy := mul_left_cancel₀ h (by
    linear_combination w.y * (hp.1 - hq.1) - v.y * (hp.2 - hq.2))
  rw [hx, hy]

/-- A line is the same from each of its points, and along each vector parallel to its direction. -/
theorem isAlong_congr (hv : v ≠ ⟨0, 0⟩) (hw : w ≠ ⟨0, 0⟩) (h : v.cross w = 0)
    (hp : IsAlong a v p ∧ IsAlong b w p) : IsAlong a v q ↔ IsAlong b w q := by
  have hstep {a v : Vec Rat} (hp : IsAlong a v p) : IsAlong a v q ↔ v.cross (p.stepTo q) = 0 := by
    simp only [IsAlong, Vec.cross, Vec.stepTo] at hp ⊢
    constructor
    · intro hq
      linear_combination hq - hp
    · intro hq
      linear_combination hq + hp
  have hflip : w.cross v = 0 := by
    simp only [Vec.cross] at h ⊢
    linear_combination -h
  rw [hstep hp.1, hstep hp.2]
  exact ⟨Vec.cross_eq_zero_trans hv h, Vec.cross_eq_zero_trans hw hflip⟩

/-! ### Lines through two points -/

/-- The point `p` is on the line through `a` and `b`. -/
def Contains (a b p : Vec Rat) : Prop :=
  ∃ t : Rat, p = ⟨a.x + t * (b.x - a.x), a.y + t * (b.y - a.y)⟩

/-- Two lines, each through two points, are parallel or equal: they have no point in common, or
every point. -/
def AreParallel (a₁ a₂ b₁ b₂ : Vec Rat) : Prop :=
  (∀ p, ¬(Contains a₁ a₂ p ∧ Contains b₁ b₂ p)) ∨ ∀ p, Contains a₁ a₂ p ↔ Contains b₁ b₂ p

theorem contains_left (a b : Vec Rat) : Contains a b a := ⟨0, by simp⟩

theorem contains_right (a b : Vec Rat) : Contains a b b := ⟨1, by simp⟩

theorem contains_iff (h : a ≠ b) : Contains a b p ↔ IsAlong a (a.stepTo b) p := by
  obtain ⟨px, py⟩ := p
  simp only [Contains, IsAlong, Vec.cross, Vec.stepTo, Vec.mk.injEq]
  constructor
  · rintro ⟨t, rfl, rfl⟩
    ring
  · intro hp
    rcases Vec.x_ne_zero_or_y_ne_zero (Vec.stepTo_ne_zero h) with hne | hne <;>
      simp only [Vec.stepTo] at hne
    · refine ⟨(px - a.x) / (b.x - a.x), ?_, ?_⟩
      · field_simp
        ring
      · field_simp
        linear_combination hp
    · refine ⟨(py - a.y) / (b.y - a.y), ?_, ?_⟩
      · field_simp
        linear_combination -hp
      · field_simp
        ring

theorem contains_swap : Contains b a p ↔ Contains a b p := by
  have hturn {a b : Vec Rat} (h : Contains a b p) : Contains b a p := by
    obtain ⟨t, rfl⟩ := h
    refine ⟨1 - t, ?_⟩
    rw [Vec.mk.injEq]
    constructor <;> ring
  exact ⟨hturn, hturn⟩

section Crossing

variable {a₁ a₂ b₁ b₂ c₁ c₂ d₁ d₂ : Vec Rat}

/-- Lines with a single point in common are not parallel. -/
theorem not_areParallel_of_common (ha : a₁ ≠ a₂)
    (h : ∀ q, Contains a₁ a₂ q ∧ Contains b₁ b₂ q ↔ q = p) : ¬AreParallel a₁ a₂ b₁ b₂ := by
  rintro (hapart | hsame)
  · exact hapart p ((h p).2 rfl)
  · have hon {q : Vec Rat} (hq : Contains a₁ a₂ q) : q = p := (h q).1 ⟨hq, (hsame q).1 hq⟩
    exact ha ((hon (contains_left a₁ a₂)).trans (hon (contains_right a₁ a₂)).symm)

/-- The crossing of two lines through two points each is their only common point; there is none if
they are parallel. -/
theorem intersection_cases (ha : a₁ ≠ a₂) (hb : b₁ ≠ b₂) :
    AreParallel a₁ a₂ b₁ b₂ ∧
        intersection a₁.exact a₂.exact b₁.exact b₂.exact = .error .parallelLines ∨
      ∃ p : Vec Rat, (∀ q, Contains a₁ a₂ q ∧ Contains b₁ b₂ q ↔ q = p) ∧
        intersection a₁.exact a₂.exact b₁.exact b₂.exact = .ok p.exact := by
  rcases crossing_cases (isSlope_slope ha) (isSlope_slope hb) a₁ b₁ with
    ⟨hcross, hnone⟩ | ⟨p, hcross, hpa, hpb, hsome⟩
  · refine Or.inl ⟨?_, by rw [intersection, intersection?, hnone]⟩
    refine or_iff_not_imp_left.2 fun hcommon q ↦ ?_
    push Not at hcommon
    obtain ⟨p, hp⟩ := hcommon
    rw [contains_iff ha, contains_iff hb] at hp ⊢
    exact isAlong_congr (Vec.stepTo_ne_zero ha) (Vec.stepTo_ne_zero hb) hcross hp
  · refine Or.inr ⟨p, fun q ↦ ?_, by rw [intersection, intersection?, hsome]⟩
    rw [contains_iff ha, contains_iff hb]
    constructor
    · intro hq
      exact eq_of_isAlong hcross hq ⟨hpa, hpb⟩
    · rintro rfl
      exact ⟨hpa, hpb⟩

theorem intersection_eq_error_iff (ha : a₁ ≠ a₂) (hb : b₁ ≠ b₂) :
    intersection a₁.exact a₂.exact b₁.exact b₂.exact = .error .parallelLines ↔
      AreParallel a₁ a₂ b₁ b₂ := by
  rcases intersection_cases ha hb with ⟨hparallel, herror⟩ | ⟨p, hp, hok⟩
  · exact iff_of_true herror hparallel
  · rw [hok]
    exact iff_of_false nofun (not_areParallel_of_common ha hp)

theorem intersection_eq_ok_iff (ha : a₁ ≠ a₂) (hb : b₁ ≠ b₂) :
    intersection a₁.exact a₂.exact b₁.exact b₂.exact = .ok p.exact ↔
      ∀ q, Contains a₁ a₂ q ∧ Contains b₁ b₂ q ↔ q = p := by
  rcases intersection_cases ha hb with ⟨hparallel, herror⟩ | ⟨c, hc, hok⟩
  · rw [herror]
    exact iff_of_false nofun fun hp ↦ not_areParallel_of_common ha hp hparallel
  · rw [hok]
    constructor
    · intro h
      rwa [← Vec.exact_inj (Except.ok.inj h)]
    · intro hp
      rw [(hp c).1 ((hc c).2 rfl)]

/-- The points that two lines have in common decide about their crossing. -/
theorem intersection_eq_of_common (ha : a₁ ≠ a₂) (hb : b₁ ≠ b₂) (hc : c₁ ≠ c₂) (hd : d₁ ≠ d₂)
    (h : ∀ q, Contains a₁ a₂ q ∧ Contains b₁ b₂ q ↔ Contains c₁ c₂ q ∧ Contains d₁ d₂ q) :
    intersection a₁.exact a₂.exact b₁.exact b₂.exact =
      intersection c₁.exact c₂.exact d₁.exact d₂.exact := by
  rcases intersection_cases hc hd with ⟨hparallel, herror⟩ | ⟨p, hp, hok⟩
  · rcases intersection_cases ha hb with ⟨-, herror'⟩ | ⟨p, hp, -⟩
    · rw [herror, herror']
    · exact absurd hparallel (not_areParallel_of_common hc fun q ↦ (h q).symm.trans (hp q))
  · rw [hok, intersection_eq_ok_iff ha hb]
    exact fun q ↦ (h q).trans (hp q)

/-- Two lines, each through two different points, have no crossing exactly if they are parallel or
equal, and else their crossing is the one point on both of them. Neither the order of the points on
a line nor the order of the lines changes it. -/
theorem intersection_is_common_point (ha : a₁ ≠ a₂) (hb : b₁ ≠ b₂) :
    (intersection a₁.exact a₂.exact b₁.exact b₂.exact = .error .parallelLines ↔
        AreParallel a₁ a₂ b₁ b₂) ∧
      (¬AreParallel a₁ a₂ b₁ b₂ →
        ∃ p : Vec Rat, intersection a₁.exact a₂.exact b₁.exact b₂.exact = .ok p.exact ∧
          ∀ q, Contains a₁ a₂ q ∧ Contains b₁ b₂ q ↔ q = p) ∧
      intersection a₂.exact a₁.exact b₁.exact b₂.exact =
        intersection a₁.exact a₂.exact b₁.exact b₂.exact ∧
      intersection a₁.exact a₂.exact b₂.exact b₁.exact =
        intersection a₁.exact a₂.exact b₁.exact b₂.exact ∧
      intersection b₁.exact b₂.exact a₁.exact a₂.exact =
        intersection a₁.exact a₂.exact b₁.exact b₂.exact := by
  refine ⟨intersection_eq_error_iff ha hb, fun hcross ↦ ?_, ?_, ?_, ?_⟩
  · obtain ⟨hparallel, -⟩ | ⟨p, hp, hok⟩ := intersection_cases ha hb
    · exact absurd hparallel hcross
    · exact ⟨p, hok, hp⟩
  · exact intersection_eq_of_common ha.symm hb ha hb fun q ↦ and_congr_left' contains_swap
  · exact intersection_eq_of_common ha hb.symm ha hb fun q ↦ and_congr_right' contains_swap
  · exact intersection_eq_of_common hb ha ha hb fun q ↦ and_comm

/-- A vertical line, written downwards, and a level one. -/
theorem intersection_is_common_point_vertical :
    (⟨3, 0⟩ : Vec Rat) ≠ ⟨3, -10⟩ ∧ (⟨0, 2⟩ : Vec Rat) ≠ ⟨4, 2⟩ ∧
      ¬AreParallel ⟨3, 0⟩ ⟨3, -10⟩ ⟨0, 2⟩ ⟨4, 2⟩ ∧
      intersection (Vec.exact ⟨0, 2⟩) (Vec.exact ⟨4, 2⟩) (Vec.exact ⟨3, 0⟩)
        (Vec.exact ⟨3, -10⟩) = .ok (Vec.exact ⟨3, 2⟩) := by
  have ha : (⟨3, 0⟩ : Vec Rat) ≠ ⟨3, -10⟩ := by decide
  have hb : (⟨0, 2⟩ : Vec Rat) ≠ ⟨4, 2⟩ := by decide
  have hok : intersection (Vec.exact ⟨3, 0⟩) (Vec.exact ⟨3, -10⟩) (Vec.exact ⟨0, 2⟩)
      (Vec.exact ⟨4, 2⟩) = .ok (Vec.exact ⟨3, 2⟩) := by decide +kernel
  obtain ⟨hparallel, -, -, -, hlines⟩ := intersection_is_common_point ha hb
  refine ⟨ha, hb, fun h ↦ ?_, hlines.trans hok⟩
  exact absurd (hok.symm.trans (hparallel.2 h)) nofun

end Crossing

end Line

end DiagramMacros
