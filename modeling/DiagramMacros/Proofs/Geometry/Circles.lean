import DiagramMacros.Proofs.Geometry.Lines
import Mathlib.Analysis.Real.Sqrt
/-!
Circles through three points, in numbers that are not rounded. The centre is the crossing of the
perpendicular bisectors of two chords, so it has the same distance from all three points, and the
radius is the root of that distance squared (`Line.circumcircle_is_circumscribed`). A chord without
length has no direction; its slope is that of a vertical line (`Line.chord`).

Three points that are not on one line have a circle, the same in every order. Three points on one
line have none, unless the second is also the first or the last of them. Then one chord has no
length and counts as vertical, and its level bisector crosses the other one if the points are not
above each other (`Line.circumcircle_eq_error_iff`).
-/

set_option autoImplicit false
set_option relaxedAutoImplicit false

namespace DiagramMacros

/-- The real square root of a finite number. -/
noncomputable def Exact.realRoot : Exact → ℝ
  | .finite q => √q
  | _ => 0

namespace Vec

def midpoint (a b : Vec Rat) : Vec Rat := ⟨(a.x + b.x) / 2, (a.y + b.y) / 2⟩

def squaredDistance (p q : Vec Rat) : Rat :=
  (p.x - q.x) * (p.x - q.x) + (p.y - q.y) * (p.y - q.y)

theorem cross_turned (v w : Vec Rat) : v.turned.cross w.turned = v.cross w := by
  simp only [turned, cross]
  ring

theorem middle_exact (a b : Vec Rat) : a.exact.middle b.exact = (a.midpoint b).exact := by
  simp [middle, divide, add, exact, midpoint, Scalar.ofInt, Exact.finite_div_finite]

theorem distanceSquared_exact (p q : Vec Rat) :
    p.exact.distanceSquared q.exact = .finite (p.squaredDistance q) := by
  simp [distanceSquared, exact, squaredDistance]

theorem squaredDistance_nonneg (p q : Vec Rat) : 0 ≤ p.squaredDistance q :=
  add_nonneg (mul_self_nonneg _) (mul_self_nonneg _)

end Vec

namespace Line

variable {a b c p q v : Vec Rat} {m : Exact}

/-! ### Bisectors of chords -/

/-- The direction of a chord. One without length counts as vertical. -/
def chord (a b : Vec Rat) : Vec Rat := if a = b then ⟨0, 1⟩ else a.stepTo b

theorem chord_self (a : Vec Rat) : chord a a = ⟨0, 1⟩ := if_pos rfl

theorem chord_of_ne (h : a ≠ b) : chord a b = a.stepTo b := if_neg h

theorem chord_x (a b : Vec Rat) : (chord a b).x = b.x - a.x := by
  by_cases h : a = b
  · rw [h, chord_self, sub_self]
  · rw [chord_of_ne h, Vec.stepTo]

theorem isSlope_chord (a b : Vec Rat) : IsSlope (chord a b) (slope a.exact b.exact) := by
  by_cases h : a = b
  · obtain ⟨negative, hslope⟩ : ∃ negative, slope a.exact b.exact = .infinite negative :=
      slope_of_vertical (by simp [Vec.exact, h])
    rw [hslope, h, chord_self]
    exact .vertical negative rfl one_ne_zero
  · rw [chord_of_ne h]
    exact isSlope_slope h

/-- The perpendicular bisector of two points holds the points at the same distance from both. -/
theorem isAlong_bisector_iff (a b p : Vec Rat) :
    IsAlong (a.midpoint b) (a.stepTo b).turned p ↔ p.squaredDistance a = p.squaredDistance b := by
  simp only [IsAlong, Vec.cross, Vec.stepTo, Vec.turned, Vec.midpoint, Vec.squaredDistance]
  constructor
  · intro h
    linear_combination -2 * h
  · intro h
    linear_combination -h / 2

theorem squaredDistance_eq_of_isAlong (h : IsAlong (a.midpoint b) (chord a b).turned p) :
    p.squaredDistance a = p.squaredDistance b := by
  by_cases hab : a = b
  · rw [hab]
  · rw [chord_of_ne hab] at h
    exact (isAlong_bisector_iff a b p).1 h

/-- The centre of the circle through three points has the same distance from them. There is none if
the chords between them are parallel. -/
theorem circumcentre_cases (a b c : Vec Rat) :
    (chord a b).cross (chord b c) = 0 ∧ circumcentre? a.exact b.exact c.exact = none ∨
      ∃ o : Vec Rat, (chord a b).cross (chord b c) ≠ 0 ∧
        o.squaredDistance a = o.squaredDistance b ∧ o.squaredDistance b = o.squaredDistance c ∧
        circumcentre? a.exact b.exact c.exact = some o.exact := by
  rw [circumcentre?, Vec.middle_exact, Vec.middle_exact, ← Vec.cross_turned]
  rcases crossing_cases (isSlope_chord a b).perpendicular (isSlope_chord b c).perpendicular
    (a.midpoint b) (b.midpoint c) with hnone | ⟨o, hcross, hab, hbc, hsome⟩
  · exact Or.inl hnone
  · exact Or.inr ⟨o, hcross, squaredDistance_eq_of_isAlong hab, squaredDistance_eq_of_isAlong hbc,
      hsome⟩

/-! ### Points on one line -/

/-- The points are on one line. -/
def AreCollinear (points : List (Vec Rat)) : Prop := ∃ p q, p ≠ q ∧ ∀ r ∈ points, Contains p q r

theorem areCollinear_pair (a b : Vec Rat) : AreCollinear [a, b] := by
  by_cases hab : a = b
  · have hne : a ≠ ⟨a.x + 1, a.y⟩ := fun h ↦ by simpa using congrArg Vec.x h
    refine ⟨a, ⟨a.x + 1, a.y⟩, hne, ?_⟩
    simp [← hab, contains_left]
  · exact ⟨a, b, hab, by simp [contains_left, contains_right]⟩

theorem areCollinear_congr {ps qs : List (Vec Rat)} (h : ∀ r, r ∈ ps ↔ r ∈ qs) :
    AreCollinear ps ↔ AreCollinear qs := by
  simp only [AreCollinear, h]

theorem areCollinear_of_eq (h : a = b ∨ b = c) : AreCollinear [a, b, c] := by
  rcases h with rfl | rfl
  · exact (areCollinear_congr (by simp)).2 (areCollinear_pair a c)
  · exact (areCollinear_congr (by simp)).2 (areCollinear_pair a b)

theorem areCollinear_iff (hab : a ≠ b) :
    AreCollinear [a, b, c] ↔ (a.stepTo b).cross (b.stepTo c) = 0 := by
  constructor
  · rintro ⟨p, q, -, hon⟩
    obtain ⟨s, rfl⟩ := hon a (by simp)
    obtain ⟨t, rfl⟩ := hon b (by simp)
    obtain ⟨u, rfl⟩ := hon c (by simp)
    simp only [Vec.stepTo, Vec.cross]
    ring
  · intro h
    have hc : Contains a b c := by
      rw [contains_iff hab]
      simp only [IsAlong, Vec.stepTo, Vec.cross] at h ⊢
      linear_combination h
    exact ⟨a, b, hab, by simp [contains_left, contains_right, hc]⟩

/-- The chords between three points are parallel if the points are on one line, unless one of the
chords has no length and the other is not vertical. -/
theorem cross_chord_eq_zero_iff (a b c : Vec Rat) :
    (chord a b).cross (chord b c) = 0 ↔
      AreCollinear [a, b, c] ∧ (a.x = c.x ∨ a ≠ b ∧ b ≠ c) := by
  by_cases hab : a = b
  · rw [and_iff_right (areCollinear_of_eq (Or.inl hab)), ← hab, chord_self, Vec.cross, chord_x]
    simp [sub_eq_zero]
  · by_cases hbc : b = c
    · rw [and_iff_right (areCollinear_of_eq (Or.inr hbc)), ← hbc, chord_self, Vec.cross, chord_x]
      simp [sub_eq_zero, eq_comm]
    · rw [chord_of_ne hab, chord_of_ne hbc, ← areCollinear_iff hab]
      simp [hab, hbc]

/-! ### Circles -/

/-- The points have the squared distance `d` from `o`. -/
def AreOnCircle (o : Vec Rat) (d : Rat) (points : List (Vec Rat)) : Prop :=
  ∀ p ∈ points, o.exact.distanceSquared p.exact = .finite d

theorem areOnCircle_iff {o : Vec Rat} {d : Rat} :
    AreOnCircle o d [a, b, c] ↔
      o.squaredDistance a = d ∧ o.squaredDistance b = d ∧ o.squaredDistance c = d := by
  simp [AreOnCircle, Vec.distanceSquared_exact]

/-- Points that are not on one line have the same distance from one point only. -/
theorem eq_of_areOnCircle {o o' : Vec Rat} {d d' : Rat} (h : ¬AreCollinear [a, b, c])
    (ho : AreOnCircle o d [a, b, c]) (ho' : AreOnCircle o' d' [a, b, c]) : o = o' := by
  have hab : a ≠ b := fun hab ↦ h (areCollinear_of_eq (Or.inl hab))
  rw [areCollinear_iff hab, ← Vec.cross_turned] at h
  have hbisectors {o : Vec Rat} {d : Rat} (ho : AreOnCircle o d [a, b, c]) :
      IsAlong (a.midpoint b) (a.stepTo b).turned o ∧
        IsAlong (b.midpoint c) (b.stepTo c).turned o := by
    obtain ⟨ha, hb, hc⟩ := areOnCircle_iff.1 ho
    exact ⟨(isAlong_bisector_iff a b o).2 (ha.trans hb.symm),
      (isAlong_bisector_iff b c o).2 (hb.trans hc.symm)⟩
  exact eq_of_isAlong h (hbisectors ho) (hbisectors ho')

section Circumcircle

variable {R : Type}

/-- Three points have a circle through them, or the chords between them are parallel. -/
theorem circumcircle_cases (root : Exact → R) (a b c : Vec Rat) :
    (AreCollinear [a, b, c] ∧ (a.x = c.x ∨ a ≠ b ∧ b ≠ c)) ∧
        circumcircle root a.exact b.exact c.exact = .error .parallelLines ∨
      ∃ (o : Vec Rat) (d : Rat), ¬(AreCollinear [a, b, c] ∧ (a.x = c.x ∨ a ≠ b ∧ b ≠ c)) ∧
        AreOnCircle o d [a, b, c] ∧
        circumcircle root a.exact b.exact c.exact = .ok (o.exact, root (.finite d)) := by
  rw [← cross_chord_eq_zero_iff]
  rcases circumcentre_cases a b c with ⟨hcross, hnone⟩ | ⟨o, hcross, hab, hbc, hsome⟩
  · exact Or.inl ⟨hcross, by rw [circumcircle, hnone]⟩
  · refine Or.inr ⟨o, o.squaredDistance a, hcross, areOnCircle_iff.2 ⟨rfl, hab.symm, ?_⟩, ?_⟩
    · exact (hab.trans hbc).symm
    · simp [circumcircle, hsome, Vec.distanceSquared_exact]

theorem exists_circumcircle (root : Exact → R) (h : ¬AreCollinear [a, b, c]) :
    ∃ (o : Vec Rat) (d : Rat), AreOnCircle o d [a, b, c] ∧
      circumcircle root a.exact b.exact c.exact = .ok (o.exact, root (.finite d)) := by
  obtain ⟨⟨hcollinear, -⟩, -⟩ | ⟨o, d, -, hcircle⟩ := circumcircle_cases root a b c
  · exact absurd hcollinear h
  · exact ⟨o, d, hcircle⟩

end Circumcircle

/-- Whatever three points have a circle, its centre has the same distance from all of them, and that
is its radius. Three points that are not on one line have one, whose centre is the only point with
the same distance from all of them, and it is the same in every order of the points. -/
theorem circumcircle_is_circumscribed (a b c : Vec Rat) :
    (∀ centre radius,
        circumcircle Exact.realRoot a.exact b.exact c.exact = .ok (centre, radius) →
          ∃ (o : Vec Rat) (d : Rat), centre = o.exact ∧ AreOnCircle o d [a, b, c] ∧
            0 ≤ radius ∧ radius ^ 2 = d) ∧
      (¬AreCollinear [a, b, c] →
        ∃ (o : Vec Rat) (radius : ℝ),
          (∀ q, (∃ d, AreOnCircle q d [a, b, c]) ↔ q = o) ∧
            ∀ a' b' c' : Vec Rat, [a', b', c'].Perm [a, b, c] →
              circumcircle Exact.realRoot a'.exact b'.exact c'.exact = .ok (o.exact, radius)) := by
  constructor
  · intro centre radius hok
    obtain ⟨-, herror⟩ | ⟨o, d, -, hon, hok'⟩ := circumcircle_cases Exact.realRoot a b c
    · exact absurd (hok.symm.trans herror) nofun
    · obtain ⟨rfl, rfl⟩ := Prod.mk.inj (Except.ok.inj (hok.symm.trans hok'))
      have hd : (0 : ℝ) ≤ d := by
        exact_mod_cast (areOnCircle_iff.1 hon).1 ▸ o.squaredDistance_nonneg a
      exact ⟨o, d, rfl, hon, Real.sqrt_nonneg _, Real.sq_sqrt hd⟩
  · intro h
    obtain ⟨o, d, hon, -⟩ := exists_circumcircle Exact.realRoot h
    refine ⟨o, Exact.realRoot (.finite d), fun q ↦ ?_, fun a' b' c' hperm ↦ ?_⟩
    · constructor
      · rintro ⟨d', hq⟩
        exact eq_of_areOnCircle h hq hon
      · rintro rfl
        exact ⟨d, hon⟩
    · have h' : ¬AreCollinear [a', b', c'] := fun hcollinear ↦
        h ((areCollinear_congr fun _ ↦ hperm.mem_iff).1 hcollinear)
      obtain ⟨o', d', hon', hok⟩ := exists_circumcircle Exact.realRoot h'
      have hon'' : AreOnCircle o' d' [a, b, c] := fun p hp ↦ hon' p (hperm.mem_iff.2 hp)
      obtain rfl := eq_of_areOnCircle h hon hon''
      rw [hok, ← (areOnCircle_iff.1 hon).1, ← (areOnCircle_iff.1 hon'').1]

/-- A triangle with a level and a vertical side. -/
theorem circumcircle_is_circumscribed_right_triangle :
    ¬AreCollinear [⟨0, 0⟩, ⟨4, 0⟩, ⟨0, 3⟩] ∧ ∃ radius : ℝ, radius ^ 2 = 25 / 4 ∧
      circumcircle Exact.realRoot (Vec.exact ⟨0, 3⟩) (Vec.exact ⟨0, 0⟩) (Vec.exact ⟨4, 0⟩) =
        .ok (Vec.exact ⟨2, 3 / 2⟩, radius) := by
  have htriangle : ¬AreCollinear [⟨0, 0⟩, ⟨4, 0⟩, ⟨0, 3⟩] := by
    rw [areCollinear_iff (by decide)]
    decide +kernel
  have hon : AreOnCircle ⟨2, 3 / 2⟩ (25 / 4) [⟨0, 0⟩, ⟨4, 0⟩, ⟨0, 3⟩] :=
    areOnCircle_iff.2 (by decide +kernel)
  obtain ⟨hround, hexists⟩ := circumcircle_is_circumscribed ⟨0, 0⟩ ⟨4, 0⟩ ⟨0, 3⟩
  obtain ⟨o, radius, honly, horder⟩ := hexists htriangle
  obtain rfl := (honly ⟨2, 3 / 2⟩).1 ⟨_, hon⟩
  obtain ⟨o, d, ho, hon', -, hradius⟩ := hround _ _ (horder _ _ _ (List.Perm.refl _))
  obtain rfl := Vec.exact_inj ho
  have hd : 25 / 4 = d := (areOnCircle_iff.1 hon).1.symm.trans (areOnCircle_iff.1 hon').1
  refine ⟨htriangle, radius, ?_, horder _ _ _ (by decide)⟩
  rw [hradius, ← hd]
  norm_num

/-- Three points have no circle exactly if they are on one line, and the first and the last of them
are above each other or both different from the second. -/
theorem circumcircle_eq_error_iff {R : Type} (root : Exact → R) (a b c : Vec Rat) :
    circumcircle root a.exact b.exact c.exact = .error .parallelLines ↔
      AreCollinear [a, b, c] ∧ (a.x = c.x ∨ a ≠ b ∧ b ≠ c) := by
  obtain ⟨hparallel, herror⟩ | ⟨o, d, hcross, -, hok⟩ := circumcircle_cases root a b c
  · exact iff_of_true herror hparallel
  · rw [hok]
    exact iff_of_false nofun hcross

/-- Three points on one line, the first of them written twice. -/
theorem doubled_point_has_circle :
    AreCollinear [⟨0, 0⟩, ⟨0, 0⟩, ⟨1, 1⟩] ∧
      circumcircle Exact.realRoot (Vec.exact ⟨0, 0⟩) (Vec.exact ⟨0, 0⟩) (Vec.exact ⟨1, 1⟩) =
        .ok (Vec.exact ⟨1, 0⟩, 1) := by
  have hcentre : circumcentre? (Vec.exact ⟨0, 0⟩) (Vec.exact ⟨0, 0⟩) (Vec.exact ⟨1, 1⟩) =
      some (Vec.exact ⟨1, 0⟩) := by decide +kernel
  refine ⟨⟨⟨0, 0⟩, ⟨1, 1⟩, by decide, by simp [contains_left, contains_right]⟩, ?_⟩
  rw [circumcircle, hcentre]
  simp [Vec.distanceSquared_exact, Vec.squaredDistance, Exact.realRoot]

end Line

end DiagramMacros
