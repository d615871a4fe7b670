import DiagramMacros.Geometry.Polar
import DiagramMacros.Proofs.Geometry.Slopes
import Mathlib.Algebra.Order.ToIntervalMod
import Mathlib.Data.Rat.Floor
import Mathlib.Tactic.LinearCombination
/-!
The canonical pair of a polar pair, in numbers that are not rounded. Without rounding, the remainder
of an angle on division by a full turn is the one angle from zero up to the turn that differs from
it by whole turns (`Exact.mod_eq_mod_iff`), and normalizing is a function on rational pairs
(`Polar.normalize_exact`).

Two pairs have the same canonical pair exactly if both lengths are zero, or one pair comes from the
other by whole turns, or by whole turns and a half together with a length of the opposite sign
(`Polar.canonical_eq_iff`). So the canonical pair tells pairs apart as far as they should be, and no
further (`Polar.normalize_is_canonical`).
-/

set_option autoImplicit false
set_option relaxedAutoImplicit false

namespace DiagramMacros

namespace Exact

variable {b : Rat}

theorem mod_eq_toIcoMod (hb : 0 < b) (a : Rat) : mod a b = toIcoMod hb 0 a := by
  rw [toIcoMod, toIcoDiv_eq_floor, sub_zero, zsmul_eq_mul, mul_comm]
  rfl

theorem mod_mem_Ico (hb : 0 < b) (a : Rat) : mod a b ∈ Set.Ico 0 b := by
  rw [mod_eq_toIcoMod hb]
  exact toIcoMod_mem_Ico' hb a

theorem mod_eq_self (hb : 0 < b) {a : Rat} (ha : a ∈ Set.Ico 0 b) : mod a b = a := by
  rw [mod_eq_toIcoMod hb, toIcoMod_eq_self, zero_add]
  exact ha

/-- Two numbers have the same remainder if they differ by a multiple of the divisor. -/
theorem mod_eq_mod_iff (hb : 0 < b) (a a' : Rat) :
    mod a b = mod a' b ↔ ∃ k : Int, a - a' = k * b := by
  rw [mod_eq_toIcoMod hb, mod_eq_toIcoMod hb, eq_comm, toIcoMod_eq_toIcoMod]
  simp only [zsmul_eq_mul]

end Exact

namespace Polar

variable {p q : Polar Rat}

/-- The pair with a rational angle and a rational length, as exact numbers. -/
def exact (p : Polar Rat) : Polar Exact := ⟨.finite p.angle, .finite p.length⟩

theorem exact_inj : p.exact = q.exact ↔ p = q := by
  cases p
  cases q
  simp [exact]

/-- An angle is a number of whole turns. -/
def IsTurns (angle : Rat) : Prop := ∃ k : Int, angle = k * 360

/-- The angle of a pair whose length has lost its sign: half a turn more if it was negative. -/
def forwardAngle (p : Polar Rat) : Rat := if p.length < 0 then p.angle + 180 else p.angle

/-- The canonical pair of a rational pair. -/
def canonical (p : Polar Rat) : Polar Rat :=
  if p.length = 0 then ⟨0, 0⟩ else ⟨Exact.mod p.forwardAngle 360, |p.length|⟩

theorem full_turn_pos : (0 : Rat) < 360 := by norm_num

/-- The remainder of an angle is below a full turn, so only the length decides about its angle. -/
theorem normalize_exact (p : Polar Rat) : p.exact.normalize = p.canonical.exact := by
  have hforward : (if Scalar.lt p.exact.length (Scalar.ofInt 0) then
      p.exact.angle + Scalar.ofInt 180 else p.exact.angle) = .finite p.forwardAngle := by
    by_cases h : p.length < 0 <;> simp [exact, Scalar.lt, Scalar.ofInt, forwardAngle, h]
  have hlength : Scalar.absolute p.exact.length = .finite |p.length| := by
    by_cases h : p.length < 0
    · simp [exact, Scalar.absolute, Scalar.lt, Scalar.ofInt, h, abs_of_neg h]
    · simp [exact, Scalar.absolute, Scalar.lt, Scalar.ofInt, h, abs_of_nonneg (not_lt.1 h)]
  have hbelow := (Exact.mod_mem_Ico full_turn_pos p.forwardAngle).2
  rw [normalize, hforward, hlength, canonical]
  by_cases h : p.length = 0
  · simp [Scalar.mod, Scalar.le, Scalar.lt, Scalar.eq, Scalar.ofInt, exact, h]
  · simp [Scalar.mod, Scalar.le, Scalar.lt, Scalar.eq, Scalar.ofInt, exact, h, hbelow.le,
      hbelow.ne']

theorem canonical_of_zero (h : p.length = 0) : p.canonical = ⟨0, 0⟩ := if_pos h

theorem canonical_of_ne_zero (h : p.length ≠ 0) :
    p.canonical = ⟨Exact.mod p.forwardAngle 360, |p.length|⟩ := if_neg h

theorem length_canonical (p : Polar Rat) : p.canonical.length = |p.length| := by
  by_cases h : p.length = 0
  · rw [canonical_of_zero h, h, abs_zero]
  · rw [canonical_of_ne_zero h]

theorem angle_canonical_mem_Ico (p : Polar Rat) : p.canonical.angle ∈ Set.Ico 0 360 := by
  by_cases h : p.length = 0
  · rw [canonical_of_zero h]
    exact ⟨le_refl 0, full_turn_pos⟩
  · rw [canonical_of_ne_zero h]
    exact Exact.mod_mem_Ico full_turn_pos _

theorem canonical_canonical (p : Polar Rat) : p.canonical.canonical = p.canonical := by
  by_cases h : p.length = 0
  · rw [canonical_of_zero h, canonical_of_zero rfl]
  · have hlength : p.canonical.length ≠ 0 := by rwa [length_canonical, abs_ne_zero]
    have hforward : p.canonical.forwardAngle = p.canonical.angle :=
      if_neg (not_lt.2 (length_canonical p ▸ abs_nonneg _))
    rw [canonical_of_ne_zero hlength, hforward,
      Exact.mod_eq_self full_turn_pos (angle_canonical_mem_Ico p), length_canonical, abs_abs,
      ← length_canonical]

/-- The angles of two pairs of the same length, up to its sign, have the same remainder if they
differ by whole turns, or by whole turns and a half if the signs differ. -/
theorem mod_forwardAngle_eq_iff (hp : p.length ≠ 0) (hlength : |p.length| = |q.length|) :
    Exact.mod p.forwardAngle 360 = Exact.mod q.forwardAngle 360 ↔
      p.length = q.length ∧ IsTurns (p.angle - q.angle) ∨
        p.length = -q.length ∧ IsTurns (p.angle - q.angle - 180) := by
  rw [Exact.mod_eq_mod_iff full_turn_pos]
  rcases abs_eq_abs.1 hlength with hsame | hopposite
  · have hnot : p.length ≠ -q.length := fun h ↦ hp (self_eq_neg.1 (h.trans (by rw [hsame])))
    have hdifference : p.forwardAngle - q.forwardAngle = p.angle - q.angle := by
      rw [forwardAngle, forwardAngle, hsame]
      split
      · exact add_sub_add_right_eq_sub _ _ _
      · rfl
    rw [hdifference, or_iff_left fun h ↦ hnot h.1, and_iff_right hsame]
    rfl
  · have hnot : p.length ≠ q.length := fun h ↦ hp (self_eq_neg.1 (hopposite.trans (by rw [h])))
    have hturns : (∃ k : Int, p.forwardAngle - q.forwardAngle = k * 360) ↔
        IsTurns (p.angle - q.angle - 180) := by
      -- The pair with the negative length is turned by 180, which is -180 and a whole turn.
      rcases lt_or_gt_of_ne hp with hneg | hpos
      · rw [forwardAngle, forwardAngle, if_pos hneg, if_neg (by linarith)]
        constructor
        · rintro ⟨k, hk⟩
          exact ⟨k - 1, by push_cast; linear_combination hk⟩
        · rintro ⟨k, hk⟩
          exact ⟨k + 1, by push_cast; linear_combination hk⟩
      · rw [forwardAngle, forwardAngle, if_neg hpos.not_gt, if_pos (by linarith), ← sub_sub]
        rfl
    rw [hturns, or_iff_right fun h ↦ hnot h.1, and_iff_right hopposite]

/-- Which pairs have the same canonical pair. -/
theorem canonical_eq_iff (p q : Polar Rat) :
    p.canonical = q.canonical ↔
      p.length = 0 ∧ q.length = 0 ∨ p.length = q.length ∧ IsTurns (p.angle - q.angle) ∨
        p.length = -q.length ∧ IsTurns (p.angle - q.angle - 180) := by
  constructor
  · intro h
    have hlength : |p.length| = |q.length| := by rw [← length_canonical, h, length_canonical]
    by_cases hp : p.length = 0
    · exact Or.inl ⟨hp, by rwa [hp, abs_zero, eq_comm, abs_eq_zero] at hlength⟩
    · have hq : q.length ≠ 0 := by rwa [← abs_ne_zero, ← hlength, abs_ne_zero]
      rw [canonical_of_ne_zero hp, canonical_of_ne_zero hq] at h
      exact Or.inr ((mod_forwardAngle_eq_iff hp hlength).1 (congrArg angle h))
  · rintro (⟨hp, hq⟩ | h)
    · rw [canonical_of_zero hp, canonical_of_zero hq]
    · have hlength : |p.length| = |q.length| := abs_eq_abs.2 (h.imp And.left And.left)
      by_cases hp : p.length = 0
      · rw [hp, abs_zero, eq_comm, abs_eq_zero] at hlength
        rw [canonical_of_zero hp, canonical_of_zero hlength]
      · have hq : q.length ≠ 0 := by rwa [← abs_ne_zero, ← hlength, abs_ne_zero]
        rw [canonical_of_ne_zero hp, canonical_of_ne_zero hq, hlength,
          (mod_forwardAngle_eq_iff hp hlength).2 h]

/-- The canonical pair of a rational pair has its length without the sign and an angle from zero up
to a full turn, and it is its own canonical pair. Pairs have the same canonical pair exactly if they
both have length zero, or the same length and angles that differ by whole turns, or lengths of
opposite sign and angles that differ by whole turns and a half. -/
theorem normalize_is_canonical (p q : Polar Rat) :
    (∃ angle : Rat, p.exact.normalize = Polar.exact ⟨angle, |p.length|⟩ ∧ 0 ≤ angle ∧ angle < 360) ∧
      p.exact.normalize.normalize = p.exact.normalize ∧
      (p.exact.normalize = q.exact.normalize ↔
        p.length = 0 ∧ q.length = 0 ∨
          p.length = q.length ∧ IsTurns (p.angle - q.angle) ∨
          p.length = -q.length ∧ IsTurns (p.angle - q.angle - 180)) := by
  refine ⟨⟨p.canonical.angle, ?_, angle_canonical_mem_Ico p⟩, ?_, ?_⟩
  · rw [normalize_exact, ← length_canonical]
  · rw [normalize_exact, normalize_exact, canonical_canonical]
  · rw [normalize_exact, normalize_exact, exact_inj, canonical_eq_iff]

example : (Polar.exact ⟨-90, -2⟩).normalize = (Polar.exact ⟨450, 2⟩).normalize := by decide +kernel

end Polar

end DiagramMacros
