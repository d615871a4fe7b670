import DiagramMacros.Proofs.DigitTexts
import DiagramMacros.Proofs.Geometry.Slopes
import Mathlib.Tactic.Linarith
/-!
Printing numbers that are not rounded before. Such a number is printed through the integer that is
nearest to its ten-thousandths, a half going away from zero (`Exact.isRounded_iff`): rounding to four
decimals leaves that many ten-thousandths (`Numeral.toFourDecimals_finite`), which four decimals
write without rounding again (`Numeral.fixed_div`).

An integer is its own multiple of four decimals, so rounding leaves it alone, and its decimals are
zeros that are dropped: it is printed as an integer (`Numeral.print_intCast`).
-/

set_option autoImplicit false
set_option relaxedAutoImplicit false

namespace DiagramMacros

/-! ### Rounding to an integer -/

namespace Exact

variable {a b : Rat} {k l : Int}

/-- An integer nearest to a rational; of two equally near ones, the one further from zero. -/
structure IsRounded (a : Rat) (k : Int) : Prop where
  near : 2 * |a - k| ≤ 1
  away : 2 * |a - k| = 1 → |a| < |(k : Rat)|

namespace IsRounded

theorem neg (h : IsRounded a k) : IsRounded (-a) (-k : Int) := by
  have hdifference : |-a - (-k : Int)| = |a - k| := by
    rw [Int.cast_neg, neg_sub_neg, abs_sub_comm]
  refine ⟨hdifference ▸ h.near, fun htie ↦ ?_⟩
  rw [hdifference] at htie
  rw [Int.cast_neg, abs_neg, abs_neg]
  exact h.away htie

/-- Rounding keeps the order. Only a tie could break it, and of two integers next to each other,
one is not further from zero than the number between them. -/
theorem mono (ha : IsRounded a k) (hb : IsRounded b l) (h : a ≤ b) : k ≤ l := by
  by_contra hlt
  have hstep : (l : Rat) + 1 ≤ k := by exact_mod_cast Int.add_one_le_iff.2 (not_le.1 hlt)
  have hk := ha.near
  have hl := hb.near
  have hlow : -(a - k) ≤ |a - k| := neg_le_abs _
  have hhigh : b - l ≤ |b - l| := le_abs_self _
  have hupper := ha.away (by linarith)
  have hlower := hb.away (by linarith)
  have hmiddle : a = l + 1 / 2 := by linarith
  have hsame : b = l + 1 / 2 := by linarith
  have hnext : (k : Rat) = l + 1 := by linarith
  rcases le_or_gt 0 l with hsign | hsign
  · have hnonneg : (0 : Rat) ≤ l := Int.cast_nonneg hsign
    rw [hsame, abs_of_nonneg hnonneg, abs_of_nonneg (by linarith)] at hlower
    linarith
  · have hneg : (l : Rat) + 1 ≤ 0 := by exact_mod_cast Int.add_one_le_iff.2 hsign
    rw [hmiddle, hnext, abs_of_nonpos hneg, abs_of_nonpos (by linarith)] at hupper
    linarith

end IsRounded

theorem isRounded_floor (ha : 0 ≤ a) : IsRounded a (a + 1 / 2).floor := by
  have hle : ((a + 1 / 2).floor : Rat) ≤ a + 1 / 2 := Rat.le_floor_iff.1 le_rfl
  have hlt : a + 1 / 2 < ((a + 1 / 2).floor + 1 : Int) := Rat.floor_lt_iff.1 (Int.lt_succ _)
  push_cast at hlt
  have hnear : |a - (a + 1 / 2).floor| ≤ 1 / 2 := abs_le.2 ⟨by linarith, by linarith⟩
  refine ⟨by linarith, fun htie ↦ ?_⟩
  have habove : ((a + 1 / 2).floor : Rat) = a + 1 / 2 := by
    rcases abs_choice (a - (a + 1 / 2).floor) with hsign | hsign <;> linarith
  rw [abs_of_nonneg ha, habove, abs_of_pos (by linarith)]
  linarith

/-- A number is rounded to the one integer that is nearest, a half going away from zero. -/
theorem isRounded_iff : IsRounded a k ↔ k = roundAway a := by
  have hround : IsRounded a (roundAway a) := by
    rw [roundAway]
    split
    · rename_i hneg
      have h := (isRounded_floor (neg_nonneg.2 hneg.le)).neg
      rwa [neg_neg] at h
    · exact isRounded_floor (not_lt.1 ‹_›)
  constructor
  · exact fun h ↦ le_antisymm (h.mono hround le_rfl) (hround.mono h le_rfl)
  · rintro rfl
    exact hround

theorem roundAway_mono (h : a ≤ b) : roundAway a ≤ roundAway b :=
  (isRounded_iff.2 rfl).mono (isRounded_iff.2 rfl) h

theorem roundAway_intCast (n : Int) : roundAway (n : Rat) = n := by
  refine (isRounded_iff.1 ⟨?_, fun h ↦ ?_⟩).symm
  · simp
  · simp at h

end Exact

namespace Numeral

/-! ### Four decimals -/

/-- The count of ten-thousandths that is nearest to a number, a half going away from zero. -/
def tenThousandths (v : Rat) : Int := Exact.roundAway (v * 10000)

theorem tenThousandths_mono {v w : Rat} (h : v ≤ w) : tenThousandths v ≤ tenThousandths w :=
  Exact.roundAway_mono (mul_le_mul_of_nonneg_right h (by norm_num))

theorem tenThousandths_div (k : Int) : tenThousandths (k / 10000) = k := by
  rw [tenThousandths, div_mul_cancel₀ _ (by norm_num), Exact.roundAway_intCast]

theorem intCast_eq_div (n : Int) : (n : Rat) = (n * 10000 : Int) / 10000 := by
  rw [Int.cast_mul]
  exact (mul_div_cancel_right₀ _ (by norm_num)).symm

theorem toFourDecimals_finite (v : Rat) :
    toFourDecimals (Exact.finite v) = Exact.finite (tenThousandths v / 10000) := by
  have hunit : ((10000 : Int) : Rat) ≠ 0 := by norm_num
  rw [toFourDecimals, Scalar.ofInt, Scalar.ofExact_exact, Exact.finite_mul_finite, Scalar.round,
    Scalar.value_exact, Exact.map, Scalar.ofExact_exact, Exact.finite_div_finite hunit]
  rfl

theorem roundDiv_mul {n d : Nat} (hd : 0 < d) : Binary64.roundDiv (n * d) d = n := by
  simp [Binary64.roundDiv, Nat.mul_div_cancel _ hd, hd.ne]

theorem scaledDigits_div (k : Int) : scaledDigits 4 (k / 10000) = k.natAbs := by
  have hpos := (k / 10000 : Rat).den_pos
  have hcast : ((k / 10000 : Rat).num : Rat) * 10000 = k * (k / 10000 : Rat).den := by
    rw [← div_eq_iff (Nat.cast_ne_zero.2 hpos.ne'), mul_div_right_comm, Rat.num_div_den,
      div_mul_cancel₀ _ (by norm_num)]
  have hnum : (k / 10000 : Rat).num * 10000 = k * (k / 10000 : Rat).den := by exact_mod_cast hcast
  have hnat := congrArg Int.natAbs hnum
  rw [Int.natAbs_mul, Int.natAbs_mul, Int.natAbs_natCast] at hnat
  exact (congrArg (Binary64.roundDiv · _) hnat).trans (roundDiv_mul hpos)

/-- Ten-thousandths are written with four decimals as they are. -/
theorem fixed_div (k : Int) :
    fixed 4 (k / 10000) = signed (decide (k < 0))
      (digitsOf (k.natAbs / 10 ^ 4) ++ '.' :: padded 4 (k.natAbs % 10 ^ 4)) := by
  have hsign : decide ((k / 10000 : Rat) < 0) = decide (k < 0) :=
    decide_eq_decide.2 ((div_lt_iff₀ (by norm_num)).trans (by rw [zero_mul, Int.cast_lt_zero]))
  rw [fixed, scaledDigits_div, hsign]
  rfl

/-! ### Integers -/

theorem toList_toString (n : Int) :
    (toString n).toList = signed (decide (n < 0)) (digitsOf n.natAbs) := by
  cases n with
  | ofNat m =>
    show (Nat.repr m).toList = _
    simp [signed, digitsOf, Nat.repr]
  | negSucc m =>
    show ("-" ++ Nat.repr (m + 1)).toList = _
    simp [signed, digitsOf, Nat.repr]

/-- With four decimals, an integer has four zeros after the point. -/
theorem fixed_intCast (n : Int) :
    fixed 4 n = signed (decide (n < 0)) (digitsOf n.natAbs) ++ ".0000".toList := by
  have hsign : decide (n * 10000 < 0) = decide (n < 0) := decide_eq_decide.2 (by omega)
  have hwhole : (n * 10000).natAbs / 10 ^ 4 = n.natAbs := by omega
  have hfraction : (n * 10000).natAbs % 10 ^ 4 = 0 := by omega
  rw [intCast_eq_div, fixed_div, hsign, hwhole, hfraction]
  cases decide (n < 0) <;> rfl

/-- An integer is printed as one. -/
theorem print_intCast (n : Int) : print (Exact.finite n) = (toString n).toList := by
  have hfour : toFourDecimals (Exact.finite n) = Exact.finite n := by
    rw [intCast_eq_div n, toFourDecimals_finite, tenThousandths_div]
  rw [print, hfour, Scalar.value_exact]
  by_cases hzero : n = 0
  · rw [hzero]
    rfl
  · have hdrop := dropZeros_decimals (signed (decide (n < 0)) (digitsOf n.natAbs)) (g := [])
      rfl (by simp) 4
    show (if (n : Rat) = 0 then _ else _) = _
    rw [if_neg (Int.cast_ne_zero.2 hzero), fixed_intCast, toList_toString]
    exact hdrop.trans (List.append_nil _)

end Numeral

end DiagramMacros
