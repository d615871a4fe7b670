import DiagramMacros.Proofs.Binary64
/-!
Which quotients are rounded to finite numbers. The unit in which a quotient is rounded is fixed by
the power of two at or below it (`topExponent_le`, `lt_topExponent_succ`), so that the rounded
quotient has at most 53 binary digits. A quotient below `(2^54 - 1) · 2^970`, which is halfway
between the largest number and the next power of two, is rounded to a finite number
(`isFinite_ofExact`), and every finite number lies at least a unit below that bound
(`abs_add_two_lt_of_value`).
-/

set_option autoImplicit false
set_option relaxedAutoImplicit false

namespace DiagramMacros.Binary64

/-! ### Rounding to an integer -/

theorem two_mul_roundDiv_le (n d : Nat) : 2 * (roundDiv n d * d) ≤ 2 * n + d := by
  have hdiv := Nat.div_add_mod n d
  rw [Nat.mul_comm] at hdiv
  rw [roundDiv]
  split
  · rw [Nat.add_mul]
    omega
  · omega

theorem roundDiv_le {n d k : Nat} (h : 2 * n < (2 * k + 1) * d) : roundDiv n d ≤ k := by
  have hle := two_mul_roundDiv_le n d
  have hlt : roundDiv n d * d < (k + 1) * d := by
    rw [Nat.add_mul, Nat.mul_assoc] at h
    rw [Nat.add_mul]
    omega
  exact Nat.lt_succ_iff.1 (Nat.lt_of_mul_lt_mul_right hlt)

/-! ### The exponent of a quotient -/

section Quotient

variable {n d : Nat} {e : Int}

theorem zpow_mul_pow_toNat (e : Int) : (2 : Rat) ^ e * 2 ^ (-e).toNat = 2 ^ e.toNat := by
  rw [← zpow_natCast, ← zpow_natCast, ← zpow_add₀ two_ne_zero]
  congr 1
  omega

theorem powLe_iff : powLe e n d ↔ (2 : Rat) ^ e * d ≤ n := by
  have hpos : (0 : Rat) < 2 ^ (-e).toNat := by positivity
  rw [powLe, decide_eq_true_iff, ← mul_le_mul_iff_left₀ hpos, mul_right_comm, zpow_mul_pow_toNat]
  exact_mod_cast Iff.rfl

/-- The exponent of the largest power of two that is not above a quotient. -/
def topExponent (n d : Nat) : Int :=
  let e : Int := (n.log2 : Int) - d.log2
  if powLe e n d then e else e - 1

theorem unitExponent_eq (n d : Nat) : unitExponent n d = max (topExponent n d - 52) (-1074) := rfl

theorem zpow_log2_sub (a b : Int) (c : Rat) :
    (2 : Rat) ^ (a - b) * c = 2 ^ a * c / 2 ^ b := by
  rw [zpow_sub₀ two_ne_zero]
  ring

theorem pow_log2_le (hn : n ≠ 0) : (2 : Rat) ^ (n.log2 : Int) ≤ n := by
  rw [zpow_natCast]
  exact_mod_cast Nat.log2_self_le hn

theorem lt_pow_log2 (n : Nat) : (n : Rat) < 2 ^ ((n.log2 : Int) + 1) := by
  have h : n < 2 ^ (n.log2 + 1) := Nat.lt_log2_self
  exact_mod_cast h

theorem topExponent_le (hn : n ≠ 0) : (2 : Rat) ^ topExponent n d * d ≤ n := by
  rw [topExponent]
  split
  · rename_i h
    exact powLe_iff.1 h
  · have hexponent : ((n.log2 : Int) - d.log2 - 1) = n.log2 - (d.log2 + 1) := by ring
    have hpos : (0 : Rat) < 2 ^ ((d.log2 : Int) + 1) := by positivity
    rw [hexponent, zpow_log2_sub, div_le_iff₀ hpos]
    exact mul_le_mul (pow_log2_le hn) (lt_pow_log2 d).le (Nat.cast_nonneg d) (Nat.cast_nonneg n)

theorem lt_topExponent_succ (hd : d ≠ 0) : (n : Rat) < 2 ^ (topExponent n d + 1) * d := by
  rw [topExponent]
  split
  · have hexponent : ((n.log2 : Int) - d.log2 + 1) = n.log2 + 1 - d.log2 := by ring
    have hpos : (0 : Rat) < 2 ^ (d.log2 : Int) := by positivity
    rw [hexponent, zpow_log2_sub, lt_div_iff₀ hpos]
    exact mul_lt_mul (lt_pow_log2 n) (pow_log2_le hd) hpos (by positivity)
  · rename_i h
    rw [powLe_iff, not_le] at h
    rwa [sub_add_cancel]

/-- In its unit a quotient is below `2^53`. -/
theorem lt_unitExponent (hd : d ≠ 0) :
    n * 2 ^ (-unitExponent n d).toNat < 2 ^ 53 * (d * 2 ^ (unitExponent n d).toNat) := by
  have hle : topExponent n d + 1 ≤ 53 + unitExponent n d := by
    rw [unitExponent_eq]
    omega
  have hlt : (n : Rat) < 2 ^ (53 + unitExponent n d) * d :=
    (lt_topExponent_succ hd).trans_le
      (mul_le_mul_of_nonneg_right (zpow_le_zpow_right₀ one_le_two hle) (Nat.cast_nonneg d))
  have hpos : (0 : Rat) < 2 ^ (-unitExponent n d).toNat := by positivity
  have hscaled := mul_lt_mul_of_pos_right hlt hpos
  rw [zpow_add₀ two_ne_zero, mul_right_comm, mul_assoc (2 ^ (53 : Int)), zpow_mul_pow_toNat,
    mul_assoc] at hscaled
  rw [Nat.mul_comm d]
  exact_mod_cast hscaled

/-- The bound below which quotients are rounded to finite numbers. -/
def bound : Nat := (2 ^ 54 - 1) * 2 ^ 970

theorem topExponent_lt (hn : n ≠ 0) (hd : d ≠ 0) (h : n < bound * d) : topExponent n d < 1024 := by
  have hbound : bound < 2 ^ 1024 := by decide +kernel
  have hlt : n < 2 ^ 1024 * d :=
    h.trans (Nat.mul_lt_mul_of_pos_right hbound (Nat.pos_of_ne_zero hd))
  have hcast : (n : Rat) < 2 ^ (1024 : Int) * d := by exact_mod_cast hlt
  have hpow := (topExponent_le (d := d) hn).trans_lt hcast
  have hpos : (0 : Rat) < d := Nat.cast_pos.2 (Nat.pos_of_ne_zero hd)
  exact (zpow_lt_zpow_iff_right₀ one_lt_two).1 (lt_of_mul_lt_mul_right hpow hpos.le)

theorem nearestBits_lt (hd : d ≠ 0) (h : n < bound * d) : nearestBits n d < infinityBits := by
  rw [nearestBits]
  split
  · decide
  · rename_i hn
    have htop := topExponent_lt hn hd h
    have hunit := unitExponent_eq n d
    have hscaled := @lt_unitExponent n d hd
    refine (Nat.min_le_left _ _).trans_lt ?_
    generalize unitExponent n d = u at hunit hscaled ⊢
    have hinfinity : infinityBits = 2047 * 2 ^ 52 := rfl
    rw [hinfinity]
    by_cases hlast : u = 971
    · -- In the largest unit there is no room for one more digit.
      have hrounded : roundDiv (n * 2 ^ (-u).toNat) (d * 2 ^ u.toNat) ≤ 2 ^ 53 - 1 := by
        subst hlast
        refine roundDiv_le ?_
        have hbound : (2 * (2 ^ 53 - 1) + 1) * (d * 2 ^ (971 : Int).toNat) = 2 * (bound * d) := by
          have hexponent : (971 : Int).toNat = 970 + 1 := rfl
          rw [bound, hexponent, pow_succ 2 970]
          generalize 2 ^ 970 = p
          ring
        rw [hbound]
        simpa using h
      simp only [Nat.pow_eq] at *
      omega
    · have hrounded : roundDiv (n * 2 ^ (-u).toNat) (d * 2 ^ u.toNat) ≤ 2 ^ 53 := by
        refine roundDiv_le ?_
        rw [Nat.add_mul]
        omega
      simp only [Nat.pow_eq] at *
      omega

end Quotient

/-! ### Finite numbers -/

theorem toBits_ofBits {bits : UInt64} (h : bits.toNat / 2 ^ 52 % 2 ^ 11 ≠ 2047) :
    (Float.ofBits bits).toBits = bits := by
  have hvalid : Float.Model.Format.binary64.Valid bits.toBitVec := by
    refine ⟨fun hexponent ↦ absurd ?_ h⟩
    rw [← UInt64.toNat_toBitVec, ← toNat_unpackExponent, hexponent]
    rfl
  exact congrArg Float.toBits (Float.ofBits_toBits ⟨⟨bits, hvalid⟩⟩)

theorem isFinite_withSign {negative : Bool} {bits : Nat} (h : bits < infinityBits) :
    Scalar.isFinite (withSign negative bits) := by
  have hinfinity : infinityBits = 2047 * 2 ^ 52 := rfl
  rw [hinfinity] at h
  have hsigned : (UInt64.ofNat (if negative then Nat.pow 2 63 + bits else bits)).toNat / 2 ^ 52 %
      2 ^ 11 ≠ 2047 := by
    rw [UInt64.toNat_ofNat']
    simp only [Nat.pow_eq]
    split <;> omega
  by_contra hfinite
  have hexponent := exponent_of_not_isFinite (Bool.eq_false_iff.2 hfinite)
  rw [withSign, toBits_ofBits hsigned] at hexponent
  exact hsigned hexponent

/-- A rational below the bound is rounded to a finite number. -/
theorem isFinite_ofExact {q : Rat} (h : |q| < bound) : Scalar.isFinite (ofExact (.finite q)) := by
  refine isFinite_withSign (nearestBits_lt q.den_nz ?_)
  have hpos : (0 : Rat) < q.den := Nat.cast_pos.2 q.den_pos
  rw [Rat.abs_def, Rat.divInt_eq_div, Int.cast_natCast, Int.cast_natCast, div_lt_iff₀ hpos] at h
  exact_mod_cast h

theorem abs_mkRat_le (a : Int) (b : Nat) : |mkRat a b| ≤ a.natAbs := by
  rw [Rat.mkRat_eq_div, abs_div, Nat.abs_cast, Nat.cast_natAbs, Int.cast_abs]
  cases b with
  | zero => simp
  | succ b => exact div_le_self (abs_nonneg _) (by simp)

theorem natAbs_signed_le (negative : Bool) {m u k : Nat} (hm : m < 2 ^ 53) (hu : u ≤ k) :
    (if negative then -((m : Int) * (Nat.pow 2 u : Nat))
      else (m : Int) * (Nat.pow 2 u : Nat)).natAbs ≤ (2 ^ 53 - 1) * 2 ^ k := by
  have habs : (if negative then -((m : Int) * (Nat.pow 2 u : Nat))
      else (m : Int) * (Nat.pow 2 u : Nat)).natAbs = m * 2 ^ u := by
    split
    · rw [Int.natAbs_neg, Int.natAbs_mul, Int.natAbs_natCast, Int.natAbs_natCast, Nat.pow_eq]
    · rw [Int.natAbs_mul, Int.natAbs_natCast, Int.natAbs_natCast, Nat.pow_eq]
  rw [habs]
  exact Nat.mul_le_mul (Nat.le_sub_one_of_lt hm) (Nat.pow_le_pow_right (by decide) hu)

/-- Every finite number lies far below the bound. -/
theorem abs_add_two_lt_of_value {x : Float} {q : Rat} (h : value x = .finite q) :
    |q| + 2 < bound := by
  have hlargest : (2 ^ 53 - 1) * 2 ^ 971 + 2 < bound := by decide +kernel
  suffices hle : |q| ≤ ((2 ^ 53 - 1) * 2 ^ 971 : Nat) by
    refine (add_le_add_left hle 2).trans_lt ?_
    exact_mod_cast hlargest
  unfold value at h
  dsimp only at h
  split at h
  · split at h <;> exact absurd h nofun
  · obtain rfl := Exact.finite.inj h
    refine (abs_mkRat_le _ _).trans (Nat.cast_le.2 ?_)
    generalize x.toBits.toNat = bits at *
    refine natAbs_signed_le _ ?_ ?_
    · simp only [Nat.pow_eq]
      split <;> omega
    · have hfield : (bits / Nat.pow 2 52 % 2048).max 1 ≤ 2046 := by
        rw [Nat.max_le]
        omega
      omega

end DiagramMacros.Binary64
