import Mathlib
import DiagramMacros.Number.Numeral
/-!
Facts about numbers of 64 bits. Multiplying one of them by one changes nothing (`mul_one`): the 52
more binary digits that the product has are zeros and are rounded away, and a number is told by what
it is taken apart into. There are two infinities and one undefined number (`mem_notFinite`), all of
them printed with letters, so a number that is printed without letters is finite
(`isFinite_of_print`).
-/

set_option autoImplicit false
set_option relaxedAutoImplicit false

namespace DiagramMacros.Binary64

open Float.Model hiding pack unpack
open Float.Model.UnpackedFloat

/-! ### Multiplying by one -/

/-- A mantissa and an exponent in the form in which they are stored: 53 binary digits, or fewer with
the least exponent. -/
inductive IsStored (m : Nat) (e : Int) : Prop
  | normal (low : 2 ^ 52 ≤ m) (high : m < 2 ^ 53) (exponent : -1074 ≤ e)
  | subnormal (pos : 0 < m) (high : m < 2 ^ 52) (exponent : e = -1074)

variable {m : Nat} {e : Int}

theorem IsStored.pos (h : IsStored m e) : 0 < m := by
  cases h with
  | normal low high exponent => omega
  | subnormal pos high exponent => exact pos

theorem log2_shifted (hm : 0 < m) (k : Nat) : (m * 2 ^ k).log2 = m.log2 + k := by
  have hk : 0 < 2 ^ k := Nat.two_pow_pos k
  rw [Nat.log2_eq_iff (Nat.ne_of_gt (Nat.mul_pos hm hk))]
  constructor
  · rw [Nat.pow_add]
    exact Nat.mul_le_mul_right _ (Nat.log2_self_le (Nat.ne_of_gt hm))
  · rw [Nat.add_right_comm, Nat.pow_add]
    exact Nat.mul_lt_mul_of_pos_right Nat.lt_log2_self hk

/-- More zeros at the end of the mantissa leave the exponent to which it is rounded as it is. -/
theorem targetExponent_shifted (h : IsStored m e) (k : Nat) :
    Format.binary64.targetExponent (totalExponent (m * 2 ^ k) (e - k)) = e := by
  have hbits : (Format.binary64.mantissaBits : Int) = 53 := rfl
  have hmin : Format.binary64.minExponent = -1074 := rfl
  rw [Format.targetExponent, totalExponent, log2_shifted h.pos, hbits, hmin]
  cases h with
  | normal low high exponent =>
    have hlog : m.log2 = 52 := (Nat.log2_eq_iff (by omega)).2 ⟨low, high⟩
    omega
  | subnormal pos high exponent =>
    have hlog : m.log2 < 52 := (Nat.log2_lt (Nat.ne_of_gt pos)).2 high
    omega

/-- Zeros that are shifted out leave no remainder. -/
theorem shiftRight_shifted (m k : Nat) :
    ExtendedMantissa.mk (m * 2 ^ k) false false >>> k = ExtendedMantissa.mk m false false := by
  induction k generalizing m with
  | zero => rw [Nat.pow_zero, Nat.mul_one]; rfl
  | succ k ih =>
    have hstep : ExtendedMantissa.mk (m * 2 ^ (k + 1)) false false >>> (k + 1) =
        (ExtendedMantissa.mk (m * 2 * 2 ^ k) false false >>> k).shiftRightOne := by
      rw [Nat.pow_succ, Nat.mul_comm (2 ^ k), ← Nat.mul_assoc]
      rfl
    rw [hstep, ih, ExtendedMantissa.shiftRightOne]
    simp

theorem shiftToTargetExponent_shifted (h : IsStored m e) (k : Nat) :
    shiftToTargetExponent .binary64 (m * 2 ^ k) (e - k) .exact = (⟨m, false, false⟩, e) := by
  have hamount : (e - (e - (k : Int))).toNat = k := by omega
  have hexponent : e - k + (k : Int) = e := by omega
  rw [shiftToTargetExponent, targetExponent_shifted h, shiftToExponent]
  simp only [hamount, hexponent, ExtendedMantissa.ofMantissaAndAccuracy, shiftRight_shifted]

theorem roundWithAccuracy_shifted (h : IsStored m e) (s : Sign) (k : Nat) :
    roundWithAccuracy .binary64 s (m * 2 ^ k) (e - k) .exact = .finite s m e h.pos := by
  have hagain : shiftToTargetExponent .binary64 m e .exact = (⟨m, false, false⟩, e) := by
    simpa using shiftToTargetExponent_shifted h 0
  have hrounded : (ExtendedMantissa.mk m false false).roundedMantissa = m := rfl
  rw [roundWithAccuracy, shiftToTargetExponent_shifted h]
  simp only [hrounded, hagain, Nat.ne_of_gt h.pos, dif_neg, not_false_eq_true]

variable {b : BitVec Format.binary64.numBits}

theorem toNat_one_append (f : BitVec 52) : (1#1 ++ f).toNat = 2 ^ 52 + f.toNat := by
  rw [BitVec.toNat_append, ← Nat.shiftLeft_add_eq_or_of_lt f.isLt]
  rfl

theorem isStored_of_unpack {s : Sign} {hpos : 0 < m}
    (h : unpack .binary64 b = .finite s m e hpos) : IsStored m e := by
  have hlt : (unpackMantissa b).toNat < 2 ^ 52 := (unpackMantissa b).isLt
  rw [unpack] at h
  split at h
  · split at h <;> simp at h
  · split at h
    · rename_i hfirst
      split at h
      · simp at h
      · obtain ⟨-, rfl, rfl⟩ := UnpackedFloat.finite.inj h
        rw [hfirst]
        exact .subnormal hpos hlt rfl
    · rename_i hnotfirst
      obtain ⟨-, rfl, rfl⟩ := UnpackedFloat.finite.inj h
      have hexponent : (unpackExponent b).toNat ≠ 0 := fun hzero ↦
        hnotfirst (BitVec.eq_of_toNat_eq hzero)
      have hbias : (((Format.binary64.exponentBias : Nat) : Int) +
        ((Format.binary64.mantissaBitsWithoutImplicit : Nat) : Int)) = 1075 := rfl
      rw [toNat_one_append, hbias]
      exact .normal (by omega) (by omega) (by omega)

theorem mul_unpack (b : BitVec Format.binary64.numBits) :
    UnpackedFloat.mul .binary64 (unpack .binary64 b)
      (.finite .positive (2 ^ 52) (-52) (by decide)) = unpack .binary64 b := by
  have hsign (s : Sign) : s * .positive = s := by cases s <;> rfl
  cases hunpack : unpack .binary64 b with
  | infinity s => rw [UnpackedFloat.mul, hsign]
  | notANumber => rw [UnpackedFloat.mul]
  | zero s => rw [UnpackedFloat.mul, hsign]
  | finite s m e hpos =>
    rw [UnpackedFloat.mul, hsign]
    exact roundWithAccuracy_shifted (isStored_of_unpack hunpack) s 52

theorem mul_one (x : Float) : x * 1 = x := by
  obtain ⟨⟨bits, hvalid⟩⟩ := x
  have hone : UnpackedFloat.mul .binary64 (unpack .binary64 bits.toBitVec)
      (1 : Float).toModel.unpack = unpack .binary64 bits.toBitVec := mul_unpack _
  have hbits : UInt64.ofBitVec (pack .binary64 (unpack .binary64 bits.toBitVec)) = bits := by
    rw [pack_unpack_of_valid hvalid]
  -- A product is what the numbers that the factors are taken apart into give, packed again.
  change Float.ofModel (Float.Model.pack (UnpackedFloat.mul .binary64
    (unpack .binary64 bits.toBitVec) (1 : Float).toModel.unpack)) = _
  simp only [hone, Float.Model.pack, hbits]

/-! ### Infinities and the undefined number -/

theorem toNat_unpackExponent (b : BitVec Format.binary64.numBits) :
    (unpackExponent b).toNat = b.toNat / 2 ^ 52 % 2 ^ 11 := by
  rw [unpackExponent_def, BitVec.extractLsb'_toNat, Nat.shiftRight_eq_div_pow]

theorem toNat_unpackMantissa (b : BitVec Format.binary64.numBits) :
    (unpackMantissa b).toNat = b.toNat % 2 ^ 52 := by
  rw [unpackMantissa_def, BitVec.extractLsb'_toNat, Nat.shiftRight_zero]

/-- The numbers that are not finite. -/
def notFinite : List Float :=
  [Float.ofBits 0x7FF0000000000000, Float.ofBits 0xFFF0000000000000,
    Float.ofBits 0x7FF8000000000000]

theorem exponent_of_not_isFinite {x : Float} (h : Scalar.isFinite x = false) :
    x.toBits.toNat / 2 ^ 52 % 2 ^ 11 = 2047 := by
  by_contra hne
  have hvalue : ∃ q, Scalar.value x = .finite q := ⟨_, if_neg hne⟩
  obtain ⟨q, hq⟩ := hvalue
  simp [Scalar.isFinite, hq] at h

theorem mem_notFinite {x : Float} (h : Scalar.isFinite x = false) : x ∈ notFinite := by
  have hexponent := exponent_of_not_isFinite h
  have hlt := x.toBits.toNat_lt
  have hbits {c : UInt64} (hc : (Float.ofBits c).toBits = c) (hx : x.toBits.toNat = c.toNat) :
      x = Float.ofBits c := Float.toBits_inj.1 ((UInt64.toNat_inj.1 hx).trans hc.symm)
  by_cases hmantissa : x.toBits.toNat % 2 ^ 52 = 0
  · have hnat : x.toBits.toNat = (0x7FF0000000000000 : UInt64).toNat ∨
        x.toBits.toNat = (0xFFF0000000000000 : UInt64).toNat := by
      simp only [UInt64.reduceToNat]
      omega
    rcases hnat with hnat | hnat
    · rw [hbits (by decide +kernel) hnat]
      exact List.mem_cons_self
    · rw [hbits (by decide +kernel) hnat]
      exact List.mem_cons_of_mem _ List.mem_cons_self
  · have hnan : x.toBits.toBitVec = packedNaN .binary64 := by
      apply x.toModel.valid.eq_packedNaN
      · exact BitVec.eq_of_toNat_eq ((toNat_unpackExponent _).trans hexponent)
      · intro hzero
        exact hmantissa ((toNat_unpackMantissa _).symm.trans (congrArg BitVec.toNat hzero))
    rw [hbits (c := 0x7FF8000000000000) (by decide +kernel) (congrArg BitVec.toNat hnan)]
    exact List.mem_cons_of_mem _ (List.mem_cons_of_mem _ List.mem_cons_self)

/-- Numbers that are not finite are printed with letters. -/
theorem isFinite_of_print {x : Float} (h : ∀ c ∈ Numeral.print x, isLetter c = false) :
    Scalar.isFinite x := by
  have hprinted : notFinite.all fun y ↦ (Numeral.print y).any isLetter := by decide +kernel
  by_contra hfinite
  have hletter := List.all_eq_true.1 hprinted x (mem_notFinite (Bool.eq_false_iff.2 hfinite))
  obtain ⟨c, hc, hisLetter⟩ := List.any_eq_true.1 hletter
  rw [h c hc] at hisLetter
  exact Bool.noConfusion hisLetter

end DiagramMacros.Binary64
