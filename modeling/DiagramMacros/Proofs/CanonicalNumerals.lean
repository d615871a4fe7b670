import DiagramMacros.Proofs.DecimalNumerals
import DiagramMacros.Proofs.ExactNumerals
/-!
Numbers in print, without rounding before. A canonical decimal numeral has at most four decimals, no
digit that could be left out and no sign in front of zero (`Numeral.IsCanonical`). Such numerals are
what is left of numerals with all four decimals when the zeros at the end are dropped
(`FourDecimals.isCanonical_text`, `IsCanonical.exists_fourDecimals`), and the numerals with four
decimals stand for the integers, one for each count of ten-thousandths (`FourDecimals.count_ofInt`,
`FourDecimals.ofInt_count`).

So a rational number is printed as the one canonical numeral of its ten-thousandths, and what is
printed tells apart just the numbers that are rounded apart (`Numeral.print_is_canonical`).
-/

set_option autoImplicit false
set_option relaxedAutoImplicit false

namespace DiagramMacros.Numeral

/-! ### Canonical numerals -/

/-- A decimal numeral with at most four decimals and none of its digits to spare: no zero is in
front of other digits or at the end of the decimals, there is no point without decimals, and zero
has no sign. -/
inductive IsCanonical : Text → Prop
  | intro {negative : Bool} {w g : Text} (whole : IsWhole w) (digits : g.all isDigit)
      (length_le : g.length ≤ 4) (last : g.getLast? ≠ some '0')
      (sign : negative → w = ['0'] → g ≠ []) : IsCanonical (signed negative (w ++ withPoint g))

/-- A text is a numeral with this rational value. -/
def Denotes (s : Text) (q : Rat) : Prop := (read? s).map value = some (.finite q)

instance (s : Text) (q : Rat) : Decidable (Denotes s q) :=
  inferInstanceAs (Decidable ((read? s).map value = some (.finite q)))

variable {s : Text} {p q : Rat}

theorem Denotes.unique (hp : Denotes s p) (hq : Denotes s q) : p = q :=
  Exact.finite.inj (Option.some.inj (hp.symm.trans hq))

namespace IsCanonical

theorem ne_nil (h : IsCanonical s) : s ≠ [] := by
  obtain @⟨negative, w, g, whole, -, -, -, -⟩ := h
  intro hnil
  have hw : w ++ withPoint g = [] := by
    cases negative
    · exact hnil
    · exact absurd hnil (List.cons_ne_nil _ _)
  exact whole.ne_nil (List.append_eq_nil_iff.1 hw).1

theorem ne_minus_zero (h : IsCanonical s) : s ≠ ['-', '0'] := by
  obtain @⟨negative, w, g, whole, -, -, -, sign⟩ := h
  intro hzero
  obtain ⟨c, w, rfl⟩ := List.exists_cons_of_ne_nil whole.ne_nil
  cases negative with
  | false =>
    have hc := List.all_eq_true.1 whole.digits c List.mem_cons_self
    exact ne_of_isDigit hc rfl (List.cons.inj hzero).1
  | true =>
    obtain ⟨hc, hrest⟩ := List.cons.inj (List.cons.inj hzero).2
    obtain ⟨hw, hg⟩ := List.append_eq_nil_iff.1 hrest
    rw [hc, hw] at sign
    exact sign rfl rfl (eq_nil_of_withPoint_eq_nil hg)

end IsCanonical

/-! ### Numerals with four decimals -/

/-- A natural number with a minus sign or without. -/
def signedCount (negative : Bool) (n : Nat) : Int := if negative then -n else n

theorem signedCount_mul (negative : Bool) (m n : Nat) :
    signedCount negative (m * n) = signedCount negative m * n := by
  cases negative <;> simp [signedCount]

theorem natAbs_signedCount (negative : Bool) (n : Nat) : (signedCount negative n).natAbs = n := by
  cases negative <;> simp [signedCount]

theorem signedCount_natAbs (k : Int) : signedCount (decide (k < 0)) k.natAbs = k := by
  rw [signedCount]
  split
  · have hneg := of_decide_eq_true ‹_›
    omega
  · have hnonneg := of_decide_eq_false (Bool.eq_false_iff.2 ‹_›)
    omega

theorem signedCount_neg {negative : Bool} {n : Nat} (h : negative → n ≠ 0) :
    decide (signedCount negative n < 0) = negative := by
  cases negative with
  | false => simp [signedCount]
  | true => simpa [signedCount] using Nat.pos_of_ne_zero (h rfl)

theorem dropZeros_signed {g : Text} (negative : Bool) (w : Text) (hg : g.all isDigit)
    (hlast : g.getLast? ≠ some '0') (n : Nat) :
    dropZeros (signed negative (w ++ '.' :: (g ++ List.replicate n '0'))) =
      signed negative (w ++ withPoint g) := by
  rw [signed_append, dropZeros_decimals _ hg hlast, ← signed_append]

/-- An integer part without zeros in front and four decimals, with a sign only if not all digits are
zeros. -/
@[ext]
structure FourDecimals where
  negative : Bool
  whole : Text
  fraction : Text
  isWhole : IsWhole whole
  digits : fraction.all isDigit
  length : fraction.length = 4
  ne_zero : negative → digitsValue (whole ++ fraction) ≠ 0

namespace FourDecimals

/-- The ten-thousandths that a numeral stands for. -/
def count (d : FourDecimals) : Int := signedCount d.negative (digitsValue (d.whole ++ d.fraction))

/-- The numeral without the zeros at its end. -/
def text (d : FourDecimals) : Text := dropZeros (signed d.negative (d.whole ++ '.' :: d.fraction))

theorem length_padded_mod (n : Nat) : (padded 4 (n % 10 ^ 4)).length = 4 :=
  length_padded (by decide) (Nat.mod_lt n (by decide))

theorem digitsValue_ofNat (n : Nat) :
    digitsValue (digitsOf (n / 10 ^ 4) ++ padded 4 (n % 10 ^ 4)) = n := by
  rw [digitsValue_append, digitsValue_digitsOf, digitsValue_padded, length_padded_mod]
  exact Nat.div_add_mod' n (10 ^ 4)

/-- The numeral for a count of ten-thousandths. -/
def ofInt (k : Int) : FourDecimals where
  negative := decide (k < 0)
  whole := digitsOf (k.natAbs / 10 ^ 4)
  fraction := padded 4 (k.natAbs % 10 ^ 4)
  isWhole := isWhole_digitsOf _
  digits := all_isDigit_padded _ _
  length := length_padded_mod _
  ne_zero h := by
    rw [digitsValue_ofNat]
    have hneg := of_decide_eq_true h
    omega

theorem count_ofInt (k : Int) : (ofInt k).count = k :=
  (congrArg (signedCount _) (digitsValue_ofNat k.natAbs)).trans (signedCount_natAbs k)

/-- Every numeral with four decimals is the one for its ten-thousandths. -/
theorem ofInt_count (d : FourDecimals) : ofInt d.count = d := by
  have habs : d.count.natAbs = digitsValue (d.whole ++ d.fraction) := natAbs_signedCount _ _
  have hlt := digitsValue_lt d.digits
  have hvalue := digitsValue_append d.whole d.fraction
  have hpadded := padded_digitsValue d.digits (List.ne_nil_of_length_eq_add_one d.length)
  rw [d.length] at hlt hvalue hpadded
  have hwhole : d.count.natAbs / 10 ^ 4 = digitsValue d.whole := by omega
  have hfraction : d.count.natAbs % 10 ^ 4 = digitsValue d.fraction := by omega
  exact FourDecimals.ext (signedCount_neg d.ne_zero)
    ((congrArg digitsOf hwhole).trans d.isWhole.digitsOf_digitsValue)
    ((congrArg (padded 4) hfraction).trans hpadded)

/-- The text has the decimals up to the last that is not a zero. -/
theorem exists_text (d : FourDecimals) :
    ∃ g n, d.fraction = g ++ List.replicate n '0' ∧ g.all isDigit ∧ g.getLast? ≠ some '0' ∧
      d.text = signed d.negative (d.whole ++ withPoint g) := by
  obtain ⟨g, n, hfraction, hlast⟩ := exists_append_zeros d.fraction
  have hdigits := d.digits
  rw [hfraction, List.all_append, Bool.and_eq_true] at hdigits
  refine ⟨g, n, hfraction, hdigits.1, hlast, ?_⟩
  rw [text, hfraction, dropZeros_signed d.negative _ hdigits.1 hlast]

theorem isCanonical_text (d : FourDecimals) : IsCanonical d.text := by
  obtain ⟨g, n, hfraction, hdigits, hlast, htext⟩ := d.exists_text
  have hlength := d.length
  rw [hfraction, List.length_append] at hlength
  rw [htext]
  refine .intro d.isWhole hdigits (by omega) hlast fun hsign hwhole hg ↦ d.ne_zero hsign ?_
  rw [hwhole, hfraction, hg, digitsValue_append, List.nil_append, digitsValue_replicate]
  exact Nat.zero_mul _

end FourDecimals

/-- The value of digits with up to four of them after the point. -/
theorem value_decimal (negative : Bool) (digits : Nat) {places : Nat} (h : places ≤ 4) :
    (decimal negative digits (-places)).value =
      .finite (signedCount negative digits / 10 ^ places) := by
  rw [value]
  dsimp only
  split
  · rename_i hsmall
    have hzero : digits = 0 := hsmall.resolve_right (by omega)
    cases negative <;> simp [signedCount, hzero]
  · have hexponent : (-(-(places : Int))).toNat = places := by omega
    have hzero : (-(places : Int)).toNat = 0 := by omega
    rw [if_neg (by omega), hexponent, hzero, Rat.mkRat_eq_div]
    cases negative <;> simp [signedCount, neg_div]

namespace FourDecimals

/-- Zeros at the end of the decimals make no difference to the number. -/
theorem denotes_text (d : FourDecimals) : Denotes d.text (d.count / 10000) := by
  obtain ⟨g, n, hfraction, hdigits, -, htext⟩ := d.exists_text
  have hlength := d.length
  rw [hfraction, List.length_append, List.length_replicate] at hlength
  have hread := read?_decimal d.negative d.isWhole.digits d.isWhole.ne_nil
    (isFraction_withPoint hdigits)
  have hvalue : digitsValue (d.whole ++ d.fraction) = digitsValue (d.whole ++ g) * 10 ^ n := by
    rw [hfraction, ← List.append_assoc, digitsValue_append_zeros]
  have hpow : (10000 : Rat) = 10 ^ g.length * 10 ^ n := by
    rw [← pow_add, hlength]
    norm_num
  have hcount : (d.count : Rat) / 10000 =
      signedCount d.negative (digitsValue (d.whole ++ g)) / 10 ^ g.length := by
    have hne : (10 : Rat) ^ n ≠ 0 := by positivity
    rw [count, hvalue, signedCount_mul, hpow]
    push_cast
    exact mul_div_mul_right _ _ hne
  rw [Denotes, htext, hread, Option.map_some, value_decimal _ _ (by omega), hcount]

end FourDecimals

/-- A canonical numeral is one with four decimals whose zeros at the end are dropped. -/
theorem IsCanonical.exists_fourDecimals (h : IsCanonical s) : ∃ d : FourDecimals, s = d.text := by
  obtain @⟨negative, w, g, whole, digits, length_le, last, sign⟩ := h
  have hne : negative → digitsValue (w ++ (g ++ List.replicate (4 - g.length) '0')) ≠ 0 := by
    intro hnegative hzero
    rw [← List.append_assoc, digitsValue_append_zeros, Nat.mul_eq_zero,
      or_iff_left (by positivity), digitsValue_append, Nat.add_eq_zero_iff, Nat.mul_eq_zero,
      or_iff_left (by positivity)] at hzero
    exact sign hnegative (whole.eq_of_digitsValue_eq_zero hzero.1)
      (eq_nil_of_digitsValue_eq_zero digits last hzero.2)
  refine ⟨⟨negative, w, g ++ List.replicate (4 - g.length) '0', whole, ?_, ?_, hne⟩, ?_⟩
  · rw [List.all_append, digits, all_isDigit_replicate, Bool.and_self]
  · rw [List.length_append, List.length_replicate]
    omega
  · exact (dropZeros_signed negative w digits last _).symm

/-! ### Printing -/

/-- A number is printed as the numeral for its ten-thousandths. -/
theorem print_finite (v : Rat) :
    print (Exact.finite v) = (FourDecimals.ofInt (tenThousandths v)).text := by
  rw [print, toFourDecimals_finite, Scalar.value_exact]
  by_cases hzero : tenThousandths v = 0
  · rw [hzero]
    decide +kernel
  · show (if _ then _ else _) = _
    rw [if_neg (div_ne_zero (Int.cast_ne_zero.2 hzero) (by norm_num)), fixed_div]
    rfl

/-- The number that a canonical numeral stands for is printed as that numeral. -/
theorem print_of_denotes (hs : IsCanonical s) (hq : Denotes s q) :
    print (Exact.finite q) = s := by
  obtain ⟨d, rfl⟩ := hs.exists_fourDecimals
  rw [hq.unique d.denotes_text, print_finite, tenThousandths_div, d.ofInt_count]

theorem isCanonical_print (v : Rat) : IsCanonical (print (Exact.finite v)) := by
  rw [print_finite]
  exact FourDecimals.isCanonical_text _

theorem denotes_print (v : Rat) :
    Denotes (print (Exact.finite v)) (tenThousandths v / 10000) := by
  rw [print_finite]
  have hdenotes := (FourDecimals.ofInt (tenThousandths v)).denotes_text
  rwa [FourDecimals.count_ofInt] at hdenotes

theorem print_eq_print_iff (v w : Rat) :
    print (Exact.finite v) = print (Exact.finite w) ↔ tenThousandths v = tenThousandths w := by
  constructor
  · intro h
    have hsame := (h ▸ denotes_print v).unique (denotes_print w)
    rw [div_left_inj' (by norm_num)] at hsame
    exact_mod_cast hsame
  · intro h
    rw [print_finite, print_finite, h]

/-- Let the ten-thousandths of a number be rounded to an integer, a half going away from zero. The
number is printed as the canonical decimal numeral of what that leaves: neither empty nor a zero with
a sign, it stands for just that many ten-thousandths, and no other canonical numeral does. The number
that it stands for is printed alike. Two numbers are printed alike exactly if they are rounded to the
same integer, and of two numbers, the greater is never printed as a smaller number. -/
theorem print_is_canonical (v w : Rat) :
    Exact.IsRounded (v * 10000) (tenThousandths v) ∧
      IsCanonical (print (Exact.finite v)) ∧
      print (Exact.finite v) ≠ [] ∧ print (Exact.finite v) ≠ ['-', '0'] ∧
      Denotes (print (Exact.finite v)) (tenThousandths v / 10000) ∧
      (∀ s, IsCanonical s → Denotes s (tenThousandths v / 10000) → s = print (Exact.finite v)) ∧
      (∀ q, Denotes (print (Exact.finite v)) q →
        print (Exact.finite q) = print (Exact.finite v)) ∧
      (print (Exact.finite v) = print (Exact.finite w) ↔ tenThousandths v = tenThousandths w) ∧
      (v ≤ w → ∀ p q, Denotes (print (Exact.finite v)) p → Denotes (print (Exact.finite w)) q →
        p ≤ q) := by
  have hcanonical := isCanonical_print v
  refine ⟨Exact.isRounded_iff.2 rfl, hcanonical, hcanonical.ne_nil, hcanonical.ne_minus_zero,
    denotes_print v, fun s hs hdenotes ↦ ?_, fun q ↦ print_of_denotes hcanonical,
    print_eq_print_iff v w, fun hle p q hp hq ↦ ?_⟩
  · rw [← print_of_denotes hs hdenotes, print_of_denotes hcanonical (denotes_print v)]
  · rw [hp.unique (denotes_print v), hq.unique (denotes_print w)]
    exact div_le_div_of_nonneg_right (Int.cast_le.2 (tenThousandths_mono hle)) (by norm_num)

example : print (Exact.finite (-1 / 20000)) = "-0.0001".toList := by decide +kernel

example : print (Exact.finite (9999999 / 100000)) = "100".toList := by decide +kernel

end DiagramMacros.Numeral
