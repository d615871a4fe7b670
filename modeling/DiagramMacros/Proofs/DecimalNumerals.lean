import DiagramMacros.Proofs.DigitTexts
import DiagramMacros.Proofs.Rounding
import DiagramMacros.Proofs.Style.PrintedNumbers
/-!
Decimal numerals that have been printed are read again, and as finite numbers
(`exists_read_print_decimal`). A number that is printed so is finite after rounding to four
decimals, so it is printed as digits with at most one point among them (`print_eq_decimal`). What is
read exceeds the integer part of that by less than one, which leaves it in the range of finite
numbers.
-/

set_option autoImplicit false
set_option relaxedAutoImplicit false

namespace DiagramMacros.Numeral

/-! ### Decimals -/

section Decimals

variable {w g tail : Text} {negative : Bool}

/-- What may follow the integer part of a decimal numeral: nothing, or a point and digits. -/
inductive IsFraction : Text → Text → Prop
  | none : IsFraction [] []
  | point {g : Text} (hg : g.all isDigit) : IsFraction ('.' :: g) g

theorem startsWith_isDigit (h : IsFraction tail g) : Text.startsWith isDigit tail = false := by
  cases h <;> rfl

theorem ne_of_isDigit {c d : Char} (hc : isDigit c) (hd : isDigit d = false) : c ≠ d := by
  rintro rfl
  rw [hc] at hd
  exact Bool.noConfusion hd

theorem isFraction_withPoint (hg : g.all isDigit) : IsFraction (withPoint g) g := by
  cases g with
  | nil => exact .none
  | cons c g => exact .point hg

/-- Dropping zeros shortens the decimals, or leaves the integer part. -/
theorem exists_dropZeros {f : Text} (hf : f.all isDigit) (s : Text) :
    ∃ tail g, dropZeros (s ++ '.' :: f) = s ++ tail ∧ IsFraction tail g := by
  obtain ⟨g, n, rfl, hlast⟩ := exists_append_zeros f
  rw [List.all_append, Bool.and_eq_true] at hf
  exact ⟨withPoint g, g, dropZeros_decimals s hf.1 hlast n, isFraction_withPoint hf.1⟩

theorem decimals_eq (h : IsFraction tail g) : decimals tail = (g, []) := by
  cases h with
  | none => rfl
  | point hg =>
    have hcut := @Text.takeWhile_append_of_all isDigit g [] hg rfl
    have hcut' := @Text.dropWhile_append_of_all isDigit g [] hg rfl
    rw [List.append_nil] at hcut hcut'
    rw [decimals, Text.cutWhile, hcut, hcut']

theorem sign_signed (hw : w.all isDigit) (hne : w ≠ []) :
    sign (signed negative (w ++ tail)) = (negative, w ++ tail) := by
  cases negative with
  | true => rfl
  | false =>
    obtain ⟨c, w, rfl⟩ := List.exists_cons_of_ne_nil hne
    have hc := List.all_eq_true.1 hw c List.mem_cons_self
    rw [signed, if_neg Bool.false_ne_true, List.cons_append]
    unfold sign
    split
    · rename_i heq
      exact absurd (List.cons.inj heq).1 (ne_of_isDigit hc rfl)
    · rename_i heq
      exact absurd (List.cons.inj heq).1 (ne_of_isDigit hc rfl)
    · rfl

theorem toLower_of_isDigit {c : Char} (hc : isDigit c) : c.toLower = c := by
  unfold Char.toLower
  split
  · rename_i hupper
    have hletter := isLetter_iff.1 (isLetter_iff.2 (Or.inl hupper))
    have hdigit := isDigit_iff.1 hc
    omega
  · rfl

/-- A sign, digits and perhaps decimals are read as a numeral. -/
theorem read?_decimal (negative : Bool) (hw : w.all isDigit) (hne : w ≠ [])
    (htail : IsFraction tail g) :
    read? (signed negative (w ++ tail)) =
      some (decimal negative (digitsValue (w ++ g)) (-g.length)) := by
  have hword {word : Text} (hword : word.head?.all isLetter) :
      (w ++ tail).map Char.toLower ≠ word := by
    obtain ⟨c, w, rfl⟩ := List.exists_cons_of_ne_nil hne
    have hc := List.all_eq_true.1 hw c List.mem_cons_self
    rintro rfl
    have hletter : isLetter c := by simpa [toLower_of_isDigit hc] using hword
    have hrange := isLetter_iff.1 hletter
    have hdigit := isDigit_iff.1 hc
    omega
  have hcut : Text.cutWhile isDigit (w ++ tail) = (w, tail) :=
    Prod.ext (Text.takeWhile_append_of_all hw (startsWith_isDigit htail))
      (Text.dropWhile_append_of_all hw (startsWith_isDigit htail))
  rw [read?, sign_signed hw hne]
  dsimp only
  rw [if_neg (not_or.2 ⟨hword rfl, hword rfl⟩), if_neg (hword rfl), readDecimal?, hcut]
  simp [decimals_eq htail, hne, exponent?]

end Decimals

/-! ### The size of what is read -/

section Size

variable {w g tail : Text}

/-- Decimals after an integer part add less than one to it. -/
theorem digitsValue_append_lt (w : Text) (hg : g.all isDigit) :
    digitsValue (w ++ g) < (digitsValue w + 1) * 10 ^ g.length := by
  have hlt := digitsValue_lt hg
  rw [digitsValue_append, Nat.add_mul, Nat.one_mul]
  omega

theorem abs_value_lt (negative : Bool) {digits k whole : Nat} (h : digits < (whole + 1) * 10 ^ k) :
    ∃ q : Rat, (decimal negative digits (-k)).value = .finite q ∧ |q| < whole + 1 := by
  have hpos : (0 : Rat) < whole + 1 := by positivity
  rw [value]
  dsimp only
  split
  · exact ⟨0, rfl, by rwa [abs_zero]⟩
  · rw [if_neg (by omega)]
    refine ⟨_, rfl, ?_⟩
    have habs (q : Rat) : |if negative then -q else q| = |q| := by
      split
      · exact abs_neg q
      · rfl
    have hexponent : (-(-(k : Int))).toNat = k := by omega
    have hzero : (-(k : Int)).toNat = 0 := by omega
    rw [habs, hexponent, hzero, Rat.mkRat_eq_div, abs_of_nonneg (by positivity), Nat.pow_eq,
      Nat.pow_eq, Nat.pow_zero, Nat.mul_one, div_lt_iff₀ (by positivity)]
    exact_mod_cast h

/-- A rational and a multiple of `10^-places` next to it differ by at most half a unit. -/
theorem scaledDigits_le (places : Nat) (q : Rat) :
    (scaledDigits places q : Rat) ≤ |q| * 10 ^ places + 1 / 2 := by
  have hle := Binary64.two_mul_roundDiv_le (q.num.natAbs * Nat.pow 10 places) q.den
  have hpos : (0 : Rat) < q.den := Nat.cast_pos.2 q.den_pos
  have hcast : 2 * ((scaledDigits places q : Rat) * q.den) ≤
      2 * (q.num.natAbs * 10 ^ places) + q.den := by exact_mod_cast hle
  have hnum : |q| * q.den = q.num.natAbs := by
    rw [Rat.abs_def, Rat.divInt_eq_div, Int.cast_natCast, Int.cast_natCast,
      div_mul_cancel₀ _ hpos.ne']
  rw [← hnum] at hcast
  refine le_of_mul_le_mul_right ?_ hpos
  linarith

/-- The integer part of a printed number. -/
theorem whole_le (q : Rat) : ((scaledDigits 4 q / 10 ^ 4 : Nat) : Rat) ≤ |q| + 1 := by
  have hle := scaledDigits_le 4 q
  have hdiv : ((scaledDigits 4 q / 10 ^ 4 : Nat) : Rat) ≤ scaledDigits 4 q / (10 ^ 4 : Nat) :=
    Nat.cast_div_le
  push_cast at hdiv
  linarith

end Size

/-! ### Printing and reading -/

theorem signed_append (negative : Bool) (s t : Text) :
    signed negative (s ++ t) = signed negative s ++ t := by cases negative <;> rfl

theorem exists_dropZeros_fixed (q : Rat) : ∃ tail g,
    dropZeros (fixed 4 q) =
      signed (decide (q < 0)) (digitsOf (scaledDigits 4 q / 10 ^ 4) ++ tail) ∧
      IsFraction tail g := by
  obtain ⟨tail, g, htail, hfraction⟩ := exists_dropZeros
    (all_isDigit_padded 4 (scaledDigits 4 q % 10 ^ 4))
    (signed (decide (q < 0)) (digitsOf (scaledDigits 4 q / 10 ^ 4)))
  refine ⟨tail, g, ?_, hfraction⟩
  rw [signed_append, ← htail, ← signed_append]
  rfl

/-- A number that is printed as a decimal numeral is finite after rounding, and is printed as a
sign, an integer part and perhaps decimals. -/
theorem print_eq_decimal {x : Float} (h : (print x).all isDecimalMark) :
    ∃ negative whole tail g, print x = signed negative (digitsOf whole ++ tail) ∧
      IsFraction tail g ∧ whole + 1 < Binary64.bound := by
  rw [print] at h ⊢
  split
  · rename_i q hq
    split
    · exact ⟨false, 0, [], [], rfl, .none, by decide +kernel⟩
    · obtain ⟨tail, g, htail, hfraction⟩ := exists_dropZeros_fixed q
      refine ⟨_, _, tail, g, htail, hfraction, ?_⟩
      have hwhole := whole_le q
      have hbound := Binary64.abs_add_two_lt_of_value hq
      have hlt : ((scaledDigits 4 q / 10 ^ 4 : Nat) : Rat) + 1 < Binary64.bound := by linarith
      exact_mod_cast hlt
  · rename_i negative hinfinite
    rw [hinfinite] at h
    cases negative <;> exact absurd h (by decide)
  · rename_i hundefined
    rw [hundefined] at h
    exact absurd h (by decide)

/-- A number that is printed as a decimal numeral is read again as a finite number. -/
theorem exists_read_print_decimal {x : Float} (h : (print x).all isDecimalMark) :
    ∃ n, read? (print x) = some n ∧ Scalar.isFinite (toScalar n : Float) := by
  obtain ⟨negative, whole, tail, g, hprint, htail, hbound⟩ := print_eq_decimal h
  have hread := read?_decimal negative (all_isDigit_digitsOf whole)
    (digitsOf_ne_nil whole) htail
  rw [← hprint] at hread
  refine ⟨_, hread, ?_⟩
  have hg : g.all isDigit := by cases htail <;> simp_all
  have hlt := digitsValue_append_lt (digitsOf whole) hg
  rw [digitsValue_digitsOf] at hlt
  obtain ⟨q, hq, habs⟩ := abs_value_lt negative hlt
  rw [toScalar, hq]
  refine Binary64.isFinite_ofExact (habs.trans ?_)
  exact_mod_cast hbound

end DiagramMacros.Numeral
