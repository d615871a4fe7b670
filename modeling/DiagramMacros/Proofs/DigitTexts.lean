import DiagramMacros.Proofs.PrintedNumerals
import Mathlib.Algebra.Order.Ring.Nat
import Mathlib.Data.List.Basic
import Mathlib.Data.List.Induction
/-!
Texts of digits and the numbers they stand for. A text of digits stands for a number below the power
of ten with its length (`digitsValue_lt`), and of the texts with one length no two stand for the same
number (`eq_of_digitsValue_eq`). Without zeros in front, the digits of a number are the only text for
it (`digitsOf_digitsValue`), and with zeros in front they are the only one of their length
(`padded_digitsValue`).

At the end of a text with decimals, zeros are dropped up to the last digit that is not one, or with
the point (`dropZeros_decimals`).
-/

set_option autoImplicit false
set_option relaxedAutoImplicit false

namespace DiagramMacros.Numeral

variable {s t w f g : Text} {c d : Char}

/-! ### The number of a text of digits -/

theorem digitsValue_concat (s : Text) (c : Char) :
    digitsValue (s ++ [c]) = 10 * digitsValue s + digitValue c := by
  rw [digitsValue, List.foldl_append]
  rfl

theorem digitsValue_append (s t : Text) :
    digitsValue (s ++ t) = digitsValue s * 10 ^ t.length + digitsValue t := by
  induction t using List.reverseRecOn with
  | nil => simp [digitsValue]
  | append_singleton t c ih =>
    have hpow : 10 ^ (t ++ [c]).length = 10 ^ t.length * 10 := by
      rw [List.length_append, List.length_singleton, Nat.pow_succ]
    rw [← List.append_assoc, digitsValue_concat, digitsValue_concat, ih, hpow, ← Nat.mul_assoc]
    omega

theorem digitsValue_digitsOf (n : Nat) : digitsValue (digitsOf n) = n :=
  Nat.ofDigitChars_toDigits (by decide) (by decide)

theorem digitsValue_replicate (n : Nat) : digitsValue (List.replicate n '0') = 0 := by
  induction n with
  | zero => rfl
  | succ n ih =>
    rw [List.replicate_succ', digitsValue_concat, ih]
    rfl

theorem digitsValue_append_zeros (s : Text) (n : Nat) :
    digitsValue (s ++ List.replicate n '0') = digitsValue s * 10 ^ n := by
  rw [digitsValue_append, digitsValue_replicate, List.length_replicate, Nat.add_zero]

theorem all_isDigit_concat : (s ++ [c]).all isDigit ↔ s.all isDigit ∧ isDigit c := by
  simp

theorem all_isDigit_replicate (n : Nat) : (List.replicate n '0').all isDigit :=
  List.all_eq_true.2 fun _ hc ↦ List.eq_of_mem_replicate hc ▸ rfl

theorem toNat_eq_of_isDigit (hc : isDigit c) : c.toNat = 48 + digitValue c := by
  have hrange := isDigit_iff.1 hc
  have hzero : '0'.toNat = 48 := rfl
  rw [digitValue]
  omega

theorem digitValue_lt (hc : isDigit c) : digitValue c < 10 := by
  have hrange := isDigit_iff.1 hc
  have hvalue := toNat_eq_of_isDigit hc
  omega

theorem eq_of_digitValue_eq (hc : isDigit c) (hd : isDigit d) (h : digitValue c = digitValue d) :
    c = d := by
  rw [← Char.toNat_inj, toNat_eq_of_isDigit hc, toNat_eq_of_isDigit hd, h]

theorem digitChar_digitValue (hc : isDigit c) : (digitValue c).digitChar = c := by
  rw [← Char.toNat_inj, Nat.toNat_digitChar_of_lt_ten (digitValue_lt hc), toNat_eq_of_isDigit hc]

theorem digitsValue_lt (hs : s.all isDigit) : digitsValue s < 10 ^ s.length := by
  induction s using List.reverseRecOn with
  | nil => decide
  | append_singleton s c ih =>
    rw [all_isDigit_concat] at hs
    have hlt := ih hs.1
    have hdigit := digitValue_lt hs.2
    rw [digitsValue_concat, List.length_append, List.length_singleton, Nat.pow_succ]
    omega

/-- Texts of digits with one length stand for different numbers. -/
theorem eq_of_digitsValue_eq (hs : s.all isDigit) (ht : t.all isDigit)
    (hlength : s.length = t.length) (h : digitsValue s = digitsValue t) : s = t := by
  induction s using List.reverseRecOn generalizing t with
  | nil => exact (List.length_eq_zero_iff.1 hlength.symm).symm
  | append_singleton s c ih =>
    have hne : t ≠ [] := by
      rintro rfl
      simp at hlength
    obtain ⟨t, d, rfl⟩ := (List.eq_nil_or_concat' _).resolve_left hne
    rw [all_isDigit_concat] at hs ht
    rw [digitsValue_concat, digitsValue_concat] at h
    have hc := digitValue_lt hs.2
    have hd := digitValue_lt ht.2
    rw [ih hs.1 ht.1 (by simpa using hlength) (by omega),
      eq_of_digitValue_eq hs.2 ht.2 (by omega)]

/-! ### Without zeros in front -/

/-- The digits of a natural number. There is at least one, and no zero is in front of others. -/
structure IsWhole (w : Text) : Prop where
  digits : w.all isDigit
  ne_nil : w ≠ []
  eq_zero : w.head? = some '0' → w = ['0']

theorem isWhole_digitsOf (n : Nat) : IsWhole (digitsOf n) := by
  refine ⟨all_isDigit_digitsOf n, digitsOf_ne_nil n, ?_⟩
  induction n using Nat.strongRecOn with
  | ind n ih =>
    rw [digitsOf, Nat.toDigits_eq_if (by decide)]
    split
    · intro h
      rw [List.head?_singleton, Option.some_inj] at h
      rw [h]
    · rename_i hn
      intro h
      -- The digits of a tenth of the number begin alike, but they are not the digits of zero.
      have hhead : (digitsOf (n / 10)).head? = some '0' := by
        rwa [List.head?_append_of_ne_nil _ Nat.toDigits_ne_nil] at h
      have htenth := congrArg digitsValue (ih (n / 10) (by omega) hhead)
      rw [digitsValue_digitsOf] at htenth
      have hzero : digitsValue ['0'] = 0 := rfl
      omega

namespace IsWhole

/-- The digits of a number are the only text for it without zeros in front. -/
theorem digitsOf_digitsValue (hw : IsWhole w) : digitsOf (digitsValue w) = w := by
  -- A number is written as the digits of its tenth and one more, so the induction takes the last
  -- digit. What is in front of it stands for no zero, since a zero would be the first digit.
  induction w using List.reverseRecOn with
  | nil => exact absurd rfl hw.ne_nil
  | append_singleton u c ih =>
    have hdigits := all_isDigit_concat.1 hw.digits
    have hlast : digitsOf (digitValue c) = [c] := by
      rw [digitsOf, Nat.toDigits_of_lt_base (digitValue_lt hdigits.2),
        digitChar_digitValue hdigits.2]
    by_cases hu : u = []
    · rw [hu, List.nil_append, ← hlast, digitsValue_digitsOf]
    · have hhead : u.head? ≠ some '0' := by
        intro hhead
        have hwhole := hw.eq_zero (by rw [List.head?_append_of_ne_nil _ hu, hhead])
        rcases List.append_eq_singleton_iff.1 hwhole with ⟨hnil, -⟩ | ⟨-, hnil⟩
        · exact hu hnil
        · exact absurd hnil (List.cons_ne_nil _ _)
      have hwhole : IsWhole u := ⟨hdigits.1, hu, fun h ↦ absurd h hhead⟩
      have hpos : 0 < digitsValue u := by
        refine Nat.pos_of_ne_zero fun hzero ↦ hhead ?_
        rw [← ih hwhole, hzero]
        rfl
      calc digitsOf (digitsValue (u ++ [c]))
          = digitsOf (10 * digitsValue u + digitValue c) := by rw [digitsValue_concat]
        _ = digitsOf (digitsValue u) ++ digitsOf (digitValue c) :=
          (Nat.toDigits_append_toDigits (by decide) hpos (digitValue_lt hdigits.2)).symm
        _ = u ++ [c] := by rw [ih hwhole, hlast]

theorem eq_of_digitsValue_eq_zero (hw : IsWhole w) (h : digitsValue w = 0) : w = ['0'] := by
  rw [← hw.digitsOf_digitsValue, h]
  rfl

end IsWhole

/-! ### With zeros in front -/

/-- The digits of a number with zeros in front, up to a count of places. -/
def padded (places n : Nat) : Text :=
  List.replicate (places - (digitsOf n).length) '0' ++ digitsOf n

theorem all_isDigit_padded (places n : Nat) : (padded places n).all isDigit := by
  rw [padded, List.all_append, all_isDigit_replicate, all_isDigit_digitsOf, Bool.and_self]

theorem digitsValue_padded (places n : Nat) : digitsValue (padded places n) = n := by
  rw [padded, digitsValue_append, digitsValue_replicate, digitsValue_digitsOf, Nat.zero_mul,
    Nat.zero_add]

theorem length_padded {places n : Nat} (hplaces : 0 < places) (h : n < 10 ^ places) :
    (padded places n).length = places := by
  have hle : (digitsOf n).length ≤ places :=
    (Nat.length_toDigits_le_iff (by decide) hplaces).2 h
  rw [padded, List.length_append, List.length_replicate, Nat.sub_add_cancel hle]

/-- Zeros in front make the digits of a number the only text for it with a length. -/
theorem padded_digitsValue (hf : f.all isDigit) (hne : f ≠ []) :
    padded f.length (digitsValue f) = f :=
  eq_of_digitsValue_eq (all_isDigit_padded _ _) hf
    (length_padded (List.length_pos_iff.2 hne) (digitsValue_lt hf)) (digitsValue_padded _ _)

/-! ### Zeros at the end -/

theorem dropZeros_append_replicate (s : Text) (n : Nat) :
    dropZeros (s ++ List.replicate n '0') = dropZeros s := by
  have hzeros : ∀ c ∈ List.replicate n '0', (c == '0') = true := fun c hc ↦
    beq_iff_eq.2 (List.eq_of_mem_replicate hc)
  rw [dropZeros, dropZeros, List.reverse_append, List.reverse_replicate,
    List.dropWhile_append_of_pos hzeros]

theorem dropZeros_append_point (s : Text) : dropZeros (s ++ ['.']) = s := by
  have hreverse : (s ++ ['.']).reverse.dropWhile (· == '0') = '.' :: s.reverse := by simp
  rw [dropZeros, hreverse]
  exact List.reverse_reverse s

theorem dropZeros_concat (s : Text) (hzero : c ≠ '0') (hpoint : c ≠ '.') :
    dropZeros (s ++ [c]) = s ++ [c] := by
  have hreverse : (s ++ [c]).reverse.dropWhile (· == '0') = c :: s.reverse := by simp [hzero]
  rw [dropZeros, hreverse]
  split
  · rename_i heq
    exact absurd (List.cons.inj heq).1 hpoint
  · simp

/-- A text is one that does not end in a zero, with zeros after it. -/
theorem exists_append_zeros (s : Text) :
    ∃ g n, s = g ++ List.replicate n '0' ∧ g.getLast? ≠ some '0' := by
  induction s using List.reverseRecOn with
  | nil => exact ⟨[], 0, rfl, by simp⟩
  | append_singleton s c ih =>
    by_cases hc : c = '0'
    · obtain ⟨g, n, rfl, hlast⟩ := ih
      exact ⟨g, n + 1, by rw [hc, List.replicate_succ', List.append_assoc], hlast⟩
    · exact ⟨s ++ [c], 0, by simp, by simp [hc]⟩

/-- Digits that stand for zero are zeros, so there are none if the last of them is not a zero. -/
theorem eq_nil_of_digitsValue_eq_zero (hg : g.all isDigit) (hlast : g.getLast? ≠ some '0')
    (h : digitsValue g = 0) : g = [] := by
  have hzeros : g = List.replicate g.length '0' :=
    eq_of_digitsValue_eq hg (all_isDigit_replicate _) (List.length_replicate).symm
      (by rw [h, digitsValue_replicate])
  by_contra hne
  rw [hzeros, List.getLast?_replicate, if_neg (List.length_pos_iff.2 hne).ne'] at hlast
  exact hlast rfl

/-- Decimals with the point in front, if there are any. -/
def withPoint : Text → Text
  | [] => []
  | g => '.' :: g

theorem eq_nil_of_withPoint_eq_nil (h : withPoint g = []) : g = [] := by
  cases g with
  | nil => rfl
  | cons c g => exact absurd h (List.cons_ne_nil _ _)

/-- Of the decimals, those up to the last one that is not a zero are left. -/
theorem dropZeros_decimals (s : Text) (hg : g.all isDigit) (hlast : g.getLast? ≠ some '0')
    (n : Nat) : dropZeros (s ++ '.' :: (g ++ List.replicate n '0')) = s ++ withPoint g := by
  have hsplit : s ++ '.' :: (g ++ List.replicate n '0') =
      s ++ '.' :: g ++ List.replicate n '0' := by simp
  rw [hsplit, dropZeros_append_replicate]
  by_cases hne : g = []
  · rw [hne, dropZeros_append_point, withPoint, List.append_nil]
  · obtain ⟨g, c, rfl⟩ := (List.eq_nil_or_concat' _).resolve_left hne
    have hc := (all_isDigit_concat.1 hg).2
    have hpoint : c ≠ '.' := by
      rintro rfl
      exact absurd hc (by decide)
    have hzero : c ≠ '0' := by simpa using hlast
    have hdrop := dropZeros_concat (s ++ '.' :: g) hzero hpoint
    rw [List.append_assoc, List.cons_append] at hdrop
    rw [hdrop, withPoint]
    exact hne

end DiagramMacros.Numeral
