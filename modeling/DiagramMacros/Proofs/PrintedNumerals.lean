import DiagramMacros.Proofs.Numerals
/-!
The characters of printed numbers. Whatever a number is, it is printed with the characters of
numerals only, the letters among them in the words for what is no decimal number
(`all_isMark_print`).
-/

set_option autoImplicit false
set_option relaxedAutoImplicit false

namespace DiagramMacros.Numeral

variable {K : Type} [Scalar K] {s : Text}

theorem all_isDigit_digitsOf (n : Nat) : (digitsOf n).all isDigit := by
  rw [List.all_eq_true]
  intro c hc
  have hdigit := Nat.isDigit_of_mem_toDigits (by decide) (by decide) hc
  simpa [Char.isDigit, isDigit] using hdigit

theorem digitsOf_ne_nil (n : Nat) : digitsOf n ≠ [] := Nat.toDigits_ne_nil

theorem dropZeros_subset (s : Text) : dropZeros s ⊆ s := by
  have hkept : s.reverse.dropWhile (· == '0') ⊆ s := fun c hc ↦
    List.mem_reverse.1 ((List.dropWhile_sublist _).subset hc)
  rw [dropZeros]
  split
  · rename_i r hr
    intro c hc
    exact hkept (hr ▸ List.mem_cons_of_mem _ (List.mem_reverse.1 hc))
  · exact fun c hc ↦ hkept (List.mem_reverse.1 hc)

theorem all_isMark_signed (negative : Bool) (h : s.all isMark) :
    (signed negative s).all isMark := by
  cases negative
  · exact h
  · rw [signed, if_pos rfl, List.all_cons, h]
    rfl

theorem all_isMark_fixed (places : Nat) (q : Rat) : (fixed places q).all isMark := by
  have hdigits (n : Nat) := all_isMark_of_digits (all_isDigit_digitsOf n)
  have hzeros (n : Nat) : (List.replicate n '0').all isMark :=
    List.all_eq_true.2 fun c hc ↦ List.eq_of_mem_replicate hc ▸ rfl
  refine all_isMark_signed _ ?_
  rw [List.all_append, List.all_cons, List.all_append, hdigits, hdigits, hzeros]
  rfl

/-- Every number is printed with the characters of numerals. -/
theorem all_isMark_print (v : K) : (print v).all isMark := by
  rw [print]
  split
  · split
    · decide
    · exact List.all_eq_true.2 fun c hc ↦
        List.all_eq_true.1 (all_isMark_fixed 4 _) c (dropZeros_subset _ hc)
  · exact all_isMark_signed _ (by decide)
  · decide

end DiagramMacros.Numeral
