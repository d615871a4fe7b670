import DiagramMacros.Proofs.Binary64
import DiagramMacros.Proofs.Style.Measures
/-!
Reading a number that has been printed. A number that is printed as a decimal numeral is read again
as a number, and with points as its unit as a length (`readLength?_print`,
`readLength?_print_points`), and the one that is read is finite because nothing else is printed so.
-/

set_option autoImplicit false
set_option relaxedAutoImplicit false

namespace DiagramMacros

open Text

/-- The characters of a decimal numeral without an exponent. -/
def isDecimalMark (c : Char) : Bool := isDigit c || c == '.' || c == '-'

/-- Whether a number is printed as a decimal numeral, and as the same one once that has been
read. -/
def Numeral.isStable (x : Float) : Bool :=
  (print x).all isDecimalMark &&
    (read? (print x)).any fun n ↦ print (toScalar n : Float) == print x

namespace Item

variable {s : Text} {n : Numeral} {x : Float} {c : Char}

theorem toNat_of_isDecimalMark (h : isDecimalMark c) :
    (48 ≤ c.toNat ∧ c.toNat ≤ 57) ∨ c.toNat = 46 ∨ c.toNat = 45 := by
  simp only [isDecimalMark, Bool.or_eq_true, beq_iff_eq, or_assoc] at h
  rcases h with hdigit | rfl | rfl
  · exact Or.inl (isDigit_iff.1 hdigit)
  · exact Or.inr (Or.inl rfl)
  · exact Or.inr (Or.inr rfl)

theorem isBlank_of_isDecimalMark (h : isDecimalMark c) : isBlank c = false := by
  have hnat := toNat_of_isDecimalMark h
  refine Bool.eq_false_iff.2 fun hblank ↦ ?_
  simp [isBlank, blankRanges] at hblank
  omega

theorem isLetter_of_isDecimalMark (h : isDecimalMark c) : isLetter c = false := by
  have hnat := toNat_of_isDecimalMark h
  refine Bool.eq_false_iff.2 fun hletter ↦ ?_
  have hrange := isLetter_iff.1 hletter
  omega

theorem isTrimmed_of_isDecimalMark (h : s.all isDecimalMark) (hne : s ≠ []) : IsTrimmed s :=
  isTrimmed_of_isWord ⟨hne, fun c hc ↦ isBlank_of_isDecimalMark (List.all_eq_true.1 h c hc)⟩

/-- A numeral without letters has no unit. -/
theorem unit_of_isDecimalMark (h : s.all isDecimalMark) : unit s = (s, none) := by
  have hnone {name : Text} {c : Char} (hc : c ∈ name) (hletter : isLetter c) :
      before? name s = none := by
    refine Option.eq_none_iff_forall_ne_some.2 fun digits hdigits ↦ ?_
    rw [before?_eq_some_iff.1 hdigits] at h
    have hmark := List.all_eq_true.1 h c (List.mem_append_right _ hc)
    exact absurd (hletter.symm.trans (isLetter_of_isDecimalMark hmark)) (by simp)
  rw [unit, hnone (c := 'm') (by decide) rfl, hnone (c := 'm') (by decide) rfl,
    hnone (c := 'p') (by decide) rfl]

theorem unit_points (s : Text) : unit (s ++ "pt".toList) = (s, some 1) := by
  have hnone {name : Text} (hname : name.getLast? = some 'm') :
      before? name (s ++ "pt".toList) = none := by
    refine Option.eq_none_iff_forall_ne_some.2 fun digits hdigits ↦ ?_
    have hlast := congrArg List.getLast? (before?_eq_some_iff.1 hdigits)
    rw [List.getLast?_append, List.getLast?_append, hname] at hlast
    simp at hlast
  rw [unit, hnone rfl, hnone rfl, before?_eq_some_iff.2 rfl]

/-- What is printed as a decimal numeral is read again as a finite number that is printed so. -/
theorem exists_read_print (h : Numeral.isStable x) : ∃ n, Numeral.read? (Numeral.print x) = some n ∧
    Numeral.print (Numeral.toScalar n : Float) = Numeral.print x ∧
    Scalar.isFinite (Numeral.toScalar n : Float) := by
  rw [Numeral.isStable, Bool.and_eq_true] at h
  obtain ⟨hmarks, hagain⟩ := h
  obtain ⟨n, hn, hsame⟩ := (Option.any_eq_true _ _).1 hagain
  rw [beq_iff_eq] at hsame
  refine ⟨n, hn, hsame, Binary64.isFinite_of_print fun c hc ↦ ?_⟩
  rw [hsame] at hc
  exact isLetter_of_isDecimalMark (List.all_eq_true.1 hmarks c hc)

theorem ne_nil_of_read? (hn : Numeral.read? s = some n) : s ≠ [] := by
  rintro rfl
  have hnone : Numeral.read? [] = none := by decide
  exact absurd (hnone.symm.trans hn) (by simp)

theorem readLength?_of_unit {digits : Text} {scale : Option Float} (hs : IsTrimmed s)
    (hunit : unit s = (digits, scale)) (hdigits : digits.all isDecimalMark)
    (hn : Numeral.read? digits = some n) (hfinite : Scalar.isFinite (Numeral.toScalar n : Float)) :
    readLength? s = some (scale.elim (.number (Numeral.toScalar n))
      fun points ↦ .length (Numeral.toScalar n * points)) := by
  have hne := ne_nil_of_read? hn
  have hstart : startsWith (fun c ↦ isDigit c || c == '.' || c == '-' || c == '+') digits := by
    obtain ⟨c, digits, rfl⟩ := List.exists_cons_of_ne_nil hne
    have hc := List.all_eq_true.1 hdigits c List.mem_cons_self
    rw [isDecimalMark] at hc
    rw [startsWith_cons, hc, Bool.true_or]
  unfold readLength?
  cases scale <;>
    simp only [hs.trim_eq, hunit, (isTrimmed_of_isDecimalMark hdigits hne).trim_eq, hstart, if_true,
      hn, Option.map_some, hfinite, Option.elim_none, Option.elim_some]

theorem print_ne_nil (h : Numeral.isStable x) : Numeral.print x ≠ [] := by
  obtain ⟨n, hn, -⟩ := exists_read_print h
  exact ne_nil_of_read? hn

theorem all_isDecimalMark (h : Numeral.isStable x) : (Numeral.print x).all isDecimalMark := by
  rw [Numeral.isStable, Bool.and_eq_true] at h
  exact h.1

theorem isTrimmed_print (h : Numeral.isStable x) : IsTrimmed (Numeral.print x) :=
  isTrimmed_of_isDecimalMark (all_isDecimalMark h) (print_ne_nil h)

theorem isTrimmed_print_points (h : Numeral.isStable x) :
    IsTrimmed (Numeral.print x ++ "pt".toList) :=
  (isTrimmed_print h).append_cons ⟨rfl, rfl⟩ (print_ne_nil h) (by simp) 'p'

theorem readLength?_print (h : Numeral.isStable x) :
    ∃ y, readLength? (Numeral.print x) = some (.number y) ∧ Numeral.print y = Numeral.print x := by
  have hmarks := all_isDecimalMark h
  obtain ⟨n, hn, hsame, hfinite⟩ := exists_read_print h
  have hread := readLength?_of_unit (isTrimmed_print h) (unit_of_isDecimalMark hmarks) hmarks hn
    hfinite
  exact ⟨_, hread, hsame⟩

theorem readLength?_print_points (h : Numeral.isStable x) :
    ∃ y, readLength? (Numeral.print x ++ "pt".toList) = some (.length y) ∧
      Numeral.print y = Numeral.print x := by
  obtain ⟨n, hn, hsame, hfinite⟩ := exists_read_print h
  have hread := readLength?_of_unit (isTrimmed_print_points h) (unit_points _) (all_isDecimalMark h)
    hn hfinite
  rw [Option.elim_some, Binary64.mul_one] at hread
  exact ⟨_, hread, hsame⟩

end Item

end DiagramMacros
