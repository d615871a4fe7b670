import DiagramMacros.Number.Numeral
/-!
The texts of numerals. A numeral consists of letters, digits, signs and points (`all_isMark`), so it
has none of the characters that the lists around it give a meaning.
-/

set_option autoImplicit false
set_option relaxedAutoImplicit false

namespace DiagramMacros.Numeral

/-- The characters that a numeral may have. -/
def isMark (c : Char) : Bool := isLetter c || isDigit c || c == '.' || c == '+' || c == '-'

variable {s : Text} {n : Numeral}

theorem sign_eq (s : Text) : s = (sign s).2 ∨ ∃ c, isMark c ∧ s = c :: (sign s).2 := by
  unfold sign
  split
  · exact Or.inr ⟨'-', rfl, rfl⟩
  · exact Or.inr ⟨'+', rfl, rfl⟩
  · exact Or.inl rfl

theorem all_isMark_of_sign (h : (sign s).2.all isMark) : s.all isMark := by
  rcases sign_eq s with heq | ⟨c, hc, heq⟩
  · rwa [heq]
  · rw [heq, List.all_cons, hc, h, Bool.and_self]

theorem all_isMark_of_digits (h : s.all isDigit) : s.all isMark := by
  refine List.all_eq_true.2 fun c hc ↦ ?_
  simp [isMark, List.all_eq_true.1 h c hc]

theorem isMark_of_toLower {c : Char} (h : isLetter c.toLower) : isMark c := by
  rw [isMark, isLetter_of_toLower h]
  rfl

theorem all_isMark_of_map_toLower {word : Text} (hword : word.all isLetter)
    (h : s.map Char.toLower = word) : s.all isMark := by
  refine List.all_eq_true.2 fun c hc ↦ isMark_of_toLower ?_
  exact List.all_eq_true.1 hword _ (h ▸ List.mem_map_of_mem hc)

theorem all_isMark_of_exponent? {e : Int} (h : exponent? s = some e) : s.all isMark := by
  cases s with
  | nil => rfl
  | cons c s =>
    rw [exponent?] at h
    split at h
    · rename_i hc
      dsimp only at h
      split at h
      · rename_i hdigits
        have hmark : isMark c := by rcases hc with rfl | rfl <;> rfl
        have hdigits' := all_isMark_of_sign (all_isMark_of_digits hdigits.2)
        rw [List.all_cons, hmark, hdigits', Bool.and_self]
      · simp at h
    · simp at h

theorem all_isMark_of_cutWhile (h : (Text.cutWhile isDigit s).2.all isMark) : s.all isMark := by
  have hdigits : (Text.cutWhile isDigit s).1.all isMark := all_isMark_of_digits List.all_takeWhile
  rw [← Text.cutWhile_append isDigit s, List.all_append, hdigits, h, Bool.and_self]

/-- The digits that `decimals` finds stand after a point, or there are none. -/
theorem all_isMark_of_decimals (h : (decimals s).2.all isMark) : s.all isMark := by
  unfold decimals at h
  split at h
  · rw [List.all_cons, all_isMark_of_cutWhile h]
    rfl
  · exact h

theorem all_isMark_of_readDecimal? {negative : Bool} (h : readDecimal? negative s = some n) :
    s.all isMark := by
  unfold readDecimal? at h
  dsimp only at h
  split at h
  · simp at h
  · obtain ⟨e, he, -⟩ := Option.map_eq_some_iff.1 h
    exact all_isMark_of_cutWhile (all_isMark_of_decimals (all_isMark_of_exponent? he))

theorem all_isMark (h : read? s = some n) : s.all isMark := by
  unfold read? at h
  dsimp only at h
  apply all_isMark_of_sign
  split at h
  · rename_i hword
    rcases hword with hword | hword
    · exact all_isMark_of_map_toLower (by decide) hword
    · exact all_isMark_of_map_toLower (by decide) hword
  · split at h
    · rename_i hword
      exact all_isMark_of_map_toLower (by decide) hword
    · exact all_isMark_of_readDecimal? h

/-- A character that no numeral has does not occur in a numeral. -/
theorem notMem_of_read? (h : read? s = some n) {c : Char} (hc : isMark c = false) : c ∉ s := by
  intro hmem
  rw [List.all_eq_true.1 (all_isMark h) c hmem] at hc
  exact Bool.noConfusion hc

end DiagramMacros.Numeral
