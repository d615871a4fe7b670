import DiagramMacros.Proofs.Numerals
import DiagramMacros.Proofs.Words
import DiagramMacros.Style.Item
/-!
Numbers and lengths as they are written in an item: a numeral, and for a length the name of a unit
after it, with blanks around both (`isMark_or_isBlank_of_readLength?`).
-/

set_option autoImplicit false
set_option relaxedAutoImplicit false

namespace DiagramMacros

open Text

namespace Value

/-- A number or a length. -/
def IsMeasure (v : Value) : Prop := (∃ x, v = .number x) ∨ ∃ x, v = .length x

end Value

namespace Item

variable {s : Text} {v : Value} {c : Char}

theorem exists_unit (s : Text) : ∃ name, s = (unit s).1 ++ name ∧ name.all isLetter := by
  unfold unit
  split
  · rename_i digits h
    exact ⟨"cm".toList, before?_eq_some_iff.1 h, by decide⟩
  · split
    · rename_i digits h
      exact ⟨"mm".toList, before?_eq_some_iff.1 h, by decide⟩
    · split
      · rename_i digits h
        exact ⟨"pt".toList, before?_eq_some_iff.1 h, by decide⟩
      · exact ⟨[], (List.append_nil s).symm, rfl⟩

theorem readLength?_eq_some (h : readLength? s = some v) :
    (∃ n, Numeral.read? (trim (unit (trim s)).1) = some n) ∧ v.IsMeasure := by
  unfold readLength? at h
  dsimp only at h
  split at h
  · split at h
    · rename_i hread
      obtain ⟨n, hn, -⟩ := Option.map_eq_some_iff.1 hread
      refine ⟨⟨n, hn⟩, ?_⟩
      split at h
      · obtain rfl := Option.some.inj h
        split
        · exact Or.inr ⟨_, rfl⟩
        · exact Or.inl ⟨_, rfl⟩
      · simp at h
    · simp at h
  · simp at h

/-- A number or length is written with the characters of numerals. -/
theorem isMark_or_isBlank_of_readLength? (h : readLength? s = some v) (hc : c ∈ s) :
    Numeral.isMark c ∨ isBlank c := by
  obtain ⟨⟨n, hn⟩, -⟩ := readLength?_eq_some h
  obtain ⟨name, hname, hletters⟩ := exists_unit (trim s)
  cases hblank : isBlank c with
  | true => exact Or.inr rfl
  | false =>
    refine Or.inl ?_
    have hmem : c ∈ trim s := (mem_trim_iff hblank).2 hc
    rw [hname, List.mem_append] at hmem
    rcases hmem with hdigits | hunit
    · exact List.all_eq_true.1 (Numeral.all_isMark hn) c ((mem_trim_iff hblank).2 hdigits)
    · rw [Numeral.isMark, List.all_eq_true.1 hletters c hunit]
      rfl

theorem notMem_of_readLength? (h : readLength? s = some v) (hmark : Numeral.isMark c = false)
    (hblank : isBlank c = false) : c ∉ s := by
  intro hc
  rcases isMark_or_isBlank_of_readLength? h hc with hc | hc
  · exact absurd (hmark.symm.trans hc) Bool.false_ne_true
  · exact absurd (hblank.symm.trans hc) Bool.false_ne_true

end Item

end DiagramMacros
