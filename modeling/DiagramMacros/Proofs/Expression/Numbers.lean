import DiagramMacros.Proofs.Expression.Operand
/-!
The texts of numbers. A number consists of characters that a component may have, and its first
character is a sign, a digit or a point. So no chain starts with a number, and two numbers are the
components of a pair (`isPair_of_numbers`).
-/

set_option autoImplicit false
set_option relaxedAutoImplicit false

namespace DiagramMacros

open Expression Peg Text

/-- A character that no terminal of the number rule accepts does not occur in a number. -/
theorem not_mem_of_refuses {x : Text} {c : Char} (hx : Rule.number.Spells x)
    (hgap : isGap c = false) (hc : refuses (fun _ ↦ false) c Rule.number.body) : c ∉ x := by
  intro hmem
  obtain ⟨before, after, rfl⟩ := List.append_of_mem hmem
  have htails : AreTails (· = c :: after) := by
    rintro _ rfl
    exact ⟨List.cons_ne_nil _ _, afterGap_of_not hgap⟩
  have hfirst : ∀ d tail, d :: tail = c :: after → refuses (fun _ ↦ false) d Rule.number.body := by
    intro d tail htail
    obtain rfl := (List.cons.inj htail).1
    exact hc
  have hall : before.all (fun _ ↦ true) := by simp
  have hstop := stops_number (fun _ ↦ true) htails hfirst true before (c :: after) hall rfl
  obtain ⟨ps, hyields⟩ := spells_iff.1 hx
  rcases fails_or_yields (call .number) true before with hfails | ⟨qs, rest, hbefore⟩
  · exact absurd (hstop.2 hfails) hyields.not_fails
  · obtain ⟨_, ⟨rfl, _⟩, hyields'⟩ := hstop.1 _ _ hbefore
    have hrest := (hyields.unique hyields').2
    simp at hrest

theorem all_isComponentLetter_of_number {x : Text} (hx : Rule.number.Spells x) :
    x.all isComponentLetter := by
  rw [List.all_eq_true]
  intro c hc
  rw [isComponentLetter, Bool.not_eq_true', ← Bool.not_eq_true]
  intro hmem
  have hrefused : ",:()$".toList.all fun d ↦
      !isGap d && refuses (fun _ ↦ false) d Rule.number.body := by decide
  have hnone := List.all_eq_true.1 hrefused c (List.contains_iff_mem.1 hmem)
  rw [Bool.and_eq_true, Bool.not_eq_true'] at hnone
  obtain ⟨hgap, hrefuses⟩ := hnone
  exact not_mem_of_refuses hx hgap hrefuses hc

/-- The first characters of numbers. -/
def isNumberStart (c : Char) : Bool := c == '+' || c == '-' || c == '.' || isDigit c

theorem startsWith_of_number {x : Text} (hx : Rule.number.Spells x) :
    startsWith isNumberStart x := by
  obtain ⟨ps, hyields⟩ := spells_iff.1 hx
  obtain ⟨_, qs, _, hbody, _⟩ := yields_call.1 hyields
  obtain ⟨p, mid, q, hsign, hrest, rfl⟩ := yields_seq.1 hbody
  rcases yields_alt.1 hsign with hsign | ⟨_, hnone⟩
  · rcases yields_alt.1 hsign with hplus | ⟨_, hminus⟩
    · obtain ⟨rfl, _⟩ := yields_lit.1 hplus
      rfl
    · obtain ⟨rfl, _⟩ := yields_lit.1 hminus
      rfl
  · obtain ⟨hsigned, _⟩ := yields_lit.1 hnone
    obtain ⟨p', mid', q', hdigits, _, rfl⟩ := yields_seq.1 hrest
    rcases yields_alt.1 hdigits with hwhole | ⟨_, hpoint⟩
    · obtain ⟨_, _, _, hplus, _⟩ := yields_seq.1 hwhole
      obtain ⟨_, _, _, hdigit, _⟩ := yields_seq.1 hplus
      obtain ⟨c, hmid, hc, _⟩ := yields_one.1 hdigit
      change mid = c :: _ at hmid
      rw [hsigned, List.nil_append, hmid, startsWith_cons, isNumberStart, hc, Bool.or_true]
    · obtain ⟨_, _, _, hpoint, _⟩ := yields_seq.1 hpoint
      obtain ⟨hmid, _⟩ := yields_lit.1 hpoint
      change mid = '.' :: _ at hmid
      rw [hsigned, List.nil_append, hmid]
      rfl

theorem not_isOperandStart_of_isNumberStart {c : Char} (h : isNumberStart c) :
    isOperandStart c = false := by
  rw [Bool.eq_false_iff]
  intro hstart
  simp only [isOperandStart, isNameStart, Bool.or_eq_true, beq_iff_eq] at hstart
  rcases hstart with (rfl | rfl) | (hletter | rfl)
  · exact absurd h (by decide)
  · exact absurd h (by decide)
  · simp only [isNumberStart, Bool.or_eq_true, beq_iff_eq] at h
    rcases h with ((rfl | rfl) | rfl) | hdigit
    · exact absurd hletter (by decide)
    · exact absurd hletter (by decide)
    · exact absurd hletter (by decide)
    · rw [isLetter_iff] at hletter
      rw [isDigit_iff] at hdigit
      omega
  · exact absurd h (by decide)

theorem not_isGap_of_isNumberStart {c : Char} (h : isNumberStart c) : isGap c = false := by
  rw [Bool.eq_false_iff]
  intro hgap
  simp only [isGap, Bool.or_eq_true, beq_iff_eq] at hgap
  rcases hgap with ((rfl | rfl) | rfl) | rfl <;> exact absurd h (by decide)

/-- A number is a component that starts with no blank and no operand. -/
theorem isComponent_of_number {x : Text} (hx : Rule.number.Spells x) :
    IsComponent x ∧ startsWith isGap x = false ∧ startsWith isOperandStart x = false := by
  have hall := all_isComponentLetter_of_number hx
  have hstart := startsWith_of_number hx
  cases x with
  | nil => simp [startsWith] at hstart
  | cons c t =>
    rw [List.all_cons, Bool.and_eq_true] at hall
    exact ⟨⟨c, t, rfl, hall.1, hall.2⟩, not_isGap_of_isNumberStart hstart,
      not_isOperandStart_of_isNumberStart hstart⟩

theorem isPair_of_numbers {x y : Text} (hx : Rule.number.Spells x) (hy : Rule.number.Spells y) :
    IsPair x y := by
  obtain ⟨hcomponent, hgap, hstart⟩ := isComponent_of_number hx
  obtain ⟨hcomponent', hgap', _⟩ := isComponent_of_number hy
  exact ⟨hcomponent, hgap, fails_chain_of_operand (fails_operand hstart), hcomponent', hgap'⟩

end DiagramMacros
