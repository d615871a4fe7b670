import DiagramMacros.Grammar.Peg
/-!
A match loses nothing: the text of the forest it leaves, followed by the text after it, is the text
that was matched against (`Grammar.flatten_of_parse`). This holds of every grammar. It is shown for
an expression from the same statement about its rule calls (`Peg.flatten_of_read`), and then for
rules by induction on how many calls may be nested.
-/

set_option autoImplicit false
set_option relaxedAutoImplicit false

namespace DiagramMacros

variable {ρ : Type}

namespace Peg

/-- A way of matching that keeps every character. -/
def Lossless (m : Text → Match ρ) : Prop :=
  ∀ s f rest, m s = some (f, rest) → f.flatten ++ rest = s

theorem skip_append (blank : Char → Bool) (spaced : Bool) (s : Text) :
    (skip blank spaced s).1 ++ (skip blank spaced s).2 = s := by
  cases spaced
  · rfl
  · exact Text.cutWhile_append blank s

theorem flatten_of_dropAnyCase {t s cut rest : Text} (h : dropAnyCase t s = some (cut, rest)) :
    cut ++ rest = s := by
  induction t generalizing s cut with
  | nil =>
    simp only [dropAnyCase, Option.some.injEq, Prod.mk.injEq] at h
    simp [← h.1, h.2]
  | cons p ps ih =>
    cases s with
    | nil => simp [dropAnyCase] at h
    | cons c s =>
      simp only [dropAnyCase] at h
      split at h
      · obtain ⟨⟨cut', rest'⟩, hcut, heq⟩ := Option.map_eq_some_iff.1 h
        simp only [Prod.mk.injEq] at heq
        obtain ⟨rfl, rfl⟩ := heq
        simp [ih hcut]
      · simp at h

/-- A match after a gap, with the gap in front of what it leaves. -/
theorem lossless_after_skip {m : Text → Match ρ} (hm : Lossless m) (blank : Char → Bool)
    (spaced : Bool) :
    Lossless fun s ↦ (m (skip blank spaced s).2).map fun r ↦
      (Forest.text (skip blank spaced s).1 r.1, r.2) := by
  intro s f rest h
  obtain ⟨⟨g, rest'⟩, hg, heq⟩ := Option.map_eq_some_iff.1 h
  simp only [Prod.mk.injEq] at heq
  obtain ⟨rfl, rfl⟩ := heq
  rw [Forest.flatten, List.append_assoc, hm _ _ _ hg, skip_append]

theorem flatten_rounds {round : Text → Match ρ} (h : Lossless round) (allowed s : Text) :
    (rounds round allowed s).1.flatten ++ (rounds round allowed s).2 = s := by
  induction allowed generalizing s with
  | nil => rfl
  | cons _ allowed ih =>
    rw [rounds]
    split
    · rfl
    · rename_i f rest hround
      simp only [Forest.flatten_append, List.append_assoc, ih]
      exact h _ _ _ hround

theorem flatten_of_read {blank : Char → Bool} {enter : ρ → Bool → Text → Match ρ}
    (henter : ∀ rule spaced, Lossless (enter rule spaced)) (e : Peg ρ) (spaced : Bool) :
    Lossless (read blank enter e spaced) := by
  induction e generalizing spaced with
  | lit t =>
    intro s f rest h
    obtain ⟨r, hr, heq⟩ := Option.map_eq_some_iff.1 h
    simp only [Prod.mk.injEq] at heq
    obtain ⟨rfl, rfl⟩ := heq
    simp [Forest.flatten, Text.after?_eq_some_iff.1 hr]
  | anyCase t =>
    intro s f rest h
    obtain ⟨r, hr, heq⟩ := Option.map_eq_some_iff.1 h
    simp only [Prod.mk.injEq] at heq
    obtain ⟨rfl, rfl⟩ := heq
    simpa [Forest.flatten] using flatten_of_dropAnyCase hr
  | one accepts =>
    intro s f rest h
    cases s with
    | nil => simp [read] at h
    | cons c s =>
      simp only [read] at h
      split at h
      · simp only [Option.some.injEq, Prod.mk.injEq] at h
        obtain ⟨rfl, rfl⟩ := h
        rfl
      · simp at h
  | seq a b iha ihb =>
    intro s f rest h
    simp only [read] at h
    split at h
    · simp at h
    · rename_i g rest' hg
      obtain ⟨⟨g', rest''⟩, hg', heq⟩ := Option.map_eq_some_iff.1 h
      simp only [Prod.mk.injEq] at heq
      obtain ⟨rfl, rfl⟩ := heq
      rw [Forest.flatten_append, Forest.flatten, List.append_assoc, List.append_assoc,
        ihb _ _ _ _ hg', skip_append, iha _ _ _ _ hg]
  | alt a b iha ihb =>
    intro s f rest h
    simp only [read] at h
    split at h
    · exact ihb _ _ _ _ h
    · rename_i r hr
      exact iha _ _ _ _ (hr.trans h)
  | star e ih =>
    intro s f rest h
    simp only [read] at h
    split at h
    · simp only [Option.some.injEq, Prod.mk.injEq] at h
      obtain ⟨rfl, rfl⟩ := h
      rfl
    · rename_i g rest' hg
      simp only [Option.some.injEq, Prod.mk.injEq] at h
      obtain ⟨rfl, rfl⟩ := h
      rw [Forest.flatten_append, List.append_assoc,
        flatten_rounds (lossless_after_skip (ih spaced) blank spaced), ih _ _ _ _ hg]
  | absent e _ =>
    intro s f rest h
    simp only [read] at h
    split at h
    · simp only [Option.some.injEq, Prod.mk.injEq] at h
      obtain ⟨rfl, rfl⟩ := h
      rfl
    · simp at h
  | call rule => exact henter rule spaced

end Peg

namespace Grammar

variable (g : Grammar ρ)

@[simp] theorem flatten_wrap (rule : ρ) (f : Forest ρ) : (g.wrap rule f).flatten = f.flatten := by
  cases h : g.kind rule <;> simp [wrap, h, Forest.flatten]

theorem lossless_parseWithin (n : Nat) (rule : ρ) (spaced : Bool) :
    Peg.Lossless (g.parseWithin n rule spaced) := by
  induction n generalizing rule spaced with
  | zero =>
    intro s f rest h
    simp [parseWithin] at h
  | succ n ih =>
    intro s f rest h
    obtain ⟨⟨f', rest'⟩, hread, heq⟩ := Option.map_eq_some_iff.1 h
    simp only [Prod.mk.injEq] at heq
    obtain ⟨rfl, rfl⟩ := heq
    rw [flatten_wrap]
    exact Peg.flatten_of_read ih _ _ _ _ _ hread

theorem flatten_of_parse {rule : ρ} {s rest : Text} {f : Forest ρ}
    (h : g.parse rule s = some (f, rest)) : f.flatten ++ rest = s :=
  g.lossless_parseWithin _ _ _ _ _ _ h

end Grammar

end DiagramMacros
