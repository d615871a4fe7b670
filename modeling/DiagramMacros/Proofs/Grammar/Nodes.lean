import DiagramMacros.Proofs.Grammar.Yields
/-!
What a match leaves at its outermost level. A rule that is not silent leaves one node
(`Rule.exists_node`), and the first of several rules that matches leaves what one of them leaves. An
expression that begins with a literal text matches only where that text stands
(`Yields.exists_opening`).
-/

set_option autoImplicit false
set_option relaxedAutoImplicit false

namespace DiagramMacros

open Peg

namespace Rule

theorem parse_eq (rule : Rule) (s : Text) :
    rule.parse s = (rule.body.scan (diagramGrammar.spacing rule true) s).map fun m ↦
      (diagramGrammar.wrap rule m.1, m.2) :=
  parseAt_eq rule true s

/-- A rule that is not silent leaves one node. -/
theorem exists_node {rule : Rule} (hkind : rule.kind ≠ .silent) {spaced : Bool} {s rest : Text}
    {f : Forest Rule} (h : diagramGrammar.parseAt rule spaced s = some (f, rest)) :
    ∃ inside, f = .node rule inside .nil := by
  rw [parseAt_eq] at h
  obtain ⟨m, _, hm⟩ := Option.map_eq_some_iff.1 h
  obtain ⟨rfl, _⟩ := Prod.mk.inj hm
  cases hrule : diagramGrammar.kind rule with
  | silent => exact absurd hrule hkind
  | plain => exact ⟨m.1, by rw [Grammar.wrap, hrule]⟩
  | tight => exact ⟨m.1, by rw [Grammar.wrap, hrule]⟩
  | token => exact ⟨.text m.1.flatten .nil, by rw [Grammar.wrap, hrule]⟩

theorem parseNode?_eq_some_iff {rule : Rule} (hkind : rule.kind ≠ .silent) {s rest : Text}
    {inside : Forest Rule} :
    rule.parseNode? s = some (inside, rest) ↔
      rule.parse s = some (.node rule inside .nil, rest) := by
  rw [parseNode?]
  cases hparse : rule.parse s with
  | none => simp
  | some m =>
    obtain ⟨f, rest'⟩ := m
    obtain ⟨inside', rfl⟩ := exists_node hkind hparse
    simp

theorem parseNode?_eq_none_iff {rule : Rule} (hkind : rule.kind ≠ .silent) {s : Text} :
    rule.parseNode? s = none ↔ rule.parse s = none := by
  rw [parseNode?]
  cases hparse : rule.parse s with
  | none => simp
  | some m =>
    obtain ⟨f, rest⟩ := m
    obtain ⟨inside, rfl⟩ := exists_node hkind hparse
    simp

end Rule

namespace Peg

/-- What the first of several rules that matches leaves is what one of them leaves. -/
theorem exists_of_scan_firstOf (rules : List Rule) {spaced : Bool} {s : Text}
    {m : Forest Rule × Text} (h : (firstOf (rules.map call)).scan spaced s = some m) :
    ∃ rule ∈ rules, diagramGrammar.parseAt rule spaced s = some m := by
  induction rules with
  | nil => simp [firstOf, empty, scan, read, Text.after?] at h
  | cons rule rules ih =>
    cases rules with
    | nil => exact ⟨rule, List.mem_singleton_self rule, h⟩
    | cons other rules =>
      simp only [List.map_cons, firstOf, scan, read] at h ih
      split at h
      · obtain ⟨rule', hmem, hrule'⟩ := ih h
        exact ⟨rule', List.mem_cons_of_mem _ hmem, hrule'⟩
      · rename_i hrule
        exact ⟨rule, List.mem_cons_self, hrule.trans h⟩

/-- The character with which every match starts, if the expression begins with a literal text. -/
def opening? : Peg Rule → Option Char
  | lit t => t.head?
  | seq a _ => opening? a
  | _ => none

theorem Yields.exists_opening {e : Peg Rule} {c : Char} (he : e.opening? = some c) {spaced : Bool}
    {s rest : Text} {ps : List Expression.Part} (h : e.Yields spaced s ps rest) :
    ∃ t, s = c :: t := by
  induction e generalizing ps rest with
  | lit t =>
    obtain ⟨t', rfl⟩ := List.head?_eq_some_iff.1 he
    exact ⟨_, (yields_lit.1 h).1⟩
  | seq a b iha _ =>
    obtain ⟨_, _, _, ha, _⟩ := yields_seq.1 h
    exact iha he ha
  | _ => simp [opening?] at he

theorem exists_opening_of_parseAt {rule : Rule} {c : Char} (hrule : rule.body.opening? = some c)
    {spaced : Bool} {s rest : Text} {f : Forest Rule}
    (h : diagramGrammar.parseAt rule spaced s = some (f, rest)) : ∃ t, s = c :: t := by
  have hyields : (call rule).Yields spaced s (Expression.parts f) rest := ⟨f, h, rfl⟩
  obtain ⟨_, _, _, hbody, _⟩ := yields_call.1 hyields
  exact hbody.exists_opening hrule

end Peg

end DiagramMacros
