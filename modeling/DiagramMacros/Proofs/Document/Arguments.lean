import DiagramMacros.Proofs.Document.Definitions
import DiagramMacros.Proofs.Grammar.Outline
import DiagramMacros.Proofs.Lexing.Calls
import DiagramMacros.Proofs.Path.Reading
/-!
The arguments of calls. A call that matches has as many braced arguments as its keyword asks for
(`IsCall.length_arguments`), so none is missing when it is built. What is left to find fault with is
the name of a labelled coordinate, which may not be blank (`IsCall.malformedCall_iff`); every other
failure is about an expression or a path.
-/

set_option autoImplicit false
set_option relaxedAutoImplicit false

namespace DiagramMacros

open Peg Text

/-- The number of braced arguments of a call. -/
def Keyword.arity : Keyword → Nat
  | grid => 1
  | xyaxis => 2
  | node | mass => 3
  | coor | vec | circle => 4
  | pic => 5
  | coordinate | draw => 0

section Shape

variable {k : Keyword} {s rest : Text} {tree : Forest Rule}

theorem isFixed_invocationBody (k : Keyword) : (invocationBody k).isFixed := by cases k <;> rfl

theorem count_argument_of_outline (k : Keyword) :
    ∀ rules ∈ (invocationBody k).outlines, rules.count .argument = k.arity := by
  cases k <;> decide

/-- A call leaves one node, with what the body of its rule leaves inside it. -/
theorem IsCall.exists_inside (h : IsCall k s tree rest) :
    ∃ inside, tree = .node (.invocation k) inside .nil ∧
      (invocationBody k).scan true s = some (inside, rest) := by
  obtain ⟨inside, hbody, rfl⟩ := scan_call_eq_some_iff.1 h
  exact ⟨inside, rfl, hbody⟩

theorem IsCall.length_arguments (h : IsCall k s tree rest) :
    (Lexeme.call k tree).arguments.length = k.arity := by
  obtain ⟨inside, rfl, hbody⟩ := h.exists_inside
  obtain ⟨hrow, _⟩ := nodes_of_scan (isFixed_invocationBody k) hbody
  rw [← count_argument_of_outline k _ hrow, ← Forest.length_inside]
  exact List.length_map _

end Shape

/-! ### Failures of one call -/

section Failures

variable {scope : Scope} {k k' : Keyword} {inside : Forest Rule}

/-- A path fails for one of its coordinates, or because reading it is stuck. -/
theorem DrawnPath.read_ne_malformedCall (style : Style) (body : Text) (scope : Scope) :
    read style body scope ≠ .error (.malformedCall k) := by
  intro h
  obtain ⟨row, last, hread⟩ := exists_isRead body
  rw [read_eq hread] at h
  rcases bind_eq_error_iff.1 h with htrace | ⟨_, _, hend⟩
  · obtain ⟨_, _, _, _, _, _, _, hresolve⟩ := Pen.trace_eq_error_iff.1 htrace
    rcases Pen.resolve_eq_error_iff.1 hresolve with ⟨_, hfailure⟩ | ⟨_, hscope⟩
    · simp at hfailure
    · exact Bool.noConfusion (scope.failsInExpression_resolve _ hscope)
  · split at hend <;> simp at hend

namespace Scope

theorem failsInExpression_buildNode (scope : Scope) (preset : Option Preset)
    (expression label list : Text) :
    FailsInExpression (scope.buildNode preset expression label list) :=
  (scope.failsInExpression_resolve expression).bind fun _ ↦ failsInExpression_ok _

theorem failsInExpression_buildArrow (scope : Scope) (start stop label list : Text) :
    FailsInExpression (scope.buildArrow start stop label list) :=
  (scope.failsInExpression_resolve start).bind fun _ ↦
    (scope.failsInExpression_resolve stop).bind fun _ ↦ failsInExpression_ok _

theorem failsInExpression_through (a b c : Vec Float) (style : Style) :
    FailsInExpression (Circle.through a b c style) := by
  rw [Circle.through, Line.circumcircle]
  split
  · exact failsInExpression_ok _
  · exact failsInExpression_error rfl

theorem failsInExpression_buildCircle (scope : Scope) (a b c list : Text) :
    FailsInExpression (scope.buildCircle a b c list) :=
  (scope.failsInExpression_resolve a).bind fun p ↦ (scope.failsInExpression_resolve b).bind fun q ↦
    (scope.failsInExpression_resolve c).bind fun r ↦
      (failsInExpression_through p.position q.position r.position _).bind fun _ ↦
        failsInExpression_ok _

theorem failsInExpression_buildAngle (scope : Scope) (a b c label list : Text) :
    FailsInExpression (scope.buildAngle a b c label list) :=
  (scope.failsInExpression_lookup _).bind fun _ ↦ (scope.failsInExpression_lookup _).bind fun _ ↦
    (scope.failsInExpression_lookup _).bind fun _ ↦ failsInExpression_ok _

theorem failsInExpression_buildCoordinate (scope : Scope) (style : Style) (name expression : Text) :
    FailsInExpression (scope.buildCoordinate style name expression) :=
  (scope.failsInExpression_resolve expression).bind fun _ ↦ failsInExpression_ok _

theorem failsInExpression_buildLabelled (scope : Scope) {name : Text} (hname : trim name ≠ [])
    (expression label list : Text) :
    FailsInExpression (scope.buildLabelled expression name label list) := by
  rw [buildLabelled]
  simp only [List.isEmpty_iff, hname, if_false]
  exact (scope.failsInExpression_resolve expression).bind fun _ ↦ failsInExpression_ok _

/-- A labelled coordinate is malformed if its name is blank, whatever its expression is. -/
theorem buildLabelled_eq_malformedCall_iff {expression name label list : Text} :
    scope.buildLabelled expression name label list = .error (.malformedCall k) ↔
      k = .coor ∧ trim name = [] := by
  by_cases hname : trim name = []
  · simp [buildLabelled, hname, eq_comm]
  · have hexpression := scope.failsInExpression_buildLabelled hname expression label list
    simp only [hname, and_false, iff_false]
    exact fun h ↦ Bool.noConfusion (hexpression h)

theorem buildFigure_ne_malformedCall (hk : k ≠ .coor ∧ k ≠ .coordinate)
    (hlength : (argumentTexts inside).length = k.arity) :
    scope.buildFigure k inside ≠ .error (.malformedCall k') := by
  have hexpression {r : Except Failure Token} (hr : FailsInExpression r) :
      r ≠ .error (.malformedCall k') := fun h ↦ Bool.noConfusion (hr h)
  cases k with
  | coor => exact absurd rfl hk.1
  | coordinate => exact absurd rfl hk.2
  | node =>
    obtain ⟨expression, label, list, harguments⟩ := List.length_eq_three.1 hlength
    simp only [buildFigure, harguments]
    exact hexpression (scope.failsInExpression_buildNode none expression label list)
  | mass =>
    obtain ⟨expression, label, list, harguments⟩ := List.length_eq_three.1 hlength
    simp only [buildFigure, harguments]
    exact hexpression (scope.failsInExpression_buildNode (some .mass) expression label list)
  | vec =>
    obtain ⟨start, stop, label, list, harguments⟩ := List.length_eq_four.1 hlength
    simp only [buildFigure, harguments]
    exact hexpression (scope.failsInExpression_buildArrow start stop label list)
  | circle =>
    obtain ⟨a, b, c, list, harguments⟩ := List.length_eq_four.1 hlength
    simp only [buildFigure, harguments]
    exact hexpression (scope.failsInExpression_buildCircle a b c list)
  | pic =>
    obtain ⟨a, more, hmore⟩ := List.exists_of_length_succ _ hlength
    rw [hmore] at hlength
    obtain ⟨b, c, label, list, rfl⟩ := List.length_eq_four.1 (Nat.succ.inj hlength)
    simp only [buildFigure, hmore]
    exact hexpression (scope.failsInExpression_buildAngle a b c label list)
  | xyaxis =>
    obtain ⟨x, y, harguments⟩ := List.length_eq_two.1 hlength
    simp only [buildFigure, harguments]
    exact hexpression (failsInExpression_ok _)
  | grid =>
    obtain ⟨list, harguments⟩ := List.length_eq_one_iff.1 hlength
    simp only [buildFigure, harguments]
    exact hexpression (failsInExpression_ok _)
  | draw => exact fun h ↦ DrawnPath.read_ne_malformedCall _ _ _ (map_eq_error_iff.1 h)

end Scope

variable {s rest : Text} {tree : Forest Rule}

/-- Nothing that a call lacks makes it fail. The only call that is malformed is a labelled
coordinate whose name is blank. -/
theorem IsCall.malformedCall_iff (h : IsCall k s tree rest) :
    scope.buildLexeme (.call k tree) = .error (.malformedCall k') ↔
      k = .coor ∧ k' = .coor ∧
        ∃ name, (Lexeme.call k tree).arguments[1]? = some name ∧ trim name = [] := by
  have hlength := h.length_arguments
  obtain ⟨inside, rfl, _⟩ := h.exists_inside
  have hfigure (hk : k ≠ .coor ∧ k ≠ .coordinate) :
      (scope.buildFigure k inside).map (fun token ↦ (token, scope)) ≠ .error (.malformedCall k') :=
    fun heq ↦ Scope.buildFigure_ne_malformedCall hk hlength (map_eq_error_iff.1 heq)
  cases k with
  | coor =>
    obtain ⟨expression, name, label, list, harguments⟩ := List.length_eq_four.1 hlength
    have hbuild : scope.build .coor inside = scope.buildLabelled expression name label list := by
      have htexts : argumentTexts inside = [expression, name, label, list] := harguments
      simp only [Scope.build, htexts]
    rw [Scope.buildLexeme, hbuild, Scope.buildLabelled_eq_malformedCall_iff, harguments]
    simp
  | coordinate =>
    have hexpression := scope.failsInExpression_buildCoordinate (optionStyle inside)
      (inside.textOf .coordinateName) (inside.textOf .parenBody)
    simp only [reduceCtorEq, false_and, iff_false]
    exact fun heq ↦ Bool.noConfusion (hexpression heq)
  | _ =>
    simp only [reduceCtorEq, false_and, iff_false]
    exact hfigure (by decide)

end Failures

end DiagramMacros
