import DiagramMacros.Proofs.Document.Arguments
import DiagramMacros.Proofs.Document.EarlierDefinitions
import DiagramMacros.Proofs.Expression.Names
/-!
Names that are defined and names that can be used. A coordinate may be given any name of letters,
digits, underscores and primes, and it is in the scope from then on. But as an expression only a
name that starts with a letter or an underscore is read (`resolve_defined_name`), so a coordinate
named by a number cannot be used by its name in an expression (`number_name_is_unreadable`).
-/

set_option autoImplicit false
set_option relaxedAutoImplicit false

namespace DiagramMacros

open Peg Text

variable {s rest name expression : Text} {tree : Forest Rule} {scope scope' : Scope} {token : Token}

/-- The name that a coordinate is given is a text of name letters. -/
theorem IsCall.isNameText (h : IsCall .coordinate s tree rest)
    (hname : (Lexeme.call .coordinate tree).definition? = some (name, expression)) :
    IsNameText name := by
  obtain ⟨inside, rfl, hbody⟩ := h.exists_inside
  obtain ⟨rfl, _⟩ := Prod.mk.inj (Option.some.inj hname)
  obtain ⟨hrow, hnodes⟩ := nodes_of_scan (isFixed_invocationBody .coordinate) hbody
  have hall : ∀ rules ∈ (invocationBody .coordinate).outlines, .coordinateName ∈ rules := by decide
  obtain ⟨node, hnode, htext⟩ := Forest.exists_textOf (hall _ hrow)
  obtain ⟨s', rest', hparse⟩ := hnodes _ hnode
  have hyields : (call .coordinateName).Yields true s' _ rest' := ⟨_, hparse, rfl⟩
  obtain ⟨w, hw, hs, _⟩ := (yields_token rfl rfl).1 hyields
  have hflatten := lossless_scan (call .coordinateName) true _ _ _ hparse
  rw [hs, Forest.flatten, Forest.flatten, List.append_nil] at hflatten
  obtain rfl : node.flatten = w := List.append_cancel_right hflatten
  rwa [← htext] at hw

theorem Scope.lookup_define (scope : Scope) (name : Text) (p : Point Float) :
    (scope.define name p).lookup name = .ok (p.named name) := by
  rw [lookup, get?, define, Assoc.get?_put_self]

/-- A name that is given to a coordinate is in the scope after it. As an expression, with any blanks
around it, it stands for the point of the coordinate under that name if it starts as names in
expressions do, and otherwise it is unreadable. -/
theorem resolve_defined_name (h : IsCall .coordinate s tree rest)
    (hbuild : scope.buildLexeme (.call .coordinate tree) = .ok (token, scope')) :
    ∃ name expression p, (Lexeme.call .coordinate tree).definition? = some (name, expression) ∧
      scope.resolve expression = .ok p ∧ scope'.lookup name = .ok (p.named name) ∧
      ∀ text, trim text = name → scope'.resolve text =
        if startsWith isNameStart name then .ok (p.named name) else .error (.unreadable name) := by
  rcases (buildsTo_of_buildLexeme hbuild).defines with
    ⟨hnone, _⟩ | ⟨name, expression, p, hname, hp, rfl⟩
  · simp [Lexeme.definition?, Lexeme.keyword?] at hnone
  · have hlookup := scope.lookup_define name p
    refine ⟨name, expression, p, hname, hp, hlookup, fun text htext ↦ ?_⟩
    rw [Scope.resolve_of_nameLetters (h.isNameText hname) htext, hlookup]

/-- What a coordinate at the start of a text leaves. -/
def coordinateTree (s : Text) : Forest Rule :=
  (((Rule.invocation .coordinate).parse s).map Prod.fst).getD .nil

/-- A coordinate whose name begins like a crossing and ends with a prime. -/
def crossingNameSource : Text := "\\coordinate (intersectionofAand_1') at (2,3);".toList

theorem resolve_defined_name_crossing :
    IsCall .coordinate crossingNameSource (coordinateTree crossingNameSource) [] ∧
      ∃ token scope', ∃ p : Point Float,
        ({} : Scope).buildLexeme (.call .coordinate (coordinateTree crossingNameSource)) =
          .ok (token, scope') ∧
        scope'.resolve " intersectionofAand_1'\n".toList =
          .ok (p.named "intersectionofAand_1'".toList) := by
  have hcall : IsCall .coordinate crossingNameSource (coordinateTree crossingNameSource) [] := by
    unfold IsCall
    decide +kernel
  obtain ⟨⟨token, scope'⟩, hbuild⟩ := exists_of_isOk
    (show (({} : Scope).buildLexeme
      (.call .coordinate (coordinateTree crossingNameSource))).isOk by decide +kernel)
  obtain ⟨name, expression, p, hname, -, -, hresolve⟩ := resolve_defined_name hcall hbuild
  have hgiven : (Lexeme.call .coordinate (coordinateTree crossingNameSource)).definition? =
      some ("intersectionofAand_1'".toList, "2,3".toList) := by decide +kernel
  obtain ⟨rfl, -⟩ := Prod.mk.inj (Option.some.inj (hgiven.symm.trans hname))
  refine ⟨hcall, token, scope', p, hbuild, ?_⟩
  exact (hresolve _ (by decide +kernel)).trans (if_pos (by decide))

/-- A coordinate whose name is a number. -/
def numberNameSource : Text := "\\coordinate (1) at (2,3);".toList

/-- The coordinate is built and in the scope after it, but its name is not read. -/
theorem number_name_is_unreadable :
    IsCall .coordinate numberNameSource (coordinateTree numberNameSource) [] ∧
      (Lexeme.call .coordinate (coordinateTree numberNameSource)).definition? =
        some ("1".toList, "2,3".toList) ∧
      ∃ token scope',
        ({} : Scope).buildLexeme (.call .coordinate (coordinateTree numberNameSource)) =
          .ok (token, scope') ∧
        (∃ p, scope'.lookup "1".toList = .ok p) ∧ ¬ ∃ p, scope'.resolve "1".toList = .ok p := by
  have hcall : IsCall .coordinate numberNameSource (coordinateTree numberNameSource) [] := by
    unfold IsCall
    decide +kernel
  have hgiven : (Lexeme.call .coordinate (coordinateTree numberNameSource)).definition? =
      some ("1".toList, "2,3".toList) := by decide +kernel
  obtain ⟨⟨token, scope'⟩, hbuild⟩ := exists_of_isOk
    (show (({} : Scope).buildLexeme
      (.call .coordinate (coordinateTree numberNameSource))).isOk by decide +kernel)
  refine ⟨hcall, hgiven, token, scope', hbuild, ?_, ?_⟩
  · rcases (buildsTo_of_buildLexeme hbuild).defines with
      ⟨hnone, _⟩ | ⟨name, expression, p, hname, _, rfl⟩
    · simp [hgiven] at hnone
    · obtain ⟨rfl, -⟩ := Prod.mk.inj (Option.some.inj (hgiven.symm.trans hname))
      exact ⟨_, Scope.lookup_define {} _ p⟩
  · rintro ⟨p, hp⟩
    have hread : Expression.read? (trim "1".toList) = none := by decide +kernel
    rw [Scope.resolve, hread] at hp
    simp at hp

end DiagramMacros
