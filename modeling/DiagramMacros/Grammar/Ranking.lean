import DiagramMacros.Grammar.Rule
import DiagramMacros.Grammar.Unfolding
/-!
The rules of the grammar of diagrams can be ranked, so that each of them matches what its body
matches (`Rule.parseAt_eq`). Only the bodies of arguments, options, parentheses and paths, and the
end of the input, can match without taking a character.
-/

set_option autoImplicit false
set_option relaxedAutoImplicit false

namespace DiagramMacros

namespace Rule

/-- Whether every match of a rule takes at least one character. -/
def takes : Rule → Bool
  | groupBody | optionsBody | parenBody | pathBody | endOfInput => false
  | _ => true

/-- The rank of a rule, above the ranks of the rules that it calls before a character is taken. -/
def rank : Rule → Nat
  | groupBody | optionsBody | parenBody | pathBody => 1
  | invocation _ | pathOperator | pathNode | cartesian | polar | mergeOperator | operand => 1
  | chain | linePair => 2
  | merge | intersection => 3
  | coordinateExpression => 4
  | _ => 0

/-- The ranking of the grammar of diagrams. -/
def ranking : Ranking diagramGrammar where
  takes := takes
  rank := rank
  rank_lt rule := by
    cases rule with
    | invocation k => cases k <;> decide
    | _ => decide
  consumes_body rule h := by
    cases rule with
    | invocation k => cases k <;> decide
    | groupBody | optionsBody | parenBody | pathBody | endOfInput => exact absurd h (by decide)
    | _ => decide
  guarded_body rule := by
    cases rule with
    | invocation k => cases k <;> decide
    | _ => decide

/-- A rule matches what its body matches, its calls matching their own bodies. -/
theorem parseAt_eq (rule : Rule) (spaced : Bool) (s : Text) :
    diagramGrammar.parseAt rule spaced s =
      (rule.body.read isGap diagramGrammar.parseAt (diagramGrammar.spacing rule spaced) s).map
        fun m ↦ (diagramGrammar.wrap rule m.1, m.2) :=
  Grammar.parseAt_eq ranking rule spaced s

end Rule

end DiagramMacros
