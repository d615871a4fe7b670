import DiagramMacros.Keyword
import DiagramMacros.Number.Numeral
/-!
What can go wrong with a diagram, by cause. Each cause has a message, a code by which tools tell the
causes apart, and for some a hint at a remedy.
-/

set_option autoImplicit false
set_option relaxedAutoImplicit false

namespace DiagramMacros

/-- The causes for which a diagram is rejected. -/
inductive Failure
  /-- a call lacks an argument, or an argument is no good -/
  | malformedCall (keyword : Keyword)
  /-- a name is used before any definition of it -/
  | unknownCoordinate (name : Text)
  /-- a component of a coordinate is no finite number -/
  | invalidNumber (written : Text)
  /-- a text is no coordinate expression -/
  | unreadable (expression : Text)
  /-- two lines that should cross are parallel -/
  | parallelLines
  /-- a path could not be read from this byte of its body on -/
  | stuckPath (offset : Nat)
  /-- a relative coordinate comes before any point -/
  | missingAnchor
deriving DecidableEq

namespace Failure

/-- The message for the author of the diagram. -/
def message : Failure → Text
  | malformedCall keyword => "malformed `\\".toList ++ keyword.word ++ "` macro".toList
  | unknownCoordinate name => "unknown coordinate `".toList ++ name ++ "`".toList
  | invalidNumber written => "invalid number `".toList ++ written ++ "` in coordinate".toList
  | unreadable expression =>
    "cannot parse coordinate expression `".toList ++ expression ++ "`".toList
  | parallelLines => "lines are parallel and never intersect"
  | stuckPath offset =>
    "path scan made no progress past byte ".toList ++ Numeral.digitsOf offset ++
      " of the path body".toList
  | missingAnchor => "relative coordinate has no preceding point"

/-- The code that names the cause. -/
def code : Failure → Text
  | malformedCall _ => "tikzmac::lex::malformed_macro"
  | unknownCoordinate _ => "tikzmac::resolve::unknown_coordinate"
  | invalidNumber _ => "tikzmac::resolve::invalid_number"
  | unreadable _ => "tikzmac::resolve::syntax"
  | parallelLines => "tikzmac::geometry::parallel_lines"
  | stuckPath _ => "tikzmac::path::scan_limit"
  | missingAnchor => "tikzmac::path::missing_anchor"

/-- A hint at what to mend. -/
def help? : Failure → Option Text
  | malformedCall _ =>
    some "check that every argument group is present and its braces are balanced".toList
  | unknownCoordinate _ => some "coordinates must be defined before they are referenced".toList
  | stuckPath _ =>
    some ("paths may only contain coordinates, `--`, `-|`, `|-`, `cycle`, `--+`, `--++` and " ++
      "`node`").toList
  | _ => none

end Failure

end DiagramMacros
