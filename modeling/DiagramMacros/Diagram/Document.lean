import DiagramMacros.Diagram.Lexeme
import DiagramMacros.Diagram.Preamble
import DiagramMacros.Diagram.Token
import DiagramMacros.Path.Scan
/-!
Documents made from sources. The calls are built in the order of the source, each in the scope of
the coordinates defined before it. When all are built, the mean of their points is the midpoint of
the diagram, and every token is annotated with it; without points there is no midpoint and nothing
to annotate.

The first failure ends the work. It is reported with the span of the call that failed, or of the
keyword where reading the source into lexemes failed.
-/

set_option autoImplicit false
set_option relaxedAutoImplicit false

namespace DiagramMacros

/-- The texts of the arguments of a call. -/
def argumentTexts (tree : Forest Rule) : List Text :=
  (tree.inside .argument).map (Forest.textOf .groupBody)

namespace Scope

/-- A labelled coordinate, and the scope with it. Its name may not be blank. -/
def buildLabelled (scope : Scope) (expression name label list : Text) :
    Except Failure (Token × Scope) :=
  let name := Text.trim name
  if name.isEmpty then .error (.malformedCall .coor)
  else do
    let p ← scope.resolve expression
    pure (.coordinate { NamedCoordinate.ofPoint p name with
      label := some ⟨Text.trim label, Style.read list none⟩ }, scope.define name p)

/-- A coordinate with options, and the scope with it. -/
def buildCoordinate (scope : Scope) (style : Style) (name expression : Text) :
    Except Failure (Token × Scope) := do
  let p ← scope.resolve expression
  pure (.coordinate { NamedCoordinate.ofPoint p name with style }, scope.define name p)

/-- A node at a point. -/
def buildNode (scope : Scope) (preset : Option Preset) (expression label list : Text) :
    Except Failure Token := do
  let p ← scope.resolve expression
  pure (.node ⟨p, label, Style.read list preset⟩)

/-- An arrow between two points. -/
def buildArrow (scope : Scope) (start stop label list : Text) : Except Failure Token := do
  let p ← scope.resolve start
  let q ← scope.resolve stop
  pure (.path (DrawnPath.arrow p q (Text.trim label) (Style.read list (some .vec))))

/-- A circle through three points. -/
def buildCircle (scope : Scope) (a b c list : Text) : Except Failure Token := do
  let a ← scope.resolve a
  let b ← scope.resolve b
  let c ← scope.resolve c
  let circle ← Circle.through a.position b.position c.position (Style.read list none)
  pure (.circle circle)

/-- The mark of an angle between three names, which have to be defined. -/
def buildAngle (scope : Scope) (a b c label list : Text) : Except Failure Token := do
  let _ ← scope.lookup (Text.trim a)
  let _ ← scope.lookup (Text.trim b)
  let _ ← scope.lookup (Text.trim c)
  pure (.angle ⟨Text.trim a, Text.trim b, Text.trim c, AngleMark.styleOf (Text.trim label) list⟩)

/-- The token of a call that defines nothing, given what is inside its node. -/
def buildFigure (scope : Scope) (keyword : Keyword) (tree : Forest Rule) : Except Failure Token :=
  match keyword, argumentTexts tree with
  | .node, [expression, label, list] => scope.buildNode none expression label list
  | .mass, [expression, label, list] => scope.buildNode (some .mass) expression label list
  | .vec, [start, stop, label, list] => scope.buildArrow start stop label list
  | .circle, [a, b, c, list] => scope.buildCircle a b c list
  | .pic, [a, b, c, label, list] => scope.buildAngle a b c label list
  | .xyaxis, [x, y] => .ok (.axes ⟨Text.trim x, Text.trim y⟩)
  | .grid, [list] => .ok (.grid ⟨Style.read list (some .helplines)⟩)
  | .draw, _ =>
    (DrawnPath.read (optionStyle tree) (tree.textOf .pathBody) scope).map .path
  | k, _ => .error (.malformedCall k)

/-- The token of a call, and the scope after it, given what is inside its node. -/
def build (scope : Scope) (keyword : Keyword) (tree : Forest Rule) :
    Except Failure (Token × Scope) :=
  match keyword, argumentTexts tree with
  | .coor, [expression, name, label, list] => scope.buildLabelled expression name label list
  | .coordinate, _ =>
    scope.buildCoordinate (optionStyle tree) (tree.textOf .coordinateName)
      (tree.textOf .parenBody)
  | k, _ => (scope.buildFigure k tree).map fun token ↦ (token, scope)

/-- The token of a lexeme, and the scope after it. -/
def buildLexeme (scope : Scope) : Lexeme → Except Failure (Token × Scope)
  | .raw text => .ok (.raw text, scope)
  | .call k (.node _ inside _) => scope.build k inside
  | .call k _ => .error (.malformedCall k)

end Scope

/-- A failure and the stretch of the source that it is about. -/
structure Report where
  failure : Failure
  span : Span
deriving DecidableEq

/-- Builds lexemes in order, and gives their tokens and the final scope. -/
def buildAll (scope : Scope) : List PlacedLexeme → Except Report (List Token × Scope)
  | [] => .ok ([], scope)
  | l :: ls =>
    match scope.buildLexeme l.lexeme with
    | .error failure => .error ⟨failure, l.span⟩
    | .ok (token, scope) => (buildAll scope ls).map fun r ↦ (token :: r.1, r.2)

/-- A source worked out: its tokens, the coordinates defined in it, the mean of its points, if it
has any, and their extent. -/
structure Document where
  tokens : List Token
  scope : Scope
  midpoint : Option (Point Float)
  extent : Extent Float

namespace Document

/-- The points of tokens in order. -/
def pointsOf (tokens : List Token) : List (Point Float) := tokens.flatMap Token.points

/-- Works out the midpoint and the extent, and annotates the tokens. -/
def finish (tokens : List Token) (scope : Scope) : Document :=
  let points := pointsOf tokens
  let midpoint := Point.mean? points
  { tokens := midpoint.elim tokens fun m ↦ tokens.map (Token.annotate m.position)
    scope
    midpoint
    extent := .ofPoints (points.map Point.position) }

/-- The document of a source. -/
def ofSource (source : Text) : Except Report Document :=
  match lexPlaced source with
  | .error e => .error ⟨.malformedCall e.keyword, e.span⟩
  | .ok lexemes => (buildAll {} lexemes).map fun r ↦ finish r.1 r.2

/-- The printed tokens. -/
def body (d : Document) : Text := d.tokens.flatMap (Token.print d.extent)

/-- The whole output, as a document of its own or only the diagram. -/
def output (d : Document) (standalone : Bool) : Text :=
  if standalone then Preamble.wrap d.body else d.body

end Document

end DiagramMacros
