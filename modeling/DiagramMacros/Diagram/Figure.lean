import DiagramMacros.Failure
import DiagramMacros.Geometry.Extent
import DiagramMacros.Geometry.Line
import DiagramMacros.Path.Placement
import DiagramMacros.Style.Item
/-!
The figures of a diagram other than paths, and how they are printed: named coordinates, nodes,
circles through three points, angle marks, axes and grids. Axes and grids are drawn around the
extent of the whole diagram.
-/

set_option autoImplicit false
set_option relaxedAutoImplicit false

namespace DiagramMacros

/-- The label of a coordinate. -/
structure Label where
  text : Text
  style : Style

/-- A coordinate with its name, and with a label if its call has one. -/
structure NamedCoordinate where
  point : Point Float
  name : Text
  label : Option Label := none
  style : Style := {}

namespace NamedCoordinate

/-- A coordinate whose point carries its name. -/
def ofPoint (point : Point Float) (name : Text) : NamedCoordinate :=
  { point := point.named name, name }

/-- Where a label goes, and the options left for it. A direction given as a bare flag is taken out
of the options. Any other placement stays among them and says it all; without one the label points
away from the midpoint. -/
def placeLabel (c : NamedCoordinate) (label : Label) : Option Text × Style :=
  match label.style.direction? with
  | some direction => (some direction, label.style.without direction)
  | none =>
    if label.style.hasPlacement then (none, label.style)
    else (c.point.quadrant.map Quadrant.outward, label.style)

/-- The printed label. -/
def printLabel (c : NamedCoordinate) (label : Label) : Text :=
  let (direction, options) := c.placeLabel label
  Braces.enclose ((if options.isEmpty then [] else options.inBrackets) ++
    (direction.elim [] fun d ↦ d ++ [':']) ++ label.text)

/-- The options of the coordinate, its label among them unless the label is empty. -/
def options (c : NamedCoordinate) : Style :=
  match c.label with
  | some label =>
    if label.text.isEmpty then c.style else c.style.put "label" (.text (c.printLabel label))
  | none => c.style

/-- The printed coordinate. -/
def print (c : NamedCoordinate) : Text :=
  let options := c.options
  "\\coordinate ".toList ++ (if options.isEmpty then [] else options.inBrackets ++ [' ']) ++
    '(' :: c.name ++ ") at ".toList ++ c.point.print ++ [';']

end NamedCoordinate

/-- A node at a point. -/
structure PlacedNode where
  point : Point Float
  label : Text
  style : Style

/-- The printed node. -/
def PlacedNode.print (n : PlacedNode) : Text :=
  "\\node ".toList ++ n.style.inBrackets ++ " at ".toList ++ n.point.print ++ ' ' ::
    Braces.enclose n.label ++ [';']

/-- A circle. -/
structure Circle where
  centre : Point Float
  radius : Float
  style : Style

namespace Circle

/-- The circle through three points, unless they lie on one line. -/
def through (a b c : Vec Float) (style : Style) : Except Failure Circle :=
  (Line.circumcircle Trigonometry.squareRoot a b c).map fun (centre, radius) ↦
    ⟨Point.ofVec centre, radius, style⟩

/-- The printed circle. -/
def print (c : Circle) : Text :=
  "\\draw ".toList ++ c.style.inBrackets ++ ' ' :: c.centre.print ++
    " circle [radius=".toList ++ Numeral.print c.radius ++ "];".toList

end Circle

/-- The mark of an angle between two named coordinates, seen from a third. -/
structure AngleMark where
  first : Text
  vertex : Text
  second : Text
  style : Style

namespace AngleMark

/-- The style of an angle mark: the preset for angles, the items of a list, and a quoted label
unless the label is empty. -/
def styleOf (label list : Text) : Style :=
  let recipe := (Recipe.addPreset {} .angle).addList list
  (if label.isEmpty then recipe
    else recipe.addEntry ("quotes".toList, .text ('\"' :: label ++ ['\"']))).build

/-- The printed mark. -/
def print (m : AngleMark) : Text :=
  "\\pic ".toList ++ m.style.inBrackets ++ ' ' ::
    Braces.enclose
      ("angle=".toList ++ m.first ++ "--".toList ++ m.vertex ++ "--".toList ++ m.second) ++ [';']

end AngleMark

/-- The labels of the two axes. -/
structure Axes where
  xLabel : Text
  yLabel : Text

namespace Axes

variable {K : Type} [Scalar K]

/-- An arrow with a label at its end, unless the label is empty. -/
def printArrow (ends : Vec K × Vec K) (placement label : Text) : Text :=
  "\\draw [->] ".toList ++ ends.1.print ++ "--".toList ++ ends.2.print ++
    (if label.isEmpty then []
      else " node [".toList ++ placement ++ "] ".toList ++ Braces.enclose label) ++ [';']

/-- The printed axes of a diagram with this extent. -/
def print (a : Axes) (extent : Extent K) : Text :=
  printArrow extent.horizontalAxis "right" a.xLabel ++ '\n' ::
    printArrow extent.verticalAxis "above" a.yLabel

end Axes

/-- Help lines over the whole diagram. -/
structure Grid where
  style : Style

/-- The printed grid of a diagram with this extent. -/
def Grid.print {K : Type} [Scalar K] (g : Grid) (extent : Extent K) : Text :=
  "\\draw ".toList ++ g.style.inBrackets ++ ' ' :: extent.gridFrame.min.print ++
    " grid ".toList ++ extent.gridFrame.max.print ++ [';']

end DiagramMacros
