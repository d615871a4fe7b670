import DiagramMacros.Diagram.Figure
/-!
The tokens of a diagram: the figures that its calls stand for, and the text between them, which is
printed as it is. A token has points, which take part in the midpoint and the extent of the diagram,
and can be annotated with a midpoint: its points get their quadrants, and the nodes of a path are
placed.
-/

set_option autoImplicit false
set_option relaxedAutoImplicit false

namespace DiagramMacros

/-- A figure, or text between figures. -/
inductive Token
  | raw (text : Text)
  | coordinate (coordinate : NamedCoordinate)
  | node (node : PlacedNode)
  | path (path : DrawnPath Float)
  | circle (circle : Circle)
  | angle (mark : AngleMark)
  | axes (axes : Axes)
  | grid (grid : Grid)

namespace Token

/-- The points of a token in order. -/
def points : Token → List (Point Float)
  | coordinate c => [c.point]
  | node n => [n.point]
  | path d => d.points
  | circle c => [c.centre]
  | raw _ | angle _ | axes _ | grid _ => []

/-- The token seen from a midpoint. -/
def annotate (midpoint : Vec Float) : Token → Token
  | coordinate c => coordinate { c with point := c.point.classify midpoint }
  | node n => node { n with point := n.point.classify midpoint }
  | path d => path (d.annotate midpoint)
  | circle c => circle { c with centre := c.centre.classify midpoint }
  | token => token

/-- The printed token in a diagram of some extent. -/
def print (extent : Extent Float) : Token → Text
  | raw text => text
  | coordinate c => c.print
  | node n => n.print
  | path d => d.print
  | circle c => c.print
  | angle m => m.print
  | axes a => a.print extent
  | grid g => g.print extent

end Token

end DiagramMacros
