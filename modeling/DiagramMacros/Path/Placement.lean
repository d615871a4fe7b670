import DiagramMacros.Geometry.Line
import DiagramMacros.Path.Basic
/-!
Placing the nodes of a path. A node without an explicit placement goes by the points before and
after it. If the line between them is neither level nor upright, the node is sloped. If both points
are on the same side of the midpoint, the node goes to that side: above or below, right or left, or
both.

On a closed path the last point of the path comes before its first point. A path with a single point
gives no direction. The rule does not tell the two ends of a path apart, since `neighbours` takes
the segments on both sides of a node from the node outwards.
-/

set_option autoImplicit false
set_option relaxedAutoImplicit false

namespace DiagramMacros

/-- What the points around a node say about it: whether it is sloped, and where it goes. -/
structure Placement where
  sloped : Bool
  side : Option Text
deriving DecidableEq

namespace Placement

/-- One of two words if both sides agree. -/
def agreed (first second : Bool) (yes no : Text) : Option Text :=
  if first && second then some yes else if !first && !second then some no else none

/-- The side on which both of two quadrants lie. -/
def sideOf (p q : Quadrant) : Option Text :=
  match agreed p.isUpper q.isUpper "above" "below", agreed p.isRight q.isRight "right" "left" with
  | some v, some h => some (v ++ ' ' :: h)
  | some v, none => some v
  | none, h => h

/-- The placement of a node between two points. Points without a quadrant are on no side. -/
def between {K : Type} [Scalar K] (p q : Point K) : Placement :=
  let m := Line.slope p.position q.position
  { sloped := Scalar.isFinite m && !Scalar.eq m (Scalar.ofInt 0)
    side :=
      match p.quadrant, q.quadrant with
      | some a, some b => sideOf a b
      | _, _ => none }

/-- The style with the flags of a placement. -/
def apply (placement : Placement) (style : Style) : Style :=
  let style := if placement.sloped then style.put "sloped" .flag else style
  placement.side.elim style fun side ↦ style.put side .flag

end Placement

namespace DrawnPath

variable {K : Type}

/-- The points next to a node, given the segments before it and after it, each from the node
outwards. They have to be in different places of the path. They are in one place only on a closed
path that has no other point, where that point is the next one on both sides. So the places need not
be compared: it is enough to rule out paths with a single point. -/
def neighbours (closed : Bool) (before after : List (Segment K)) : Option (Point K × Point K) :=
  let before := before.filterMap Segment.point?
  let after := after.filterMap Segment.point?
  if before.length + after.length = 1 then none
  else
    match before.head?.or (if closed then after.getLast? else none),
      after.head?.or (if closed then before.getLast? else none) with
    | some p, some q => some (p, q)
    | _, _ => none

/-- A segment with its placement, if it is a node that has none. -/
def placeSegment [Scalar K] (closed : Bool) (before after : List (Segment K)) :
    Segment K → Segment K
  | .node n =>
    if n.style.hasPlacement then .node n
    else
      match neighbours closed before after with
      | some (p, q) => .node { n with style := (Placement.between p q).apply n.style }
      | none => .node n
  | s => s

/-- Places the nodes among some segments, given those before them in reverse. -/
def placeFrom [Scalar K] (closed : Bool) (before : List (Segment K)) :
    List (Segment K) → List (Segment K)
  | [] => []
  | s :: after => placeSegment closed before after s :: placeFrom closed (s :: before) after

/-- Places the nodes of a path. -/
def placeLabels [Scalar K] (d : DrawnPath K) : DrawnPath K :=
  { d with segments := placeFrom d.isClosed [] d.segments }

/-- A segment with its quadrant, if it is a point. -/
def classifySegment [Scalar K] (midpoint : Vec K) : Segment K → Segment K
  | .point p => .point (p.classify midpoint)
  | s => s

/-- Gives the points their quadrants around a midpoint, and places the nodes. -/
def annotate [Scalar K] (d : DrawnPath K) (midpoint : Vec K) : DrawnPath K :=
  placeLabels { d with segments := d.segments.map (classifySegment midpoint) }

end DrawnPath

end DiagramMacros
