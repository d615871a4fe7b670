import DiagramMacros.Geometry.Point
import DiagramMacros.Style.Basic
/-!
Drawn paths. A path is a list of segments: points, operators between them, and nodes placed by the
path itself. A relative operator says how its point was found; the path is printed with absolute
points, so such an operator is printed as a plain line.
-/

set_option autoImplicit false
set_option relaxedAutoImplicit false

namespace DiagramMacros

/-- What joins the points of a path. -/
inductive PathOperator
  | line
  | horizontalFirst
  | verticalFirst
  | cycle
  /-- a line to a point given as a step from the pen, which stays where it is -/
  | relativeLine
  /-- a line to a point given as a step from the pen, which moves there -/
  | incrementalLine
deriving DecidableEq

namespace PathOperator

/-- How an operator is written. -/
def written : PathOperator → Text
  | line => "--"
  | horizontalFirst => "-|"
  | verticalFirst => "|-"
  | cycle => "cycle"
  | relativeLine => "--+"
  | incrementalLine => "--++"

/-- Whether the next point is a step from the pen. -/
def isRelative : PathOperator → Bool
  | relativeLine | incrementalLine => true
  | _ => false

/-- How an operator is printed. -/
def print (o : PathOperator) : Text := if o.isRelative then written line else o.written

end PathOperator

/-- A node in a path. -/
structure InlineNode where
  label : Text
  style : Style

namespace InlineNode

/-- The printed node. -/
def print (n : InlineNode) : Text :=
  "node ".toList ++ n.style.inBrackets ++ ' ' :: Braces.enclose n.label

end InlineNode

/-- A piece of a path. -/
inductive Segment (K : Type)
  | point (point : Point K)
  | operator (operator : PathOperator)
  | node (node : InlineNode)

namespace Segment

variable {K : Type}

def point? : Segment K → Option (Point K)
  | point p => some p
  | _ => none

def node? : Segment K → Option InlineNode
  | node n => some n
  | _ => none

def isCycle : Segment K → Bool
  | operator .cycle => true
  | _ => false

/-- The printed segment. A node has a space on both sides. -/
def print [Scalar K] : Segment K → Text
  | point p => p.print
  | operator o => o.print
  | node n => ' ' :: n.print ++ [' ']

end Segment

/-- A path with its style. -/
structure DrawnPath (K : Type) where
  style : Style
  segments : List (Segment K)

namespace DrawnPath

variable {K : Type}

/-- The points of the path in order. -/
def points (d : DrawnPath K) : List (Point K) := d.segments.filterMap Segment.point?

/-- The nodes of the path in order. -/
def nodes (d : DrawnPath K) : List InlineNode := d.segments.filterMap Segment.node?

/-- Whether the path returns to its start somewhere. -/
def isClosed (d : DrawnPath K) : Bool := d.segments.any Segment.isCycle

/-- The straight arrow from one point to another, with a label unless the label is empty. -/
def arrow (start stop : Point K) (label : Text) (style : Style) : DrawnPath K :=
  ⟨style, [.point start, .operator .line] ++
    (if label.isEmpty then [] else [.node ⟨label, {}⟩]) ++ [.point stop]⟩

/-- The printed segments without blanks at the ends. -/
def printBody [Scalar K] (d : DrawnPath K) : Text :=
  Text.trim (d.segments.flatMap Segment.print)

/-- The printed path. -/
def print [Scalar K] (d : DrawnPath K) : Text :=
  "\\draw ".toList ++ d.style.inBrackets ++ ' ' :: d.printBody ++ [';']

end DrawnPath

end DiagramMacros
