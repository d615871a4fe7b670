import DiagramMacros.Path.Basic
import DiagramMacros.Scope
import DiagramMacros.Style.Item
/-!
Reading the body of a path. The body is a row of tokens with blanks between them: coordinates in
parentheses, operators, and nodes. It is read in passes. A pass goes over the blanks at the cursor
and takes the token after them; where there is no token it changes nothing, so that the passes left
change nothing either. A body that is not used up after `passLimit` passes is rejected at the byte
where the cursor stands then.

The points are found from the left with a pen. A relative operator waits for the next coordinate,
unless another operator comes first; the coordinate is then a step from the pen, which moves there
only if the operator says so. Any other coordinate stands for itself, and the pen moves there. The
first coordinate that cannot be resolved ends the reading.
-/

set_option autoImplicit false
set_option relaxedAutoImplicit false

namespace DiagramMacros

namespace PathOperator

/-- The operator that a rule of the grammar stands for. -/
def ofRule? : Rule → Option PathOperator
  | .lineTo => some line
  | .horizontalFirst => some horizontalFirst
  | .verticalFirst => some verticalFirst
  | .cycle => some cycle
  | .relativeLine => some relativeLine
  | .incrementalLine => some incrementalLine
  | _ => none

end PathOperator

/-- A piece of a path as it is written. -/
inductive PathToken
  | coordinate (expression : Text)
  | operator (operator : PathOperator)
  | node (node : InlineNode)

/-- The style in the options among the parts of a rule, empty without options. -/
def optionStyle (f : Forest Rule) : Style := Style.read (f.textIn .options .optionsBody) none

namespace PathToken

/-- The token at the start of a text and what follows it. -/
def read? (s : Text) : Option (PathToken × Text) :=
  match Rule.pathCoordinate.parseNode? s with
  | some (f, rest) => some (coordinate (f.textOf .parenBody), rest)
  | none =>
    match Rule.pathOperator.parseNode? s with
    | some (f, rest) =>
      (f.nodes.head?.bind fun n ↦ PathOperator.ofRule? n.1).map fun o ↦ (operator o, rest)
    | none =>
      (Rule.pathNode.parseNode? s).map fun r ↦
        (node ⟨r.1.textIn .argument .groupBody, optionStyle r.1⟩, r.2)

end PathToken

/-- Where the pen is, if it is anywhere, and the relative operator that waits for a coordinate. -/
structure Pen where
  position : Option (Point Float) := none
  pending : Option PathOperator := none

namespace Pen

/-- Resolves a coordinate and moves the pen. -/
def resolve (pen : Pen) (scope : Scope) (expression : Text) :
    Except Failure (Point Float × Pen) :=
  match pen.pending with
  | some o =>
    match pen.position with
    | none => .error .missingAnchor
    | some anchor => do
      let p ← scope.resolveFrom anchor expression
      pure (p, ⟨if o = .incrementalLine then some p else some anchor, none⟩)
  | none => do
    let p ← scope.resolve expression
    pure (p, ⟨some p, none⟩)

/-- The segment that a token stands for, and the pen after it. -/
def step (pen : Pen) (scope : Scope) : PathToken → Except Failure (Segment Float × Pen)
  | .coordinate expression => do
    let r ← pen.resolve scope expression
    pure (.point r.1, r.2)
  | .operator o => pure (.operator o, { pen with pending := if o.isRelative then some o else none })
  | .node n => pure (.node n, pen)

end Pen

/-- A path body under way: the byte where its reading goes on, the pen, and the segments so far. -/
structure PathScan where
  cursor : Nat := 0
  pen : Pen := {}
  segments : List (Segment Float) := []

namespace PathScan

/-- Moves the cursor over the blanks at it. -/
def skipBlanks (body : Text) (scan : PathScan) : PathScan :=
  let rest := body.dropBytes scan.cursor
  { scan with cursor := scan.cursor + (Text.size rest - Text.size (Text.trimStart rest)) }

/-- Takes the token at the cursor, and changes nothing where there is none. -/
def step (body : Text) (scope : Scope) (scan : PathScan) : Except Failure PathScan :=
  let rest := body.dropBytes scan.cursor
  match PathToken.read? rest with
  | none => pure scan
  | some (token, after) => do
    let r ← scan.pen.step scope token
    pure
      { cursor := scan.cursor + (Text.size rest - Text.size after)
        pen := r.2
        segments := scan.segments ++ [r.1] }

/-- Reads on for at most so many passes, and gives the segments of the whole body. -/
def run (body : Text) (scope : Scope) : Nat → PathScan → Except Failure (List (Segment Float))
  | 0, scan =>
    let scan := scan.skipBlanks body
    if Text.size body ≤ scan.cursor then pure scan.segments else .error (.stuckPath scan.cursor)
  | passes + 1, scan =>
    let scan := scan.skipBlanks body
    if Text.size body ≤ scan.cursor then pure scan.segments
    else do
      let scan ← scan.step body scope
      scan.run body scope passes

end PathScan

namespace DrawnPath

/-- How many passes there are over a path body. -/
def passLimit : Nat := 100

/-- Reads the body of a path. -/
def read (style : Style) (body : Text) (scope : Scope) : Except Failure (DrawnPath Float) := do
  let segments ← PathScan.run body scope passLimit {}
  pure ⟨style, segments⟩

end DrawnPath

end DiagramMacros
