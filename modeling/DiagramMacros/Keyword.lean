import DiagramMacros.Text
/-!
The keywords of the calls in a diagram. They are tried in the order of `all`. A call that begins
with `\coor` or `\draw` as a whole control word is meant for this program, so a malformed one is an
error; the other words also occur in ordinary text, which is left alone where it is no call.
-/

set_option autoImplicit false
set_option relaxedAutoImplicit false

namespace DiagramMacros

/-- The word after the backslash of a call. -/
inductive Keyword
  | coordinate
  | coor
  | node
  | draw
  | circle
  | mass
  | vec
  | pic
  | xyaxis
  | grid
deriving DecidableEq

namespace Keyword

/-- All keywords in the order in which calls are tried. -/
def all : List Keyword := [coordinate, coor, node, draw, circle, mass, vec, pic, xyaxis, grid]

theorem mem_all (k : Keyword) : k ∈ all := by cases k <;> decide

def word : Keyword → Text
  | coordinate => "coordinate"
  | coor => "coor"
  | node => "node"
  | draw => "draw"
  | circle => "circle"
  | mass => "mass"
  | vec => "vec"
  | pic => "pic"
  | xyaxis => "xyaxis"
  | grid => "grid"

/-- Whether a call with this keyword that does not match its form is an error. -/
def isReserved : Keyword → Bool
  | coor | draw => true
  | _ => false

/-- The keyword that is the whole control word at the start of a text, looked for in this order. -/
def atStartIn (order : List Keyword) : Text → Option Keyword
  | '\\' :: s => order.find? fun k ↦ k.word == s.takeWhile isLetter
  | _ => none

/-- The keyword that is the whole control word at the start of a text. -/
def atStart? (s : Text) : Option Keyword := atStartIn all s

end Keyword

end DiagramMacros
