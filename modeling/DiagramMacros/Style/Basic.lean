import DiagramMacros.Assoc
import DiagramMacros.Braces
import DiagramMacros.Number.Numeral
/-!
Styles: ordered properties of a part of a diagram, such as its colour, its line width or the side on
which its label goes. A property is a bare flag, a number, a length in points, a text, or a style of
its own.

A style is printed as a list of its properties. For four of the keys only the value is printed,
because the value tells which property it is.
-/

set_option autoImplicit false
set_option relaxedAutoImplicit false

namespace DiagramMacros

/-- The value of a property. -/
inductive Value
  | flag
  | number (value : Float)
  | length (points : Float)
  | text (text : Text)
  | group (entries : List (Text × Value))

/-- A property: its key and its value. -/
abbrev Entry := Text × Value

/-- The properties of a part of a diagram, in order. -/
structure Style where
  entries : List Entry := []

namespace Value

/-- Whether a value is a bare flag. -/
def isFlag : Value → Bool
  | flag => true
  | _ => false

end Value

namespace Style

/-- The keys whose text is printed without the key. -/
def bareKeys : List Text := ["arrows".toList, "color".toList, "line style".toList, "quotes".toList]

mutual

/-- How a value is printed under its key. -/
def printValue (key : Text) : Value → Text
  | .flag => key
  | .number x => key ++ '=' :: Numeral.print x
  | .length x => key ++ '=' :: Numeral.print x ++ "pt".toList
  | .text t => if bareKeys.contains key then t else key ++ '=' :: t
  | .group entries => key ++ '=' :: Braces.enclose (Text.join ", " (printEntries entries))

/-- How a property is printed. -/
def printEntry : Text × Value → Text
  | (key, value) => printValue key value

/-- How properties are printed, one by one. -/
def printEntries : List (Text × Value) → List Text
  | [] => []
  | entry :: entries => printEntry entry :: printEntries entries

end

/-- The printed list of the properties. -/
def print (style : Style) : Text := Text.join ", " (printEntries style.entries)

/-- The printed list in brackets. -/
def inBrackets (style : Style) : Text := '[' :: style.print ++ [']']

theorem printEntries_eq_map (entries : List Entry) :
    printEntries entries = entries.map printEntry := by
  induction entries with
  | nil => rfl
  | cons entry entries ih => rw [printEntries, ih, List.map_cons]

def isEmpty (style : Style) : Bool := style.entries.isEmpty

/-- The value of a key. -/
def get? (style : Style) (key : Text) : Option Value := Assoc.get? style.entries key

/-- Whether a key has a value. -/
def contains (style : Style) (key : Text) : Bool := Assoc.contains style.entries key

/-- The style with a value for a key. -/
def put (style : Style) (key : Text) (value : Value) : Style :=
  ⟨Assoc.put style.entries key value⟩

/-- The style without a key. -/
def without (style : Style) (key : Text) : Style := ⟨Assoc.erase style.entries key⟩

/-- The sides on which a label may be placed, the diagonal ones first. -/
def directions : List Text :=
  ["above right".toList, "above left".toList, "below right".toList, "below left".toList,
    "above".toList, "below".toList, "left".toList, "right".toList]

/-- The keys that say where a label goes. -/
def placementKeys : List Text := directions ++ ["anchor".toList]

/-- Whether the style says where a label goes. -/
def hasPlacement (style : Style) : Bool := placementKeys.any style.contains

/-- The first direction that the style has as a bare flag. -/
def direction? (style : Style) : Option Text :=
  directions.find? fun key ↦ (style.get? key).any Value.isFlag

end Style

end DiagramMacros
