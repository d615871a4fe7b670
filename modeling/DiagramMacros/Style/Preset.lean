import DiagramMacros.Style.Basic
/-!
Presets: named bundles of properties that a style list may ask for by name.
-/

set_option autoImplicit false
set_option relaxedAutoImplicit false

namespace DiagramMacros

/-- Points per centimetre. -/
def pointsPerCentimetre : Float := 28.346

/-- Points per millimetre. -/
def pointsPerMillimetre : Float := 2.8346

/-- A named bundle of properties. -/
inductive Preset
  | mass
  | vec
  | helplines
  | angle
deriving DecidableEq

namespace Preset

def all : List Preset := [mass, vec, helplines, angle]

def title : Preset → Text
  | mass => "mass"
  | vec => "vec"
  | helplines => "helplines"
  | angle => "ang"

/-- The preset with a name. -/
def ofTitle? (title : Text) : Option Preset := all.find? fun p ↦ p.title == title

/-- The properties of a preset, which are those that the items of its style list are read as. The
list of `vec`, for one, is `line width=1pt, ->`. -/
def bundle : Preset → List Entry
  | mass =>
    [("fill".toList, .text "yellow!60".toList), ("draw".toList, .flag),
      ("minimum width".toList, .length pointsPerCentimetre),
      ("minimum height".toList, .length pointsPerCentimetre)]
  | vec => [("line width".toList, .length 1), ("arrows".toList, .text "->".toList)]
  | helplines => [("color".toList, .text "gray!50".toList), ("line width".toList, .length 0.2)]
  | angle =>
    [("fill".toList, .text "black!50".toList), ("opacity".toList, .number 0.5),
      ("text opacity".toList, .number 0.9), ("draw".toList, .text "orange".toList),
      ("arrows".toList, .text "<->".toList), ("angle eccentricity".toList, .number 1.6),
      ("angle radius".toList, .length (0.5 * pointsPerCentimetre)),
      ("text".toList, .text "orange".toList), ("font".toList, .text "\\large".toList)]

end Preset

end DiagramMacros
