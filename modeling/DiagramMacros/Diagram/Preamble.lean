import DiagramMacros.Style.Item
/-!
The document around a diagram. It declares every preset as a style of its own, so that the text
between the calls can use the presets as well.
-/

set_option autoImplicit false
set_option relaxedAutoImplicit false

namespace DiagramMacros.Preamble

/-- The packages, libraries and definitions that a diagram needs. -/
def imports : Text :=
  ("\\usepackage\x7bpgfplots,ifthen\x7d\n" ++
    "\\usetikzlibrary\x7barrows.meta,angles,quotes,positioning,calc,intersections," ++
    "decorations.markings,math,spy,matrix,patterns,shapes.geometric,shapes.misc\x7d\n" ++
    "\\pgfplotsset\x7bcompat=1.16\x7d\n\\def\\degree\x7b^\\circ\x7d\n").toList

/-- The declaration of a preset. -/
def declaration (p : Preset) : Text :=
  "  ".toList ++ p.title ++ "/.style=\x7b".toList ++ (Style.read [] (some p)).print ++
    "\x7d,\n".toList

/-- What comes before a diagram. -/
def opening : Text :=
  imports ++ "\\tikzset\x7b\n".toList ++ Preset.all.flatMap declaration ++
    "\x7d\n\\begin\x7bdocument\x7d\n\\begin\x7btikzpicture\x7d\n".toList

/-- What comes after a diagram. -/
def closing : Text := "\n\\end\x7btikzpicture\x7d\n\\end\x7bdocument\x7d".toList

/-- A diagram as a document. -/
def wrap (body : Text) : Text := opening ++ body ++ closing

end DiagramMacros.Preamble
