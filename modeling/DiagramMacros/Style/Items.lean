import DiagramMacros.Text
/-!
Cutting a style list into items. A comma ends an item unless it stands in braces or in double
quotes. Braces in quotes do not count, quotes in braces do, and a closing brace with none open is
ignored. The items are trimmed, and empty ones are dropped.
-/

set_option autoImplicit false
set_option relaxedAutoImplicit false

namespace DiagramMacros.Items

/-- Where in a list one is: how many braces are open, and whether a quote is. -/
structure Position where
  depth : Nat := 0
  quoted : Bool := false
deriving DecidableEq

namespace Position

/-- Whether a comma here would end an item. -/
def isOpen (p : Position) : Bool := p.depth == 0 && !p.quoted

/-- The position after a character. -/
def step (p : Position) (c : Char) : Position :=
  if c = '\"' then { p with quoted := !p.quoted }
  else if p.quoted then p
  else if c = '{' then { p with depth := p.depth + 1 }
  else if c = '}' then { p with depth := p.depth - 1 }
  else p

/-- The position after a text. -/
def after (p : Position) (s : Text) : Position := s.foldl step p

end Position

/-- Cuts a text at the commas that end an item. There is always a last piece, perhaps empty. -/
def pieces (p : Position) : Text → List Text
  | [] => [[]]
  | c :: s =>
    if c = ',' ∧ p.isOpen then [] :: pieces p s
    else
      match pieces (p.step c) s with
      | [] => [[c]]
      | piece :: others => (c :: piece) :: others

/-- The items of a list. -/
def split (s : Text) : List Text := ((pieces {} s).map Text.trim).filter fun item ↦ !item.isEmpty

end DiagramMacros.Items
