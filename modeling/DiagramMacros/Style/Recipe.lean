import DiagramMacros.Style.Preset
/-!
Recipes for styles: presets without repetition, in the order in which they were first asked for, and
properties given one by one. The style made from a recipe has the properties of the presets first
and then the given ones; a later value replaces an earlier one in its place.
-/

set_option autoImplicit false
set_option relaxedAutoImplicit false

namespace DiagramMacros

/-- What a style is made from. -/
structure Recipe where
  presets : List Preset := []
  explicit : List Entry := []

namespace Recipe

/-- Asks for a preset. -/
def addPreset (r : Recipe) (p : Preset) : Recipe :=
  if r.presets.contains p then r else { r with presets := r.presets ++ [p] }

/-- Gives a property. -/
def addEntry (r : Recipe) (e : Entry) : Recipe := { r with explicit := r.explicit ++ [e] }

/-- Takes an item of a style list: the name of a preset, or else a property, given how properties
are read. An item that is neither is dropped. -/
def addItem (read : Text → Option Entry) (r : Recipe) (item : Text) : Recipe :=
  match Preset.ofTitle? item with
  | some p => r.addPreset p
  | none => (read item).elim r r.addEntry

/-- Takes several items one after the other. -/
def addItems (read : Text → Option Entry) (r : Recipe) (items : List Text) : Recipe :=
  items.foldl (addItem read) r

/-- All properties in the order in which they count. -/
def entries (r : Recipe) : List Entry := r.presets.flatMap Preset.bundle ++ r.explicit

/-- The style made from a recipe. -/
def build (r : Recipe) : Style := ⟨Assoc.putAll [] r.entries⟩

end Recipe

end DiagramMacros
