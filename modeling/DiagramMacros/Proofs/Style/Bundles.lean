import DiagramMacros.Style.Item
/-!
The presets as they are written. Each preset is a style list of its own, and its properties are what
the items of that list are read as, one by one and none of them dropped (`Preset.read_written`).
Whether two values are the same can be decided, groups and all, so that the reading of the four
lists is a computation.
-/

set_option autoImplicit false
set_option relaxedAutoImplicit false

namespace DiagramMacros

/-! ### Equal values -/

namespace Value

mutual

/-- Whether two values are the same. -/
def isSame : Value → Value → Bool
  | .flag, .flag => true
  | .number x, .number y => decide (x = y)
  | .length x, .length y => decide (x = y)
  | .text s, .text t => decide (s = t)
  | .group entries, .group others => areSame entries others
  | _, _ => false

/-- Whether two properties are the same. -/
def isSameEntry : Text × Value → Text × Value → Bool
  | (key, value), (key', value') => decide (key = key') && isSame value value'

/-- Whether two lists of properties are the same. -/
def areSame : List (Text × Value) → List (Text × Value) → Bool
  | [], [] => true
  | entry :: entries, other :: others => isSameEntry entry other && areSame entries others
  | _, _ => false

end

mutual

theorem isSame_iff (v w : Value) : isSame v w ↔ v = w := by
  -- Two groups are the only pair of values that has to be looked into.
  cases v <;> cases w <;> simp [isSame]
  case group.group entries others => exact areSame_iff entries others

theorem isSameEntry_iff (entry other : Text × Value) : isSameEntry entry other ↔ entry = other := by
  obtain ⟨key, value⟩ := entry
  obtain ⟨key', value'⟩ := other
  simp [isSameEntry, isSame_iff value value']

theorem areSame_iff (entries others : List (Text × Value)) :
    areSame entries others ↔ entries = others := by
  cases entries with
  | nil => cases others <;> simp [areSame]
  | cons entry entries =>
    cases others with
    | nil => simp [areSame]
    | cons other others =>
      simp [areSame, isSameEntry_iff entry other, areSame_iff entries others]

end

instance : DecidableEq Value := fun v w ↦ decidable_of_iff _ (isSame_iff v w)

end Value

/-! ### The lists of the presets -/

namespace Preset

/-- How the properties of a preset are written. -/
def written : Preset → Text
  | mass => "fill=yellow!60, draw, minimum width=1cm, minimum height=1cm"
  | vec => "line width=1pt, ->"
  | helplines => "gray!50, line width=0.2pt"
  | angle =>
    ("fill=black!50, opacity=0.5, text opacity=0.9, draw=orange, <->, " ++
      "angle eccentricity=1.6, angle radius=0.5cm, text=orange, font=\\large").toList

/-- The items of the list of a preset are read as its properties, in order. -/
theorem read_written (p : Preset) :
    (Items.split p.written).map Item.read? = p.bundle.map some := by
  cases p <;> decide +kernel

end Preset

end DiagramMacros
