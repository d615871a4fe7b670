import DiagramMacros.Style.Items
import DiagramMacros.Style.Recipe
/-!
Reading an item of a style list as a property. The forms are tried in this order: a group of items
in braces, a number or length, arrow tips, a quoted text, a line style, a colour, any other
assignment, and a flag. An item of no form is no property.

Lengths in centimetres and millimetres are kept in points. A group is read only if every item in it
is a property; otherwise its text is kept as it is.
-/

set_option autoImplicit false
set_option relaxedAutoImplicit false

namespace DiagramMacros.Item

/-- The line styles. -/
def lineStyles : List Text :=
  ["solid".toList, "dashed".toList, "dotted".toList, "dashdotted".toList, "dash dot".toList,
    "densely dashed".toList, "densely dotted".toList, "densely dashdotted".toList,
    "loosely dashed".toList, "loosely dotted".toList, "loosely dashdotted".toList]

/-- The colours that are known by name. -/
def colors : List Text :=
  ["red".toList, "green".toList, "blue".toList, "cyan".toList, "magenta".toList, "yellow".toList,
    "black".toList, "gray".toList, "white".toList, "darkgray".toList, "lightgray".toList,
    "brown".toList, "lime".toList, "olive".toList, "orange".toList, "pink".toList,
    "purple".toList, "teal".toList, "violet".toList]

/-- The key and the value around the first equals sign, neither of them blank. -/
def assignment? (item : Text) : Option (Text × Text) :=
  match Text.cut? '=' item with
  | some (key, value) =>
    let key := Text.trim key
    let value := Text.trim value
    if key = [] ∨ value = [] then none else some (key, value)
  | none => none

/-- What stands between an opening brace at the start and a closing brace at the end. -/
def braced? (s : Text) : Option Text := (Text.after? ['{'] s).bind (Text.before? ['}'])

/-- A group of properties in braces, given how its items are read. -/
def group? (read : Text → Option Entry) (item : Text) : Option Entry :=
  match assignment? item with
  | none => none
  | some (key, value) =>
    match braced? value with
    | none => none
    | some body =>
      let items := Items.split body
      if Braces.isBalanced body ∧ items ≠ [] ∧ items.all (fun i ↦ (read i).isSome) then
        some (key, .group (Recipe.addItems read {} items).build.entries)
      else none

/-- A number and its unit in points, if it has a unit. -/
def unit (s : Text) : Text × Option Float :=
  match Text.before? "cm" s with
  | some digits => (digits, some pointsPerCentimetre)
  | none =>
    match Text.before? "mm" s with
    | some digits => (digits, some pointsPerMillimetre)
    | none =>
      match Text.before? "pt" s with
      | some digits => (digits, some 1)
      | none => (s, none)

/-- Reads a finite number, or a length if it has a unit. -/
def readLength? (s : Text) : Option Value :=
  let (digits, scale) := unit (Text.trim s)
  let digits := Text.trim digits
  if Text.startsWith (fun c ↦ isDigit c || c == '.' || c == '-' || c == '+') digits then
    match (Numeral.read? digits).map Numeral.toScalar with
    | some (x : Float) =>
      if Scalar.isFinite x then
        some (match scale with
          | some points => .length (x * points)
          | none => .number x)
      else none
    | none => none
  else none

/-- An assignment of a number or a length. -/
def numeric? (item : Text) : Option Entry :=
  match assignment? item with
  | some (key, value) => (readLength? value).map fun v ↦ (key, v)
  | none => none

/-- Whether a text may stand at one end of an arrow: nothing, a tip in braces, or the name of a tip,
which may have primes. -/
def isTip (s : Text) : Bool :=
  s.isEmpty || (Text.startsWith (· == '{') s && Text.endsWith (· == '}') s) ||
    (Text.startsWith isLetter s && s.all fun c ↦ isLetter c || c == '\'')

/-- Arrow tips at the two ends of a dash. -/
def arrows? (item : Text) : Option Entry :=
  let entry : Entry := ("arrows".toList, .text item)
  let signs : Text := ['<', '>', '|', '-']
  if item.contains '=' ∨ item.contains ' ' then none
  else
    match Text.cut? '-' item with
    | none => none
    | some (tail, head) =>
      if 1 < item.length ∧ item.all signs.contains then some entry
      else if isTip tail ∧ isTip head ∧ ¬(tail = [] ∧ head = []) then some entry
      else none

/-- A text in double quotes. -/
def quotes? (item : Text) : Option Entry :=
  if 2 ≤ item.length ∧ Text.startsWith (· == '\"') item ∧ Text.endsWith (· == '\"') item then
    some ("quotes".toList, .text item)
  else none

/-- The name of a line style. -/
def lineStyle? (item : Text) : Option Entry :=
  let style := Text.collapse item
  if lineStyles.contains style then some ("line style".toList, .text style) else none

/-- Whether a text is a number from 0 to 100. -/
def isPercentage (s : Text) : Bool :=
  match (Numeral.read? s).map Numeral.toScalar with
  | some (x : Float) => Scalar.le (Scalar.ofInt 0) x && Scalar.le x (Scalar.ofInt 100)
  | none => false

/-- Whether percentages and colours take turns, starting with a percentage. -/
def isMix (isColor : Text → Bool) : List Text → Bool
  | [] => true
  | [share] => isPercentage share
  | share :: color :: others => isPercentage share && isColor color && isMix isColor others

/-- A colour, or a mix of colours, in which any word of letters may name a colour. -/
def color? (item : Text) : Option Entry :=
  let mixed := item.contains '!'
  let isColor (name : Text) : Bool :=
    colors.contains name || (mixed && !name.isEmpty && name.all isLetter)
  match Text.splitOn '!' item with
  | [] => none
  | base :: others =>
    if isColor base ∧ isMix isColor others then some ("color".toList, .text item) else none

/-- An assignment of a text to a key, whose words are written with one space between them. -/
def assign? (item : Text) : Option Entry :=
  (assignment? item).map fun parts ↦ (Text.collapse parts.1, .text parts.2)

/-- A flag of words of letters. -/
def flag? (item : Text) : Option Entry :=
  if Text.startsWith isLetter item ∧ item.all (fun c ↦ isLetter c || c == ' ') then
    some (Text.collapse item, .flag)
  else none

/-- Reads an item, given how the items in a group are read. -/
def readWith (inner : Text → Option Entry) (item : Text) : Option Entry :=
  [group? inner, numeric?, arrows?, quotes?, lineStyle?, color?, assign?, flag?].findSome?
    fun form ↦ form item

/-- Reads an item with at most so many groups nested in each other. -/
def readWithin : Nat → Text → Option Entry
  | 0, _ => none
  | depth + 1, item => readWith (readWithin depth) item

/-- Reads an item. The items of a group are shorter than the group, so the length of the item bounds
how deep groups can be nested. -/
def read? (item : Text) : Option Entry := readWithin (item.length + 1) item

end Item

namespace Recipe

/-- Takes the items of a style list. -/
def addList (r : Recipe) (list : Text) : Recipe := r.addItems Item.read? (Items.split list)

end Recipe

namespace Style

/-- Reads a style list, with a preset to start from if one is given. -/
def read (list : Text) (preset : Option Preset) : Style :=
  (Recipe.addList (preset.elim {} (Recipe.addPreset {})) list).build

end Style

end DiagramMacros
