import DiagramMacros.Path.Placement
import DiagramMacros.Proofs.Overriding
/-!
The flags that placing gives to the style of a node. A style that says itself where its node goes has
an entry for one of the eight sides or for an anchor (`Style.hasPlacement_iff`). Any other style
gains the flag `sloped` if the placement says so, and behind all its entries the flag of a side if
the placement has one (`Placement.marks_between_iff`). All other entries stay where they are, and
flags that are put again change nothing (`Placement.apply_apply`).

The placement itself is that of two points. It goes by the slope between them, and by the sides of
the midpoint that both of them are on (`Placement.isBetween_between`).
-/

set_option autoImplicit false
set_option relaxedAutoImplicit false

namespace DiagramMacros

namespace Style

variable {style before after : Style} {key : Text}

/-! ### Styles with a placement -/

/-- A style that says where its label goes: it has an entry for a side or for an anchor. -/
def IsExplicit (style : Style) : Prop :=
  ∃ entry ∈ style.entries, entry.1 ∈
    ["above right".toList, "above left".toList, "below right".toList, "below left".toList,
      "above".toList, "below".toList, "left".toList, "right".toList, "anchor".toList]

theorem hasPlacement_iff : style.hasPlacement ↔ style.IsExplicit := by
  rw [hasPlacement, List.any_eq_true]
  constructor
  · rintro ⟨key, hkey, hcontains⟩
    obtain ⟨entry, hentry, rfl⟩ := List.mem_map.1 (Assoc.contains_iff.1 hcontains)
    exact ⟨entry, hentry, hkey⟩
  · rintro ⟨entry, hentry, hkey⟩
    exact ⟨entry.1, hkey, Assoc.contains_iff.2 (List.mem_map.2 ⟨entry, hentry, rfl⟩)⟩

theorem notMem_keys_of_not_isExplicit (h : ¬ style.IsExplicit) {side : Text}
    (hside : side ∈ directions) : side ∉ Assoc.keys style.entries := by
  intro hkey
  obtain ⟨entry, hentry, rfl⟩ := List.mem_map.1 hkey
  exact h ⟨entry, hentry, List.mem_append_left _ hside⟩

/-! ### One more flag -/

/-- A style with one more flag: in the place of the entry under its key, or after all entries. -/
inductive GainsFlag (key : Text) : Style → Style → Prop
  | replaced (before after : List Entry) (old : Value) (h : key ∉ Assoc.keys before) :
    GainsFlag key ⟨before ++ (key, old) :: after⟩ ⟨before ++ (key, .flag) :: after⟩
  | added (entries : List Entry) (h : key ∉ Assoc.keys entries) :
    GainsFlag key ⟨entries⟩ ⟨entries ++ [(key, .flag)]⟩

theorem gainsFlag_iff : before.GainsFlag key after ↔ after = before.put key .flag := by
  constructor
  · rintro (⟨left, right, old, h⟩ | ⟨entries, h⟩)
    · rw [put, Assoc.put_append_cons h]
    · rw [put, Assoc.put_of_notMem h]
  · rintro rfl
    obtain ⟨entries⟩ := before
    by_cases h : key ∈ Assoc.keys entries
    · obtain ⟨_, _, hkeys, hleft⟩ := List.eq_append_cons_of_mem h
      obtain ⟨left, _, rfl, rfl, hrest⟩ := List.map_eq_append_iff.1 hkeys
      obtain ⟨⟨_, old⟩, right, rfl, rfl, _⟩ := List.map_eq_cons_iff.1 hrest
      rw [put, Assoc.put_append_cons hleft]
      exact .replaced left right old hleft
    · rw [put, Assoc.put_of_notMem h]
      exact .added entries h

theorem GainsFlag.notMem_keys {other : Text} (h : before.GainsFlag key after)
    (hother : other ∉ Assoc.keys before.entries) (hne : other ≠ key) :
    other ∉ Assoc.keys after.entries := by
  cases h with
  | replaced => simpa [Assoc.keys] using hother
  | added => simpa [Assoc.keys, hne] using hother

theorem put_of_get? {value : Value} (h : style.get? key = some value) :
    style.put key value = style :=
  congrArg Style.mk (Assoc.put_of_get? h)

theorem get?_put_self (style : Style) (key : Text) (value : Value) :
    (style.put key value).get? key = some value := Assoc.get?_put_self ..

theorem get?_put_flag (h : style.get? key = some .flag) (other : Text) :
    (style.put other .flag).get? key = some .flag := by
  by_cases hkey : key = other
  · rw [hkey, get?_put_self]
  · exact (Assoc.get?_put_of_ne _ _ hkey).trans h

end Style

namespace Quadrant

/-- The sides of the midpoint that a quadrant is on. -/
def sides : Quadrant → List Text
  | upperRight => ["above", "right"]
  | upperLeft => ["above", "left"]
  | lowerLeft => ["below", "left"]
  | lowerRight => ["below", "right"]

/-- The sides of the midpoint that two quadrants are both on. -/
def sharedSides (a b : Quadrant) : List Text := a.sides.filter b.sides.contains

end Quadrant

namespace Placement

variable {placement : Placement} {before after : Style}

/-! ### The flags of a placement -/

/-- What a placement makes of a style. The style gains the flag `sloped` just if the placement says
so, and behind all entries stands the flag of the side, if there is one. -/
def Marks (placement : Placement) (before after : Style) : Prop :=
  ∃ sloped : Style,
    (if placement.sloped then before.GainsFlag "sloped" sloped else sloped = before) ∧
      after.entries = sloped.entries ++ placement.side.toList.map fun side ↦ (side, .flag)

/-- Where the style has no entry for the side, putting the flags is adding them. -/
theorem marks_iff (hsloped : placement.side ≠ some "sloped".toList)
    (hfree : ∀ side ∈ placement.side, side ∉ Assoc.keys before.entries) :
    placement.Marks before after ↔ after = placement.apply before := by
  obtain ⟨sloped, side⟩ := placement
  have hgains (middle : Style) :
      (if sloped then before.GainsFlag "sloped" middle else middle = before) ↔
        middle = if sloped then before.put "sloped" .flag else before := by
    cases sloped
    · simp
    · simp [Style.gainsFlag_iff]
  simp only [Marks, hgains, exists_eq_left, apply]
  -- What is left is the side, which goes behind all entries if none of them has its key.
  cases side with
  | none =>
    rw [Option.toList_none, List.map_nil, List.append_nil]
    exact ⟨congrArg Style.mk, congrArg Style.entries⟩
  | some side =>
    have hkeys : side ∉
        Assoc.keys (if sloped then before.put "sloped" .flag else before).entries := by
      cases sloped
      · exact hfree side rfl
      · exact (Style.gainsFlag_iff.2 rfl).notMem_keys (hfree side rfl)
          fun heq ↦ hsloped (congrArg some heq)
    generalize (if sloped then before.put "sloped" .flag else before) = middle at hkeys ⊢
    rw [Option.elim_some, Style.put, Assoc.put_of_notMem hkeys]
    exact ⟨congrArg Style.mk, congrArg Style.entries⟩

/-- Flags that a style has from a placement are put where they are. -/
theorem apply_apply (placement : Placement) (style : Style) :
    placement.apply (placement.apply style) = placement.apply style := by
  obtain ⟨sloped, side⟩ := placement
  cases sloped <;> cases side
  · rfl
  · exact Style.put_of_get? (Style.get?_put_self ..)
  · exact Style.put_of_get? (Style.get?_put_self ..)
  · rename_i side
    have hsloped := Style.get?_put_flag (style.get?_put_self "sloped" .flag) side
    calc (((style.put "sloped" .flag).put side .flag).put "sloped" .flag).put side .flag
        = ((style.put "sloped" .flag).put side .flag).put side .flag :=
          congrArg (Style.put · side .flag) (Style.put_of_get? hsloped)
      _ = (style.put "sloped" .flag).put side .flag := Style.put_of_get? (Style.get?_put_self ..)

/-! ### The placement between two points -/

theorem sideOf_eq_some_iff {a b : Quadrant} {side : Text} : sideOf a b = some side ↔
    a.sharedSides b ≠ [] ∧ side = Text.join " " (a.sharedSides b) := by
  have hside : sideOf a b =
      if a.sharedSides b = [] then none else some (Text.join " " (a.sharedSides b)) := by
    cases a <;> cases b <;> decide
  rw [hside]
  by_cases hnone : a.sharedSides b = []
  · rw [if_pos hnone]
    exact iff_of_false nofun fun h ↦ h.1 hnone
  · rw [if_neg hnone, Option.some.injEq, eq_comm]
    exact (and_iff_right hnone).symm

theorem mem_directions_of_sideOf {p q : Quadrant} {side : Text} (h : sideOf p q = some side) :
    side ∈ Style.directions := by
  have hall : ∀ side ∈ sideOf p q, side ∈ Style.directions := by
    cases p <;> cases q <;> decide
  exact hall side h

section Between

variable {K : Type} [Scalar K] {p q : Point K}

/-- What two points say about a node between them. It is sloped if the slope from one to the other
is finite and not zero. It goes to the sides of the midpoint that both points are on, if there are
such sides. -/
structure IsBetween (p q : Point K) (placement : Placement) : Prop where
  sloped : placement.sloped ↔ Scalar.isFinite (Line.slope p.position q.position) ∧
    ¬ Scalar.eq (Line.slope p.position q.position) (Scalar.ofInt 0)
  side : ∀ side, placement.side = some side ↔
    ∃ a b, p.quadrant = some a ∧ q.quadrant = some b ∧ a.sharedSides b ≠ [] ∧
      side = Text.join " " (a.sharedSides b)

theorem isBetween_between (p q : Point K) : (between p q).IsBetween p q := by
  constructor
  · simp [between]
  · intro side
    rw [between]
    cases p.quadrant with
    | none => simp
    | some a =>
      cases q.quadrant with
      | none => simp
      | some b => simpa using sideOf_eq_some_iff

theorem mem_directions_of_between {side : Text} (h : (between p q).side = some side) :
    side ∈ Style.directions := by
  rw [between] at h
  split at h
  · exact mem_directions_of_sideOf h
  · exact absurd h nofun

/-- The placement between two points, put on a style that does not say where its node goes. -/
theorem marks_between_iff (h : ¬ before.IsExplicit) :
    (between p q).Marks before after ↔ after = (between p q).apply before := by
  refine marks_iff (fun hsloped ↦ ?_) fun side hside ↦
    Style.notMem_keys_of_not_isExplicit h (mem_directions_of_between hside)
  exact absurd (mem_directions_of_between hsloped) (by decide)

end Between

end Placement

end DiagramMacros
