import DiagramMacros.Proofs.Geometry.Slopes
import DiagramMacros.Proofs.Path.Neighbours
/-!
Paths written from their other end. The nodes of such a path are placed as they are on the path
itself (`DrawnPath.placeLabels_reverse`). The points before and after a node change places, also on
a closed path, where the first and the last point of all step in for each other. The slope between
them is the same or stays infinite (`Line.slope_swap`), and the sign of an infinite slope does not
matter to a node.
-/

set_option autoImplicit false
set_option relaxedAutoImplicit false

namespace DiagramMacros

namespace Placement

theorem agreed_swap (first second : Bool) (yes no : Text) :
    agreed second first yes no = agreed first second yes no := by
  cases first <;> cases second <;> rfl

theorem sideOf_swap (p q : Quadrant) : sideOf q p = sideOf p q := by
  rw [sideOf, agreed_swap p.isUpper, agreed_swap p.isRight]
  rfl

/-- Two points place a node between them in either order alike. -/
theorem between_swap (p q : Point Exact) : between q p = between p q := by
  have hsloped : (between q p).sloped = (between p q).sloped := by
    rcases Line.slope_swap p.position q.position with h | ⟨_, _, h, h'⟩
    · simp only [between, h]
    · rw [between, between, h, h']
      rfl
  have hside : (between q p).side = (between p q).side := by
    simp only [between]
    cases p.quadrant with
    | none => cases q.quadrant <;> rfl
    | some a =>
      cases q.quadrant with
      | none => rfl
      | some b => exact sideOf_swap a b
  exact congrArg₂ Placement.mk hsloped hside

end Placement

namespace DrawnPath

section Generic

variable {K : Type}

/-- The path written from its other end. -/
def reverse (d : DrawnPath K) : DrawnPath K := { d with segments := d.segments.reverse }

theorem isClosed_reverse (d : DrawnPath K) : d.reverse.isClosed = d.isClosed := List.any_reverse

theorem neighbours_swap (closed : Bool) (before after : List (Segment K)) :
    neighbours closed after before = (neighbours closed before after).map Prod.swap := by
  simp only [neighbours, Nat.add_comm]
  split
  · rfl
  · generalize Option.or _ _ = p
    generalize Option.or _ _ = q
    cases p <;> cases q <;> rfl

theorem length_placeFrom [Scalar K] (closed : Bool) (before ss : List (Segment K)) :
    (placeFrom closed before ss).length = ss.length := by
  induction ss generalizing before with
  | nil => rfl
  | cons s ss ih => rw [placeFrom, List.length_cons, List.length_cons, ih]

end Generic

theorem placeSegment_swap (closed : Bool) (before after : List (Segment Exact))
    (s : Segment Exact) :
    placeSegment closed after before s = placeSegment closed before after s := by
  cases s with
  | point p => rfl
  | operator o => rfl
  | node n =>
    rw [placeSegment, placeSegment, neighbours_swap]
    cases neighbours closed before after with
    | none => rfl
    | some pq =>
      obtain ⟨p, q⟩ := pq
      simp only [Option.map_some, Prod.swap_prod_mk, Placement.between_swap p q]

theorem placeFrom_reverse (closed : Bool) (ss : List (Segment Exact)) :
    placeFrom closed [] ss.reverse = (placeFrom closed [] ss).reverse := by
  refine List.ext_getElem? fun i ↦ ?_
  by_cases hi : i < ss.length
  · -- the segment in place `i` from the end, with the segments on its two sides
    have hj : ss.length - (i + 1) = ss.length - 1 - i := by omega
    have hnext : ss.length - i = ss.length - 1 - i + 1 := by omega
    rw [List.getElem?_reverse (by rwa [length_placeFrom]), length_placeFrom, getElem?_placeFrom,
      getElem?_placeFrom, List.getElem?_reverse hi, List.take_reverse, List.drop_reverse,
      List.append_nil, List.append_nil, List.reverse_reverse, hj, hnext]
    exact congrArg (Option.map · _) (funext (placeSegment_swap closed _ _))
  · have hplaced : (placeFrom closed [] ss.reverse).length ≤ i := by
      simpa [length_placeFrom] using hi
    have hreversed : (placeFrom closed [] ss).reverse.length ≤ i := by
      simpa [length_placeFrom] using hi
    rw [List.getElem?_eq_none hplaced, List.getElem?_eq_none hreversed]

/-- Placing the nodes of a path written from its other end gives the placed path written from its
other end, and so does annotating it around a midpoint. -/
theorem placeLabels_reverse (d : DrawnPath Exact) :
    d.reverse.placeLabels = d.placeLabels.reverse ∧
      ∀ midpoint, d.reverse.annotate midpoint = (d.annotate midpoint).reverse := by
  have hplaced (d : DrawnPath Exact) : d.reverse.placeLabels = d.placeLabels.reverse := by
    rw [placeLabels, isClosed_reverse]
    exact congrArg (DrawnPath.mk d.style) (placeFrom_reverse d.isClosed d.segments)
  refine ⟨hplaced d, fun midpoint ↦ ?_⟩
  calc d.reverse.annotate midpoint
      = (reverse ⟨d.style, d.segments.map (classifySegment midpoint)⟩).placeLabels := by
        rw [annotate, reverse, reverse, List.map_reverse]
    _ = (d.annotate midpoint).reverse := hplaced _

end DrawnPath

end DiagramMacros
