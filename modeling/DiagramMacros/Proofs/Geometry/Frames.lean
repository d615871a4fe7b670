import DiagramMacros.Diagram.Figure
import DiagramMacros.Proofs.ExactNumerals
import Mathlib.Order.Bounds.Basic
/-!
The boxes around the points of a diagram, in numbers that are not rounded. The sides of the extent
of some points are the least and the greatest of their coordinates (`Extent.IsHull`), because no
coordinate in the range of finite numbers is beyond the corners of the empty extent
(`Extent.exists_hull`). All else follows from that. A box holds all points with some room if its
sides leave that room to those of the hull (`Extent.IsHull.holds_iff`). So the extent is the least
box that holds the points, and the frame of a grid, rounded outwards, is the least box with integer
corners that holds them and the origin with a margin of one (`Extent.frames_hold_points`).
-/

set_option autoImplicit false
set_option relaxedAutoImplicit false

namespace DiagramMacros

/-! ### Least and greatest numbers -/

namespace Exact

/-- The largest finite number of 64 bits. -/
def largestFinite : Rat := (2 ^ 53 - 1) * 2 ^ 971

theorem largestFinite_pos : 0 < largestFinite := by
  norm_num [largestFinite]

end Exact

namespace Scalar

theorem largest_exact : (largest : Exact) = .finite Exact.largestFinite := by
  rw [largest, ofExact_exact, Exact.largestFinite]
  norm_num

theorem min_finite (a b : Rat) :
    Scalar.min (Exact.finite a) (Exact.finite b) = Exact.finite (Min.min a b) := by
  show (if decide (b < a) then Exact.finite b else Exact.finite a) = _
  rw [min_def_lt']
  simp only [decide_eq_true_eq, apply_ite Exact.finite]

theorem max_finite (a b : Rat) :
    Scalar.max (Exact.finite a) (Exact.finite b) = Exact.finite (Max.max a b) := by
  show (if decide (a < b) then Exact.finite b else Exact.finite a) = _
  rw [max_def_lt]
  simp only [decide_eq_true_eq, apply_ite Exact.finite]

end Scalar

section Folds

variable {l : List Rat} {bound : Rat}

theorem isLeast_foldl_min (hne : l ≠ []) (hbound : ∀ a ∈ l, a ≤ bound) :
    IsLeast {a | a ∈ l} (l.foldl min bound) := by
  obtain ⟨m, hm⟩ := Option.isSome_iff_exists.1 (List.isSome_min?_of_ne_nil hne)
  obtain ⟨hmem, hle⟩ := List.min?_eq_some_iff.1 hm
  rw [List.foldl_min, hm, Option.getD_some, min_eq_right (hbound m hmem)]
  exact ⟨hmem, hle⟩

theorem isGreatest_foldl_max (hne : l ≠ []) (hbound : ∀ a ∈ l, bound ≤ a) :
    IsGreatest {a | a ∈ l} (l.foldl max bound) := by
  obtain ⟨m, hm⟩ := Option.isSome_iff_exists.1 (List.isSome_max?_of_ne_nil hne)
  obtain ⟨hmem, hle⟩ := List.max?_eq_some_iff.1 hm
  rw [List.foldl_max, hm, Option.getD_some, max_eq_right (hbound m hmem)]
  exact ⟨hmem, hle⟩

end Folds

/-! ### Boxes and the points in them -/

namespace Vec

def origin : Vec Rat := ⟨0, 0⟩

/-- Both coordinates of a point are in the range of finite numbers. -/
structure InRange (p : Vec Rat) : Prop where
  x : |p.x| ≤ Exact.largestFinite
  y : |p.y| ≤ Exact.largestFinite

theorem inRange_iff {p : Vec Rat} :
    p.InRange ↔ |p.x| ≤ Exact.largestFinite ∧ |p.y| ≤ Exact.largestFinite :=
  ⟨fun h ↦ ⟨h.x, h.y⟩, fun h ↦ ⟨h.1, h.2⟩⟩

instance (p : Vec Rat) : Decidable p.InRange := decidable_of_iff _ inRange_iff.symm

/-- A pair of integers in print. -/
def printIntegers (v : Vec Int) : Text :=
  '(' :: (toString v.x).toList ++ ',' :: (toString v.y).toList ++ [')']

end Vec

namespace Extent

open Vec

variable {e f : Extent Rat} {S : Set (Vec Rat)} {ps qs : List (Vec Rat)}
  {margin : Rat}

/-- The box with rational corners, as exact numbers. -/
def exact (e : Extent Rat) : Extent Exact := ⟨e.min.exact, e.max.exact⟩

/-- The box with integer corners, as rationals. -/
def ofIntegers (g : Extent Int) : Extent Rat := ⟨⟨g.min.x, g.min.y⟩, ⟨g.max.x, g.max.y⟩⟩

/-- A box holds a point with at least this much room on every side. -/
structure Holds (e : Extent Rat) (margin : Rat) (p : Vec Rat) : Prop where
  left : e.min.x + margin ≤ p.x
  below : e.min.y + margin ≤ p.y
  right : p.x + margin ≤ e.max.x
  above : p.y + margin ≤ e.max.y

/-- A box is at most another if it lies within it. -/
instance {K : Type} [LE K] : LE (Extent K) :=
  ⟨fun e f ↦ f.min.x ≤ e.min.x ∧ f.min.y ≤ e.min.y ∧ e.max.x ≤ f.max.x ∧ e.max.y ≤ f.max.y⟩

/-- The sides of a box are the least and the greatest coordinates of some points. -/
structure IsHull (e : Extent Rat) (S : Set (Vec Rat)) : Prop where
  left : IsLeast (Vec.x '' S) e.min.x
  below : IsLeast (Vec.y '' S) e.min.y
  right : IsGreatest (Vec.x '' S) e.max.x
  above : IsGreatest (Vec.y '' S) e.max.y

/-- A box with a margin of one on every side. -/
def withMargin (e : Extent Rat) : Extent Rat :=
  ⟨⟨e.min.x - 1, e.min.y - 1⟩, ⟨e.max.x + 1, e.max.y + 1⟩⟩

/-- A box with its corners rounded outwards. -/
def outward (e : Extent Rat) : Extent Int :=
  ⟨⟨e.min.x.floor, e.min.y.floor⟩, ⟨e.max.x.ceil, e.max.y.ceil⟩⟩

theorem isLeast_of_iff {K : Type} [Preorder K] {boxes : Set (Extent K)} {e : Extent K}
    (h : ∀ f, f ∈ boxes ↔ e ≤ f) : IsLeast boxes e :=
  ⟨(h e).2 ⟨le_rfl, le_rfl, le_rfl, le_rfl⟩, fun f hf ↦ (h f).1 hf⟩

namespace IsHull

theorem unique (he : e.IsHull S) (hf : f.IsHull S) : e = f := by
  obtain ⟨⟨left, below⟩, ⟨right, above⟩⟩ := e
  obtain ⟨⟨left', below'⟩, ⟨right', above'⟩⟩ := f
  obtain rfl := he.left.unique hf.left
  obtain rfl := he.below.unique hf.below
  obtain rfl := he.right.unique hf.right
  obtain rfl := he.above.unique hf.above
  rfl

/-- A box holds all points with some room if its sides have that room. -/
theorem holds_iff (h : e.IsHull S) : (∀ p ∈ S, f.Holds margin p) ↔
    f.min.x + margin ≤ e.min.x ∧ f.min.y + margin ≤ e.min.y ∧
      e.max.x + margin ≤ f.max.x ∧ e.max.y + margin ≤ f.max.y := by
  constructor
  · intro hholds
    obtain ⟨p, hp, hleft⟩ := h.left.1
    obtain ⟨q, hq, hbelow⟩ := h.below.1
    obtain ⟨r, hr, hright⟩ := h.right.1
    obtain ⟨s, hs, habove⟩ := h.above.1
    exact ⟨hleft ▸ (hholds p hp).left, hbelow ▸ (hholds q hq).below,
      hright ▸ (hholds r hr).right, habove ▸ (hholds s hs).above⟩
  · rintro ⟨hleft, hbelow, hright, habove⟩ p hp
    have hx := Set.mem_image_of_mem Vec.x hp
    have hy := Set.mem_image_of_mem Vec.y hp
    exact ⟨hleft.trans (h.left.2 hx), hbelow.trans (h.below.2 hy),
      (add_le_add_left (h.right.2 hx) _).trans hright,
      (add_le_add_left (h.above.2 hy) _).trans habove⟩

/-- The hull of some points is the least box that holds them. -/
theorem isLeast (h : e.IsHull S) : IsLeast {f : Extent Rat | ∀ p ∈ S, f.Holds 0 p} e := by
  refine isLeast_of_iff fun f ↦ h.holds_iff.trans ?_
  simp only [add_zero]
  rfl

/-- The hull with a margin of one and its corners rounded outwards is the least box with integer
corners that has that margin. -/
theorem isLeast_outward (h : e.IsHull S) :
    IsLeast {g : Extent Int | ∀ p ∈ S, (ofIntegers g).Holds 1 p} (outward (withMargin e)) := by
  have hlower (n : Int) (a : Rat) : (n : Rat) + 1 ≤ a ↔ n ≤ (a - 1).floor :=
    le_sub_iff_add_le.symm.trans Rat.le_floor_iff.symm
  have hupper (n : Int) (a : Rat) : a ≤ n ↔ a.ceil ≤ n := Rat.ceil_le_iff.symm
  exact isLeast_of_iff fun g ↦ h.holds_iff.trans <|
    and_congr (hlower _ _) (and_congr (hlower _ _) (and_congr (hupper _ _) (hupper _ _)))

end IsHull

/-! ### The extent of points -/

theorem empty_exact : (empty : Extent Exact) =
    exact ⟨diagonal Exact.largestFinite, diagonal (-Exact.largestFinite)⟩ := by
  rw [empty, Scalar.largest_exact]
  rfl

theorem expand_exact (e : Extent Rat) (p : Vec Rat) : e.exact.expand p.exact =
    exact ⟨⟨Min.min e.min.x p.x, Min.min e.min.y p.y⟩,
      ⟨Max.max e.max.x p.x, Max.max e.max.y p.y⟩⟩ := by
  simp only [expand, exact, Vec.exact, Scalar.min_finite, Scalar.max_finite]

theorem foldl_expand_exact (e : Extent Rat) (qs : List (Vec Rat)) :
    (qs.map Vec.exact).foldl expand e.exact =
      exact ⟨⟨(qs.map Vec.x).foldl Min.min e.min.x, (qs.map Vec.y).foldl Min.min e.min.y⟩,
        ⟨(qs.map Vec.x).foldl Max.max e.max.x, (qs.map Vec.y).foldl Max.max e.max.y⟩⟩ := by
  induction qs generalizing e with
  | nil => rfl
  | cons q qs ih =>
    rw [List.map_cons, List.foldl_cons, expand_exact, ih]
    rfl

/-- Points in the range of finite numbers have their hull as their extent. -/
theorem exists_hull (hne : qs ≠ []) (hrange : ∀ q ∈ qs, q.InRange) :
    ∃ e : Extent Rat, ofPoints (qs.map Vec.exact) = e.exact ∧ e.IsHull {q | q ∈ qs} := by
  have himage (side : Vec Rat → Rat) : side '' {q | q ∈ qs} = {a | a ∈ qs.map side} := by
    ext a
    simp
  -- No coordinate is beyond the corners of the empty extent, so the fold ends at a coordinate.
  have hleast {side : Vec Rat → Rat} (hside : ∀ q ∈ qs, |side q| ≤ Exact.largestFinite) :
      IsLeast (side '' {q | q ∈ qs}) ((qs.map side).foldl Min.min Exact.largestFinite) := by
    rw [himage]
    exact isLeast_foldl_min (by simpa using hne)
      (by simpa using fun q hq ↦ le_of_abs_le (hside q hq))
  have hgreatest {side : Vec Rat → Rat} (hside : ∀ q ∈ qs, |side q| ≤ Exact.largestFinite) :
      IsGreatest (side '' {q | q ∈ qs}) ((qs.map side).foldl Max.max (-Exact.largestFinite)) := by
    rw [himage]
    exact isGreatest_foldl_max (by simpa using hne)
      (by simpa using fun q hq ↦ neg_le_of_abs_le (hside q hq))
  have hx (q : Vec Rat) (hq : q ∈ qs) := (hrange q hq).x
  have hy (q : Vec Rat) (hq : q ∈ qs) := (hrange q hq).y
  refine ⟨⟨⟨_, _⟩, ⟨_, _⟩⟩, ?_, hleast hx, hleast hy, hgreatest hx, hgreatest hy⟩
  rw [ofPoints, empty_exact, foldl_expand_exact]
  rfl

/-- The extent depends on which points there are, not on their order or how often they occur. -/
theorem ofPoints_congr (hrange : ∀ p ∈ ps, p.InRange) (h : ∀ p, p ∈ qs ↔ p ∈ ps) :
    ofPoints (qs.map Vec.exact) = ofPoints (ps.map Vec.exact) := by
  have hnil : qs = [] ↔ ps = [] := by simp only [List.eq_nil_iff_forall_not_mem, h]
  by_cases hne : ps = []
  · rw [hne, hnil.2 hne]
  · obtain ⟨e, heq, he⟩ := exists_hull hne hrange
    obtain ⟨f, hfq, hf⟩ := exists_hull (mt hnil.1 hne) fun q hq ↦ hrange q ((h q).1 hq)
    have hsame : {q | q ∈ qs} = {p | p ∈ ps} := Set.ext h
    rw [hsame] at hf
    rw [heq, hfq, hf.unique he]

/-- An extent is empty if it is that of no points. -/
theorem isEmpty_ofPoints_iff (hrange : ∀ p ∈ ps, p.InRange) :
    (ofPoints (ps.map Vec.exact)).isEmpty ↔ ps = [] := by
  refine ⟨fun hempty ↦ by_contra fun hne ↦ ?_, ?_⟩
  · obtain ⟨e, heq, he⟩ := exists_hull hne hrange
    have hx : e.min.x ≤ e.max.x := he.left.2 he.right.1
    have hy : e.min.y ≤ e.max.y := he.below.2 he.above.1
    rw [heq] at hempty
    have hinverted : e.max.x < e.min.x ∨ e.max.y < e.min.y := by
      simpa [isEmpty, exact, Vec.exact, Scalar.lt] using hempty
    exact hinverted.elim hx.not_gt hy.not_gt
  · rintro rfl
    have hinverted : -Exact.largestFinite < Exact.largestFinite :=
      neg_lt_self Exact.largestFinite_pos
    rw [List.map_nil, ofPoints, List.foldl_nil, empty_exact]
    simp [isEmpty, exact, Vec.exact, Scalar.lt, diagonal, hinverted]

/-! ### The frame -/

/-- The frame of some points is the hull of the points and the origin, with a margin of one. -/
theorem exists_frame (hrange : ∀ p ∈ ps, p.InRange) : ∃ e : Extent Rat,
    (ofPoints (ps.map Vec.exact)).frame = (withMargin e).exact ∧
      e.IsHull {p | p ∈ origin :: ps} := by
  have horigin : origin.InRange := by
    constructor <;> simp [origin, Exact.largestFinite_pos.le]
  -- The frame takes in the origin after the points.
  have hall : ∀ q ∈ ps ++ [origin], q.InRange := by
    simpa [or_imp, forall_and] using ⟨hrange, horigin⟩
  obtain ⟨e, heq, he⟩ := exists_hull (by simp) hall
  have hmem : {p | p ∈ ps ++ [origin]} = {p | p ∈ origin :: ps} := by
    ext p
    simp [or_comm]
  have hzero : (zero : Vec Exact) = origin.exact := rfl
  have hexpand : (ofPoints (ps.map Vec.exact)).expand zero = e.exact := by
    rw [← heq, ofPoints, ofPoints, List.map_append, List.foldl_append, hzero]
    rfl
  refine ⟨e, ?_, hmem ▸ he⟩
  rw [frame, hexpand]
  simp [padded, exact, Vec.exact, withMargin, Vec.sub, Vec.add, diagonal, Scalar.ofInt]

theorem gridFrame_exact {points : Extent Exact} (h : points.frame = e.exact) :
    points.gridFrame = (ofIntegers (outward e)).exact := by
  rw [gridFrame, h]
  rfl

theorem print_ofIntegers (v : Vec Int) :
    (⟨v.x, v.y⟩ : Vec Rat).exact.print = v.printIntegers := by
  rw [Vec.print, Vec.exact, Numeral.print_intCast, Numeral.print_intCast, printIntegers]

theorem print_grid {points : Extent Exact} (h : points.frame = e.exact) (grid : Grid) :
    grid.print points = "\\draw ".toList ++ grid.style.inBrackets ++ ' ' ::
      (outward e).min.printIntegers ++ " grid ".toList ++
        (outward e).max.printIntegers ++ [';'] := by
  have hmin : (ofIntegers (outward e)).exact.min.print = (outward e).min.printIntegers :=
    print_ofIntegers (outward e).min
  have hmax : (ofIntegers (outward e)).exact.max.print = (outward e).max.printIntegers :=
    print_ofIntegers (outward e).max
  unfold Grid.print
  rw [gridFrame_exact h, hmin, hmax]

/-- The label at the end of an axis, unless it is empty. -/
def labelText (side label : Text) : Text :=
  if label = [] then [] else " node [".toList ++ side ++ "] \x7b".toList ++ label ++ ['}']

/-- The axes as arrows through the origin, with their ends and their labels. -/
def axesText (axes : Axes) (left right lower upper : Rat) : Text :=
  "\\draw [->] (".toList ++ Numeral.print (Exact.finite left) ++ ",0)--(".toList ++
    Numeral.print (Exact.finite right) ++ ",0)".toList ++ labelText "right" axes.xLabel ++
  ";\n\\draw [->] (0,".toList ++ Numeral.print (Exact.finite lower) ++ ")--(0,".toList ++
    Numeral.print (Exact.finite upper) ++ ")".toList ++ labelText "above" axes.yLabel ++ [';']

theorem printArrow_exact (p q : Vec Rat) (side label : Text) :
    Axes.printArrow (p.exact, q.exact) side label =
      "\\draw [->] (".toList ++ Numeral.print (Exact.finite p.x) ++ ',' ::
        Numeral.print (Exact.finite p.y) ++ ")--(".toList ++ Numeral.print (Exact.finite q.x) ++
          ',' :: Numeral.print (Exact.finite q.y) ++ ')' :: labelText side label ++ [';'] := by
  have hlabel : (if label.isEmpty then [] else
      " node [".toList ++ side ++ "] ".toList ++ Braces.enclose label) = labelText side label := by
    cases label with
    | nil => rfl
    | cons c label => simp [labelText, Braces.enclose]
  unfold Axes.printArrow
  rw [hlabel]
  simp only [Vec.print, Vec.exact, List.append_assoc, List.cons_append, List.nil_append]
  rfl

theorem print_axes {points : Extent Exact} (h : points.frame = e.exact) (axes : Axes) :
    axes.print points = axesText axes e.min.x e.max.x e.min.y e.max.y := by
  have hzero : Numeral.print (Exact.finite 0) = ['0'] := Numeral.print_intCast 0
  have hhorizontal : points.horizontalAxis =
      ((⟨e.min.x, 0⟩ : Vec Rat).exact, (⟨e.max.x, 0⟩ : Vec Rat).exact) := by
    rw [horizontalAxis, h]
    rfl
  have hvertical : points.verticalAxis =
      ((⟨0, e.min.y⟩ : Vec Rat).exact, (⟨0, e.max.y⟩ : Vec Rat).exact) := by
    rw [verticalAxis, h]
    rfl
  unfold Axes.print axesText
  rw [hhorizontal, hvertical, printArrow_exact, printArrow_exact, hzero]
  simp only [List.append_assoc, List.cons_append, List.nil_append]
  rfl

/-- Assumes: the coordinates of the points are in the range of finite numbers. Any other list of the
same points has the same extent. The extent is empty if there are no points, and otherwise it is the
least box that holds them. A grid is printed with integer corners, and its box is the least with
integer corners that holds the points and the origin with a margin of one. The axes are printed as
arrows through the origin whose ends, before they are rounded in print, are exactly one beyond the
least and the greatest coordinates of the points and the origin. -/
theorem frames_hold_points (ps : List (Vec Rat)) (hrange : ∀ p ∈ ps, p.InRange) :
    (∀ qs : List (Vec Rat), (∀ p, p ∈ qs ↔ p ∈ ps) →
      ofPoints (qs.map Vec.exact) = ofPoints (ps.map Vec.exact)) ∧
    ((ofPoints (ps.map Vec.exact)).isEmpty ↔ ps = []) ∧
    (ps ≠ [] → ∃ box : Extent Rat, ofPoints (ps.map Vec.exact) = box.exact ∧
      IsLeast {e : Extent Rat | ∀ p ∈ ps, e.Holds 0 p} box) ∧
    (∃ box : Extent Int,
      (∀ grid : Grid, grid.print (ofPoints (ps.map Vec.exact)) =
        "\\draw ".toList ++ grid.style.inBrackets ++ ' ' :: box.min.printIntegers ++
          " grid ".toList ++ box.max.printIntegers ++ [';']) ∧
      IsLeast {g : Extent Int | ∀ p ∈ origin :: ps, (ofIntegers g).Holds 1 p} box) ∧
    ∃ left right lower upper : Rat,
      (∀ axes : Axes, axes.print (ofPoints (ps.map Vec.exact)) =
        axesText axes left right lower upper) ∧
      left < 0 ∧ 0 < right ∧ lower < 0 ∧ 0 < upper ∧
      IsLeast (Vec.x '' {p | p ∈ origin :: ps}) (left + 1) ∧
      IsGreatest (Vec.x '' {p | p ∈ origin :: ps}) (right - 1) ∧
      IsLeast (Vec.y '' {p | p ∈ origin :: ps}) (lower + 1) ∧
      IsGreatest (Vec.y '' {p | p ∈ origin :: ps}) (upper - 1) := by
  obtain ⟨e, hframe, he⟩ := exists_frame hrange
  refine ⟨fun qs hqs ↦ ofPoints_congr hrange hqs, isEmpty_ofPoints_iff hrange, fun hne ↦ ?_,
    ⟨_, print_grid hframe, he.isLeast_outward⟩, ?_⟩
  · obtain ⟨box, heq, hbox⟩ := exists_hull hne hrange
    exact ⟨box, heq, hbox.isLeast⟩
  · have hx : (0 : Rat) ∈ Vec.x '' {p | p ∈ origin :: ps} := ⟨origin, by simp, rfl⟩
    have hy : (0 : Rat) ∈ Vec.y '' {p | p ∈ origin :: ps} := ⟨origin, by simp, rfl⟩
    have hleft : e.min.x - 1 < 0 := by linarith [he.left.2 hx]
    have hright : 0 < e.max.x + 1 := by linarith [he.right.2 hx]
    have hlower : e.min.y - 1 < 0 := by linarith [he.below.2 hy]
    have hupper : 0 < e.max.y + 1 := by linarith [he.above.2 hy]
    refine ⟨_, _, _, _, print_axes hframe, hleft, hright, hlower, hupper, ?_, ?_, ?_, ?_⟩
    · simpa only [withMargin, sub_add_cancel] using he.left
    · simpa only [withMargin, add_sub_cancel_right] using he.right
    · simpa only [withMargin, sub_add_cancel] using he.below
    · simpa only [withMargin, add_sub_cancel_right] using he.above

/-- Two points whose grid starts left of the origin only to leave it room. -/
theorem frames_hold_points_two :
    let ps : List (Vec Rat) := [⟨1 / 2, -9 / 4⟩, ⟨5 / 2, 3 / 2⟩]
    (∀ p ∈ ps, p.InRange) ∧
      ofPoints ((ps.reverse ++ ps).map Vec.exact) = ofPoints (ps.map Vec.exact) ∧
      (∃ box : Extent Rat, ofPoints (ps.map Vec.exact) = box.exact ∧
        IsLeast {e : Extent Rat | ∀ p ∈ ps, e.Holds 0 p} box) ∧
      Grid.print ⟨{}⟩ (ofPoints (ps.map Vec.exact)) = "\\draw [] (-1,-4) grid (4,3);".toList ∧
      Axes.print ⟨[], "y".toList⟩ (ofPoints (ps.map Vec.exact)) =
        ("\\draw [->] (-1,0)--(3.5,0);\n" ++
          "\\draw [->] (0,-3.25)--(0,2.5) node [above] \x7by\x7d;").toList := by
  intro ps
  have hrange : ∀ p ∈ ps, p.InRange := by decide +kernel
  obtain ⟨hsame, -, hbox, -⟩ := frames_hold_points ps hrange
  exact ⟨hrange, hsame _ fun p ↦ by simp, hbox (List.cons_ne_nil _ _), by decide +kernel,
    by decide +kernel⟩

end Extent

end DiagramMacros
