import DiagramMacros.Geometry.Point
/-!
What the operations on points make, field by field. A named point is the same point under a name
(`Point.IsNamed`). The coordinates of a sum are the sums of the coordinates (`Point.IsSum`), and
those of a mean are the sums of the coordinates, taken from the left, divided by the number of points
(`Point.IsMean`); both are points at a position, without name and quadrant (`Point.IsPlain`).
-/

set_option autoImplicit false
set_option relaxedAutoImplicit false

namespace DiagramMacros

namespace Vec

variable {K : Type} [Scalar K]

theorem x_foldl_add (a : Vec K) (vs : List (Vec K)) :
    (vs.foldl add a).x = (vs.map x).foldl (· + ·) a.x := by
  induction vs generalizing a with
  | nil => rfl
  | cons v vs ih => exact ih (a.add v)

theorem y_foldl_add (a : Vec K) (vs : List (Vec K)) :
    (vs.foldl add a).y = (vs.map y).foldl (· + ·) a.y := by
  induction vs generalizing a with
  | nil => rfl
  | cons v vs ih => exact ih (a.add v)

end Vec

namespace Point

/-- The point `q` is the point `p` under a name. -/
structure IsNamed {K : Type} (p : Point K) (name : Text) (q : Point K) : Prop where
  name_eq : q.name = some name
  position : q.position = p.position
  polar : q.polar = p.polar
  quadrant : q.quadrant = p.quadrant

theorem isNamed_iff {K : Type} {p q : Point K} {name : Text} :
    p.IsNamed name q ↔ q = p.named name := by
  constructor
  · rintro ⟨hname, hposition, hpolar, hquadrant⟩
    obtain ⟨_, _, _, _⟩ := q
    subst hname hposition hpolar hquadrant
    rfl
  · rintro rfl
    exact ⟨rfl, rfl, rfl, rfl⟩

variable {K : Type} [Trigonometry K] {p q r : Point K} {points : List (Point K)}

/-- A point that is nothing but a position. -/
structure IsPlain (p : Point K) : Prop where
  polar : p.polar = .ofVec p.position
  name : p.name = none
  quadrant : p.quadrant = none

theorem isPlain_ofVec (v : Vec K) : (ofVec v).IsPlain := ⟨rfl, rfl, rfl⟩

theorem IsPlain.eq_ofVec (h : p.IsPlain) : p = ofVec p.position := by
  calc p = ⟨p.position, p.polar, p.name, p.quadrant⟩ := rfl
    _ = ofVec p.position := by rw [h.polar, h.name, h.quadrant, ofVec]

/-- The point `r` is the sum of the points `p` and `q` as vectors. -/
structure IsSum (p q r : Point K) : Prop where
  x : r.position.x = p.position.x + q.position.x
  y : r.position.y = p.position.y + q.position.y
  plain : r.IsPlain

theorem isSum_iff : p.IsSum q r ↔ r = p.add q := by
  constructor
  · rintro ⟨hx, hy, hplain⟩
    have hposition : r.position = p.position.add q.position := by
      rw [Vec.add, ← hx, ← hy]
    rw [hplain.eq_ofVec, hposition, add]
  · rintro rfl
    exact ⟨rfl, rfl, isPlain_ofVec _⟩

/-- The point `m` is the mean of points: each of its coordinates is the sum of theirs, from the left
and starting at zero, divided by their number, which is not zero. -/
structure IsMean (points : List (Point K)) (m : Point K) : Prop where
  nonempty : points ≠ []
  x : m.position.x = (points.map (·.position.x)).foldl (· + ·) (Scalar.ofInt 0) /
    Scalar.ofInt points.length
  y : m.position.y = (points.map (·.position.y)).foldl (· + ·) (Scalar.ofInt 0) /
    Scalar.ofInt points.length
  plain : m.IsPlain

theorem mean?_of_ne_nil (h : points ≠ []) :
    mean? points = some (ofVec
      ⟨(points.map (·.position.x)).foldl (· + ·) (Scalar.ofInt 0) / Scalar.ofInt points.length,
        (points.map (·.position.y)).foldl (· + ·) (Scalar.ofInt 0) /
          Scalar.ofInt points.length⟩) := by
  have hempty : (points.map position).isEmpty = false := by simpa using h
  rw [mean?, Vec.mean?, hempty, if_neg Bool.false_ne_true, Option.map_some, Vec.divide,
    Vec.x_foldl_add, Vec.y_foldl_add, List.map_map, List.map_map, List.length_map]
  rfl

theorem mean?_eq_none_iff : mean? points = none ↔ points = [] := by
  cases points with
  | nil => exact iff_of_true rfl rfl
  | cons p ps =>
    rw [mean?_of_ne_nil (List.cons_ne_nil p ps)]
    exact iff_of_false nofun nofun

theorem isMean_iff {m : Point K} : IsMean points m ↔ mean? points = some m := by
  constructor
  · rintro ⟨hne, hx, hy, hplain⟩
    rw [mean?_of_ne_nil hne, ← hx, ← hy]
    exact congrArg some hplain.eq_ofVec.symm
  · intro h
    have hne : points ≠ [] := by
      rintro rfl
      exact absurd h nofun
    rw [mean?_of_ne_nil hne] at h
    obtain rfl := Option.some.inj h
    exact ⟨hne, rfl, rfl, isPlain_ofVec _⟩

end Point

end DiagramMacros
