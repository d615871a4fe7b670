import DiagramMacros.Diagram.Document
import DiagramMacros.Proofs.Geometry.Points
import DiagramMacros.Proofs.Outcome
import DiagramMacros.Proofs.Path.Neighbours
import Mathlib.Data.List.Forall2
/-!
What the annotation of a document changes. A token keeps everything but the quadrants of its points
and the styles of the nodes of a path (`Token.Annotated`), and the style of such a node gains at
most the flag `sloped` and one flag for its side (`Style.Placed`).

The points of tokens are the points of coordinates and nodes, those of paths, and the centres of
circles, in the order of the tokens (`Token.HavePoints`). Annotated tokens have the points of the
tokens with their quadrants (`Document.pointsOf_annotate`), so that the midpoint is the mean of
both, and every point has its quadrant around it.
-/

set_option autoImplicit false
set_option relaxedAutoImplicit false

namespace DiagramMacros

/-! ### Styles -/

namespace Style

/-- What placing a node may make of its style: it gains the flag `sloped` or not, and then a side on
which it had no entry, or none. -/
def Placed (before after : Style) : Prop :=
  ∃ sloped, (sloped = before ∨ before.GainsFlag "sloped" sloped) ∧
    (after = sloped ∨ ∃ side ∈ directions, side ∉ Assoc.keys before.entries ∧
      after = ⟨sloped.entries ++ [(side, .flag)]⟩)

theorem Placed.refl (style : Style) : style.Placed style := ⟨style, .inl rfl, .inl rfl⟩

end Style

namespace Placement

/-- The flags between two points are such as placing may add. -/
theorem Marks.placed {p q : Point Float} {before after : Style} (hfree : ¬ before.IsExplicit)
    (h : (between p q).Marks before after) : before.Placed after := by
  obtain ⟨sloped, hsloped, hentries⟩ := h
  refine ⟨sloped, ?_, ?_⟩
  · split at hsloped
    · exact .inr hsloped
    · exact .inl hsloped
  · cases hside : (between p q).side with
    | none =>
      rw [hside, Option.toList_none, List.map_nil, List.append_nil] at hentries
      exact .inl (congrArg Style.mk hentries)
    | some side =>
      have hmem := mem_directions_of_between hside
      rw [hside] at hentries
      exact .inr ⟨side, hmem, Style.notMem_keys_of_not_isExplicit hfree hmem,
        congrArg Style.mk hentries⟩

end Placement

/-! ### Segments and tokens -/

/-- What annotating may make of a segment: a point gets a quadrant, and a node is placed. -/
inductive Segment.Annotated : Segment Float → Segment Float → Prop
  | point (p : Point Float) (quadrant : Option Quadrant) :
    Annotated (.point p) (.point { p with quadrant })
  | operator (o : PathOperator) : Annotated (.operator o) (.operator o)
  | node (label : Text) {before after : Style} (h : before.Placed after) :
    Annotated (.node ⟨label, before⟩) (.node ⟨label, after⟩)

/-- What annotating may make of a token: its points get quadrants, and the nodes of a path are
placed. -/
inductive Token.Annotated : Token → Token → Prop
  | raw (text : Text) : Annotated (.raw text) (.raw text)
  | coordinate (c : NamedCoordinate) (quadrant : Option Quadrant) :
    Annotated (.coordinate c) (.coordinate { c with point := { c.point with quadrant } })
  | node (n : PlacedNode) (quadrant : Option Quadrant) :
    Annotated (.node n) (.node { n with point := { n.point with quadrant } })
  | path (style : Style) {before after : List (Segment Float)}
    (h : List.Forall₂ Segment.Annotated before after) :
    Annotated (.path ⟨style, before⟩) (.path ⟨style, after⟩)
  | circle (c : Circle) (quadrant : Option Quadrant) :
    Annotated (.circle c) (.circle { c with centre := { c.centre with quadrant } })
  | angle (m : AngleMark) : Annotated (.angle m) (.angle m)
  | axes (a : Axes) : Annotated (.axes a) (.axes a)
  | grid (g : Grid) : Annotated (.grid g) (.grid g)

theorem Token.Annotated.refl (token : Token) : token.Annotated token := by
  cases token with
  | raw text => exact .raw text
  | coordinate c => exact .coordinate c c.point.quadrant
  | node n => exact .node n n.point.quadrant
  | path d =>
    refine .path d.style (List.forall₂_same.2 fun s _ ↦ ?_)
    cases s with
    | point p => exact .point p p.quadrant
    | operator o => exact .operator o
    | node n => exact .node n.label (.refl n.style)
  | circle c => exact .circle c c.centre.quadrant
  | angle m => exact .angle m
  | axes a => exact .axes a
  | grid g => exact .grid g

namespace DrawnPath

theorem annotated_placeSegment (closed : Bool) (before after : List (Segment Float))
    (midpoint : Vec Float) (s : Segment Float) :
    s.Annotated (placeSegment closed before after (classifySegment midpoint s)) := by
  cases s with
  | point p => exact .point p _
  | operator o => exact .operator o
  | node n =>
    change (Segment.node n).Annotated (placeSegment closed before after (.node n))
    rw [placeSegment]
    split
    · exact .node n.label (.refl n.style)
    · rename_i hfree
      rw [Style.hasPlacement_iff] at hfree
      split
      · exact .node n.label (((Placement.marks_between_iff hfree).2 rfl).placed hfree)
      · exact .node n.label (.refl n.style)

theorem annotated_placeFrom (closed : Bool) (midpoint : Vec Float)
    (before ss : List (Segment Float)) :
    List.Forall₂ Segment.Annotated ss
      (placeFrom closed before (ss.map (classifySegment midpoint))) := by
  induction ss generalizing before with
  | nil => exact .nil
  | cons s ss ih => exact .cons (annotated_placeSegment closed before _ midpoint s) (ih _)

theorem points_annotate (d : DrawnPath Float) (midpoint : Vec Float) :
    (d.annotate midpoint).points = d.points.map (Point.classify · midpoint) := by
  rw [points, annotate, placeLabels, points_placeFrom, points, List.filterMap_map,
    List.map_filterMap]
  refine List.filterMap_congr fun s _ ↦ ?_
  cases s <;> rfl

end DrawnPath

namespace Token

theorem annotated_annotate (midpoint : Vec Float) (token : Token) :
    token.Annotated (token.annotate midpoint) := by
  cases token with
  | raw text => exact .raw text
  | coordinate c => exact .coordinate c _
  | node n => exact .node n _
  | path d => exact .path d.style (DrawnPath.annotated_placeFrom _ midpoint [] d.segments)
  | circle c => exact .circle c _
  | angle m => exact .angle m
  | axes a => exact .axes a
  | grid g => exact .grid g

/-- Annotating a token gives all of its points their quadrants. -/
theorem points_annotate (midpoint : Vec Float) (token : Token) :
    (token.annotate midpoint).points = token.points.map (Point.classify · midpoint) := by
  cases token with
  | path d => exact d.points_annotate midpoint
  | _ => rfl

end Token

namespace Document

theorem pointsOf_annotate (midpoint : Vec Float) (tokens : List Token) :
    pointsOf (tokens.map (Token.annotate midpoint)) =
      (pointsOf tokens).map (Point.classify · midpoint) := by
  rw [pointsOf, pointsOf, List.flatMap_map, List.map_flatMap]
  exact congrArg (tokens.flatMap ·) (funext fun token ↦ token.points_annotate midpoint)

end Document

/-! ### The midpoint -/

/-- The points among segments, in order. -/
inductive Segment.HavePoints : List (Segment Float) → List (Point Float) → Prop
  | nil : HavePoints [] []
  | point {p : Point Float} {ss : List (Segment Float)} {ps : List (Point Float)}
    (h : HavePoints ss ps) : HavePoints (.point p :: ss) (p :: ps)
  | operator {o : PathOperator} {ss : List (Segment Float)} {ps : List (Point Float)}
    (h : HavePoints ss ps) : HavePoints (.operator o :: ss) ps
  | node {n : InlineNode} {ss : List (Segment Float)} {ps : List (Point Float)}
    (h : HavePoints ss ps) : HavePoints (.node n :: ss) ps

theorem Segment.havePoints_iff {ss : List (Segment Float)} {ps : List (Point Float)} :
    HavePoints ss ps ↔ ps = ss.filterMap point? := by
  constructor
  · intro h
    induction h with
    | nil => rfl
    | point _ ih => exact congrArg _ ih
    | operator _ ih => exact ih
    | node _ ih => exact ih
  · rintro rfl
    induction ss with
    | nil => exact .nil
    | cons s ss ih =>
      cases s with
      | point p => exact .point ih
      | operator o => exact .operator ih
      | node n => exact .node ih

namespace Token

/-- The points of a token: that of a coordinate or a node, those of a path in order, and the centre
of a circle. -/
inductive HasPoints : Token → List (Point Float) → Prop
  | raw (text : Text) : HasPoints (.raw text) []
  | coordinate (c : NamedCoordinate) : HasPoints (.coordinate c) [c.point]
  | node (n : PlacedNode) : HasPoints (.node n) [n.point]
  | path {d : DrawnPath Float} {ps : List (Point Float)} (h : Segment.HavePoints d.segments ps) :
    HasPoints (.path d) ps
  | circle (c : Circle) : HasPoints (.circle c) [c.centre]
  | angle (m : AngleMark) : HasPoints (.angle m) []
  | axes (a : Axes) : HasPoints (.axes a) []
  | grid (g : Grid) : HasPoints (.grid g) []

/-- The points of tokens, in the order of the tokens. -/
inductive HavePoints : List Token → List (Point Float) → Prop
  | nil : HavePoints [] []
  | cons {token : Token} {tokens : List Token} {ps qs : List (Point Float)}
    (h : token.HasPoints ps) (more : HavePoints tokens qs) : HavePoints (token :: tokens) (ps ++ qs)

theorem hasPoints_iff {token : Token} {ps : List (Point Float)} :
    token.HasPoints ps ↔ ps = token.points := by
  constructor
  · rintro (_ | _ | _ | h | _ | _ | _ | _)
    case path => exact Segment.havePoints_iff.1 h
    all_goals rfl
  · rintro rfl
    cases token with
    | raw text => exact .raw text
    | coordinate c => exact .coordinate c
    | node n => exact .node n
    | path d => exact .path (Segment.havePoints_iff.2 rfl)
    | circle c => exact .circle c
    | angle m => exact .angle m
    | axes a => exact .axes a
    | grid g => exact .grid g

theorem havePoints_iff {tokens : List Token} {ps : List (Point Float)} :
    HavePoints tokens ps ↔ ps = Document.pointsOf tokens := by
  constructor
  · intro h
    induction h with
    | nil => rfl
    | cons h _ ih =>
      rw [hasPoints_iff.1 h, ih]
      rfl
  · rintro rfl
    induction tokens with
    | nil => exact .nil
    | cons token tokens ih => exact .cons (hasPoints_iff.2 rfl) ih

end Token

/-- The mean does not depend on quadrants. -/
theorem Point.mean?_classify (midpoint : Vec Float) (points : List (Point Float)) :
    Point.mean? (points.map (Point.classify · midpoint)) = Point.mean? points := by
  rw [mean?, mean?, List.map_map]
  rfl

theorem exists_finish_of_ofSource {source : Text} {d : Document}
    (h : Document.ofSource source = .ok d) :
    ∃ ls tokens, lexPlaced source = .ok ls ∧ buildAll {} ls = .ok (tokens, d.scope) ∧
      d = Document.finish tokens d.scope := by
  rw [Document.ofSource] at h
  cases hlex : lexPlaced source with
  | error e =>
    rw [hlex] at h
    exact absurd h nofun
  | ok ls =>
    rw [hlex] at h
    obtain ⟨⟨tokens, scope⟩, hbuild, rfl⟩ := map_eq_ok_iff.1 h
    exact ⟨ls, tokens, rfl, hbuild, rfl⟩

/-- What a document has of the tokens built for its source. They are all there in order, with their
points where they were, and only inline nodes have got flags. If they have points, the midpoint is
their mean, and every point has its quadrant around the midpoint. -/
theorem annotation_keeps_tokens {source : Text} {d : Document}
    (h : Document.ofSource source = .ok d) :
    ∃ ls tokens points annotated, lexPlaced source = .ok ls ∧
      buildAll {} ls = .ok (tokens, d.scope) ∧ List.Forall₂ Token.Annotated tokens d.tokens ∧
      Token.HavePoints tokens points ∧ Token.HavePoints d.tokens annotated ∧
      (annotated = [] ∧ d.midpoint = none ∨
        ∃ m, d.midpoint = some m ∧ Point.IsMean points m ∧ Point.IsMean annotated m ∧
          ∀ p ∈ annotated, p.quadrant = some (Quadrant.classify p.position m.position)) := by
  obtain ⟨ls, tokens, hlex, hbuild, hd⟩ := exists_finish_of_ofSource h
  have hmidpoint : d.midpoint = Point.mean? (Document.pointsOf tokens) := by rw [hd]; rfl
  have htokens : d.tokens = d.midpoint.elim tokens fun m ↦
      tokens.map (Token.annotate m.position) := by rw [hd]; rfl
  refine ⟨ls, tokens, _, _, hlex, hbuild, ?_, Token.havePoints_iff.2 rfl,
    Token.havePoints_iff.2 rfl, ?_⟩
  · rw [htokens]
    cases d.midpoint with
    | none => exact List.forall₂_same.2 fun token _ ↦ .refl token
    | some m =>
      exact List.forall₂_map_right_iff.2 (List.forall₂_same.2 fun token _ ↦
        token.annotated_annotate m.position)
  · cases hmean : Point.mean? (Document.pointsOf tokens) with
    | none =>
      rw [hmidpoint, hmean] at htokens
      obtain rfl : d.tokens = tokens := htokens
      exact .inl ⟨Point.mean?_eq_none_iff.1 hmean, hmidpoint.trans hmean⟩
    | some m =>
      rw [hmidpoint, hmean] at htokens
      have hpoints : Document.pointsOf d.tokens =
          (Document.pointsOf tokens).map (Point.classify · m.position) := by
        rw [htokens]
        exact Document.pointsOf_annotate _ _
      rw [hpoints]
      refine .inr ⟨m, hmidpoint.trans hmean, Point.isMean_iff.2 hmean, Point.isMean_iff.2 ?_,
        fun p hp ↦ ?_⟩
      · rw [Point.mean?_classify, hmean]
      · obtain ⟨q, _, rfl⟩ := List.mem_map.1 hp
        rfl

/-- A coordinate, a node, a line with a red label on it and a circle around `(4,4)`. -/
def labelledLineSource : Text :=
  ("\\coor\x7b0,0\x7d\x7bA\x7d\x7b\x7d\x7b\x7d\\node\x7b4,0\x7d\x7by\x7d\x7b\x7d" ++
    "\\draw (A)-- node[red]\x7bx\x7d (2,1);" ++
    "\\circle\x7b5,4\x7d\x7b4,5\x7d\x7b3,4\x7d\x7b\x7d").toList

theorem annotation_keeps_tokens_labelled :
    ∃ d ls tokens m points, Document.ofSource labelledLineSource = .ok d ∧
      buildAll {} ls = .ok (tokens, d.scope) ∧ List.Forall₂ Token.Annotated tokens d.tokens ∧
      Token.HavePoints d.tokens points ∧
      points.map (fun p ↦ (p.position, p.quadrant)) =
        [(⟨0, 0⟩, some .lowerLeft), (⟨4, 0⟩, some .lowerRight), (⟨0, 0⟩, some .lowerLeft),
          (⟨2, 1⟩, some .lowerLeft), (⟨4, 4⟩, some .upperRight)] ∧
      d.midpoint = some m ∧ Point.IsMean points m ∧ m.position = ⟨2, 1⟩ ∧
      ∀ p ∈ points, p.quadrant = some (Quadrant.classify p.position m.position) := by
  have hfound : (Document.ofSource labelledLineSource).map (fun d ↦
      ((Document.pointsOf d.tokens).map fun p ↦ (p.position, p.quadrant),
        d.midpoint.map Point.position)) =
      .ok ([(⟨0, 0⟩, some .lowerLeft), (⟨4, 0⟩, some .lowerRight), (⟨0, 0⟩, some .lowerLeft),
        (⟨2, 1⟩, some .lowerLeft), (⟨4, 4⟩, some .upperRight)], some ⟨2, 1⟩) := by
    decide +kernel
  obtain ⟨d, hd, hpair⟩ := map_eq_ok_iff.1 hfound
  obtain ⟨hplaces, hmidpoint⟩ := Prod.mk.inj hpair
  obtain ⟨ls, tokens, _, points, _, hbuild, hannotated, _, hpoints,
    ⟨_, hnone⟩ | ⟨m, hm, _, hmean, hquadrants⟩⟩ := annotation_keeps_tokens hd
  · rw [hnone] at hmidpoint
    exact absurd hmidpoint nofun
  · rw [hm] at hmidpoint
    rw [← Token.havePoints_iff.1 hpoints] at hplaces
    exact ⟨d, ls, tokens, m, points, hd, hbuild, hannotated, hpoints, hplaces, hm, hmean,
      Option.some.inj hmidpoint, hquadrants⟩

end DiagramMacros
