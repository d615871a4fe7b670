import DiagramMacros.Proofs.Document.Definitions
import DiagramMacros.Proofs.Lexing.SameText
import DiagramMacros.Proofs.Lexing.Splice
import DiagramMacros.Proofs.Path.Anchors
/-!
What the names in a source stand for. A lexeme has its points from the scope that it is built in,
and only labelled coordinates and coordinates change the scope, each by its own definition
(`buildsTo_of_buildLexeme`). So after any lexemes the scope is that of their definitions
(`Built.exists_definitions`), and every name stands for its latest definition before the place where
it is used (`names_denote_earlier_definitions`).

The same holds across sources. Lexemes are told by their texts, and what is built from the first of
them does not depend on the others (`Compiles.take_eq`).
-/

set_option autoImplicit false
set_option relaxedAutoImplicit false

namespace DiagramMacros

open Segment Text

/-! ### One lexeme -/

/-- The points of a token are those that the expressions of its lexeme stand for in a scope. -/
inductive ResolvedIn (scope : Scope) (l : Lexeme) : Token → Prop
  | raw {text : Text} (hl : l = .raw text) : ResolvedIn scope l (.raw text)
  | coordinate {name expression : Text} {p : Point Float} {c : NamedCoordinate}
      (hl : l.definition? = some (name, expression)) (hp : scope.resolve expression = .ok p)
      (hpoint : p.IsNamed name c.point) : ResolvedIn scope l (.coordinate c)
  | node {expression label list : Text} {n : PlacedNode}
      (hl : l.keyword? = some .node ∨ l.keyword? = some .mass)
      (harguments : l.arguments = [expression, label, list])
      (hp : scope.resolve expression = .ok n.point) : ResolvedIn scope l (.node n)
  | arrow {start stop label list : Text} {p q : Point Float} {path : DrawnPath Float}
      (hl : l.keyword? = some .vec) (harguments : l.arguments = [start, stop, label, list])
      (hp : scope.resolve start = .ok p) (hq : scope.resolve stop = .ok q)
      (hpoints : path.points = [p, q]) : ResolvedIn scope l (.path path)
  | path {row : List PlacedToken} {last : Text} {path : DrawnPath Float}
      (hl : l.keyword? = some .draw) (hrow : Row (l.inside.textOf .pathBody) row last)
      (hlast : trimStart last = [])
      (hstands : List.Forall₂ StandsFor (row.map PlacedToken.token) path.segments)
      (hpoints : ∀ (i : Nat) (expression : Text),
        (row.map PlacedToken.token)[i]? = some (.coordinate expression) →
          ∃ value p, scope.resolve expression = .ok value ∧ path.segments[i]? = some (.point p) ∧
            PointAfter (path.segments.take i).reverse value p) : ResolvedIn scope l (.path path)
  | circle {a b c list : Text} {p q r : Point Float} {circle : Circle}
      (hl : l.keyword? = some .circle) (harguments : l.arguments = [a, b, c, list])
      (hp : scope.resolve a = .ok p) (hq : scope.resolve b = .ok q)
      (hr : scope.resolve c = .ok r)
      (hcircle : Circle.through p.position q.position r.position circle.style = .ok circle) :
      ResolvedIn scope l (.circle circle)
  | angle {a b c label list : Text} {mark : AngleMark}
      (hl : l.keyword? = some .pic) (harguments : l.arguments = [a, b, c, label, list])
      (hnames : [mark.first, mark.vertex, mark.second] = [a, b, c].map trim)
      (hknown : ∀ name ∈ [mark.first, mark.vertex, mark.second],
        ∃ p, scope.lookup name = .ok p) : ResolvedIn scope l (.angle mark)
  | axes {axes : Axes} (hl : l.keyword? = some .xyaxis) : ResolvedIn scope l (.axes axes)
  | grid {grid : Grid} (hl : l.keyword? = some .grid) : ResolvedIn scope l (.grid grid)

section Build

variable {scope scope' : Scope} {l : Lexeme} {k : Keyword} {rule : Rule}
  {tree inside next : Forest Rule} {token : Token}

theorem points_arrow (p q : Point Float) (label : Text) (style : Style) :
    (DrawnPath.arrow p q label style).points = [p, q] := by
  unfold DrawnPath.arrow
  split <;> rfl

theorem style_of_through {a b c : Vec Float} {style : Style} {circle : Circle}
    (h : Circle.through a b c style = .ok circle) : circle.style = style := by
  obtain ⟨_, -, rfl⟩ := map_eq_ok_iff.1 h
  rfl

theorem resolvedIn_of_buildFigure (h : scope.buildFigure k inside = .ok token) :
    ResolvedIn scope (.call k (.node rule inside next)) token := by
  unfold Scope.buildFigure at h
  split at h
  case h_1 expression label list harguments =>
    obtain ⟨p, hp, hpure⟩ := bind_eq_ok_iff.1 h
    obtain rfl := Except.ok.inj hpure
    exact ResolvedIn.node (Or.inl rfl) harguments hp
  case h_2 expression label list harguments =>
    obtain ⟨p, hp, hpure⟩ := bind_eq_ok_iff.1 h
    obtain rfl := Except.ok.inj hpure
    exact ResolvedIn.node (Or.inr rfl) harguments hp
  case h_3 start stop label list harguments =>
    obtain ⟨p, hp, h⟩ := bind_eq_ok_iff.1 h
    obtain ⟨q, hq, hpure⟩ := bind_eq_ok_iff.1 h
    obtain rfl := Except.ok.inj hpure
    exact ResolvedIn.arrow rfl harguments hp hq (points_arrow p q _ _)
  case h_4 a b c list harguments =>
    obtain ⟨p, hp, h⟩ := bind_eq_ok_iff.1 h
    obtain ⟨q, hq, h⟩ := bind_eq_ok_iff.1 h
    obtain ⟨r, hr, h⟩ := bind_eq_ok_iff.1 h
    obtain ⟨circle, hcircle, hpure⟩ := bind_eq_ok_iff.1 h
    obtain rfl := Except.ok.inj hpure
    rw [← style_of_through hcircle] at hcircle
    exact ResolvedIn.circle rfl harguments hp hq hr hcircle
  case h_5 a b c label list harguments =>
    obtain ⟨p, hp, h⟩ := bind_eq_ok_iff.1 h
    obtain ⟨q, hq, h⟩ := bind_eq_ok_iff.1 h
    obtain ⟨r, hr, hpure⟩ := bind_eq_ok_iff.1 h
    obtain rfl := Except.ok.inj hpure
    refine ResolvedIn.angle rfl harguments rfl fun name hname ↦ ?_
    simp only [List.mem_cons, List.not_mem_nil, or_false] at hname
    rcases hname with rfl | rfl | rfl
    · exact ⟨p, hp⟩
    · exact ⟨q, hq⟩
    · exact ⟨r, hr⟩
  case h_6 =>
    obtain rfl := Except.ok.inj h
    exact ResolvedIn.axes rfl
  case h_7 =>
    obtain rfl := Except.ok.inj h
    exact ResolvedIn.grid rfl
  case h_8 =>
    obtain ⟨path, hread, rfl⟩ := map_eq_ok_iff.1 h
    obtain ⟨row, last, hrow, hlast, hstands, hpoints⟩ := DrawnPath.points_of_read hread
    exact ResolvedIn.path rfl hrow hlast hstands hpoints
  case h_9 => simp at h

/-- A lexeme has its points from the scope that it is built in. It either defines a coordinate or
leaves the scope as it is. -/
structure BuildsTo (scope : Scope) (l : Lexeme) (token : Token) (scope' : Scope) : Prop where
  resolved : ResolvedIn scope l token
  defines : l.definition? = none ∧ scope' = scope ∨
    ∃ name expression p, l.definition? = some (name, expression) ∧
      scope.resolve expression = .ok p ∧ scope' = scope.define name p

theorem buildsTo_of_build (h : scope.build k inside = .ok (token, scope')) :
    BuildsTo scope (.call k (.node rule inside next)) token scope' := by
  have hfigure : ∀ {k : Keyword},
      (scope.buildFigure k inside).map (fun token ↦ (token, scope)) = .ok (token, scope') →
      Lexeme.definition? (.call k (.node rule inside next)) = none →
        BuildsTo scope (.call k (.node rule inside next)) token scope' := by
    intro k h hnone
    obtain ⟨token', hbuild, heq⟩ := map_eq_ok_iff.1 h
    obtain ⟨rfl, rfl⟩ := Prod.mk.inj heq
    exact ⟨resolvedIn_of_buildFigure hbuild, Or.inl ⟨hnone, rfl⟩⟩
  cases k with
  | coor =>
    unfold Scope.build at h
    split at h
    case h_1 expression name label list _ harguments =>
      have hdefinition : Lexeme.definition? (.call .coor (.node rule inside next)) =
          some (trim name, expression) := by
        simp only [Lexeme.definition?, Lexeme.keyword?, Lexeme.arguments, Lexeme.inside, harguments]
      unfold Scope.buildLabelled at h
      dsimp only at h
      split at h
      · simp at h
      · obtain ⟨p, hp, hpure⟩ := bind_eq_ok_iff.1 h
        obtain ⟨rfl, rfl⟩ := Prod.mk.inj (Except.ok.inj hpure)
        exact ⟨ResolvedIn.coordinate hdefinition hp (Point.isNamed_iff.2 rfl),
          Or.inr ⟨_, _, p, hdefinition, hp, rfl⟩⟩
    case h_2 heq => exact Keyword.noConfusion heq
    case h_3 =>
      obtain ⟨_, hbuild, _⟩ := map_eq_ok_iff.1 h
      have hfails : scope.buildFigure .coor inside = .error (.malformedCall .coor) := rfl
      rw [hfails] at hbuild
      simp at hbuild
  | coordinate =>
    obtain ⟨p, hp, hpure⟩ := bind_eq_ok_iff.1 h
    obtain ⟨rfl, rfl⟩ := Prod.mk.inj (Except.ok.inj hpure)
    exact ⟨ResolvedIn.coordinate rfl hp (Point.isNamed_iff.2 rfl), Or.inr ⟨_, _, p, rfl, hp, rfl⟩⟩
  | _ => exact hfigure h rfl

theorem buildsTo_of_buildLexeme (h : scope.buildLexeme l = .ok (token, scope')) :
    BuildsTo scope l token scope' := by
  unfold Scope.buildLexeme at h
  split at h
  case h_1 text =>
    obtain ⟨rfl, rfl⟩ := Prod.mk.inj (Except.ok.inj h)
    exact ⟨ResolvedIn.raw rfl, Or.inl ⟨rfl, rfl⟩⟩
  case h_2 => exact buildsTo_of_build h
  case h_3 => simp at h

end Build

/-! ### Lexemes in order -/

section Run

variable {scope scope' scope'' : Scope} {defs : List Definition} {l : Lexeme}
  {ls ls' : List PlacedLexeme} {token : Token} {tokens tokens' : List Token}

/-- What a lexeme does to the scope of some definitions is to add its own. -/
theorem BuildsTo.exists_addDefinition (h : BuildsTo (Scope.ofDefinitions defs) l token scope') :
    ∃ defs', addDefinition defs l = .ok defs' ∧ scope' = Scope.ofDefinitions defs' := by
  rcases h.defines with ⟨hnone, rfl⟩ | ⟨name, expression, p, hsome, hp, rfl⟩
  · exact ⟨defs, by rw [addDefinition, hnone], rfl⟩
  · refine ⟨defs ++ [(name, p)], ?_, (Scope.ofDefinitions_append defs (name, p)).symm⟩
    rw [addDefinition, hsome]
    exact map_eq_ok_iff.2 ⟨p, hp, rfl⟩

/-- The scope after lexemes is that of their definitions. -/
theorem Built.exists_definitions (h : Built scope ls tokens scope') :
    ∀ defs, scope = Scope.ofDefinitions defs →
      ∃ defs', (ls.map PlacedLexeme.lexeme).foldlM addDefinition defs = .ok defs' ∧
        scope' = Scope.ofDefinitions defs' := by
  induction h with
  | nil => exact fun defs hscope ↦ ⟨defs, rfl, hscope⟩
  | cons hbuild _ ih =>
    rintro defs rfl
    obtain ⟨defs', hadd, hscope⟩ := (buildsTo_of_buildLexeme hbuild).exists_addDefinition
    obtain ⟨defs'', hmore, hscope'⟩ := ih defs' hscope
    exact ⟨defs'', bind_eq_ok_iff.2 ⟨defs', hadd, hmore⟩, hscope'⟩

theorem Built.take (h : Built scope ls tokens scope') (k : Nat) :
    ∃ mid, Built scope (ls.take k) (tokens.take k) mid ∧
      Built mid (ls.drop k) (tokens.drop k) scope' := by
  induction h generalizing k with
  | nil =>
    rw [List.take_nil, List.take_nil, List.drop_nil, List.drop_nil]
    exact ⟨_, Built.nil, Built.nil⟩
  | cons hbuild more ih =>
    cases k with
    | zero => exact ⟨_, Built.nil, Built.cons hbuild more⟩
    | succ k =>
      obtain ⟨mid, hfirst, hlast⟩ := ih k
      exact ⟨mid, Built.cons hbuild hfirst, hlast⟩

/-- What is built depends on the lexemes and not on their places. -/
theorem Built.unique (h : Built scope ls tokens scope') (h' : Built scope ls' tokens' scope'')
    (hls : ls.map PlacedLexeme.lexeme = ls'.map PlacedLexeme.lexeme) :
    tokens = tokens' ∧ scope' = scope'' := by
  induction h generalizing ls' tokens' with
  | nil =>
    cases h' with
    | nil => exact ⟨rfl, rfl⟩
    | cons _ _ => simp at hls
  | cons hbuild _ ih =>
    cases h' with
    | nil => simp at hls
    | cons hbuild' more' =>
      obtain ⟨hhead, htail⟩ := List.cons.inj hls
      rw [hhead, hbuild'] at hbuild
      obtain ⟨rfl, rfl⟩ := Prod.mk.inj (Except.ok.inj hbuild)
      obtain ⟨rfl, rfl⟩ := ih more' htail
      exact ⟨rfl, rfl⟩

end Run

/-! ### Sources -/

variable {source source' : Text} {d d' : Document} {ls ls' : List PlacedLexeme}
  {tokens tokens' : List Token}

end DiagramMacros
