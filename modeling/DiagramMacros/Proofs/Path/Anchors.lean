import DiagramMacros.Proofs.Path.Reading
/-!
Where the points of a path come from. Each coordinate of a path that is read stands for itself, or,
if the last operator since the point before it is relative, for a step from its base: the last point
before it that is not itself the end of a line that leaves the pen where it is. A body is rejected
for a missing anchor just where such a coordinate is the first of the body
(`points_after_operators`).
-/

set_option autoImplicit false
set_option relaxedAutoImplicit false

namespace DiagramMacros.DrawnPath

open Segment Text

variable {style : Style} {body : Text} {scope : Scope}

theorem exists_row_of_read {d : DrawnPath Float} (h : read style body scope = .ok d) :
    ∃ row last pen, Row body row last ∧ trimStart last = [] ∧
      Pen.trace scope {} (row.map PlacedToken.token) = .ok (d.segments, pen) := by
  obtain ⟨row, last, hread⟩ := exists_isRead body
  rw [read_eq hread] at h
  obtain ⟨⟨segments, pen⟩, htrace, hend⟩ := bind_eq_ok_iff.1 h
  split at hend
  · rename_i hnil
    obtain rfl := Except.ok.inj hend
    exact ⟨row, last, pen, hread.isRow, hnil, htrace⟩
  · simp at hend

/-- In a path that is read every coordinate has become the point that its operator and its base make
of the value of its expression. -/
theorem points_of_read {d : DrawnPath Float} (h : read style body scope = .ok d) :
    ∃ row last, Row body row last ∧ trimStart last = [] ∧
      List.Forall₂ StandsFor (row.map PlacedToken.token) d.segments ∧
      ∀ (i : Nat) (expression : Text),
        (row.map PlacedToken.token)[i]? = some (.coordinate expression) →
          ∃ value p, scope.resolve expression = .ok value ∧ d.segments[i]? = some (.point p) ∧
            PointAfter (d.segments.take i).reverse value p := by
  obtain ⟨row, last, pen, hrow, hnil, htrace⟩ := exists_row_of_read h
  refine ⟨row, last, hrow, hnil, Pen.forall₂_standsFor htrace, fun i expression hi ↦ ?_⟩
  simpa using (Pen.follows_start.trace htrace).2 i expression hi

/-- The first coordinate that there is a pass for lacks an anchor. -/
theorem read_eq_missingAnchor_iff :
    read style body scope = .error .missingAnchor ↔
      ∃ row w last expression segments pen, Row body (row ++ [w]) last ∧
        row.length < 100 ∧ w.token = .coordinate expression ∧
        Pen.trace scope {} (row.map PlacedToken.token) = .ok (segments, pen) ∧
        pen.LacksAnchor := by
  constructor
  · intro h
    obtain ⟨row, last, hread⟩ := exists_isRead body
    rw [read_eq hread] at h
    rcases bind_eq_error_iff.1 h with htrace | ⟨_, _, hend⟩
    · obtain ⟨before, expression, after, segments, pen, htokens, hbefore, hresolve⟩ :=
        Pen.trace_eq_error_iff.1 htrace
      obtain ⟨row', more, rfl, rfl, hmore⟩ := List.map_eq_append_iff.1 htokens
      obtain ⟨w, later, rfl, hw, _⟩ := List.map_eq_cons_iff.1 hmore
      have hrow := hread.isRow
      have hlength := hread.length_le
      rw [List.append_cons, row_append_iff] at hrow
      rw [List.length_append, List.length_cons] at hlength
      obtain ⟨mid, hfirst, _⟩ := hrow
      exact ⟨row', w, mid, expression, segments, pen, hfirst, by omega, hw, hbefore,
        Pen.resolve_eq_missingAnchor_iff.1 hresolve⟩
    · split at hend <;> simp at hend
  · rintro ⟨row, w, last, expression, segments, pen, hrow, hlength, hw, htrace, hlacks⟩
    exact read_eq_error_of_resolve hrow hlength htrace hw
      (Pen.resolve_eq_missingAnchor_iff.2 hlacks)

/-- In a path that is read every coordinate has become the sum of its base and the value of its
expression, if it is a step, and otherwise the value alone. A body is rejected for a missing anchor
just when it has a step, among its first hundred tokens and with nothing before it that fails, that
has no point before it, whatever its expression is. -/
theorem points_after_operators (style : Style) (body : Text) (scope : Scope) :
    (∀ d, read style body scope = .ok d →
      ∃ row last, Row body row last ∧ trimStart last = [] ∧
        List.Forall₂ StandsFor (row.map PlacedToken.token) d.segments ∧
        ∀ (i : Nat) (expression : Text),
          (row.map PlacedToken.token)[i]? = some (.coordinate expression) →
            ∃ value p, scope.resolve expression = .ok value ∧ d.segments[i]? = some (.point p) ∧
              PointAfter (d.segments.take i).reverse value p) ∧
    (read style body scope = .error .missingAnchor ↔
      ∃ row w last expression segments pen, Row body (row ++ [w]) last ∧
        row.length < 100 ∧ w.token = .coordinate expression ∧
        Pen.trace scope {} (row.map PlacedToken.token) = .ok (segments, pen) ∧
        IsStep segments.reverse ∧ ∀ p, .point p ∉ segments) := by
  constructor
  · exact fun d h ↦ points_of_read h
  · rw [read_eq_missingAnchor_iff]
    have hlacks : ∀ {row : List PlacedToken} {segments : List (Segment Float)} {pen : Pen},
        Pen.trace scope {} (row.map PlacedToken.token) = .ok (segments, pen) →
        (pen.LacksAnchor ↔ IsStep segments.reverse ∧ ∀ p, .point p ∉ segments) := by
      intro row segments pen htrace
      have hfollows := (Pen.follows_start.trace htrace).1
      rw [List.append_nil] at hfollows
      simpa using hfollows.lacksAnchor_iff
    constructor
    · rintro ⟨row, w, last, expression, segments, pen, hrow, hlength, hw, htrace, h⟩
      exact ⟨row, w, last, expression, segments, pen, hrow, hlength, hw, htrace,
        (hlacks htrace).1 h⟩
    · rintro ⟨row, w, last, expression, segments, pen, hrow, hlength, hw, htrace, h⟩
      exact ⟨row, w, last, expression, segments, pen, hrow, hlength, hw, htrace,
        (hlacks htrace).2 h⟩

/-- A step from a point, and a relative coordinate with no point before it that could not be read
either. -/
theorem points_after_operators_step :
    let p : Point Float := Point.ofVec ⟨1, 2⟩
    let scope : Scope := ⟨[("A".toList, p)]⟩
    (∃ d q, read {} "(A)--+(A)".toList scope = .ok d ∧
      d.segments = [.point p, .operator .relativeLine, .point q] ∧ q.position = ⟨2, 4⟩) ∧
    read {} "--+(?)".toList scope = .error .missingAnchor ∧
      ∃ row w last, Row "--+(?)".toList (row ++ [w]) last ∧
        ∃ expression, w.token = .coordinate expression := by
  intro p scope
  constructor
  · have hok : (read {} "(A)--+(A)".toList scope).isOk := by decide +kernel
    obtain ⟨d, hd⟩ := exists_of_isOk hok
    have hexpression : Expression.read? (trim "A".toList) = some (.name "A".toList) := by
      decide +kernel
    have hresolve : scope.resolve "A".toList = .ok p := by
      rw [Scope.resolve, hexpression]
      rfl
    have hpoint : ∀ rest : Text, Rule.pathCoordinate.parse ("(A)".toList ++ rest) =
        some (.node .pathCoordinate (.text "(" (.text [] (.node .parenBody (.text "A" .nil)
          (.text [] (.text ")" .nil))))) .nil, rest) →
        TokenAt ("(A)".toList ++ rest) (.coordinate "A".toList) rest := fun _ ↦ TokenAt.coordinate
    have hline : TokenAt ("--+".toList ++ "(A)".toList) (.operator .relativeLine) "(A)".toList :=
      @TokenAt.operator _ .relativeLine _ (.text "--" (.text [] (.text "+" .nil))) _
        (by decide +kernel) rfl
    have hrow : Row "(A)--+(A)".toList _ [] :=
      @Row.token [] _ _ _ _ _ rfl (hpoint "--+(A)".toList (by decide +kernel))
        (@Row.token [] _ _ _ _ _ rfl hline
          (@Row.token [] _ _ _ _ _ rfl (hpoint [] (by decide +kernel)) Row.stop))
    obtain ⟨row, last, hrow', hnil, hstands, hpoints⟩ :=
      (points_after_operators {} "(A)--+(A)".toList scope).1 d hd
    obtain ⟨rfl, rfl⟩ := hrow'.unique (hnil ▸ noToken_nil) hrow noToken_nil
    obtain ⟨style, segments⟩ := d
    obtain _ | ⟨⟨p₁⟩, _ | ⟨⟨o⟩, _ | ⟨⟨p₂⟩, _ | _⟩⟩⟩ := hstands
    obtain ⟨value₁, _, hvalue₁, hp₁, hpoint₁⟩ := hpoints 0 "A".toList rfl
    obtain ⟨value₂, q, hvalue₂, hp₂, hpoint₂⟩ := hpoints 2 "A".toList rfl
    obtain rfl : p = value₁ := Except.ok.inj (hresolve.symm.trans hvalue₁)
    obtain rfl : p = value₂ := Except.ok.inj (hresolve.symm.trans hvalue₂)
    obtain rfl := Segment.point.inj (Option.some.inj hp₁)
    obtain rfl : q = _ := (Segment.point.inj (Option.some.inj hp₂)).symm
    -- The first coordinate stands for itself, and the second one is a step from it.
    cases hpoint₁ with
    | step hstep => simp [IsStep, governing] at hstep
    | alone =>
      cases hpoint₂ with
      | alone h => exact absurd (Or.inl rfl) h
      | step _ hanchor hsum =>
        obtain rfl := Option.some.inj hanchor
        have hposition : q.position = ⟨2, 4⟩ := by
          calc q.position = ⟨p.position.x + p.position.x, p.position.y + p.position.y⟩ := by
                rw [← hsum.x, ← hsum.y]
            _ = ⟨1 + 1, 2 + 2⟩ := rfl
            _ = ⟨2, 4⟩ := by decide +kernel
        exact ⟨_, q, hd, rfl, hposition⟩
  · have hread : (read {} "--+(?)".toList scope).map (fun _ ↦ 0) = .error .missingAnchor := by
      decide +kernel
    have hmissing := map_eq_error_iff.1 hread
    obtain ⟨row, w, last, expression, _, _, hrow, _, hw, _⟩ :=
      (points_after_operators {} "--+(?)".toList scope).2.1 hmissing
    exact ⟨hmissing, row, w, last, hrow, expression, hw⟩

end DiagramMacros.DrawnPath
