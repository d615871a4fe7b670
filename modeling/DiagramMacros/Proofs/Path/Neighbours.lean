import DiagramMacros.Proofs.Path.Flags
/-!
The points that place a node. Before the node in place `i` goes the last point before place `i`; on
a closed path without one, the last point of the path (`DrawnPath.Precedes`). After it goes the
first point behind place `i`; on a closed path without one, the first point of the path
(`DrawnPath.Follows`). These are the neighbours that the lists on both sides of the node give,
unless they are one and the same point (`DrawnPath.neighbours_eq_some_iff`). So it can be said place
by place what becomes of the segments of a path, down to the entries of their styles
(`DrawnPath.PlacedAt`).

Placing looks only at the points and at the styles of the nodes, it leaves the points, and flags
that a style has got do not change it when they are put again. That makes it idempotent, and with it
the annotation around a midpoint.
-/

set_option autoImplicit false
set_option relaxedAutoImplicit false

namespace DiagramMacros

namespace Segment

variable {K : Type}

theorem point?_eq_some_iff {s : Segment K} {p : Point K} : s.point? = some p ↔ s = .point p := by
  cases s <;> simp [point?]

theorem points_point_cons (p : Point K) (ss : List (Segment K)) :
    (point p :: ss).filterMap point? = p :: ss.filterMap point? := rfl

theorem points_node_cons (n : InlineNode) (ss : List (Segment K)) :
    (node n :: ss).filterMap point? = ss.filterMap point? := rfl

end Segment

namespace DrawnPath

variable {K : Type}

/-! ### The first point from a place on, and the last one before it -/

/-- The first point in place `n` or behind it is `p`, in place `j`. -/
structure IsFirst (ss : List (Segment K)) (n j : Nat) (p : Point K) : Prop where
  from_le : n ≤ j
  point : ss[j]? = some (.point p)
  le : ∀ k q, n ≤ k → ss[k]? = some (.point q) → j ≤ k

/-- The last point before place `n` is `p`, in place `j`. -/
structure IsLast (ss : List (Segment K)) (n j : Nat) (p : Point K) : Prop where
  lt : j < n
  point : ss[j]? = some (.point p)
  le : ∀ k q, k < n → ss[k]? = some (.point q) → k ≤ j

section Places

variable {ss : List (Segment K)} {s : Segment K} {n j k : Nat} {p : Point K}

theorem getElem?_take_eq_some_iff : (ss.take n)[k]? = some s ↔ k < n ∧ ss[k]? = some s := by
  rw [List.getElem?_take]
  by_cases hk : k < n <;> simp [hk]

/-- A row of segments without points. -/
theorem points_eq_nil_iff :
    ss.filterMap Segment.point? = [] ↔ ∀ (k : Nat) (q : Point K), ss[k]? ≠ some (.point q) := by
  rw [List.filterMap_eq_nil_iff]
  constructor
  · intro h k q hk
    exact absurd (h _ (List.mem_iff_getElem?.2 ⟨k, hk⟩)) nofun
  · intro h s hs
    obtain ⟨k, hk⟩ := List.mem_iff_getElem?.1 hs
    refine Option.eq_none_iff_forall_ne_some.2 fun q hq ↦ h k q ?_
    rw [hk, Segment.point?_eq_some_iff.1 hq]

theorem points_take_eq_nil_iff :
    (ss.take n).filterMap Segment.point? = [] ↔
      ∀ (k : Nat) (q : Point K), k < n → ss[k]? ≠ some (.point q) := by
  simp only [points_eq_nil_iff, ne_eq, getElem?_take_eq_some_iff, not_and]

theorem points_drop_eq_nil_iff :
    (ss.drop n).filterMap Segment.point? = [] ↔
      ∀ (k : Nat) (q : Point K), n ≤ k → ss[k]? ≠ some (.point q) := by
  rw [points_eq_nil_iff]
  constructor
  · intro h k q hk
    obtain ⟨m, rfl⟩ := Nat.exists_eq_add_of_le hk
    exact List.getElem?_drop ▸ h m q
  · intro h k q
    rw [List.getElem?_drop]
    exact h _ q (Nat.le_add_right n k)

/-- The points of a path are those before a place, that of the segment there, and those behind. -/
theorem points_eq_append_cons (h : ss[j]? = some s) :
    ss.filterMap Segment.point? =
      (ss.take j).filterMap Segment.point? ++ (s :: ss.drop (j + 1)).filterMap Segment.point? := by
  obtain ⟨hj, hget⟩ := List.getElem?_eq_some_iff.1 h
  calc ss.filterMap Segment.point?
      = (ss.take j ++ ss.drop j).filterMap Segment.point? := by rw [List.take_append_drop]
    _ = _ := by rw [List.drop_eq_getElem_cons hj, hget, List.filterMap_append]

theorem exists_isFirst_iff :
    (∃ j, IsFirst ss n j p) ↔ ((ss.drop n).filterMap Segment.point?).head? = some p := by
  constructor
  · rintro ⟨j, hfrom, hpoint, hle⟩
    obtain ⟨m, rfl⟩ := Nat.exists_eq_add_of_le hfrom
    rw [← List.getElem?_drop] at hpoint
    have hbefore : ((ss.drop n).take m).filterMap Segment.point? = [] := by
      refine points_take_eq_nil_iff.2 fun k q hkm hk ↦ ?_
      have := hle _ q (Nat.le_add_right n k) (List.getElem?_drop ▸ hk)
      omega
    rw [points_eq_append_cons hpoint, hbefore]
    rfl
  · intro h
    obtain ⟨ps, hps⟩ := List.head?_eq_some_iff.1 h
    obtain ⟨us, s, vs, hsplit, hus, hs, -⟩ := List.filterMap_eq_cons_iff.1 hps
    obtain rfl := Segment.point?_eq_some_iff.1 hs
    have hget (m : Nat) : ss[n + m]? = (us ++ .point p :: vs)[m]? := by
      rw [← hsplit, List.getElem?_drop]
    refine ⟨n + us.length, Nat.le_add_right .., by simp [hget], fun k q hk hq ↦ ?_⟩
    obtain ⟨m, rfl⟩ := Nat.exists_eq_add_of_le hk
    by_contra hlt
    rw [hget, List.getElem?_append_left (by omega)] at hq
    exact absurd (hus _ (List.mem_iff_getElem?.2 ⟨m, hq⟩)) nofun

theorem exists_isLast_iff :
    (∃ j, IsLast ss n j p) ↔ ((ss.take n).filterMap Segment.point?).getLast? = some p := by
  constructor
  · rintro ⟨j, hlt, hpoint, hle⟩
    have hafter : ((ss.take n).drop (j + 1)).filterMap Segment.point? = [] := by
      refine points_drop_eq_nil_iff.2 fun k q hjk hk ↦ ?_
      obtain ⟨hkn, hk⟩ := getElem?_take_eq_some_iff.1 hk
      have := hle _ q hkn hk
      omega
    rw [points_eq_append_cons (getElem?_take_eq_some_iff.2 ⟨hlt, hpoint⟩),
      Segment.points_point_cons, hafter]
    exact List.getLast?_concat
  · intro h
    obtain ⟨ps, hps⟩ := List.getLast?_eq_some_iff.1 h
    obtain ⟨before, after, hsplit, -, hafter⟩ := List.filterMap_eq_append_iff.1 hps
    obtain ⟨us, s, vs, rfl, -, hs, hvs⟩ := List.filterMap_eq_cons_iff.1 hafter
    obtain rfl := Segment.point?_eq_some_iff.1 hs
    rw [← List.append_assoc] at hsplit
    have hget : (ss.take n)[(before ++ us).length]? = some (.point p) := by simp [hsplit]
    obtain ⟨hlt, hpoint⟩ := getElem?_take_eq_some_iff.1 hget
    refine ⟨_, hlt, hpoint, fun k q hk hq ↦ ?_⟩
    by_contra hgt
    obtain ⟨m, rfl⟩ := Nat.exists_eq_add_of_lt (Nat.lt_of_not_le hgt)
    have hin := getElem?_take_eq_some_iff.2 ⟨hk, hq⟩
    rw [hsplit, List.getElem?_append_right (by omega), Nat.add_assoc,
      Nat.add_sub_cancel_left] at hin
    exact points_eq_nil_iff.1 hvs m q hin

/-- A path with a point has no other if all of its points are in the place of that one. -/
theorem length_points_eq_one_iff (h : ss[j]? = some (.point p)) :
    (ss.filterMap Segment.point?).length = 1 ↔
      ∀ (k : Nat) (q : Point K), ss[k]? = some (.point q) → k = j := by
  have hlength : (ss.filterMap Segment.point?).length = 1 ↔
      (ss.take j).filterMap Segment.point? = [] ∧
        (ss.drop (j + 1)).filterMap Segment.point? = [] := by
    rw [points_eq_append_cons h, Segment.points_point_cons, List.length_append,
      List.length_cons, ← List.length_eq_zero_iff, ← List.length_eq_zero_iff]
    omega
  rw [hlength, points_take_eq_nil_iff, points_drop_eq_nil_iff]
  constructor
  · rintro ⟨hbefore, hafter⟩ k q hk
    rcases Nat.lt_trichotomy k j with hlt | rfl | hgt
    · exact absurd hk (hbefore k q hlt)
    · rfl
    · exact absurd hk (hafter k q hgt)
  · intro honly
    exact ⟨fun k q hlt hk ↦ Nat.ne_of_lt hlt (honly k q hk),
      fun k q hgt hk ↦ Nat.ne_of_gt hgt (honly k q hk)⟩

end Places

/-! ### The neighbours of a node -/

theorem isClosed_iff {d : DrawnPath K} : d.isClosed ↔ .operator .cycle ∈ d.segments := by
  rw [isClosed, List.any_eq_true]
  constructor
  · rintro ⟨s, hs, hcycle⟩
    cases s with
    | operator o => cases o <;> first | exact hs | exact Bool.noConfusion hcycle
    | _ => exact Bool.noConfusion hcycle
  · exact fun hcycle ↦ ⟨_, hcycle, rfl⟩

/-- The point `p` in place `j` goes before place `i`: it is the last one before it, or there is a
`cycle` in the path, there is no point before it, and `p` is the last point of all. -/
def Precedes (d : DrawnPath K) (i j : Nat) (p : Point K) : Prop :=
  IsLast d.segments i j p ∨
    .operator .cycle ∈ d.segments ∧ (∀ k q, k < i → d.segments[k]? ≠ some (.point q)) ∧
      IsLast d.segments d.segments.length j p

/-- The point `p` in place `j` goes after place `i`: it is the first one behind it, or there is a
`cycle` in the path, there is no point behind it, and `p` is the first point of all. -/
def Follows (d : DrawnPath K) (i j : Nat) (p : Point K) : Prop :=
  IsFirst d.segments (i + 1) j p ∨
    .operator .cycle ∈ d.segments ∧ (∀ k q, i < k → d.segments[k]? ≠ some (.point q)) ∧
      IsFirst d.segments 0 j p

section Neighbours

variable {d : DrawnPath K} {i j k : Nat} {p q : Point K} {n : InlineNode}

theorem Precedes.point (h : d.Precedes i j p) : d.segments[j]? = some (.point p) := by
  rcases h with h | ⟨-, -, h⟩ <;> exact h.point

theorem Follows.point (h : d.Follows i j p) : d.segments[j]? = some (.point p) := by
  rcases h with h | ⟨-, -, h⟩ <;> exact h.point

/-- If one place goes both before a node and after it, it is the only one with a point. -/
theorem Precedes.eq_of_follows (hnode : d.segments[i]? = some (.node n)) (hp : d.Precedes i j p)
    (hq : d.Follows i j q) {l : Nat} {r : Point K} (hr : d.segments[l]? = some (.point r)) :
    l = j := by
  have hne {m : Nat} {r : Point K} (hr : d.segments[m]? = some (.point r)) : m ≠ i := by
    rintro rfl
    exact absurd (hnode.symm.trans hr) nofun
  have hji := hne hp.point
  have hli := hne hr
  rcases hp with hlast | ⟨-, hnone, hlast⟩ <;> rcases hq with hfirst | ⟨-, hnone', hfirst⟩
  · have := hlast.lt
    have := hfirst.from_le
    omega
  · have hbefore : ¬i < l := fun hlt ↦ hnone' l r hlt hr
    have := hlast.le l r (by omega) hr
    have := hfirst.le l r (Nat.zero_le l) hr
    omega
  · have hafter : ¬l < i := fun hlt ↦ hnone l r hlt hr
    have := hlast.le l r (List.getElem?_eq_some_iff.1 hr).1 hr
    have := hfirst.le l r (by omega) hr
    omega
  · have hbefore : ¬i < j := fun hlt ↦ hnone' j p hlt hlast.point
    have hafter : ¬j < i := fun hlt ↦ hnone j p hlt hlast.point
    omega

theorem exists_precedes_iff (hnode : d.segments[i]? = some (.node n)) :
    (∃ j, d.Precedes i j p) ↔
      ((d.segments.take i).filterMap Segment.point?).getLast?.or
        (if d.isClosed then ((d.segments.drop (i + 1)).filterMap Segment.point?).getLast? else none)
        = some p := by
  cases hlast : ((d.segments.take i).filterMap Segment.point?).getLast? with
  | some b =>
    have hsome : (d.segments.take i).filterMap Segment.point? ≠ [] := by
      rintro hnil
      exact absurd (hnil ▸ hlast) nofun
    simp only [Precedes, ← isClosed_iff, exists_isLast_iff, hlast, ← points_take_eq_nil_iff, hsome, false_and,
      and_false, or_false, Option.some_or]
  | none =>
    have hnil := List.getLast?_eq_none_iff.1 hlast
    have hall : d.segments.filterMap Segment.point? =
        (d.segments.drop (i + 1)).filterMap Segment.point? := by
      rw [points_eq_append_cons hnode, hnil, Segment.points_node_cons, List.nil_append]
    simp only [Precedes, ← isClosed_iff, exists_or, exists_and_left, exists_isLast_iff, ← points_take_eq_nil_iff,
      hnil, List.take_length, hall, Option.none_or]
    cases d.isClosed <;> simp

theorem exists_follows_iff (hnode : d.segments[i]? = some (.node n)) :
    (∃ k, d.Follows i k q) ↔
      ((d.segments.drop (i + 1)).filterMap Segment.point?).head?.or
        (if d.isClosed then ((d.segments.take i).filterMap Segment.point?).head? else none)
        = some q := by
  cases hfirst : ((d.segments.drop (i + 1)).filterMap Segment.point?).head? with
  | some b =>
    have hsome : (d.segments.drop (i + 1)).filterMap Segment.point? ≠ [] := by
      rintro hnil
      exact absurd (hnil ▸ hfirst) nofun
    simp only [Follows, ← isClosed_iff, exists_isFirst_iff, hfirst, ← Nat.succ_le_iff, ← points_drop_eq_nil_iff,
      hsome, false_and, and_false, or_false, Option.some_or]
  | none =>
    have hnil := List.head?_eq_none_iff.1 hfirst
    have hall : d.segments.filterMap Segment.point? =
        (d.segments.take i).filterMap Segment.point? := by
      rw [points_eq_append_cons hnode, Segment.points_node_cons, hnil, List.append_nil]
    simp only [Follows, ← isClosed_iff, exists_or, exists_and_left, exists_isFirst_iff, ← Nat.succ_le_iff,
      ← points_drop_eq_nil_iff, hnil, List.drop_zero, hall, Option.none_or]
    cases d.isClosed <;> simp

/-- The neighbours of a node are the points that go before it and after it, in different places. -/
theorem neighbours_eq_some_iff (hnode : d.segments[i]? = some (.node n)) :
    neighbours d.isClosed (d.segments.take i).reverse (d.segments.drop (i + 1)) = some (p, q) ↔
      ∃ j k, d.Precedes i j p ∧ d.Follows i k q ∧ j ≠ k := by
  have hlength : ((d.segments.take i).filterMap Segment.point?).length +
      ((d.segments.drop (i + 1)).filterMap Segment.point?).length =
        (d.segments.filterMap Segment.point?).length := by
    rw [points_eq_append_cons hnode, Segment.points_node_cons, List.length_append]
  rw [neighbours, List.filterMap_reverse, List.length_reverse, hlength, List.head?_reverse,
    List.getLast?_reverse]
  split
  · rename_i hone
    refine iff_of_false nofun ?_
    rintro ⟨j, k, hp, hq, hne⟩
    exact hne ((length_points_eq_one_iff hq.point).1 hone j p hp.point)
  · rename_i hmany
    constructor
    · intro h
      split at h
      · rename_i b a hb ha
        obtain ⟨rfl, rfl⟩ := Prod.mk.inj (Option.some.inj h)
        obtain ⟨j, hp⟩ := (exists_precedes_iff hnode).2 hb
        obtain ⟨k, hq⟩ := (exists_follows_iff hnode).2 ha
        refine ⟨j, k, hp, hq, ?_⟩
        rintro rfl
        exact hmany ((length_points_eq_one_iff hp.point).2 fun l r ↦ hp.eq_of_follows hnode hq)
      · exact absurd h nofun
    · rintro ⟨j, k, hp, hq, -⟩
      rw [(exists_precedes_iff hnode).1 ⟨j, hp⟩, (exists_follows_iff hnode).1 ⟨k, hq⟩]

end Neighbours

/-! ### Placing -/

section Placing

variable [Scalar K]

/-- What becomes of the segment in place `i` of a path. A node that does not say where it goes gets
the flags of the placement between the points that go before it and after it, if there are both and
they are in different places. -/
inductive PlacedAt (d : DrawnPath K) (i : Nat) : Segment K → Segment K → Prop
  | point (p : Point K) : PlacedAt d i (.point p) (.point p)
  | operator (o : PathOperator) : PlacedAt d i (.operator o) (.operator o)
  | kept {n : InlineNode} (h : n.style.IsExplicit) : PlacedAt d i (.node n) (.node n)
  | placed {n : InlineNode} {style : Style} (h : ¬ n.style.IsExplicit) {j k : Nat} {p q : Point K}
    (hp : d.Precedes i j p) (hq : d.Follows i k q) (hne : j ≠ k)
    (hbetween : (Placement.between p q).IsBetween p q)
    (hstyle : (Placement.between p q).Marks n.style style) :
    PlacedAt d i (.node n) (.node { n with style })
  | alone {n : InlineNode} (h : ¬ n.style.IsExplicit)
    (hsame : ∀ j k p q, d.Precedes i j p → d.Follows i k q → j = k) :
    PlacedAt d i (.node n) (.node n)

variable {ss : List (Segment K)}

theorem getElem?_placeFrom (closed : Bool) (before ss : List (Segment K)) (i : Nat) :
    (placeFrom closed before ss)[i]? =
      ss[i]?.map (placeSegment closed ((ss.take i).reverse ++ before) (ss.drop (i + 1))) := by
  induction ss generalizing before i with
  | nil => rfl
  | cons s ss ih =>
    cases i with
    | zero => rfl
    | succ i =>
      rw [placeFrom, List.getElem?_cons_succ, ih, List.take_succ_cons, List.reverse_cons,
        List.append_assoc]
      rfl

theorem placedAt_placeSegment {d : DrawnPath K} {i : Nat} {s : Segment K}
    (h : d.segments[i]? = some s) :
    d.PlacedAt i s
      (placeSegment d.isClosed (d.segments.take i).reverse (d.segments.drop (i + 1)) s) := by
  cases s with
  | point p => exact .point p
  | operator o => exact .operator o
  | node n =>
    rw [placeSegment]
    split
    · exact .kept (Style.hasPlacement_iff.1 ‹_›)
    · rename_i hfree
      rw [Style.hasPlacement_iff] at hfree
      split
      · rename_i p q hpq
        obtain ⟨j, k, hp, hq, hne⟩ := (neighbours_eq_some_iff h).1 hpq
        exact .placed hfree hp hq hne (Placement.isBetween_between p q)
          ((Placement.marks_between_iff hfree).2 rfl)
      · rename_i hnone
        refine .alone hfree fun j k p q hp hq ↦ ?_
        by_contra hne
        exact absurd (hnone.symm.trans ((neighbours_eq_some_iff h).2 ⟨j, k, hp, hq, hne⟩)) nofun

/-! ### Placing again -/

theorem point?_placeSegment (closed : Bool) (before after : List (Segment K)) (s : Segment K) :
    (placeSegment closed before after s).point? = s.point? := by
  rw [placeSegment.eq_def]
  repeat' split
  all_goals rfl

theorem isCycle_placeSegment (closed : Bool) (before after : List (Segment K)) (s : Segment K) :
    (placeSegment closed before after s).isCycle = s.isCycle := by
  rw [placeSegment.eq_def]
  repeat' split
  all_goals rfl

/-- Placing the nodes of a path leaves its points. -/
theorem points_placeFrom (closed : Bool) (before ss : List (Segment K)) :
    (placeFrom closed before ss).filterMap Segment.point? = ss.filterMap Segment.point? := by
  induction ss generalizing before with
  | nil => rfl
  | cons s ss ih =>
    rw [placeFrom, List.filterMap_cons, List.filterMap_cons, point?_placeSegment, ih]

theorem isClosed_placeLabels (d : DrawnPath K) : d.placeLabels.isClosed = d.isClosed := by
  have hany (closed : Bool) (before ss : List (Segment K)) :
      (placeFrom closed before ss).any Segment.isCycle = ss.any Segment.isCycle := by
    induction ss generalizing before with
    | nil => rfl
    | cons s ss ih => rw [placeFrom, List.any_cons, List.any_cons, isCycle_placeSegment, ih]
  exact hany d.isClosed [] d.segments

theorem placeSegment_placeSegment {closed : Bool} {before before' after after' : List (Segment K)}
    (hbefore : before'.filterMap Segment.point? = before.filterMap Segment.point?)
    (hafter : after'.filterMap Segment.point? = after.filterMap Segment.point?) (s : Segment K) :
    placeSegment closed before' after' (placeSegment closed before after s) =
      placeSegment closed before after s := by
  have hneighbours : neighbours closed before' after' = neighbours closed before after := by
    rw [neighbours, neighbours, hbefore, hafter]
  cases s with
  | point p => rfl
  | operator o => rfl
  | node n =>
    by_cases hplaced : n.style.hasPlacement
    · simp [placeSegment, hplaced]
    · cases hpoints : neighbours closed before after with
      | none => simp [placeSegment, hplaced, hneighbours, hpoints]
      | some pq => simp [placeSegment, hplaced, hneighbours, hpoints, Placement.apply_apply]

theorem placeFrom_placeFrom {closed : Bool} {before before' : List (Segment K)}
    (hbefore : before'.filterMap Segment.point? = before.filterMap Segment.point?)
    (ss : List (Segment K)) :
    placeFrom closed before' (placeFrom closed before ss) = placeFrom closed before ss := by
  induction ss generalizing before before' with
  | nil => rfl
  | cons s ss ih =>
    have hmore : (placeSegment closed before ss s :: before').filterMap Segment.point? =
        (s :: before).filterMap Segment.point? := by
      rw [List.filterMap_cons, List.filterMap_cons, point?_placeSegment, hbefore]
    rw [placeFrom, placeFrom, placeSegment_placeSegment hbefore (points_placeFrom ..), ih hmore]

theorem placeLabels_placeLabels (d : DrawnPath K) : d.placeLabels.placeLabels = d.placeLabels := by
  have hsegments : placeFrom d.isClosed [] (placeFrom d.isClosed [] d.segments) =
      placeFrom d.isClosed [] d.segments := placeFrom_placeFrom rfl d.segments
  rw [placeLabels, isClosed_placeLabels]
  exact congrArg (DrawnPath.mk d.style) hsegments

theorem classifySegment_placeSegment (midpoint : Vec K) (closed : Bool)
    (before after : List (Segment K)) (s : Segment K) :
    classifySegment midpoint (placeSegment closed before after s) =
      placeSegment closed before after (classifySegment midpoint s) := by
  cases s with
  | point p => rfl
  | operator o => rfl
  | node n =>
    change classifySegment midpoint (placeSegment closed before after (.node n)) =
      placeSegment closed before after (.node n)
    rw [placeSegment]
    repeat' split
    all_goals rfl

theorem annotate_annotate (d : DrawnPath K) (midpoint : Vec K) :
    (d.annotate midpoint).annotate midpoint = d.annotate midpoint := by
  have hclassified (s : Segment K) :
      classifySegment midpoint (classifySegment midpoint s) = classifySegment midpoint s := by
    cases s <;> rfl
  have hsegments (closed : Bool) (before ss : List (Segment K)) :
      (placeFrom closed before (ss.map (classifySegment midpoint))).map
          (classifySegment midpoint) =
        placeFrom closed before (ss.map (classifySegment midpoint)) := by
    induction ss generalizing before with
    | nil => rfl
    | cons s ss ih =>
      rw [List.map_cons, placeFrom, List.map_cons, classifySegment_placeSegment, hclassified, ih]
  calc (d.annotate midpoint).annotate midpoint
      = (d.annotate midpoint).placeLabels :=
        congrArg (fun ss ↦ placeLabels ⟨d.style, ss⟩) (hsegments _ [] d.segments)
    _ = d.annotate midpoint := placeLabels_placeLabels _

/-- What becomes of each segment of a path when its nodes are placed; and what is placed once stays
as it is when it is placed, or annotated around the same midpoint, again. -/
theorem placed_by_neighbours (d : DrawnPath K) :
    d.placeLabels.style = d.style ∧
      (∀ i, Option.Rel (d.PlacedAt i) d.segments[i]? d.placeLabels.segments[i]?) ∧
      d.placeLabels.placeLabels = d.placeLabels ∧
      ∀ midpoint, (d.annotate midpoint).annotate midpoint = d.annotate midpoint := by
  refine ⟨rfl, fun i ↦ ?_, d.placeLabels_placeLabels, d.annotate_annotate⟩
  rw [placeLabels, getElem?_placeFrom, List.append_nil]
  cases h : d.segments[i]? with
  | none => exact .none
  | some s => exact .some (placedAt_placeSegment h)

/-- A red node on a rising line whose ends are both below the midpoint and to the left of it. -/
example :
    (annotate ⟨{}, [.point (Point.ofVec ⟨0, 0⟩), .operator .line,
      .node ⟨"x", ⟨[("color".toList, .text "red")]⟩⟩, .point (Point.ofVec ⟨2, 1⟩)]⟩
        (⟨3, 3⟩ : Vec Float)).nodes.map (fun n ↦ n.style.print) =
      ["red, sloped, below left".toList] := by
  decide +kernel

end Placing

end DrawnPath

end DiagramMacros
