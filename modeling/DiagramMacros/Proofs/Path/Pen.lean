import DiagramMacros.Path.Scan
import DiagramMacros.Proofs.Expression.Failures
import DiagramMacros.Proofs.Geometry.Points
import Mathlib.Data.List.Forall2
/-!
The pen over the tokens of a path. `Pen.trace` is what tokens stand for, one segment each, up to the
first coordinate that fails.

What the pen holds can be read off the segments behind it (`Pen.Follows`): it waits with the
operator that governs the next coordinate, if that operator is relative, and it stands at the last
point that moved it. A step keeps this (`Pen.Follows.step`), so after any row of tokens a coordinate
is a step from its base or stands for itself, as its operator says (`Pen.Follows.trace`), and it
lacks an anchor only if it is relative and the first (`Pen.Follows.lacksAnchor_iff`).
-/

set_option autoImplicit false
set_option relaxedAutoImplicit false

namespace DiagramMacros

/-! ### Segments of tokens -/

namespace Pen

/-- The segments that tokens stand for and the pen after them, unless one of them fails. -/
def trace (scope : Scope) : Pen → List PathToken → Except Failure (List (Segment Float) × Pen)
  | pen, [] => .ok ([], pen)
  | pen, token :: tokens => do
    let r ← pen.step scope token
    let more ← trace scope r.2 tokens
    pure (r.1 :: more.1, more.2)

end Pen

/-- The segments that a token may stand for. -/
inductive StandsFor : PathToken → Segment Float → Prop
  | coordinate {expression : Text} {p : Point Float} : StandsFor (.coordinate expression) (.point p)
  | operator {o : PathOperator} : StandsFor (.operator o) (.operator o)
  | node {n : InlineNode} : StandsFor (.node n) (.node n)

namespace Pen

variable {scope : Scope} {pen pen' : Pen} {token : PathToken} {tokens before : List PathToken}
  {segment : Segment Float} {segments : List (Segment Float)} {failure : Failure}

theorem trace_cons_eq_ok_iff :
    trace scope pen (token :: tokens) = .ok (segments, pen') ↔
      ∃ segment pen₁ more, pen.step scope token = .ok (segment, pen₁) ∧
        trace scope pen₁ tokens = .ok (more, pen') ∧ segments = segment :: more := by
  rw [trace, bind_eq_ok_iff]
  constructor
  · rintro ⟨⟨segment, pen₁⟩, hstep, h⟩
    obtain ⟨⟨more, pen₂⟩, hmore, hpure⟩ := bind_eq_ok_iff.1 h
    obtain ⟨rfl, rfl⟩ := Prod.mk.inj (Except.ok.inj hpure)
    exact ⟨segment, pen₁, more, hstep, hmore, rfl⟩
  · rintro ⟨segment, pen₁, more, hstep, hmore, rfl⟩
    exact ⟨_, hstep, bind_eq_ok_iff.2 ⟨_, hmore, rfl⟩⟩

/-- Only coordinates fail. -/
theorem step_eq_error_iff :
    pen.step scope token = .error failure ↔
      ∃ expression, token = .coordinate expression ∧
        pen.resolve scope expression = .error failure := by
  cases token with
  | coordinate expression =>
    rw [step, bind_eq_error_iff]
    simp [pure, Except.pure]
  | operator o => simp [step, pure, Except.pure]
  | node n => simp [step, pure, Except.pure]

/-- The failure of a row of tokens is that of its first coordinate that fails. -/
theorem trace_eq_error_iff :
    trace scope pen tokens = .error failure ↔
      ∃ before expression after segments pen', tokens = before ++ .coordinate expression :: after ∧
        trace scope pen before = .ok (segments, pen') ∧
        pen'.resolve scope expression = .error failure := by
  induction tokens generalizing pen with
  | nil => simp [trace]
  | cons token tokens ih =>
    rw [trace, bind_eq_error_iff]
    constructor
    · rintro (hstep | ⟨⟨segment, pen₁⟩, hstep, h⟩)
      · obtain ⟨expression, rfl, hresolve⟩ := step_eq_error_iff.1 hstep
        exact ⟨[], expression, tokens, [], pen, rfl, rfl, hresolve⟩
      · rcases bind_eq_error_iff.1 h with hmore | ⟨_, _, hpure⟩
        · obtain ⟨before, expression, after, segments, pen₂, rfl, hbefore, hresolve⟩ := ih.1 hmore
          exact ⟨token :: before, expression, after, segment :: segments, pen₂, rfl,
            trace_cons_eq_ok_iff.2 ⟨_, _, _, hstep, hbefore, rfl⟩, hresolve⟩
        · simp [pure, Except.pure] at hpure
    · rintro ⟨before, expression, after, segments, pen₂, heq, hbefore, hresolve⟩
      cases before with
      | nil =>
        obtain ⟨rfl, rfl⟩ := List.cons.inj heq
        obtain ⟨_, rfl⟩ := Prod.mk.inj (Except.ok.inj hbefore)
        exact Or.inl (step_eq_error_iff.2 ⟨expression, rfl, hresolve⟩)
      | cons token' before =>
        obtain ⟨rfl, rfl⟩ := List.cons.inj heq
        obtain ⟨segment, pen₁, more, hstep, hmore, rfl⟩ := trace_cons_eq_ok_iff.1 hbefore
        refine Or.inr ⟨_, hstep, bind_eq_error_iff.2 (Or.inl (ih.2 ?_))⟩
        exact ⟨before, expression, after, more, pen₂, rfl, hmore, hresolve⟩

theorem standsFor_of_step (h : pen.step scope token = .ok (segment, pen')) :
    StandsFor token segment := by
  cases token with
  | coordinate expression =>
    obtain ⟨r, _, hpure⟩ := bind_eq_ok_iff.1 h
    obtain ⟨rfl, _⟩ := Prod.mk.inj (Except.ok.inj hpure)
    exact StandsFor.coordinate
  | operator o =>
    obtain ⟨rfl, _⟩ := Prod.mk.inj (Except.ok.inj h)
    exact StandsFor.operator
  | node n =>
    obtain ⟨rfl, _⟩ := Prod.mk.inj (Except.ok.inj h)
    exact StandsFor.node

/-- There is one segment for every token, in order. -/
theorem forall₂_standsFor (h : trace scope pen tokens = .ok (segments, pen')) :
    List.Forall₂ StandsFor tokens segments := by
  induction tokens generalizing pen segments with
  | nil =>
    obtain ⟨rfl, _⟩ := Prod.mk.inj (Except.ok.inj h)
    exact List.Forall₂.nil
  | cons token tokens ih =>
    obtain ⟨segment, pen₁, more, hstep, hmore, rfl⟩ := trace_cons_eq_ok_iff.1 h
    exact List.Forall₂.cons (standsFor_of_step hstep) (ih hmore)

end Pen

namespace Pen

variable {scope : Scope} {pen : Pen} {expression : Text}

/-- A relative operator waits, and no point is there to step from. -/
def LacksAnchor (pen : Pen) : Prop := pen.pending.isSome ∧ pen.position = none

/-- Without an anchor the expression of a coordinate is not looked at; with one it is the only thing
that can fail. -/
theorem resolve_eq_error_iff {failure : Failure} :
    pen.resolve scope expression = .error failure ↔
      pen.LacksAnchor ∧ failure = .missingAnchor ∨
        ¬ pen.LacksAnchor ∧ scope.resolve expression = .error failure := by
  obtain ⟨position, pending⟩ := pen
  cases pending with
  | none =>
    simp only [resolve, LacksAnchor, bind_eq_error_iff]
    simp [pure, Except.pure]
  | some o =>
    cases position with
    | none => simp [resolve, LacksAnchor, eq_comm]
    | some anchor =>
      simp only [resolve, Scope.resolveFrom, LacksAnchor, bind_eq_error_iff]
      simp [pure, Except.pure]

/-- A coordinate is never the reason why reading is stuck. -/
theorem resolve_ne_stuckPath {offset : Nat} :
    pen.resolve scope expression ≠ .error (.stuckPath offset) := by
  intro h
  rcases resolve_eq_error_iff.1 h with ⟨_, hfailure⟩ | ⟨_, hscope⟩
  · simp at hfailure
  · exact Bool.noConfusion (scope.failsInExpression_resolve _ hscope)

/-- A coordinate lacks an anchor whatever its expression is. -/
theorem resolve_eq_missingAnchor_iff :
    pen.resolve scope expression = .error .missingAnchor ↔ pen.LacksAnchor := by
  rw [resolve_eq_error_iff]
  constructor
  · rintro (⟨hlacks, _⟩ | ⟨_, hscope⟩)
    · exact hlacks
    · exact Bool.noConfusion (scope.failsInExpression_resolve _ hscope)
  · exact fun hlacks ↦ Or.inl ⟨hlacks, rfl⟩

end Pen

/-! ### What the pen holds -/

namespace Segment

/-- The operator that governs a coordinate, given the segments before it from the last one on: the
last operator since the point before it. -/
def governing : List (Segment Float) → Option PathOperator
  | [] | .point _ :: _ => none
  | .operator o :: _ => some o
  | .node _ :: before => governing before

/-- The base of a relative coordinate, given the segments before it from the last one on: the last
point that is not itself the end of a line that leaves the pen where it is. -/
def base? : List (Segment Float) → Option (Point Float)
  | [] => none
  | .point p :: before => if governing before = some .relativeLine then base? before else some p
  | .operator _ :: before | .node _ :: before => base? before

theorem base?_eq_none {before : List (Segment Float)} (h : ∀ p, .point p ∉ before) :
    base? before = none := by
  induction before with
  | nil => rfl
  | cons segment before ih =>
    have hmore := ih fun p hp ↦ h p (List.mem_cons_of_mem _ hp)
    cases segment with
    | point p => exact absurd List.mem_cons_self (h p)
    | operator o => exact hmore
    | node n => exact hmore

/-- A coordinate that is a step, given the segments before it from the last one on: it is governed by
one of the operators `--+` and `--++`. -/
def IsStep (before : List (Segment Float)) : Prop :=
  governing before = some .relativeLine ∨ governing before = some .incrementalLine

/-- The point of a coordinate, given the segments before it from the last one on and the value of
its expression. As a step it is the sum of its base and the value. -/
inductive PointAfter (before : List (Segment Float)) (value : Point Float) : Point Float → Prop
  | step {anchor p : Point Float} (hstep : IsStep before) (hanchor : base? before = some anchor)
      (hsum : anchor.IsSum value p) : PointAfter before value p
  | alone (h : ¬ IsStep before) : PointAfter before value value

variable {before : List (Segment Float)}

theorem isStep_iff : IsStep before ↔ ∃ o, governing before = some o ∧ o.isRelative := by
  constructor
  · rintro (ho | ho)
    · exact ⟨_, ho, rfl⟩
    · exact ⟨_, ho, rfl⟩
  · rintro ⟨o, ho, hrelative⟩
    cases o with
    | relativeLine => exact Or.inl ho
    | incrementalLine => exact Or.inr ho
    | _ => exact Bool.noConfusion hrelative

end Segment

namespace Pen

open Segment

/-- A pen has the segments behind it that it should have, given from the last one on. -/
structure Follows (pen : Pen) (before : List (Segment Float)) : Prop where
  pending : pen.pending = (governing before).filter PathOperator.isRelative
  position : pen.position = base? before
  first : base? before = none → ∀ p, .point p ∉ before

variable {scope : Scope} {pen pen' : Pen} {token : PathToken} {tokens : List PathToken}
  {before segments : List (Segment Float)} {segment : Segment Float} {expression : Text}

theorem follows_start : Follows {} [] := ⟨rfl, rfl, by simp⟩

/-- A coordinate becomes the point that its operator and its base make of it. -/
theorem Follows.resolve (h : pen.Follows before) {p : Point Float}
    (hresolve : pen.resolve scope expression = .ok (p, pen')) :
    ∃ value, scope.resolve expression = .ok value ∧ PointAfter before value p ∧
      pen'.Follows (.point p :: before) := by
  rw [Pen.resolve, h.pending, h.position] at hresolve
  cases hpending : (governing before).filter PathOperator.isRelative with
  | none =>
    have halone : ¬ IsStep before := fun hstep ↦ by
      obtain ⟨o, ho, hrelative⟩ := isStep_iff.1 hstep
      exact Option.filter_eq_none_iff.1 hpending o ho hrelative
    rw [hpending] at hresolve
    obtain ⟨value, hvalue, hpure⟩ := bind_eq_ok_iff.1 hresolve
    obtain ⟨rfl, rfl⟩ := Prod.mk.inj (Except.ok.inj hpure)
    have hbase : base? (.point value :: before) = some value := by
      rw [base?, if_neg fun hrelative ↦ halone (Or.inl hrelative)]
    exact ⟨value, hvalue, PointAfter.alone halone, rfl, hbase.symm, by rw [hbase]; nofun⟩
  | some o =>
    obtain ⟨hgoverning, hrelative⟩ := Option.filter_eq_some_iff.1 hpending
    rw [hpending] at hresolve
    cases hanchor : base? before with
    | none =>
      rw [hanchor] at hresolve
      simp at hresolve
    | some anchor =>
      rw [hanchor] at hresolve
      obtain ⟨p', hfrom, hpure⟩ := bind_eq_ok_iff.1 hresolve
      obtain ⟨value, hvalue, hadd⟩ := bind_eq_ok_iff.1 hfrom
      obtain rfl := Except.ok.inj hadd
      obtain ⟨rfl, rfl⟩ := Prod.mk.inj (Except.ok.inj hpure)
      have hbase : base? (.point (anchor.add value) :: before) =
          if o = .incrementalLine then some (anchor.add value) else some anchor := by
        rw [base?, hgoverning, hanchor]
        cases o <;> simp_all [PathOperator.isRelative]
      have hpoint : PointAfter before value (anchor.add value) :=
        PointAfter.step (isStep_iff.2 ⟨o, hgoverning, hrelative⟩) hanchor (Point.isSum_iff.2 rfl)
      refine ⟨value, hvalue, hpoint, rfl, hbase.symm, ?_⟩
      rw [hbase]
      split <;> nofun

theorem Follows.step (h : pen.Follows before) (hstep : pen.step scope token = .ok (segment, pen')) :
    pen'.Follows (segment :: before) := by
  cases token with
  | coordinate expression =>
    obtain ⟨⟨p, pen₁⟩, hresolve, hpure⟩ := bind_eq_ok_iff.1 hstep
    obtain ⟨rfl, rfl⟩ := Prod.mk.inj (Except.ok.inj hpure)
    obtain ⟨_, _, _, hfollows⟩ := h.resolve hresolve
    exact hfollows
  | operator o =>
    obtain ⟨rfl, rfl⟩ := Prod.mk.inj (Except.ok.inj hstep)
    refine ⟨?_, h.position, fun hbase p hmem ↦ ?_⟩
    · rw [governing, Option.filter_some]
    · exact h.first hbase p (by simpa using hmem)
  | node n =>
    obtain ⟨rfl, rfl⟩ := Prod.mk.inj (Except.ok.inj hstep)
    refine ⟨h.pending, h.position, fun hbase p hmem ↦ ?_⟩
    exact h.first hbase p (by simpa using hmem)

/-- After any row of tokens the pen holds what it should hold, and every coordinate of the row has
become the point that its operator and its base make of it. -/
theorem Follows.trace (h : pen.Follows before)
    (htrace : trace scope pen tokens = .ok (segments, pen')) :
    pen'.Follows (segments.reverse ++ before) ∧
      ∀ (i : Nat) (expression : Text), tokens[i]? = some (.coordinate expression) →
        ∃ value p, scope.resolve expression = .ok value ∧ segments[i]? = some (.point p) ∧
          PointAfter ((segments.take i).reverse ++ before) value p := by
  induction tokens generalizing pen before segments with
  | nil =>
    obtain ⟨rfl, rfl⟩ := Prod.mk.inj (Except.ok.inj htrace)
    exact ⟨h, by simp⟩
  | cons token tokens ih =>
    obtain ⟨segment, pen₁, more, hstep, hmore, rfl⟩ := trace_cons_eq_ok_iff.1 htrace
    obtain ⟨hfollows, hpoints⟩ := ih (h.step hstep) hmore
    refine ⟨by simpa using hfollows, ?_⟩
    intro i expression hi
    cases i with
    | zero =>
      obtain rfl : token = .coordinate expression := by simpa using hi
      obtain ⟨⟨p, pen₂⟩, hresolve, hpure⟩ := bind_eq_ok_iff.1 hstep
      obtain ⟨rfl, rfl⟩ := Prod.mk.inj (Except.ok.inj hpure)
      obtain ⟨value, hvalue, hpoint, _⟩ := h.resolve hresolve
      exact ⟨value, p, hvalue, rfl, hpoint⟩
    | succ i =>
      obtain ⟨value, p, hvalue, hp, hpoint⟩ := hpoints i expression hi
      exact ⟨value, p, hvalue, hp, by simpa using hpoint⟩

/-- A coordinate lacks an anchor just when its operator is relative and no point is before it. -/
theorem Follows.lacksAnchor_iff (h : pen.Follows before) :
    pen.LacksAnchor ↔ IsStep before ∧ ∀ p, .point p ∉ before := by
  rw [LacksAnchor, h.pending, h.position, isStep_iff, Option.isSome_iff_exists]
  simp only [Option.filter_eq_some_iff]
  exact and_congr_right fun _ ↦ ⟨fun hbase ↦ h.first hbase, base?_eq_none⟩

end Pen

end DiagramMacros
