import DiagramMacros.Proofs.Expression.UsedNames
import DiagramMacros.Proofs.Grammar.Trees
import DiagramMacros.Proofs.Outcome
import Mathlib.Data.List.Basic
/-!
The value of a coordinate expression found on its parse tree, node by node. A walk through a tree
may find that a node lacks what it looks for, so it has failures of its own, the misfits.
`Scope.treeValue` is that walk. On a tree of the grammar it meets no misfit: the tree stands for an
expression, and its value or its failure is that of the expression (`Scope.treeValue_of_parse`).

What holds of every node is `Visit.IsSound`, shown for one kind of node at a time from the nodes
inside it.
-/

set_option autoImplicit false
set_option relaxedAutoImplicit false

namespace DiagramMacros

open Expression Peg

/-- What a walk may miss in a tree. -/
inductive Misfit
  | noRoot
  | emptyGroup
  | emptyChain
  /-- an operator without a right operand -/
  | danglingOperator
  | emptyOperator
  | noFactor
  | noComponent
  | noLines
  | notFourPoints
  /-- a node of a rule that has no value -/
  | unexpected (rule : Rule)
deriving DecidableEq

/-- Why a walk through a tree finds no point. -/
inductive TreeFailure
  | misfit (misfit : Misfit)
  | failure (failure : Failure)
deriving DecidableEq

/-- An outcome taken as one of a walk through a tree. -/
def onTree {α : Type} (r : Except Failure α) : Except TreeFailure α :=
  r.mapError .failure

theorem onTree_bind {α β : Type} (r : Except Failure α) (f : α → Except Failure β) :
    onTree (r >>= f) = onTree r >>= fun a ↦ onTree (f a) := by
  cases r <;> rfl

/-- A node on a walk: its value, and the values of the nodes inside it. -/
structure Visit where
  rule : Rule
  inside : Forest Rule
  value : Except TreeFailure (Point Float)
  innerValues : List (Except TreeFailure (Point Float))

/-- What a visited node contributes to the node around it. -/
def Visit.parts (v : Visit) : List Part :=
  ofNode v.rule v.inside.flatten (Expression.parts v.inside)

namespace Scope

/-- Reads the number in the first of some nodes. -/
def nextNumber : List (Rule × Forest Rule) → Except TreeFailure (Float × List (Rule × Forest Rule))
  | [] => .error (.misfit .noComponent)
  | node :: more => do
    let v ← onTree (readNumber node.2.flatten)
    pure (v, more)

/-- Reads the numbers in the first two nodes of a forest. -/
def twoNumbers (f : Forest Rule) : Except TreeFailure (Float × Float) := do
  let (v, more) ← nextNumber f.nodes
  let (w, _) ← nextNumber more
  pure (v, w)

/-- Joins two points by the operator inside a node. -/
def applied (operator : Forest Rule) (p q : Point Float) : Except TreeFailure (Point Float) :=
  match operator.nodes with
  | [] => .error (.misfit .emptyOperator)
  | (.add, _) :: _ => pure (p.add q)
  | (.project, _) :: _ => pure (p.project q)
  | (.interpolate, inside) :: _ =>
    match inside.nodes with
    | [] => .error (.misfit .noFactor)
    | factor :: _ => do
      let t ← onTree (readNumber factor.2.flatten)
      pure (p.interpolate q t)
  | (rule, _) :: _ => .error (.misfit (.unexpected rule))

/-- Joins a point with the operands of a row, each after its operator. -/
def joined (p : Point Float) : List Visit → Except TreeFailure (Point Float)
  | [] => pure p
  | [_] => .error (.misfit .danglingOperator)
  | operator :: operand :: rest => do
    let q ← operand.value
    let p ← applied operator.inside p q
    joined p rest

/-- The value of a row of operands and operators, or of the chain that the row consists of. -/
def chainValue : List Visit → Except TreeFailure (Point Float)
  | [] => .error (.misfit .emptyChain)
  | first :: rest =>
    if first.rule = .chain then first.value
    else do
      let p ← first.value
      joined p rest

/-- The crossing of the two lines in a row of nodes. -/
def crossingValue (inner : List Visit) : Except TreeFailure (Point Float) :=
  match inner.find? (·.rule = .linePair) with
  | none => .error (.misfit .noLines)
  | some lines => do
    let ends ← lines.innerValues.mapM id
    match ends with
    | [a₁, a₂, b₁, b₂] => onTree (crossing a₁ a₂ b₁ b₂)
    | _ => .error (.misfit .notFourPoints)

variable (scope : Scope)

/-- The value of a node of a rule, given the walk through the nodes inside it. -/
def nodeValue (rule : Rule) (inside : Forest Rule) (inner : List Visit) :
    Except TreeFailure (Point Float) :=
  match rule with
  | .cartesian => do
    let (x, y) ← twoNumbers inside
    pure (Point.ofVec ⟨x, y⟩)
  | .polar => do
    let (angle, length) ← twoNumbers inside
    pure (Point.ofPolar ⟨angle, length⟩)
  | .name => onTree (scope.lookup inside.flatten)
  | .merge | .parenGroup | .operand =>
    match inner with
    | [] => .error (.misfit .emptyGroup)
    | v :: _ => v.value
  | .dollarGroup | .chain => chainValue inner
  | .intersection => crossingValue inner
  | rule => .error (.misfit (.unexpected rule))

/-- The visit of a node, after the walk through the nodes inside it. -/
def visit (rule : Rule) (inside : Forest Rule) (inner : List Visit) : Visit where
  rule := rule
  inside := inside
  value := scope.nodeValue rule inside inner
  innerValues := inner.map Visit.value

/-- The walk through the outermost nodes of a forest. -/
def visits : Forest Rule → List Visit
  | .nil => []
  | .text _ next => visits next
  | .node rule inside next => scope.visit rule inside (visits inside) :: visits next

/-- The value of the first node inside the root of a tree. -/
def treeValue (f : Forest Rule) : Except TreeFailure (Point Float) :=
  match f.nodes with
  | [] => .error (.misfit .noRoot)
  | root :: _ =>
    match scope.visits root.2 with
    | [] => .error (.misfit .noRoot)
    | v :: _ => v.value

/-- The point that a text stands for, found on its parse tree. -/
def resolveOnTree (text : Text) : Except TreeFailure (Point Float) :=
  let trimmed := Text.trim text
  match Rule.coordinateExpression.parse trimmed with
  | none => .error (.failure (.unreadable trimmed))
  | some m => scope.treeValue m.1

theorem visits_nodes (f : Forest Rule) :
    (scope.visits f).map (fun v ↦ (v.rule, v.inside)) = f.nodes := by
  induction f with
  | nil => rfl
  | text piece next ih => exact ih
  | node rule inside next _ ih => exact congrArg (_ :: ·) ih

theorem parts_eq_flatMap (f : Forest Rule) :
    parts f = f.nodes.flatMap fun n ↦ ofNode n.1 n.2.flatten (parts n.2) := by
  induction f with
  | nil => rfl
  | text piece next ih => exact ih
  | node rule inside next _ ih => exact congrArg (_ ++ ·) ih

theorem visits_row (f : Forest Rule) : (scope.visits f).map Visit.rule = f.row := by
  rw [Forest.row, ← visits_nodes scope f, List.map_map]
  rfl

theorem visits_parts (f : Forest Rule) : (scope.visits f).flatMap Visit.parts = parts f := by
  rw [parts_eq_flatMap, ← visits_nodes scope f, List.flatMap_map]
  rfl

end Scope

/-- Whether there is no crossing in an expression. -/
def Expression.isUncrossed : Expression → Bool
  | combine _ left right => left.isUncrossed && right.isUncrossed
  | crossing _ _ _ _ => false
  | _ => true

namespace Rule

variable {rule : Rule} {row : List Rule}

/-! ### The nodes inside a node of an expression -/

/-- The rules whose nodes stand for points without a crossing. -/
def pointRules : List Rule :=
  [cartesian, polar, name, merge, parenGroup, operand, dollarGroup, chain]

theorem row_of_pair (hrule : rule ∈ [cartesian, polar]) (h : rule.Holds row) :
    row = [component, component] := by
  have hbody : ∀ rule ∈ [cartesian, polar], rule.kind ≠ .token ∧ rule.body.isFixed ∧
      rule.body.outlines = [[component, component]] := by decide
  obtain ⟨hkind, hfixed, houtlines⟩ := hbody rule hrule
  exact List.mem_singleton.1 (houtlines ▸ mem_outlines_of_holds h hkind hfixed)

theorem row_of_group (hrule : rule ∈ [merge, parenGroup, operand, dollarGroup])
    (h : rule.Holds row) : ∃ inner ∈ pointRules, row = [inner] := by
  have hbody : ∀ rule ∈ [merge, parenGroup, operand, dollarGroup], rule.kind ≠ .token ∧
      rule.body.isFixed ∧ ∀ row ∈ rule.body.outlines, ∃ inner ∈ pointRules, row = [inner] := by
    decide
  obtain ⟨hkind, hfixed, houtlines⟩ := hbody rule hrule
  exact houtlines row (mem_outlines_of_holds h hkind hfixed)

theorem row_of_mergeOperator (h : mergeOperator.Holds row) :
    row = [project] ∨ row = [add] ∨ row = [interpolate] := by
  have hrow := mem_outlines_of_holds h (by decide) (by decide)
  simpa only [List.mem_cons, List.not_mem_nil, or_false] using
    (show row ∈ [[project], [add], [interpolate]] from hrow)

theorem row_of_interpolate (h : interpolate.Holds row) : row = [number] :=
  List.mem_singleton.1 (mem_outlines_of_holds h (by decide) (by decide))

theorem row_of_intersection (h : intersection.Holds row) : row = [linePair] := by
  have hrow := mem_outlines_of_holds h (by decide) (by decide)
  simpa only [List.mem_cons, List.not_mem_nil, or_false, or_self] using
    (show row ∈ [[linePair], [linePair]] from hrow)

theorem row_of_coordinateExpression (h : coordinateExpression.Holds row) :
    ∃ inner ∈ intersection :: pointRules, row = [inner, endOfInput] := by
  have hrows : ∀ row ∈ coordinateExpression.body.outlines,
      ∃ inner ∈ intersection :: pointRules, row = [inner, endOfInput] := by decide
  exact hrows row (mem_outlines_of_holds h (by decide) (by decide))

theorem row_of_chain (h : chain.Holds row) :
    ∃ n, row = operand :: (List.replicate (n + 1) [mergeOperator, operand]).flatten := by
  obtain ⟨_, hfirst, _, hmore, rfl⟩ := hasRow_seq.1 h
  obtain ⟨_, hpair, _, hstar, rfl⟩ := hasRow_seq.1 hmore
  obtain ⟨rows, hrows, rfl⟩ := hasRow_star.1 hstar
  have hround {r : List Rule}
      (hr : (inOrder [call mergeOperator, call operand]).HasRow r) : r = [mergeOperator, operand] :=
    List.mem_singleton.1 (mem_outlines_of_hasRow (by decide) hr)
  obtain rfl := (hasRow_node (by decide)).1 hfirst
  obtain rfl := hround hpair
  obtain hrows := List.eq_replicate_iff.2 ⟨rfl, fun r hr ↦ hround (hrows r hr)⟩
  exact ⟨rows.length, by rw [hrows, List.length_replicate]; rfl⟩

theorem row_of_lineSeparator (h : (call lineSeparator).HasRow row) : row = [] := by
  have hrow := mem_outlines_of_hasRow (by decide) ((hasRow_silent (by decide)).1 h)
  simpa only [List.mem_cons, List.not_mem_nil, or_false, or_self] using
    (show row ∈ [[], []] from hrow)

theorem row_of_linePair (h : linePair.Holds row) : row = [operand, operand, operand, operand] := by
  obtain ⟨_, h₁, _, hrest₁, rfl⟩ := hasRow_seq.1 h
  obtain ⟨_, hline, _, hrest₂, rfl⟩ := hasRow_seq.1 hrest₁
  obtain ⟨_, h₂, _, hrest₃, rfl⟩ := hasRow_seq.1 hrest₂
  obtain ⟨_, hand, _, hrest₄, rfl⟩ := hasRow_seq.1 hrest₃
  obtain ⟨_, h₃, _, hrest₅, rfl⟩ := hasRow_seq.1 hrest₄
  obtain ⟨_, hline', _, h₄, rfl⟩ := hasRow_seq.1 hrest₅
  obtain rfl := hasRow_lit.1 hand
  obtain rfl := row_of_lineSeparator hline
  obtain rfl := row_of_lineSeparator hline'
  have hoperand {r : List Rule} (hr : (call operand).HasRow r) : r = [operand] :=
    (hasRow_node (by decide)).1 hr
  rw [hoperand h₁, hoperand h₂, hoperand h₃, hoperand h₄]
  rfl

end Rule

namespace Visit

open Scope

variable (scope : Scope)

/-- A node stands for an expression and has its value. Only an intersection stands for a
crossing. -/
def HasValue (v : Visit) : Prop :=
  ∃ e, v.parts = [.operand e] ∧ v.value = onTree (scope.evaluate e) ∧
    (v.rule ≠ .intersection → e.isUncrossed)

/-- What the walk finds at a node is what the node stands for. -/
structure IsSound (v : Visit) : Prop where
  point : v.rule ∈ Rule.intersection :: Rule.pointRules → v.HasValue scope
  operator : v.rule = .mergeOperator →
    ∃ o, v.parts = [.operation o] ∧ ∀ p q, applied v.inside p q = onTree (Scope.combine p q o)
  lines : v.rule = .linePair →
    ∃ a₁ a₂ b₁ b₂, v.parts = [.operand (.crossing a₁ a₂ b₁ b₂)] ∧
      v.innerValues = [a₁, a₂, b₁, b₂].map fun e ↦ onTree (scope.evaluate e)

variable {scope} {inside : Forest Rule} {inner : List Visit}

theorem parts_visit {ps : List Part} (h : Expression.parts inside = ps) (rule : Rule) :
    (scope.visit rule inside inner).parts = ofNode rule inside.flatten ps := by
  rw [← h]
  rfl

/-- The one node in a row and what it contributes. -/
theorem exists_single (scope : Scope) {rule : Rule} (h : inside.row = [rule]) :
    ∃ v, scope.visits inside = [v] ∧ v.rule = rule ∧ v.parts = Expression.parts inside := by
  rw [← visits_row scope] at h
  obtain ⟨v, hvisits, hrule⟩ := List.map_eq_singleton_iff.1 h
  refine ⟨v, hvisits, hrule, ?_⟩
  rw [← visits_parts scope, hvisits, List.flatMap_singleton]

/-! ### Pairs and names -/

/-- The numbers in a row of two components. -/
theorem exists_components (h : inside.row = [.component, .component]) :
    ∃ x y, Expression.parts inside = [.written x, .written y] ∧
      twoNumbers inside = onTree (do
        let v ← readNumber x
        let w ← readNumber y
        pure (v, w)) := by
  obtain ⟨⟨_, f⟩, _, hnodes, rfl, hrest⟩ := List.map_eq_cons_iff.1 h
  obtain ⟨⟨_, g⟩, _, rfl, rfl, hnil⟩ := List.map_eq_cons_iff.1 hrest
  obtain rfl := List.map_eq_nil_iff.1 hnil
  refine ⟨f.flatten, g.flatten, by rw [parts_eq_flatMap, hnodes]; rfl, ?_⟩
  simp only [twoNumbers, hnodes, nextNumber, onTree_bind, bind_assoc, pure_bind]
  rfl

theorem hasValue_pair {rule : Rule} (hrule : rule ∈ [Rule.cartesian, .polar])
    (h : rule.Holds inside.row) : (scope.visit rule inside inner).HasValue scope := by
  obtain ⟨x, y, hparts, hnumbers⟩ := exists_components (Rule.row_of_pair hrule h)
  have hvalue (point : Float → Float → Point Float) :
      (twoNumbers inside >>= fun n ↦ pure (point n.1 n.2)) = onTree (do
        let v ← readNumber x
        let w ← readNumber y
        pure (point v w)) := by
    rw [hnumbers]
    simp only [onTree_bind, bind_assoc]
    rfl
  simp only [List.mem_cons, List.not_mem_nil, or_false] at hrule
  rcases hrule with rfl | rfl
  · exact ⟨.cartesian x y, parts_visit hparts _, hvalue fun v w ↦ Point.ofVec ⟨v, w⟩, fun _ ↦ rfl⟩
  · exact ⟨.polar x y, parts_visit hparts _, hvalue fun v w ↦ Point.ofPolar ⟨v, w⟩, fun _ ↦ rfl⟩

theorem hasValue_name : (scope.visit .name inside inner).HasValue scope :=
  ⟨.name inside.flatten, rfl, rfl, fun _ ↦ rfl⟩

/-! ### Operators and chains -/

theorem exists_operation (htree : inside.IsTree) (h : Rule.mergeOperator.Holds inside.row) :
    ∃ o, Expression.parts inside = [.operation o] ∧
      ∀ p q, applied inside p q = onTree (Scope.combine p q o) := by
  rcases Rule.row_of_mergeOperator h with hrow | hrow | hrow <;>
    obtain ⟨⟨_, f⟩, hnodes, rfl⟩ := List.map_eq_singleton_iff.1 hrow
  · exact ⟨.project, by rw [parts_eq_flatMap, hnodes]; rfl, fun p q ↦ by rw [applied, hnodes]; rfl⟩
  · exact ⟨.add, by rw [parts_eq_flatMap, hnodes]; rfl, fun p q ↦ by rw [applied, hnodes]; rfl⟩
  · have hfactor : Rule.interpolate.Holds f.row :=
      (Forest.isTree_of_mem htree (hnodes ▸ List.mem_singleton_self _)).1
    obtain ⟨⟨_, g⟩, hfactors, rfl⟩ := List.map_eq_singleton_iff.1 (Rule.row_of_interpolate hfactor)
    have hwritten : Expression.parts f = [.written g.flatten] := by
      rw [parts_eq_flatMap, hfactors]
      rfl
    refine ⟨.interpolate g.flatten, ?_, fun p q ↦ ?_⟩
    · rw [parts_eq_flatMap, hnodes, List.flatMap_singleton, hwritten]
      rfl
    · rw [applied, hnodes]
      simp only [hfactors, Scope.combine, onTree_bind]
      rfl

/-- The value of a chain from its first operand on, grouped from the left. -/
theorem exists_joined (n : Nat) {rest : List Visit} (hsound : ∀ v ∈ rest, v.IsSound scope)
    (hrow : rest.map Visit.rule =
      (List.replicate n [Rule.mergeOperator, Rule.operand]).flatten) (first : Expression) :
    ∃ e, chain? first (rest.flatMap Visit.parts) = some e ∧
      (onTree (scope.evaluate first) >>= fun p ↦ joined p rest) = onTree (scope.evaluate e) ∧
      (first.isUncrossed → e.isUncrossed) := by
  induction n generalizing rest first with
  | zero =>
    obtain rfl := List.map_eq_nil_iff.1 hrow
    exact ⟨first, rfl, bind_pure _, id⟩
  | succ n ih =>
    obtain ⟨operator, _, rfl, hoperator, hmore⟩ := List.map_eq_cons_iff.1 hrow
    obtain ⟨operand, more, rfl, hoperand, hmore⟩ := List.map_eq_cons_iff.1 hmore
    simp only [List.forall_mem_cons] at hsound
    obtain ⟨hop, hvalue, hsound⟩ := hsound
    obtain ⟨o, hparts, happlied⟩ := hop.operator hoperator
    obtain ⟨right, hparts', hvalue, hright⟩ := hvalue.point (hoperand ▸ by decide)
    obtain ⟨e, hchain, hjoined, hcrossed⟩ := ih hsound hmore (.combine o first right)
    refine ⟨e, ?_, ?_, fun hfirst ↦ hcrossed ?_⟩
    · simpa only [List.flatMap_cons, hparts, hparts', List.singleton_append, chain?] using hchain
    · rw [← hjoined, evaluate]
      simp only [joined, hvalue, happlied, onTree_bind, bind_assoc]
    · rw [isUncrossed, hfirst, hright (hoperand ▸ by decide)]
      rfl

theorem hasValue_chain (h : Rule.chain.Holds inside.row)
    (hsound : ∀ v ∈ scope.visits inside, v.IsSound scope) :
    (scope.visit .chain inside (scope.visits inside)).HasValue scope := by
  obtain ⟨n, hrow⟩ := Rule.row_of_chain h
  rw [← visits_row scope] at hrow
  obtain ⟨first, rest, hvisits, hfirst, hrest⟩ := List.map_eq_cons_iff.1 hrow
  rw [hvisits, List.forall_mem_cons] at hsound
  obtain ⟨hvalue, hsound⟩ := hsound
  obtain ⟨left, hparts, hvalue, hleft⟩ := hvalue.point (hfirst ▸ by decide)
  obtain ⟨e, hchain, hjoined, hcrossed⟩ := exists_joined (n + 1) hsound hrest left
  have hinside : Expression.parts inside = .operand left :: rest.flatMap Visit.parts := by
    rw [← visits_parts scope, hvisits, List.flatMap_cons, hparts]
    rfl
  refine ⟨e, ?_, ?_, fun _ ↦ hcrossed (hleft (hfirst ▸ by decide))⟩
  · have hnode : ofNode .chain inside.flatten (.operand left :: rest.flatMap Visit.parts) =
        ((chain? left (rest.flatMap Visit.parts)).map Part.operand).toList := rfl
    rw [parts_visit hinside, hnode, hchain]
    rfl
  · have hvisit : (scope.visit .chain inside (scope.visits inside)).value =
        Scope.chainValue (scope.visits inside) := rfl
    rw [hvisit, hvisits, Scope.chainValue, if_neg (hfirst ▸ by decide), hvalue, hjoined]

/-! ### Groups, and lines that cross -/

/-- A group has the value of the one node inside it. -/
theorem hasValue_group {rule : Rule}
    (hrule : rule ∈ [Rule.merge, .parenGroup, .operand, .dollarGroup])
    (h : rule.Holds inside.row) (hsound : ∀ v ∈ scope.visits inside, v.IsSound scope) :
    (scope.visit rule inside (scope.visits inside)).HasValue scope := by
  obtain ⟨inner, hinner, hrow⟩ := Rule.row_of_group hrule h
  obtain ⟨v, hvisits, rfl, hparts⟩ := exists_single scope hrow
  rw [hvisits, List.forall_mem_singleton] at hsound
  obtain ⟨e, hoperand, hvalue, hcrossed⟩ := hsound.point (List.mem_cons_of_mem _ hinner)
  have huncrossed : e.isUncrossed := by
    refine hcrossed fun hne ↦ ?_
    rw [hne] at hinner
    exact absurd hinner (by decide)
  have hinside := hparts.symm.trans hoperand
  have hchain : Scope.chainValue [v] = v.value := by
    rw [Scope.chainValue]
    split
    · rfl
    · exact bind_pure _
  rw [hvisits]
  simp only [List.mem_cons, List.not_mem_nil, or_false] at hrule
  rcases hrule with rfl | rfl | rfl | rfl
  · exact ⟨e, parts_visit hinside _, hvalue, fun _ ↦ huncrossed⟩
  · exact ⟨e, parts_visit hinside _, hvalue, fun _ ↦ huncrossed⟩
  · exact ⟨e, parts_visit hinside _, hvalue, fun _ ↦ huncrossed⟩
  · exact ⟨e, parts_visit hinside _, hchain.trans hvalue, fun _ ↦ huncrossed⟩

theorem exists_operands {vs : List Visit} (h : ∀ v ∈ vs, v.HasValue scope) :
    ∃ es : List Expression, vs.flatMap Visit.parts = es.map .operand ∧
      vs.map Visit.value = es.map (fun e ↦ onTree (scope.evaluate e)) ∧ es.length = vs.length := by
  induction vs with
  | nil => exact ⟨[], rfl, rfl, rfl⟩
  | cons v vs ih =>
    rw [List.forall_mem_cons] at h
    obtain ⟨⟨e, hparts, hvalue, _⟩, h⟩ := h
    obtain ⟨es, hmore, hvalues, hlength⟩ := ih h
    exact ⟨e :: es, by simp [hparts, hmore], by simp [hvalue, hvalues], by simp [hlength]⟩

/-- The lines of a crossing go through four points. -/
theorem exists_ends (h : Rule.linePair.Holds inside.row)
    (hsound : ∀ v ∈ scope.visits inside, v.IsSound scope) :
    ∃ a₁ a₂ b₁ b₂, Expression.parts inside = [a₁, a₂, b₁, b₂].map .operand ∧
      (scope.visits inside).map Visit.value =
        [a₁, a₂, b₁, b₂].map fun e ↦ onTree (scope.evaluate e) := by
  have hrow := (visits_row scope inside).trans (Rule.row_of_linePair h)
  have hvalue : ∀ v ∈ scope.visits inside, v.HasValue scope := by
    intro v hv
    have hrule : v.rule ∈ [Rule.operand, .operand, .operand, .operand] :=
      hrow ▸ List.mem_map_of_mem hv
    have hoperand : v.rule = .operand := by simpa using hrule
    exact (hsound v hv).point (hoperand ▸ by decide)
  obtain ⟨es, hparts, hvalues, hlength⟩ := exists_operands hvalue
  have hfour : (scope.visits inside).length = 4 := by
    rw [← List.length_map Visit.rule, hrow]
    rfl
  obtain ⟨a₁, a₂, b₁, b₂, rfl⟩ := List.length_eq_four.1 (hlength.trans hfour)
  exact ⟨a₁, a₂, b₁, b₂, (visits_parts scope inside).symm.trans hparts, hvalues⟩

theorem hasValue_intersection (h : Rule.intersection.Holds inside.row)
    (hsound : ∀ v ∈ scope.visits inside, v.IsSound scope) :
    (scope.visit .intersection inside (scope.visits inside)).HasValue scope := by
  obtain ⟨v, hvisits, hlines, hparts⟩ :=
    exists_single scope (Rule.row_of_intersection h)
  rw [hvisits, List.forall_mem_singleton] at hsound
  obtain ⟨a₁, a₂, b₁, b₂, hoperand, hvalues⟩ := hsound.lines hlines
  refine ⟨.crossing a₁ a₂ b₁ b₂, parts_visit (hparts.symm.trans hoperand) _, ?_,
    fun hne ↦ absurd rfl hne⟩
  have hvisit : (scope.visit .intersection inside (scope.visits inside)).value =
      crossingValue (scope.visits inside) := rfl
  rw [hvisit, hvisits, evaluate]
  simp [crossingValue, hlines, hvalues, onTree_bind]

/-- Every node of a tree is found to have what it stands for. -/
theorem isSound_of_mem_visits {f : Forest Rule} (hf : f.IsTree) :
    ∀ v ∈ scope.visits f, v.IsSound scope := by
  induction f with
  | nil => exact fun v hv ↦ absurd hv List.not_mem_nil
  | text piece next ih => exact ih hf
  | node rule inside next hinside hnext =>
    obtain ⟨hrow, htree, hmore⟩ := hf
    have hsound := hinside htree
    refine List.forall_mem_cons.2 ⟨⟨fun hrule ↦ ?_, ?_, ?_⟩, hnext hmore⟩
    · rcases List.mem_cons.1 hrule with hrule | hrule
      · obtain rfl : rule = .intersection := hrule
        exact hasValue_intersection hrow hsound
      · change rule ∈ _ at hrule
        simp only [Rule.pointRules, List.mem_cons, List.not_mem_nil, or_false] at hrule
        rcases hrule with rfl | rfl | rfl | rfl | rfl | rfl | rfl | rfl
        · exact hasValue_pair (by decide) hrow
        · exact hasValue_pair (by decide) hrow
        · exact hasValue_name
        · exact hasValue_group (by decide) hrow hsound
        · exact hasValue_group (by decide) hrow hsound
        · exact hasValue_group (by decide) hrow hsound
        · exact hasValue_group (by decide) hrow hsound
        · exact hasValue_chain hrow hsound
    · rintro hrule
      obtain rfl : rule = .mergeOperator := hrule
      obtain ⟨o, hparts, happlied⟩ := exists_operation htree hrow
      exact ⟨o, parts_visit hparts _, happlied⟩
    · intro hrule
      obtain rfl : rule = .linePair := hrule
      obtain ⟨a₁, a₂, b₁, b₂, hparts, hvalues⟩ := exists_ends hrow hsound
      exact ⟨a₁, a₂, b₁, b₂, parts_visit hparts _, hvalues⟩

end Visit

/-- The rule that a text is matched by as a coordinate expression. -/
def Expression.form? (s : Text) : Option Rule :=
  (Rule.coordinateExpression.parseNode? s).bind fun m ↦ m.1.row.head?

namespace Scope

variable {scope : Scope}

/-- The parse tree of a coordinate expression stands for an expression, and has its value. -/
theorem treeValue_of_parse (scope : Scope) {s rest : Text} {f : Forest Rule}
    (h : Rule.coordinateExpression.parse s = some (f, rest)) :
    ∃ e, ofForest? f = some e ∧ scope.treeValue f = onTree (scope.evaluate e) ∧
      (form? s ≠ some .intersection → e.isUncrossed) := by
  obtain ⟨inside, rfl⟩ := Rule.exists_node (by decide) h
  obtain ⟨hrow, htree, _⟩ := Rule.isTree_of_parseAt h
  obtain ⟨rule, hrule, hrow⟩ := Rule.row_of_coordinateExpression hrow
  have hform : form? s = some rule := by
    rw [form?, (Rule.parseNode?_eq_some_iff (by decide)).2 h, Option.bind_some, hrow]
    rfl
  rw [← visits_row scope] at hrow
  obtain ⟨v, _, hvisits, rfl, hrest⟩ := List.map_eq_cons_iff.1 hrow
  obtain ⟨stop, rfl, hstop⟩ := List.map_eq_singleton_iff.1 hrest
  have hsound : v.IsSound scope :=
    Visit.isSound_of_mem_visits htree v (hvisits ▸ List.mem_cons_self)
  obtain ⟨e, hparts, hvalue, hcrossed⟩ := hsound.point hrule
  have hinside : parts inside = [.operand e] := by
    have hnothing : stop.parts = [] := by simp [Visit.parts, hstop, ofNode]
    rw [← visits_parts scope, hvisits]
    simp [hparts, hnothing]
  refine ⟨e, ?_, ?_, fun hne ↦ hcrossed fun hrule ↦ hne (hrule ▸ hform)⟩
  · simp [ofForest?, parts, hinside, ofNode]
  · simp [treeValue, Forest.nodes, hvisits, hvalue]

/-- What a text stands for can be found on its parse tree. -/
theorem resolveOnTree_eq (text : Text) :
    scope.resolveOnTree text = onTree (scope.resolve text) := by
  rw [resolveOnTree, resolve, read?]
  cases hparse : Rule.coordinateExpression.parse (Text.trim text) with
  | none => rfl
  | some m =>
    obtain ⟨e, he, hvalue, _⟩ := treeValue_of_parse scope hparse
    simpa [he] using hvalue

end Scope

end DiagramMacros
