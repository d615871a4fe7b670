import DiagramMacros.Proofs.Expression.Chains
import DiagramMacros.Scope
/-!
Operands as trees. An operand is a name, a group between dollars or a group between parentheses, and
a group holds a chain of operands, each joined to the ones before it by an operation. Its tokens are
texts, and a text of the operand has any blanks before each of them (`Text.Opens`).

The value of a tree is found from the inside outwards, and every chain is folded strictly from the
left: the value so far is joined with the next operand by the operation between them.
-/

set_option autoImplicit false
set_option relaxedAutoImplicit false

namespace DiagramMacros

open Expression

mutual

/-- An operand of a chain, with the operands inside it. -/
inductive Operand
  | name (n : Text)
  /-- a chain or a lone operand between dollars -/
  | dollars (first : Operand) (links : Links)
  /-- a chain between parentheses -/
  | parens (first : Operand) (links : Links)
  /-- parentheses around a group between dollars -/
  | parensDollars (first : Operand) (links : Links)
  | cartesian (x y : Text)
  | polar (angle length : Text)
  | parensName (n : Text)

/-- What follows the first operand of a chain: operations, each with the operand after it. -/
inductive Links
  | done
  | next (operation : Operation) (operand : Operand) (more : Links)

end

/-! ### Tokens -/

mutual

/-- The tokens of an operand. -/
def Operand.tokens : Operand → List Text
  | .name n => [n]
  | .dollars first links => ['$'] :: (first.tokens ++ links.tokens ++ [['$']])
  | .parens first links => ['('] :: (first.tokens ++ links.tokens ++ [[')']])
  | .parensDollars first links =>
    ['('] :: ['$'] :: (first.tokens ++ links.tokens ++ [['$'], [')']])
  | .cartesian x y => [['('], x, [','], y, [')']]
  | .polar angle length => [['('], angle, [':'], length, [')']]
  | .parensName n => [['('], n, [')']]

/-- The tokens of the links of a chain. -/
def Links.tokens : Links → List Text
  | .done => []
  | .next operation operand more => operation.written :: (operand.tokens ++ more.tokens)

end

namespace Text

/-- A text goes on with these tokens, any blanks before each, and then with the rest. -/
def Opens : List Text → Text → Text → Prop
  | [], s, rest => s = rest
  | token :: tokens, s, rest => ∃ mid, afterGap s = token ++ mid ∧ Opens tokens mid rest

/-- A text is these tokens with any blanks between and around them. -/
def Spaced (tokens : List Text) (s : Text) : Prop := ∃ rest, Opens tokens s rest ∧ rest.all isGap

/-- What is left of a text after these tokens, if it goes on with them. -/
def leave? : List Text → Text → Option Text
  | [], s => some s
  | token :: tokens, s => (after? token (afterGap s)).bind (leave? tokens)

theorem leave?_eq_some_iff {tokens : List Text} {s rest : Text} :
    leave? tokens s = some rest ↔ Opens tokens s rest := by
  induction tokens generalizing s with
  | nil => simp [leave?, Opens]
  | cons token tokens ih =>
    simp only [leave?, Opens, Option.bind_eq_some_iff, after?_eq_some_iff, ih]

instance (tokens : List Text) (s : Text) : Decidable (Spaced tokens s) :=
  decidable_of_iff ((leave? tokens s).any fun rest ↦ rest.all isGap) <| by
    simp only [Option.any_eq_true, leave?_eq_some_iff]
    rfl

theorem opens_append {ts us : List Text} {s rest : Text} :
    Opens (ts ++ us) s rest ↔ ∃ mid, Opens ts s mid ∧ Opens us mid rest := by
  induction ts generalizing s with
  | nil => simp [Opens]
  | cons t ts ih =>
    simp only [List.cons_append, Opens, ih]
    constructor
    · rintro ⟨mid, hmid, mid', hts, hus⟩
      exact ⟨mid', ⟨mid, hmid, hts⟩, hus⟩
    · rintro ⟨mid', ⟨mid, hmid, hts⟩, hus⟩
      exact ⟨mid, hmid, mid', hts, hus⟩

theorem opens_singleton {t s rest : Text} : Opens [t] s rest ↔ afterGap s = t ++ rest := by
  simp [Opens]

/-- Only the text after the blanks at its start matters. -/
theorem opens_afterGap {t : Text} {ts : List Text} {s rest : Text} :
    Opens (t :: ts) (afterGap s) rest ↔ Opens (t :: ts) s rest := by
  simp [Opens]

theorem afterGap_append_of_ne_nil {s more : Text} (h : afterGap s ≠ []) :
    afterGap (s ++ more) = afterGap s ++ more := by
  obtain ⟨gap, hgap, hs⟩ := exists_gap s
  have hstart : startsWith isGap (afterGap s ++ more) = false := by
    have hs' := startsWith_afterGap s
    cases hcore : afterGap s with
    | nil => exact absurd hcore h
    | cons c core =>
      rw [hcore] at hs'
      exact hs'
  calc afterGap (s ++ more) = afterGap (gap ++ (afterGap s ++ more)) := by
        rw [← List.append_assoc, ← hs]
    _ = afterGap (afterGap s ++ more) := afterGap_append hgap
    _ = afterGap s ++ more := afterGap_of_not hstart

/-- More text may follow tokens that are not empty. -/
theorem Opens.append {ts : List Text} {s rest : Text} (h : Opens ts s rest) (hts : [] ∉ ts)
    (more : Text) : Opens ts (s ++ more) (rest ++ more) := by
  induction ts generalizing s with
  | nil =>
    obtain rfl : s = rest := h
    rfl
  | cons t ts ih =>
    obtain ⟨mid, hmid, hmore⟩ := h
    simp only [List.mem_cons, not_or] at hts
    refine ⟨mid ++ more, ?_, ih hmore hts.2⟩
    rw [afterGap_append_of_ne_nil, hmid, List.append_assoc]
    rw [hmid]
    intro hnil
    exact hts.1 (List.append_eq_nil_iff.1 hnil).1.symm

end Text

/-! ### Properties of all parts of a tree -/

mutual

/-- All names, operations and pairs of an operand have these properties, and a chain between
parentheses has at least one link. -/
def Operand.All (named : Text → Prop) (joined : Operation → Prop) (paired : Text → Text → Prop) :
    Operand → Prop
  | .name n | .parensName n => named n
  | .dollars first links | .parensDollars first links =>
    first.All named joined paired ∧ links.All named joined paired
  | .parens first links =>
    links ≠ .done ∧ first.All named joined paired ∧ links.All named joined paired
  | .cartesian x y | .polar x y => paired x y

def Links.All (named : Text → Prop) (joined : Operation → Prop) (paired : Text → Text → Prop) :
    Links → Prop
  | .done => True
  | .next operation operand more =>
    joined operation ∧ operand.All named joined paired ∧ more.All named joined paired

end

section

variable {named named' : Text → Prop} {joined joined' : Operation → Prop}
  {paired paired' : Text → Text → Prop}

mutual

theorem Operand.All.imp (hname : ∀ n, named n → named' n) (hjoin : ∀ o, joined o → joined' o)
    (hpair : ∀ x y, paired x y → paired' x y) :
    ∀ o : Operand, o.All named joined paired → o.All named' joined' paired'
  | .name n, h => hname n h
  | .parensName n, h => hname n h
  | .dollars first links, h =>
    ⟨Operand.All.imp hname hjoin hpair first h.1, Links.All.imp hname hjoin hpair links h.2⟩
  | .parensDollars first links, h =>
    ⟨Operand.All.imp hname hjoin hpair first h.1, Links.All.imp hname hjoin hpair links h.2⟩
  | .parens first links, h =>
    ⟨h.1, Operand.All.imp hname hjoin hpair first h.2.1,
      Links.All.imp hname hjoin hpair links h.2.2⟩
  | .cartesian x y, h => hpair x y h
  | .polar x y, h => hpair x y h

theorem Links.All.imp (hname : ∀ n, named n → named' n) (hjoin : ∀ o, joined o → joined' o)
    (hpair : ∀ x y, paired x y → paired' x y) :
    ∀ links : Links, links.All named joined paired → links.All named' joined' paired'
  | .done, _ => trivial
  | .next operation operand more, h =>
    ⟨hjoin operation h.1, Operand.All.imp hname hjoin hpair operand h.2.1,
      Links.All.imp hname hjoin hpair more h.2.2⟩

end

end

/-- The two components of a pair, without the blanks before them. No chain may start the first one,
because a group reads a chain before it tries a pair. -/
def IsPair (x y : Text) : Prop :=
  Peg.IsComponent x ∧ Text.startsWith isGap x = false ∧ (Peg.call Rule.chain).Fails true x ∧
    Peg.IsComponent y ∧ Text.startsWith isGap y = false

/-- An operand as the grammar reads it. -/
def Operand.Proper : Operand → Prop := Operand.All Rule.name.Spells Operation.Proper IsPair

/-- The links of a chain as the grammar reads them. -/
def Links.Proper : Links → Prop := Links.All Rule.name.Spells Operation.Proper IsPair

/-! ### Values -/

mutual

/-- The value of an operand. -/
def Operand.value (scope : Scope) : Operand → Except Failure (Point Float)
  | .name n | .parensName n => scope.lookup n
  | .dollars first links | .parens first links | .parensDollars first links => do
    let p ← first.value scope
    links.foldFrom scope p
  | .cartesian x y => do
    let x ← Scope.readNumber x
    let y ← Scope.readNumber y
    pure (Point.ofVec ⟨x, y⟩)
  | .polar angle length => do
    let angle ← Scope.readNumber angle
    let length ← Scope.readNumber length
    pure (Point.ofPolar ⟨angle, length⟩)

/-- The value of a chain, given the value of what stands before these links. -/
def Links.foldFrom (scope : Scope) : Links → Point Float → Except Failure (Point Float)
  | .done, p => .ok p
  | .next .add operand more, p => do
    let q ← operand.value scope
    more.foldFrom scope (p.add q)
  | .next .project operand more, p => do
    let q ← operand.value scope
    more.foldFrom scope (p.project q)
  | .next (.interpolate factor) operand more, p => do
    let q ← operand.value scope
    let t ← Scope.readNumber factor
    more.foldFrom scope (p.interpolate q t)

end

/-- The value so far is joined with the next operand, and the links after it go on from there. -/
theorem Links.foldFrom_next (scope : Scope) (operation : Operation) (operand : Operand)
    (more : Links) (p : Point Float) :
    (Links.next operation operand more).foldFrom scope p =
      operand.value scope >>= fun q ↦ Scope.combine p q operation >>= more.foldFrom scope := by
  cases operation with
  | add => rfl
  | project => rfl
  | interpolate factor => simp only [Links.foldFrom, Scope.combine, bind_assoc, pure_bind]

end DiagramMacros
