import DiagramMacros.Text
/-!
Parsing expression grammars. A grammar gives a body to each of its rules, and matching a rule
against a text either fails or matches a prefix of it in exactly one way: a choice commits to its
first alternative that matches, and a repetition takes as many rounds as it can.

Blanks may stand between the elements of a sequence and between the rounds of a repetition while
matching is spaced. A tight rule or a token rule turns that off for everything inside it. Blanks
after the first element of a sequence belong to the match even if the second element then matches
nothing; blanks before a round that fails do not.

A match leaves a forest: the matched text in order, cut into the nodes of the rules that took part.
`Forest.flatten` gives the text back, so a match loses nothing.

Matching follows the body of a rule and counts the rule calls nested in each other. A grammar states
how many calls may be nested before a character is consumed, and `Grammar.parse` allows that many
for every character of the text.
-/

set_option autoImplicit false
set_option relaxedAutoImplicit false

namespace DiagramMacros

/-- A parsing expression over the rules of a grammar. -/
inductive Peg (ρ : Type)
  /-- exactly this text -/
  | lit (text : Text)
  /-- this text with its ASCII letters in either case -/
  | anyCase (text : Text)
  /-- one character of a class -/
  | one (accepts : Char → Bool)
  | seq (first second : Peg ρ)
  /-- the first of two alternatives that matches -/
  | alt (first second : Peg ρ)
  /-- as many rounds as match, perhaps none -/
  | star (round : Peg ρ)
  /-- matches nothing, provided this does not match here -/
  | absent (body : Peg ρ)
  | call (rule : ρ)

/-- What a rule does with the match of its body. -/
inductive RuleKind
  /-- puts it into a node -/
  | plain
  /-- leaves it without a node -/
  | silent
  /-- puts it into a node and allows no blanks inside -/
  | tight
  /-- puts its text into a node without inner nodes and allows no blanks inside -/
  | token
deriving DecidableEq

/-- What a match leaves: pieces of text and nodes, in the order of the text. -/
inductive Forest (ρ : Type)
  | nil
  | text (piece : Text) (next : Forest ρ)
  | node (rule : ρ) (inside next : Forest ρ)
deriving DecidableEq

namespace Forest

variable {ρ : Type}

def append : Forest ρ → Forest ρ → Forest ρ
  | nil, g => g
  | text piece next, g => text piece (append next g)
  | node rule inside next, g => node rule inside (append next g)

instance : Append (Forest ρ) := ⟨append⟩

/-- The matched text. -/
def flatten : Forest ρ → Text
  | nil => []
  | text piece next => piece ++ flatten next
  | node _ inside next => flatten inside ++ flatten next

@[simp] theorem flatten_append (f g : Forest ρ) : (f ++ g).flatten = f.flatten ++ g.flatten := by
  show (append f g).flatten = _
  induction f with
  | nil => rfl
  | text piece next ih => simp [append, flatten, ih]
  | node rule inside next _ ih => simp [append, flatten, ih]

/-- The outermost nodes with what is inside them. -/
def nodes : Forest ρ → List (ρ × Forest ρ)
  | nil => []
  | text _ next => nodes next
  | node rule inside next => (rule, inside) :: nodes next

/-- The forests inside the outermost nodes of a rule. -/
def inside [DecidableEq ρ] (rule : ρ) (f : Forest ρ) : List (Forest ρ) :=
  f.nodes.filterMap fun n ↦ if n.1 = rule then some n.2 else none

/-- The text of the first outermost node of a rule, empty without one. -/
def textOf [DecidableEq ρ] (rule : ρ) (f : Forest ρ) : Text :=
  ((f.inside rule).head?.map flatten).getD []

/-- The text of the first node of a rule inside the first outermost node of another. -/
def textIn [DecidableEq ρ] (outer inner : ρ) (f : Forest ρ) : Text :=
  ((f.inside outer).head?.map (textOf inner)).getD []

end Forest

/-- A grammar over a type of rules. -/
structure Grammar (ρ : Type) where
  body : ρ → Peg ρ
  kind : ρ → RuleKind
  /-- the characters that may stand between elements -/
  blank : Char → Bool
  /-- how many calls may be nested before a character is consumed -/
  nesting : Nat

/-- What matching a prefix leaves and the text after it. -/
abbrev Match (ρ : Type) := Option (Forest ρ × Text)

namespace Peg

variable {ρ : Type}

/-- Matches nothing, everywhere. -/
def empty : Peg ρ := lit []

/-- One element after the other. -/
def inOrder : List (Peg ρ) → Peg ρ
  | [] => empty
  | [e] => e
  | e :: es => seq e (inOrder es)

/-- The first of several alternatives that matches. -/
def firstOf : List (Peg ρ) → Peg ρ
  | [] => absent empty
  | [e] => e
  | e :: es => alt e (firstOf es)

/-- This, or nothing. -/
def optional (e : Peg ρ) : Peg ρ := alt e empty

/-- One round and then as many as match. -/
def plus (e : Peg ρ) : Peg ρ := seq e (star e)

/-- Cuts off the blanks at the start of a text while matching is spaced. -/
def skip (blank : Char → Bool) (spaced : Bool) (s : Text) : Text × Text :=
  if spaced then Text.cutWhile blank s else ([], s)

/-- Rounds of a repetition, at most one for each character of the first text. -/
def rounds (round : Text → Match ρ) : Text → Text → Forest ρ × Text
  | [], s => (.nil, s)
  | _ :: allowed, s =>
    match round s with
    | none => (.nil, s)
    | some (f, rest) =>
      let more := rounds round allowed rest
      (f ++ more.1, more.2)

/-- Cuts off a text that agrees with this one up to the case of ASCII letters. -/
def dropAnyCase : Text → Text → Option (Text × Text)
  | [], s => some ([], s)
  | _ :: _, [] => none
  | p :: ps, c :: s =>
    if c.toLower = p.toLower then (dropAnyCase ps s).map fun r ↦ (c :: r.1, r.2) else none

/-- Matches an expression, given how its rule calls match. -/
def read (blank : Char → Bool) (enter : ρ → Bool → Text → Match ρ) :
    Peg ρ → Bool → Text → Match ρ
  | lit t, _, s => (Text.after? t s).map fun rest ↦ (.text t .nil, rest)
  | anyCase t, _, s => (dropAnyCase t s).map fun r ↦ (.text r.1 .nil, r.2)
  | one _, _, [] => none
  | one accepts, _, c :: s => if accepts c then some (.text [c] .nil, s) else none
  | seq a b, spaced, s =>
    match read blank enter a spaced s with
    | none => none
    | some (f, rest) =>
      let gap := skip blank spaced rest
      (read blank enter b spaced gap.2).map fun r ↦ (f ++ .text gap.1 r.1, r.2)
  | alt a b, spaced, s =>
    match read blank enter a spaced s with
    | none => read blank enter b spaced s
    | some r => some r
  | star e, spaced, s =>
    match read blank enter e spaced s with
    | none => some (.nil, s)
    | some (f, rest) =>
      let round (s : Text) : Match ρ :=
        let gap := skip blank spaced s
        (read blank enter e spaced gap.2).map fun r ↦ (.text gap.1 r.1, r.2)
      let more := rounds round rest rest
      some (f ++ more.1, more.2)
  | absent e, spaced, s =>
    match read blank enter e spaced s with
    | none => some (.nil, s)
    | some _ => none
  | call rule, spaced, s => enter rule spaced s

end Peg

namespace Grammar

variable {ρ : Type} (g : Grammar ρ)

/-- What a rule leaves of the match of its body. -/
def wrap (rule : ρ) (f : Forest ρ) : Forest ρ :=
  match g.kind rule with
  | .silent => f
  | .plain | .tight => .node rule f .nil
  | .token => .node rule (.text f.flatten .nil) .nil

/-- Whether blanks are allowed inside a rule. -/
def spacing (rule : ρ) (spaced : Bool) : Bool :=
  match g.kind rule with
  | .silent | .plain => spaced
  | .tight | .token => false

/-- Matches a rule with at most so many calls nested in each other. -/
def parseWithin : Nat → ρ → Bool → Text → Match ρ
  | 0, _, _, _ => none
  | n + 1, rule, spaced, s =>
    ((g.body rule).read g.blank (parseWithin n) (g.spacing rule spaced) s).map fun r ↦
      (g.wrap rule r.1, r.2)

/-- Matches a rule against a prefix of a text, with blanks allowed or not. -/
def parseAt (rule : ρ) (spaced : Bool) (s : Text) : Match ρ :=
  g.parseWithin ((s.length + 1) * g.nesting) rule spaced s

/-- Matches a rule against a prefix of a text, with blanks allowed. -/
def parse (rule : ρ) (s : Text) : Match ρ := g.parseAt rule true s

end Grammar

end DiagramMacros
