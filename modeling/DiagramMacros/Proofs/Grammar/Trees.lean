import DiagramMacros.Proofs.Grammar.Outline
/-!
The parse trees of the grammar. Every node of a tree, read with the rules of the nodes inside it, is
one way of matching the body of its rule (`Peg.HasRow`). That holds of whatever a rule leaves of a
text, at every depth (`Rule.isTree_of_parseAt`), so whoever walks a tree meets only those rows.
-/

set_option autoImplicit false
set_option relaxedAutoImplicit false

namespace DiagramMacros

namespace Peg

/-- The rows of rules whose nodes a match of an expression may leave at its outermost level. -/
inductive HasRow : Peg Rule → List Rule → Prop
  | lit (t : Text) : HasRow (lit t) []
  | anyCase (t : Text) : HasRow (anyCase t) []
  | one (accepts : Char → Bool) : HasRow (one accepts) []
  | absent (e : Peg Rule) : HasRow (absent e) []
  | seq {a b : Peg Rule} {row row' : List Rule} (first : HasRow a row) (second : HasRow b row') :
    HasRow (seq a b) (row ++ row')
  | left {a : Peg Rule} (b : Peg Rule) {row : List Rule} (first : HasRow a row) :
    HasRow (alt a b) row
  | right (a : Peg Rule) {b : Peg Rule} {row : List Rule} (second : HasRow b row) :
    HasRow (alt a b) row
  | stop (e : Peg Rule) : HasRow (star e) []
  | round {e : Peg Rule} {row more : List Rule} (first : HasRow e row)
    (rest : HasRow (star e) more) : HasRow (star e) (row ++ more)
  | silent {rule : Rule} {row : List Rule} (kind : rule.kind = .silent)
    (body : HasRow rule.body row) : HasRow (call rule) row
  | node {rule : Rule} (kind : rule.kind ≠ .silent) : HasRow (call rule) [rule]

end Peg

namespace Peg

variable {a b e : Peg Rule} {row : List Rule}

@[simp] theorem hasRow_lit {t : Text} : (lit t).HasRow row ↔ row = [] :=
  ⟨fun h ↦ by cases h; rfl, fun h ↦ h ▸ .lit t⟩

@[simp] theorem hasRow_seq :
    (seq a b).HasRow row ↔
      ∃ first, a.HasRow first ∧ ∃ second, b.HasRow second ∧ first ++ second = row := by
  constructor
  · rintro (_ | _)
    exact ⟨_, ‹_›, _, ‹_›, rfl⟩
  · rintro ⟨first, hfirst, second, hsecond, rfl⟩
    exact .seq hfirst hsecond

theorem hasRow_star :
    (star e).HasRow row ↔
      ∃ rows : List (List Rule), (∀ r ∈ rows, e.HasRow r) ∧ rows.flatten = row := by
  constructor
  · intro h
    generalize hstar : star e = whole at h
    induction h with
    | stop => exact ⟨[], nofun, rfl⟩
    | round first rest _ ih =>
      cases hstar
      obtain ⟨rows, hrows, rfl⟩ := ih rfl
      exact ⟨_ :: rows, List.forall_mem_cons.2 ⟨first, hrows⟩, rfl⟩
    | _ => cases hstar
  · rintro ⟨rows, hrows, rfl⟩
    induction rows with
    | nil => exact .stop e
    | cons first rows ih =>
      rw [List.forall_mem_cons] at hrows
      exact .round hrows.1 (ih hrows.2)

theorem hasRow_silent {rule : Rule} (hkind : rule.kind = .silent) :
    (call rule).HasRow row ↔ rule.body.HasRow row := by
  refine ⟨fun h ↦ ?_, .silent hkind⟩
  cases h with
  | silent _ body => exact body
  | node hnode => exact absurd hkind hnode

theorem hasRow_node {rule : Rule} (hkind : rule.kind ≠ .silent) :
    (call rule).HasRow row ↔ row = [rule] := by
  refine ⟨fun h ↦ ?_, fun h ↦ h ▸ .node hkind⟩
  cases h with
  | silent hsilent => exact absurd hsilent hkind
  | node => rfl

/-- The rows of an expression without repetitions can be listed. -/
theorem mem_outlines_of_hasRow (he : e.isFixed) (h : e.HasRow row) : row ∈ e.outlines := by
  induction h with
  | lit | anyCase | one | absent => exact List.mem_singleton_self _
  | seq _ _ ih ih' =>
    rw [isFixed, Bool.and_eq_true] at he
    exact List.mem_flatMap.2 ⟨_, ih he.1, List.mem_map_of_mem (ih' he.2)⟩
  | left b _ ih =>
    rw [isFixed, Bool.and_eq_true] at he
    exact List.mem_append_left _ (ih he.1)
  | right a _ ih =>
    rw [isFixed, Bool.and_eq_true] at he
    exact List.mem_append_right _ (ih he.2)
  | stop | round => exact Bool.noConfusion he
  | silent hkind => exact absurd hkind (bne_iff_ne.1 he)
  | node => exact List.mem_singleton_self _

end Peg

open Peg

/-- Whether the nodes inside a node of this rule may have the rules of a row. -/
def Rule.Holds (rule : Rule) (row : List Rule) : Prop :=
  if rule.kind = .token then row = [] else rule.body.HasRow row

theorem Rule.mem_outlines_of_holds {rule : Rule} {row : List Rule} (h : rule.Holds row)
    (hkind : rule.kind ≠ .token) (hbody : rule.body.isFixed) : row ∈ rule.body.outlines := by
  rw [Holds, if_neg hkind] at h
  exact mem_outlines_of_hasRow hbody h

namespace Forest

/-- The rules of the outermost nodes. -/
def row (f : Forest Rule) : List Rule := f.nodes.map Prod.fst

/-- Every node holds nodes that its rule allows inside. -/
def IsTree : Forest Rule → Prop
  | nil => True
  | text _ next => next.IsTree
  | node rule inside next => rule.Holds inside.row ∧ inside.IsTree ∧ next.IsTree

theorem row_append (f g : Forest Rule) : (f ++ g).row = f.row ++ g.row := by
  rw [row, nodes_append, List.map_append]
  rfl

theorem isTree_append {f g : Forest Rule} (hf : f.IsTree) (hg : g.IsTree) : (f ++ g).IsTree := by
  show (append f g).IsTree
  induction f with
  | nil => exact hg
  | text piece next ih => exact ih hf
  | node rule inside next _ ih => exact ⟨hf.1, hf.2.1, ih hf.2.2⟩

/-- What holds of a node holds of the nodes inside it. -/
theorem isTree_of_mem {f : Forest Rule} (hf : f.IsTree) {n : Rule × Forest Rule}
    (hn : n ∈ f.nodes) : n.1.Holds n.2.row ∧ n.2.IsTree := by
  induction f with
  | nil => exact absurd hn List.not_mem_nil
  | text piece next ih => exact ih hf hn
  | node rule inside next _ ih =>
    rcases List.mem_cons.1 hn with rfl | hn
    · exact ⟨hf.1, hf.2.1⟩
    · exact ih hf.2.2 hn

end Forest

namespace Peg

/-- What an expression may leave of a text: a row that belongs to it, and trees below. -/
def Grows (e : Peg Rule) (m : Text → Match Rule) : Prop :=
  ∀ s f rest, m s = some (f, rest) → e.HasRow f.row ∧ f.IsTree

variable {e : Peg Rule}

/-- A gap in front of a match leaves no node. -/
theorem Grows.after_skip {m : Text → Match Rule} (hm : e.Grows m) (spaced : Bool) :
    e.Grows fun s ↦ (m (skip isGap spaced s).2).map fun r ↦
      (Forest.text (skip isGap spaced s).1 r.1, r.2) := by
  intro s f rest h
  obtain ⟨⟨g, _⟩, hg, heq⟩ := Option.map_eq_some_iff.1 h
  obtain ⟨rfl, _⟩ := Prod.mk.inj heq
  exact hm _ g _ hg

theorem Grows.rounds {round : Text → Match Rule} (h : e.Grows round) (allowed s : Text) :
    (star e).HasRow (rounds round allowed s).1.row ∧ (rounds round allowed s).1.IsTree := by
  induction allowed generalizing s with
  | nil => exact ⟨.stop e, trivial⟩
  | cons _ allowed ih =>
    rw [Peg.rounds]
    split
    · exact ⟨.stop e, trivial⟩
    · rename_i f rest hround
      obtain ⟨hrow, htree⟩ := h _ _ _ hround
      obtain ⟨hmore, hmoreTree⟩ := ih rest
      rw [Forest.row_append]
      exact ⟨.round hrow hmore, Forest.isTree_append htree hmoreTree⟩

theorem grows_read {enter : Rule → Bool → Text → Match Rule}
    (henter : ∀ rule spaced, (call rule).Grows (enter rule spaced)) (e : Peg Rule) (spaced : Bool) :
    e.Grows (read isGap enter e spaced) := by
  induction e generalizing spaced with
  | lit t =>
    intro s f rest h
    obtain ⟨_, _, heq⟩ := Option.map_eq_some_iff.1 h
    obtain ⟨rfl, _⟩ := Prod.mk.inj heq
    exact ⟨.lit t, trivial⟩
  | anyCase t =>
    intro s f rest h
    obtain ⟨_, _, heq⟩ := Option.map_eq_some_iff.1 h
    obtain ⟨rfl, _⟩ := Prod.mk.inj heq
    exact ⟨.anyCase t, trivial⟩
  | one accepts =>
    intro s f rest h
    cases s with
    | nil => simp [read] at h
    | cons c s =>
      simp only [read, Option.ite_none_right_eq_some] at h
      obtain ⟨rfl, _⟩ := Prod.mk.inj (Option.some.inj h.2)
      exact ⟨.one accepts, trivial⟩
  | seq a b iha ihb =>
    intro s f rest h
    simp only [read] at h
    split at h
    · simp at h
    · rename_i g mid hg
      obtain ⟨⟨g', _⟩, hg', heq⟩ := Option.map_eq_some_iff.1 h
      obtain ⟨rfl, _⟩ := Prod.mk.inj heq
      obtain ⟨hrow, htree⟩ := iha _ _ _ _ hg
      obtain ⟨hrow', htree'⟩ := ihb _ _ _ _ hg'
      rw [Forest.row_append]
      exact ⟨.seq hrow hrow', Forest.isTree_append htree htree'⟩
  | alt a b iha ihb =>
    intro s f rest h
    simp only [read] at h
    split at h
    · exact (ihb _ _ _ _ h).imp_left (.right a)
    · rename_i r hr
      exact (iha _ _ _ _ (hr.trans h)).imp_left (.left b)
  | star e ih =>
    intro s f rest h
    simp only [read] at h
    split at h
    · obtain ⟨rfl, _⟩ := Prod.mk.inj (Option.some.inj h)
      exact ⟨.stop e, trivial⟩
    · rename_i g mid hg
      obtain ⟨rfl, _⟩ := Prod.mk.inj (Option.some.inj h)
      obtain ⟨hrow, htree⟩ := ih _ _ _ _ hg
      obtain ⟨hmore, hmoreTree⟩ := ((ih spaced).after_skip spaced).rounds mid mid
      rw [Forest.row_append]
      exact ⟨.round hrow hmore, Forest.isTree_append htree hmoreTree⟩
  | absent e _ =>
    intro s f rest h
    simp only [read] at h
    split at h
    · obtain ⟨rfl, _⟩ := Prod.mk.inj (Option.some.inj h)
      exact ⟨.absent e, trivial⟩
    · simp at h
  | call rule => exact henter rule spaced

end Peg

theorem Rule.grows_wrap {rule : Rule} {m : Text → Match Rule} (h : rule.body.Grows m) :
    (call rule).Grows fun s ↦ (m s).map fun r ↦ (diagramGrammar.wrap rule r.1, r.2) := by
  intro s f rest hf
  obtain ⟨⟨g, _⟩, hg, heq⟩ := Option.map_eq_some_iff.1 hf
  obtain ⟨rfl, _⟩ := Prod.mk.inj heq
  obtain ⟨hrow, htree⟩ := h _ _ _ hg
  have hholds (hkind : rule.kind ≠ .token) : rule.Holds g.row := by rwa [Holds, if_neg hkind]
  simp only [Grammar.wrap, diagramGrammar]
  cases hkind : rule.kind with
  | silent => exact ⟨.silent hkind hrow, htree⟩
  | plain => exact ⟨.node (by simp [hkind]), hholds (by simp [hkind]), htree, trivial⟩
  | tight => exact ⟨.node (by simp [hkind]), hholds (by simp [hkind]), htree, trivial⟩
  | token =>
    have hholds : rule.Holds [] := by rw [Holds, if_pos hkind]
    exact ⟨.node (by simp [hkind]), hholds, trivial, trivial⟩

theorem Rule.grows_parseWithin (n : Nat) (rule : Rule) (spaced : Bool) :
    (call rule).Grows (diagramGrammar.parseWithin n rule spaced) := by
  induction n generalizing rule spaced with
  | zero =>
    intro s f rest h
    simp [Grammar.parseWithin] at h
  | succ n ih => exact grows_wrap (grows_read ih _ _)

/-- What a rule leaves of a text is a tree of the grammar at every depth. -/
theorem Rule.isTree_of_parseAt {rule : Rule} {spaced : Bool} {s rest : Text} {f : Forest Rule}
    (h : diagramGrammar.parseAt rule spaced s = some (f, rest)) : f.IsTree :=
  (grows_parseWithin _ rule spaced _ _ _ h).2

end DiagramMacros
