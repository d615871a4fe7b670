import DiagramMacros.Proofs.Document.EarlierDefinitions
import DiagramMacros.Proofs.Expression.UsedNames
/-!
Scopes that agree. Two scopes agree if every name stands for the same point in both, in whatever
order the names were defined. Nothing that is built can tell such scopes apart (`sameOutcome_build`,
`sameOutcome_buildAll`).

A definition of a name matters only to what uses the name. So two definitions of different names
that do not use each other may be built in either order, and the scopes after them agree
(`buildLexeme_swap`). Lexemes that come later then have the same outcome.
-/

set_option autoImplicit false
set_option relaxedAutoImplicit false

namespace DiagramMacros

open Text

variable {scope scope' : Scope} {name other : Text} {p q : Point Float}

/-! ### Scopes with the same points -/

namespace Scope

theorem get?_define_self (scope : Scope) (name : Text) (p : Point Float) :
    (scope.define name p).get? name = some (p.named name) :=
  Assoc.get?_put_self _ _ _

theorem get?_define_of_ne (scope : Scope) (p : Point Float) (h : other ≠ name) :
    (scope.define name p).get? other = scope.get? other :=
  Assoc.get?_put_of_ne _ _ h

/-- Every name stands for the same point in both scopes, or is unknown in both. -/
def Agrees (scope scope' : Scope) : Prop := ∀ name, scope.get? name = scope'.get? name

theorem Agrees.define (h : scope.Agrees scope') (name : Text) (p : Point Float) :
    (scope.define name p).Agrees (scope'.define name p) := by
  intro other
  by_cases hother : other = name
  · rw [hother, get?_define_self, get?_define_self]
  · rw [get?_define_of_ne _ _ hother, get?_define_of_ne _ _ hother, h other]

theorem define_comm (scope : Scope) (h : name ≠ other) :
    ((scope.define name p).define other q).Agrees ((scope.define other q).define name p) := by
  intro n
  by_cases hname : n = name
  · subst hname
    rw [get?_define_of_ne _ _ h, get?_define_self, get?_define_self]
  · rw [get?_define_of_ne _ p hname]
    by_cases hother : n = other
    · rw [hother, get?_define_self, get?_define_self]
    · rw [get?_define_of_ne _ _ hother, get?_define_of_ne _ _ hother, get?_define_of_ne _ _ hname]

theorem Agrees.resolve (h : scope.Agrees scope') (text : Text) :
    scope.resolve text = scope'.resolve text :=
  resolve_congr fun name _ ↦ h name

/-- A definition makes no difference to an expression that does not use its name. -/
theorem resolve_define {text : Text} (h : name ∉ Expression.namesIn (trim text)) :
    (scope.define name p).resolve text = scope.resolve text :=
  resolve_congr fun _ hn ↦ get?_define_of_ne _ _ fun heq ↦ h (heq ▸ hn)

end Scope

/-! ### What is built in scopes that agree -/

theorem Pen.step_congr (h : scope.Agrees scope') (pen : Pen) (token : PathToken) :
    pen.step scope token = pen.step scope' token := by
  cases token with
  | coordinate expression =>
    simp only [Pen.step, Pen.resolve, Scope.resolveFrom, h.resolve expression]
  | operator o => rfl
  | node n => rfl

theorem PathScan.run_congr (h : scope.Agrees scope') (body : Text) (passes : Nat)
    (scan : PathScan) : scan.run body scope passes = scan.run body scope' passes := by
  induction passes generalizing scan with
  | zero => rfl
  | succ passes ih =>
    simp only [PathScan.run, PathScan.step, Pen.step_congr h, ih]

theorem DrawnPath.read_congr (h : scope.Agrees scope') (style : Style) (body : Text) :
    DrawnPath.read style body scope = DrawnPath.read style body scope' := by
  rw [DrawnPath.read, DrawnPath.read, PathScan.run_congr h]

theorem Scope.buildFigure_congr (h : scope.Agrees scope') (k : Keyword) (tree : Forest Rule) :
    scope.buildFigure k tree = scope'.buildFigure k tree := by
  have hlookup : ∀ name, scope.lookup name = scope'.lookup name := fun name ↦ lookup_congr (h name)
  simp only [buildFigure, buildNode, buildArrow, buildCircle, buildAngle, h.resolve, hlookup,
    DrawnPath.read_congr h]

/-- The same failure, or the same result with scopes that agree. -/
inductive SameOutcome {ε α : Type} : Except ε (α × Scope) → Except ε (α × Scope) → Prop
  | error (e : ε) : SameOutcome (.error e) (.error e)
  | ok {scope scope' : Scope} (a : α) (h : scope.Agrees scope') :
    SameOutcome (.ok (a, scope)) (.ok (a, scope'))

/-- A result to which only the scope has to be added. -/
theorem sameOutcome_map {ε α β : Type} {r : Except ε α} {f : α → β} {s s' : α → Scope}
    (h : ∀ a, (s a).Agrees (s' a)) :
    SameOutcome (r.map fun a ↦ (f a, s a)) (r.map fun a ↦ (f a, s' a)) := by
  cases r with
  | error e => exact .error e
  | ok a => exact .ok (f a) (h a)

theorem sameOutcome_build (h : scope.Agrees scope') (k : Keyword) (tree : Forest Rule) :
    SameOutcome (scope.build k tree) (scope'.build k tree) := by
  unfold Scope.build
  split
  case h_1 expression name label list _ =>
    unfold Scope.buildLabelled
    dsimp only
    split
    · exact .error _
    · rw [h.resolve]
      exact sameOutcome_map fun p ↦ h.define _ p
  case h_2 =>
    unfold Scope.buildCoordinate
    rw [h.resolve]
    exact sameOutcome_map fun p ↦ h.define _ p
  case h_3 =>
    rw [Scope.buildFigure_congr h]
    exact sameOutcome_map fun _ ↦ h

theorem sameOutcome_buildLexeme (h : scope.Agrees scope') (l : Lexeme) :
    SameOutcome (scope.buildLexeme l) (scope'.buildLexeme l) := by
  unfold Scope.buildLexeme
  split
  case h_1 text => exact .ok _ h
  case h_2 k _ inside _ => exact sameOutcome_build h k inside
  case h_3 => exact .error _

/-- Nothing that is built can tell scopes apart that agree. -/
theorem sameOutcome_buildAll (h : scope.Agrees scope') (ls : List PlacedLexeme) :
    SameOutcome (buildAll scope ls) (buildAll scope' ls) := by
  induction ls generalizing scope scope' with
  | nil => exact .ok [] h
  | cons l ls ih =>
    have hl := sameOutcome_buildLexeme h l.lexeme
    rw [buildAll, buildAll]
    generalize scope.buildLexeme l.lexeme = r at hl ⊢
    generalize scope'.buildLexeme l.lexeme = r' at hl ⊢
    cases hl with
    | error failure => exact .error _
    | @ok next next' token hnext =>
      have hls := ih hnext
      dsimp only
      generalize buildAll next ls = r at hls ⊢
      generalize buildAll next' ls = r' at hls ⊢
      cases hls with
      | error report => exact .error _
      | ok tokens hlast => exact .ok _ hlast

/-! ### Two definitions in either order -/

section Swap

variable {l first second : Lexeme} {expression expression' : Text} {t u : Token}
  {mid last : Scope} {ls ls' : List PlacedLexeme} {tokens tokens' : List Token}

/-- A lexeme that defines a name either fails in every scope, or it fails only if its expression
does and otherwise defines the name. -/
theorem buildLexeme_of_definition (h : l.definition? = some (name, expression)) :
    (∃ failure, ∀ scope : Scope, scope.buildLexeme l = .error failure) ∨
      ∃ token : Point Float → Token, ∀ scope : Scope, scope.buildLexeme l =
        (scope.resolve expression).map fun p ↦ (token p, scope.define name p) := by
  cases l with
  | raw text => simp [Lexeme.definition?, Lexeme.keyword?] at h
  | call k tree =>
    cases tree with
    | nil => exact Or.inl ⟨_, fun _ ↦ rfl⟩
    | text piece next => exact Or.inl ⟨_, fun _ ↦ rfl⟩
    | node rule inside next =>
      unfold Lexeme.definition? at h
      split at h
      case h_1 expression' name' label list hk harguments =>
        obtain rfl := Option.some.inj hk
        obtain ⟨rfl, rfl⟩ := Prod.mk.inj (Option.some.inj h)
        have harguments' : argumentTexts inside = [expression', name', label, list] := harguments
        have hbuild : ∀ scope : Scope, scope.buildLexeme (.call .coor (.node rule inside next)) =
            scope.buildLabelled expression' name' label list := by
          intro scope
          rw [Scope.buildLexeme, Scope.build]
          simp only [harguments']
        simp only [hbuild]
        by_cases hname : (trim name').isEmpty
        · exact Or.inl ⟨_, fun scope ↦ if_pos hname⟩
        · exact Or.inr ⟨_, fun scope ↦ if_neg hname⟩
      case h_2 hk =>
        obtain rfl := Option.some.inj hk
        obtain ⟨rfl, rfl⟩ := Prod.mk.inj (Option.some.inj h)
        exact Or.inr ⟨_, fun scope ↦ rfl⟩
      case h_3 => simp at h

/-- Two definitions of different names that do not use each other may change places. -/
theorem buildLexeme_swap (hfirst : first.definition? = some (name, expression))
    (hsecond : second.definition? = some (other, expression')) (hne : name ≠ other)
    (hname : name ∉ Expression.namesIn (trim expression'))
    (hother : other ∉ Expression.namesIn (trim expression))
    (ht : scope.buildLexeme first = .ok (t, mid)) (hu : mid.buildLexeme second = .ok (u, last)) :
    ∃ mid' last', scope.buildLexeme second = .ok (u, mid') ∧
      mid'.buildLexeme first = .ok (t, last') ∧ last.Agrees last' := by
  rcases buildLexeme_of_definition hfirst with ⟨failure, hfails⟩ | ⟨token, hbuild⟩
  · rw [hfails] at ht
    simp at ht
  rcases buildLexeme_of_definition hsecond with ⟨failure, hfails⟩ | ⟨token', hbuild'⟩
  · rw [hfails] at hu
    simp at hu
  rw [hbuild] at ht
  obtain ⟨p, hp, heq⟩ := map_eq_ok_iff.1 ht
  obtain ⟨rfl, rfl⟩ := Prod.mk.inj heq
  rw [hbuild', Scope.resolve_define hname] at hu
  obtain ⟨q, hq, heq⟩ := map_eq_ok_iff.1 hu
  obtain ⟨rfl, rfl⟩ := Prod.mk.inj heq
  refine ⟨scope.define other q, (scope.define other q).define name p, ?_, ?_, scope.define_comm hne⟩
  · rw [hbuild', hq]
    rfl
  · rw [hbuild, Scope.resolve_define hother, hp]
    rfl

/-- Raw text leaves the scope as it is. -/
theorem Built.of_isRaw (h : ∀ l ∈ ls, l.lexeme.isRaw) (scope : Scope) :
    Built scope ls (ls.map fun l ↦ .raw l.lexeme.text) scope := by
  induction ls with
  | nil => exact Built.nil
  | cons l ls ih =>
    have hl := h l List.mem_cons_self
    refine Built.cons ?_ (ih fun l hl ↦ h l (List.mem_cons_of_mem _ hl))
    cases hlexeme : l.lexeme with
    | raw text =>
      dsimp only
      rw [hlexeme]
      rfl
    | call k tree =>
      rw [hlexeme] at hl
      exact Bool.noConfusion hl

theorem Built.length_eq (h : Built scope ls tokens last) : tokens.length = ls.length := by
  induction h with
  | nil => rfl
  | cons _ _ ih => rw [List.length_cons, List.length_cons, ih]

theorem Built.append (h : Built scope ls tokens mid) (h' : Built mid ls' tokens' last) :
    Built scope (ls ++ ls') (tokens ++ tokens') last := by
  induction h with
  | nil => exact h'
  | cons hbuild _ ih => exact Built.cons hbuild (ih h')

theorem Built.exists_append (h : Built scope (ls ++ ls') tokens last) :
    ∃ front rest mid, Built scope ls front mid ∧ Built mid ls' rest last := by
  obtain ⟨mid, hfront, hrest⟩ := h.take ls.length
  rw [List.take_left] at hfront
  rw [List.drop_left] at hrest
  exact ⟨_, _, mid, hfront, hrest⟩

/-- What comes after lexemes that have been built is built in the scope that they leave. -/
theorem Built.buildAll_append (h : Built scope ls tokens mid) (later : List PlacedLexeme) :
    buildAll scope (ls ++ later) =
      (buildAll mid later).map fun r ↦ (tokens ++ r.1, r.2) := by
  induction h with
  | nil =>
    cases hlater : buildAll _ later <;> simp [hlater, Except.map]
  | cons hbuild _ ih =>
    rw [List.cons_append, buildAll, hbuild]
    dsimp only
    rw [ih]
    cases buildAll _ later <;> rfl

/-- Lexemes that end with two definitions, and the same with the definitions in the other order.
They define different names, neither uses the name of the other, and there is only raw text between
them. The places of the lexemes do not matter. -/
inductive SwapsDefinitions : List PlacedLexeme → List PlacedLexeme → Prop
  | intro {before gap gap' : List PlacedLexeme} {first first' second second' : PlacedLexeme}
      {name other expression expression' : Text}
      (hfirst : first.lexeme.definition? = some (name, expression))
      (hsecond : second.lexeme.definition? = some (other, expression')) (hne : name ≠ other)
      (hname : name ∉ Expression.namesIn (trim expression'))
      (hother : other ∉ Expression.namesIn (trim expression))
      (hgap : ∀ l ∈ gap, l.lexeme.isRaw)
      (hfirst' : first'.lexeme = first.lexeme) (hsecond' : second'.lexeme = second.lexeme)
      (hgap' : gap'.map PlacedLexeme.lexeme = gap.map PlacedLexeme.lexeme) :
      SwapsDefinitions (before ++ first :: (gap ++ [second]))
        (before ++ second' :: (gap' ++ [first']))

theorem isRaw_of_same_lexemes (hls : ls'.map PlacedLexeme.lexeme = ls.map PlacedLexeme.lexeme)
    (h : ∀ l ∈ ls, l.lexeme.isRaw) : ∀ l ∈ ls', l.lexeme.isRaw := by
  intro l hl
  obtain ⟨l', hl', heq⟩ := List.mem_map.1 (hls ▸ List.mem_map_of_mem hl)
  exact heq ▸ h l' hl'

theorem SwapsDefinitions.symm (h : SwapsDefinitions ls ls') : SwapsDefinitions ls' ls := by
  obtain @⟨before, gap, gap', first, first', second, second', name, other, expression, expression',
    hfirst, hsecond, hne, hname, hother, hgap, hfirst', hsecond', hgap'⟩ := h
  rw [← hfirst'] at hfirst
  rw [← hsecond'] at hsecond
  exact .intro hsecond hfirst hne.symm hother hname (isRaw_of_same_lexemes hgap' hgap)
    hsecond'.symm hfirst'.symm hgap'.symm

/-- The definitions are built in the other order too, and the scope after them agrees. -/
theorem SwapsDefinitions.exists_built (h : SwapsDefinitions ls ls')
    (hbuilt : Built scope ls tokens last) :
    ∃ tokens' last', Built scope ls' tokens' last' ∧ last.Agrees last' := by
  obtain @⟨before, gap, gap', first, first', second, second', name, other, expression, expression',
    hfirst, hsecond, hne, hname, hother, hgap, hfirst', hsecond', hgap'⟩ := h
  obtain ⟨front, rest, start, hbefore, hrest⟩ := hbuilt.exists_append
  obtain @⟨_⟩ | @⟨_, mid, _, _, _, t, tail, ht, htail⟩ := hrest
  obtain ⟨middle, rest', mid', hmiddle, hlast⟩ := htail.exists_append
  obtain ⟨-, rfl⟩ := hmiddle.unique (Built.of_isRaw hgap mid) rfl
  obtain @⟨_⟩ | @⟨_, last, _, _, _, u, _, hu, hnil⟩ := hlast
  cases hnil
  obtain ⟨mid', last', hu', ht', hagrees⟩ :=
    buildLexeme_swap hfirst hsecond hne hname hother ht hu
  rw [← hfirst'] at ht'
  rw [← hsecond'] at hu'
  have hraw := isRaw_of_same_lexemes hgap' hgap
  have hswapped := Built.cons hu'
    ((Built.of_isRaw hraw mid').append (Built.cons ht' Built.nil))
  exact ⟨_, last', hbefore.append hswapped, hagrees⟩

theorem SwapsDefinitions.isOk (h : SwapsDefinitions ls ls') (hok : (buildAll scope ls).isOk) :
    (buildAll scope ls').isOk := by
  obtain ⟨⟨tokens, last⟩, hbuild⟩ := exists_of_isOk hok
  obtain ⟨tokens', last', hbuilt', -⟩ := h.exists_built (built_of_buildAll hbuild)
  have hbuild' := hbuilt'.buildAll_append []
  rw [List.append_nil] at hbuild'
  rw [hbuild']
  rfl

end Swap

/-- What is resolved depends only on the names that are used. A text stands for the same point, or
fails alike, in two scopes in which the names in its parse tree stand for the same points. So two
definitions of different names that do not use each other may change places: they are built in one
order exactly if they are built in the other, and then all lexemes that come later have the same
tokens, or the same failure. -/
theorem resolution_by_used_names :
    (∀ (text : Text) (scope scope' : Scope),
      (∀ name ∈ Expression.namesIn (trim text), scope.get? name = scope'.get? name) →
        scope.resolve text = scope'.resolve text) ∧
    ∀ (scope : Scope) (front front' : List PlacedLexeme), SwapsDefinitions front front' →
      ((buildAll scope front).isOk ↔ (buildAll scope front').isOk) ∧
      ((buildAll scope front).isOk → ∀ later : List PlacedLexeme, SameOutcome
        ((buildAll scope (front ++ later)).map fun r ↦ (r.1.drop front.length, r.2))
        ((buildAll scope (front' ++ later)).map fun r ↦ (r.1.drop front'.length, r.2))) := by
  refine ⟨fun text scope scope' h ↦ Scope.resolve_congr h, fun scope front front' hswap ↦ ?_⟩
  refine ⟨⟨hswap.isOk, hswap.symm.isOk⟩, fun hok later ↦ ?_⟩
  obtain ⟨⟨tokens, last⟩, hbuild⟩ := exists_of_isOk hok
  have hbuilt := built_of_buildAll hbuild
  obtain ⟨tokens', last', hbuilt', hagrees⟩ := hswap.exists_built hbuilt
  rw [hbuilt.buildAll_append, hbuilt'.buildAll_append, ← hbuilt.length_eq, ← hbuilt'.length_eq]
  have hlater := sameOutcome_buildAll hagrees later
  generalize buildAll last later = r at hlater ⊢
  generalize buildAll last' later = r' at hlater ⊢
  cases hlater with
  | error report => exact .error _
  | ok more hmore =>
    simp only [Except.map, List.drop_left]
    exact .ok _ hmore

/-- The lexeme that a text begins with. -/
def firstLexeme (s : Text) : PlacedLexeme := ((lexPlaced s).toOption.getD []).headD ⟨.raw [], 0, 0⟩

/-- A point, and two more that are given from it. -/
def originCall : PlacedLexeme := firstLexeme "\\coor\x7b1,1\x7d\x7bO\x7d\x7b\x7d\x7b\x7d"
def rightCall : PlacedLexeme := firstLexeme "\\coor\x7bO+(1,0)\x7d\x7bA\x7d\x7b\x7d\x7b\x7d"
def upperCall : PlacedLexeme := firstLexeme "\\coor\x7bO+(0,1)\x7d\x7bB\x7d\x7b\x7d\x7b\x7d"
def lineBreak : PlacedLexeme := firstLexeme "\n"

theorem resolution_by_used_names_origin :
    (({} : Scope).define "A".toList (Point.ofVec ⟨1, 2⟩)).resolve "A+(1,1)".toList =
      ((({} : Scope).define "B".toList (Point.ofVec ⟨3, 4⟩)).define "A".toList
        (Point.ofVec ⟨1, 2⟩)).resolve "A+(1,1)".toList ∧
    ((buildAll {} [originCall, rightCall, lineBreak, upperCall]).isOk ∧
      (buildAll {} [originCall, upperCall, lineBreak, rightCall]).isOk) ∧
    ∀ later : List PlacedLexeme, SameOutcome
      ((buildAll {} ([originCall, rightCall, lineBreak, upperCall] ++ later)).map fun r ↦
        (r.1.drop 4, r.2))
      ((buildAll {} ([originCall, upperCall, lineBreak, rightCall] ++ later)).map fun r ↦
        (r.1.drop 4, r.2)) := by
  obtain ⟨hresolve, hswap⟩ := resolution_by_used_names
  have hnames : Expression.namesIn (trim "A+(1,1)".toList) = ["A".toList] := by decide +kernel
  have hright : rightCall.lexeme.definition? = some ("A".toList, "O+(1,0)".toList) := by
    decide +kernel
  have hupper : upperCall.lexeme.definition? = some ("B".toList, "O+(0,1)".toList) := by
    decide +kernel
  have hswaps : SwapsDefinitions ([originCall] ++ rightCall :: ([lineBreak] ++ [upperCall]))
      ([originCall] ++ upperCall :: ([lineBreak] ++ [rightCall])) :=
    .intro hright hupper (by decide) (by decide +kernel) (by decide +kernel) (by decide +kernel)
      rfl rfl rfl
  have hok : (buildAll {} [originCall, rightCall, lineBreak, upperCall]).isOk := by decide +kernel
  obtain ⟨hiff, hlater⟩ := hswap _ _ _ hswaps
  refine ⟨hresolve _ _ _ fun name hname ↦ ?_, ⟨hok, hiff.1 hok⟩, hlater hok⟩
  obtain rfl := List.mem_singleton.1 (hnames ▸ hname)
  rfl

end DiagramMacros
