import DiagramMacros.Proofs.Expression.Resolution
/-!
Calculations: groups between dollars whose names are defined and whose numbers are finite. Such a
group always resolves, however it is spaced, and to the value of its tree (`resolve_calculation`).

Because a chain is folded from the left, its first operands may be put between parentheses, at any
depth, without changing the value (`Operand.Encloses`).
-/

set_option autoImplicit false
set_option relaxedAutoImplicit false

namespace DiagramMacros

open Text

/-- A number of the grammar that reads as a finite number. -/
def IsFiniteNumber (x : Text) : Prop := Rule.number.Spells x ∧ ∃ v, Scope.readNumber x = .ok v

theorem isFiniteNumber_of_isOk {x : Text} (hx : Rule.number.Spells x)
    (hok : (Scope.readNumber x).isOk) : IsFiniteNumber x := by
  refine ⟨hx, ?_⟩
  cases hread : Scope.readNumber x with
  | error f => rw [hread] at hok; simp [Except.isOk, Except.toBool] at hok
  | ok v => exact ⟨v, rfl⟩

section

variable (scope : Scope)

/-- A name that is defined. -/
def IsDefined (n : Text) : Prop := Rule.name.Spells n ∧ ∃ p, scope.lookup n = .ok p

/-- An operation whose factor, if it has one, is finite. -/
def IsFiniteOperation (o : Operation) : Prop :=
  ∀ factor, o = .interpolate factor → IsFiniteNumber factor

/-- An operand whose names are defined and whose numbers are finite. -/
def Operand.Grounded : Operand → Prop :=
  Operand.All (IsDefined scope) IsFiniteOperation fun x y ↦ IsFiniteNumber x ∧ IsFiniteNumber y

/-- Links whose names are defined and whose numbers are finite. -/
def Links.Grounded : Links → Prop :=
  Links.All (IsDefined scope) IsFiniteOperation fun x y ↦ IsFiniteNumber x ∧ IsFiniteNumber y

end

variable {scope : Scope}

theorem IsFiniteOperation.proper {o : Operation} (h : IsFiniteOperation o) : o.Proper := by
  cases o with
  | add => trivial
  | project => trivial
  | interpolate factor => exact (h factor rfl).1

/-- The grammar reads such an operand. -/
theorem Operand.Grounded.proper {o : Operand} (h : o.Grounded scope) : o.Proper :=
  Operand.All.imp (fun _ hn ↦ hn.1) (fun _ ho ↦ ho.proper)
    (fun _ _ hpair ↦ isPair_of_numbers hpair.1.1 hpair.2.1) o h

/-! ### Every calculation has a value -/

theorem exists_cartesian {x y : Text} (hx : IsFiniteNumber x) (hy : IsFiniteNumber y) :
    ∃ p, (Operand.cartesian x y).value scope = .ok p := by
  obtain ⟨_, v, hv⟩ := hx
  obtain ⟨_, w, hw⟩ := hy
  exact ⟨_, by rw [Operand.value, hv, hw]; rfl⟩

theorem exists_polar {x y : Text} (hx : IsFiniteNumber x) (hy : IsFiniteNumber y) :
    ∃ p, (Operand.polar x y).value scope = .ok p := by
  obtain ⟨_, v, hv⟩ := hx
  obtain ⟨_, w, hw⟩ := hy
  exact ⟨_, by rw [Operand.value, hv, hw]; rfl⟩

/-- One step of the fold. -/
theorem exists_combine {o : Operation} (ho : IsFiniteOperation o) (p q : Point Float) :
    ∃ r, Scope.combine p q o = .ok r := by
  cases o with
  | add => exact ⟨_, rfl⟩
  | project => exact ⟨_, rfl⟩
  | interpolate factor =>
    obtain ⟨_, t, ht⟩ := ho factor rfl
    exact ⟨_, by rw [Scope.combine, ht]; rfl⟩

theorem exists_chainValue {first : Operand} {links : Links}
    (hfirst : ∃ p, first.value scope = .ok p)
    (hlinks : ∀ p, ∃ q, links.foldFrom scope p = .ok q) :
    ∃ q, chainValue scope first links = .ok q := by
  obtain ⟨p, hp⟩ := hfirst
  obtain ⟨q, hq⟩ := hlinks p
  exact ⟨q, by rw [chainValue, hp, ← hq]; rfl⟩

mutual

theorem Operand.exists_value : ∀ o : Operand, o.Grounded scope → ∃ p, o.value scope = .ok p
  | .name _, h => h.2
  | .parensName _, h => h.2
  | .dollars first links, h => exists_chainValue (first.exists_value h.1) (links.exists_fold h.2)
  | .parens first links, h =>
    exists_chainValue (first.exists_value h.2.1) (links.exists_fold h.2.2)
  | .parensDollars first links, h =>
    exists_chainValue (first.exists_value h.1) (links.exists_fold h.2)
  | .cartesian _ _, h => exists_cartesian h.1 h.2
  | .polar _ _, h => exists_polar h.1 h.2

theorem Links.exists_fold :
    ∀ links : Links, links.Grounded scope → ∀ p, ∃ q, links.foldFrom scope p = .ok q
  | .done, _, p => ⟨p, rfl⟩
  | .next operation operand more, h, p => by
    obtain ⟨q, hq⟩ := operand.exists_value h.2.1
    obtain ⟨r, hr⟩ := exists_combine h.1 p q
    obtain ⟨v, hv⟩ := more.exists_fold h.2.2 r
    refine ⟨v, ?_⟩
    calc (Links.next operation operand more).foldFrom scope p =
          operand.value scope >>= fun q ↦ Scope.combine p q operation >>= more.foldFrom scope :=
            Links.foldFrom_next scope operation operand more p
      _ = Scope.combine p q operation >>= more.foldFrom scope := by rw [hq]; rfl
      _ = more.foldFrom scope r := by rw [hr]; rfl
      _ = .ok v := hv

end

/-! ### Parentheses around the start of a chain -/

/-- Links, and more links after them. -/
def Links.append : Links → Links → Links
  | .done, back => back
  | .next operation operand more, back => .next operation operand (more.append back)

theorem Links.foldFrom_append (front back : Links) (p : Point Float) :
    (front.append back).foldFrom scope p = front.foldFrom scope p >>= back.foldFrom scope := by
  match front with
  | .done => rfl
  | .next operation operand more =>
    rw [Links.append, Links.foldFrom_next, Links.foldFrom_next, bind_assoc]
    congr 1
    funext q
    rw [bind_assoc]
    congr 1
    funext r
    exact Links.foldFrom_append more back r

theorem Links.grounded_append : ∀ {front back : Links},
    (front.append back).Grounded scope ↔ front.Grounded scope ∧ back.Grounded scope
  | .done, back => ⟨fun h ↦ ⟨trivial, h⟩, fun h ↦ h.2⟩
  | .next operation operand more, back => by
    constructor
    · rintro ⟨ho, hoperand, hmore⟩
      obtain ⟨hmore, hback⟩ := Links.grounded_append.1 hmore
      exact ⟨⟨ho, hoperand, hmore⟩, hback⟩
    · rintro ⟨⟨ho, hoperand, hmore⟩, hback⟩
      exact ⟨ho, hoperand, Links.grounded_append.2 ⟨hmore, hback⟩⟩

theorem Links.append_ne_done {front back : Links} (h : back ≠ .done) :
    front.append back ≠ .done := by
  cases front with
  | done => exact h
  | next operation operand more => exact Links.noConfusion

mutual

/-- The second operand is the first one with parentheses around the start of one of its chains. -/
inductive Operand.Encloses : Operand → Operand → Prop
  | dollars {first first' : Operand} {links links' : Links}
      (h : ChainEncloses first links first' links') :
      Operand.Encloses (.dollars first links) (.dollars first' links')
  | parens {first first' : Operand} {links links' : Links}
      (h : ChainEncloses first links first' links') :
      Operand.Encloses (.parens first links) (.parens first' links')
  | parensDollars {first first' : Operand} {links links' : Links}
      (h : ChainEncloses first links first' links') :
      Operand.Encloses (.parensDollars first links) (.parensDollars first' links')

/-- The second chain is the first one with parentheses around two or more of its first operands, but
not all, or around the start of a chain inside one of its operands. -/
inductive ChainEncloses : Operand → Links → Operand → Links → Prop
  | here {first : Operand} {front back : Links} (hfront : front ≠ .done) (hback : back ≠ .done) :
      ChainEncloses first (front.append back) (.parens first front) back
  | inFirst {first first' : Operand} {links : Links} (h : Operand.Encloses first first') :
      ChainEncloses first links first' links
  | inLater {first operand operand' : Operand} {front back : Links} {operation : Operation}
      (h : Operand.Encloses operand operand') :
      ChainEncloses first (front.append (.next operation operand back)) first
        (front.append (.next operation operand' back))

end

/-- If the first chain is grounded, then so is the second, and it has the same value. -/
def SameChain (scope : Scope) (first : Operand) (links : Links) (first' : Operand)
    (links' : Links) : Prop :=
  first.Grounded scope → links.Grounded scope →
    first'.Grounded scope ∧ links'.Grounded scope ∧ (links ≠ .done → links' ≠ .done) ∧
      chainValue scope first' links' = chainValue scope first links

theorem sameChain_here {first : Operand} {front back : Links} (hfront : front ≠ .done)
    (hback : back ≠ .done) :
    SameChain scope first (front.append back) (.parens first front) back := by
  intro hfirst hlinks
  obtain ⟨hgrounded, hgrounded'⟩ := Links.grounded_append.1 hlinks
  refine ⟨⟨hfront, hfirst, hgrounded⟩, hgrounded', fun _ ↦ hback, ?_⟩
  calc chainValue scope (.parens first front) back =
        (first.value scope >>= front.foldFrom scope) >>= back.foldFrom scope := rfl
    _ = first.value scope >>= fun p ↦ front.foldFrom scope p >>= back.foldFrom scope :=
        bind_assoc _ _ _
    _ = chainValue scope first (front.append back) := by
        rw [chainValue]
        congr 1
        funext p
        exact (Links.foldFrom_append front back p).symm

theorem sameChain_inLater {first operand operand' : Operand} {front back : Links}
    {operation : Operation}
    (h : operand.Grounded scope → operand'.Grounded scope ∧
      operand'.value scope = operand.value scope) :
    SameChain scope first (front.append (.next operation operand back)) first
      (front.append (.next operation operand' back)) := by
  intro hfirst hlinks
  obtain ⟨hfront, ho, hoperand, hback⟩ := Links.grounded_append.1 hlinks
  obtain ⟨hoperand', hvalue⟩ := h hoperand
  refine ⟨hfirst, Links.grounded_append.2 ⟨hfront, ho, hoperand', hback⟩,
    fun _ ↦ Links.append_ne_done Links.noConfusion, ?_⟩
  rw [chainValue, chainValue]
  congr 1
  funext p
  rw [Links.foldFrom_append, Links.foldFrom_append]
  congr 1
  funext q
  rw [Links.foldFrom_next, Links.foldFrom_next, hvalue]

mutual

/-- Parentheses around the start of a chain keep an operand grounded and its value. -/
theorem Operand.Encloses.same : ∀ {o o' : Operand}, o.Encloses o' → o.Grounded scope →
    o'.Grounded scope ∧ o'.value scope = o.value scope
  | _, _, .dollars h, hgrounded => by
    obtain ⟨hfirst, hlinks, _, hvalue⟩ := h.same hgrounded.1 hgrounded.2
    exact ⟨⟨hfirst, hlinks⟩, hvalue⟩
  | _, _, .parens h, hgrounded => by
    obtain ⟨hfirst, hlinks, hdone, hvalue⟩ := h.same hgrounded.2.1 hgrounded.2.2
    exact ⟨⟨hdone hgrounded.1, hfirst, hlinks⟩, hvalue⟩
  | _, _, .parensDollars h, hgrounded => by
    obtain ⟨hfirst, hlinks, _, hvalue⟩ := h.same hgrounded.1 hgrounded.2
    exact ⟨⟨hfirst, hlinks⟩, hvalue⟩

theorem ChainEncloses.same : ∀ {first first' : Operand} {links links' : Links},
    ChainEncloses first links first' links' → SameChain scope first links first' links'
  | _, _, _, _, .here hfront hback => sameChain_here hfront hback
  | _, _, _, _, .inFirst h => fun hfirst hlinks ↦ by
    obtain ⟨hfirst', hvalue⟩ := h.same hfirst
    exact ⟨hfirst', hlinks, id, by rw [chainValue, hvalue, chainValue]⟩
  | _, _, _, _, .inLater h => sameChain_inLater h.same

end

/-- A calculation whose names are defined and whose numbers are finite resolves, however it is
spaced, to the value of its tree, and parentheses around the start of a chain inside it change
nothing. -/
theorem resolve_calculation (scope : Scope) {first : Operand} {links : Links}
    (h : (Operand.dollars first links).Grounded scope) :
    ∃ p, (Operand.dollars first links).value scope = .ok p ∧
      (∀ s, Spaced (Operand.dollars first links).tokens s → scope.resolve s = .ok p) ∧
      ∀ o', (Operand.dollars first links).Encloses o' →
        ∀ s, Spaced o'.tokens s → scope.resolve s = .ok p := by
  obtain ⟨p, hp⟩ := Operand.exists_value _ h
  refine ⟨p, hp, fun s hs ↦ ?_, fun o' hencloses s hs ↦ ?_⟩
  · rw [resolve_dollars h.proper hs, hp]
  · obtain ⟨hgrounded, hvalue⟩ := hencloses.same h
    cases hencloses with
    | dollars _ => rw [resolve_dollars hgrounded.proper hs, hvalue, hp]

/-- Two levels of dollars, a group inside and blanks in all places. -/
theorem resolve_calculation_nested :
    let scope : Scope := ⟨[("A".toList, Point.ofVec ⟨1, 2⟩), ("B'".toList, Point.ofVec ⟨3, 4⟩)]⟩
    let last : Links := .next .project (.dollars (.name "A".toList) .done) .done
    let middle (back : Links) : Links :=
      .next (.interpolate "0.5".toList) (.cartesian "1".toList "-2.5e1".toList) back
    let outer (o : Operand) : Operand :=
      .dollars (.dollars (.name "A".toList) .done) (.next .add o .done)
    let group : Operand := .parens (.name "B'".toList) (middle last)
    let regrouped : Operand := .parens (.parens (.name "B'".toList) (middle .done)) last
    (outer group).Grounded scope ∧ (outer group).Encloses (outer regrouped) ∧
      ∃ p, (outer group).value scope = .ok p ∧
        scope.resolve " $ $A$ + ( B' !0.5! (1 , -2.5e1 ) -| $ A$)\n$".toList = .ok p ∧
        scope.resolve "$$A$+((B'!0.5!(1,-2.5e1))-|$A$)$".toList = .ok p := by
  intro scope last middle outer group regrouped
  have hA : IsDefined scope "A".toList := ⟨by decide +kernel, _, rfl⟩
  have hB : IsDefined scope "B'".toList := ⟨by decide +kernel, _, rfl⟩
  have hfactor : IsFiniteOperation (.interpolate "0.5".toList) := by
    rintro factor ⟨⟩
    exact isFiniteNumber_of_isOk (by decide +kernel) (by decide +kernel)
  have hx : IsFiniteNumber "1".toList :=
    isFiniteNumber_of_isOk (by decide +kernel) (by decide +kernel)
  have hy : IsFiniteNumber "-2.5e1".toList :=
    isFiniteNumber_of_isOk (by decide +kernel) (by decide +kernel)
  have hadd : IsFiniteOperation .add := nofun
  have hproject : IsFiniteOperation .project := nofun
  have hgrounded : (outer group).Grounded scope :=
    ⟨⟨hA, trivial⟩, hadd, ⟨nofun, hB, hfactor, ⟨hx, hy⟩, hproject, ⟨hA, trivial⟩, trivial⟩, trivial⟩
  have hgroup : group.Encloses regrouped :=
    .parens (@ChainEncloses.here (.name "B'".toList) (middle .done) last nofun nofun)
  have houter : (outer group).Encloses (outer regrouped) :=
    .dollars (@ChainEncloses.inLater _ _ _ .done .done .add hgroup)
  obtain ⟨p, hvalue, hresolve, hsame⟩ := resolve_calculation scope hgrounded
  exact ⟨hgrounded, houter, p, hvalue, hresolve _ (by decide +kernel),
    hsame _ houter _ (by decide +kernel)⟩
end DiagramMacros
