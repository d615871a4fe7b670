import DiagramMacros.Expression
import DiagramMacros.Grammar.Ranking
/-!
What an expression of the grammar of diagrams yields at the start of a text: the parts of a
coordinate expression that its forest stands for, and the text after the match. The statements here
say for each kind of expression what it yields and where it fails, in terms of the expressions
inside it. `yields_seq`, `yields_alt`, `yields_absent` and `yields_call` are equivalences, so that
they serve to run the grammar forwards on a known text and to take a match apart.

Rounds of a repetition that all take a character are a relation of their own, `Rounds`, without the
bound on their number that the grammar works with (`yields_star`).
-/

set_option autoImplicit false
set_option relaxedAutoImplicit false

namespace DiagramMacros

open Expression

theorem Expression.parts_append (f g : Forest Rule) : parts (f ++ g) = parts f ++ parts g := by
  show parts (Forest.append f g) = _
  induction f with
  | nil => rfl
  | text piece next ih => simpa only [Forest.append, parts] using ih
  | node rule inside next _ ih => simp only [Forest.append, parts, ih, List.append_assoc]

namespace Text

/-- The text after the blanks at its start that the grammar allows between elements. -/
def afterGap (s : Text) : Text := s.dropWhile isGap

theorem afterGap_of_not {s : Text} (h : startsWith isGap s = false) : afterGap s = s :=
  dropWhile_of_not h

theorem startsWith_afterGap (s : Text) : startsWith isGap (afterGap s) = false :=
  startsWith_dropWhile isGap s

@[simp] theorem afterGap_afterGap (s : Text) : afterGap (afterGap s) = afterGap s :=
  afterGap_of_not (startsWith_afterGap s)

theorem afterGap_append {gap s : Text} (h : gap.all isGap) : afterGap (gap ++ s) = afterGap s := by
  induction gap with
  | nil => rfl
  | cons c gap ih =>
    simp only [List.all_cons, Bool.and_eq_true] at h
    simpa [afterGap, h.1] using ih h.2

/-- A text is a gap followed by the text after it. -/
theorem exists_gap (s : Text) : ∃ gap : Text, gap.all isGap ∧ s = gap ++ afterGap s :=
  ⟨s.takeWhile isGap, List.all_takeWhile, List.takeWhile_append_dropWhile.symm⟩

theorem length_afterGap_le (s : Text) : (afterGap s).length ≤ s.length :=
  List.Sublist.length_le (List.dropWhile_sublist _)

/-- A text starts with no character of a class if blanks are not of that class and the text after
the blanks does not. -/
theorem not_startsWith_of_afterGap {accepts : Char → Bool} {s : Text}
    (hgap : ∀ c, isGap c → accepts c = false) (h : startsWith accepts (afterGap s) = false) :
    startsWith accepts s = false := by
  cases s with
  | nil => rfl
  | cons c s =>
    by_cases hc : isGap c
    · exact hgap c hc
    · rwa [afterGap_of_not (by simpa using hc)] at h

end Text

namespace Peg

/-- The match of an expression at the start of a text. -/
def scan (e : Peg Rule) (spaced : Bool) (s : Text) : Match Rule :=
  e.read isGap diagramGrammar.parseAt spaced s

/-- An expression matches the start of a text, with these parts in its forest and this text after
it. -/
def Yields (e : Peg Rule) (spaced : Bool) (s : Text) (ps : List Part) (rest : Text) : Prop :=
  ∃ f, e.scan spaced s = some (f, rest) ∧ parts f = ps

/-- An expression does not match the start of a text. -/
def Fails (e : Peg Rule) (spaced : Bool) (s : Text) : Prop := e.scan spaced s = none

/-- The text that the element after another is tried on. -/
def gapped (spaced : Bool) (s : Text) : Text := (skip isGap spaced s).2

@[simp] theorem gapped_true (s : Text) : gapped true s = Text.afterGap s := rfl

@[simp] theorem gapped_false (s : Text) : gapped false s = s := rfl

variable {e a b : Peg Rule} {spaced : Bool} {s rest : Text} {ps : List Part}

theorem lossless_scan (e : Peg Rule) (spaced : Bool) : Lossless (e.scan spaced) :=
  flatten_of_read (fun rule spaced s ↦
    diagramGrammar.lossless_parseWithin _ rule spaced s) e spaced

theorem fails_or_yields (e : Peg Rule) (spaced : Bool) (s : Text) :
    e.Fails spaced s ∨ ∃ ps rest, e.Yields spaced s ps rest := by
  cases h : e.scan spaced s with
  | none => exact Or.inl h
  | some r => exact Or.inr ⟨parts r.1, r.2, r.1, h, rfl⟩

theorem Yields.not_fails (h : e.Yields spaced s ps rest) : ¬ e.Fails spaced s := by
  obtain ⟨f, hf, _⟩ := h
  simp [Fails, hf]

/-- What an expression yields is determined by the text. -/
theorem Yields.unique {ps' : List Part} {rest' : Text} (h : e.Yields spaced s ps rest)
    (h' : e.Yields spaced s ps' rest') : ps = ps' ∧ rest = rest' := by
  obtain ⟨f, hf, rfl⟩ := h
  obtain ⟨g, hg, rfl⟩ := h'
  have heq := hf.symm.trans hg
  simp only [Option.some.injEq, Prod.mk.injEq] at heq
  exact ⟨by rw [heq.1], heq.2⟩

/-- The text that a match takes. -/
theorem Yields.exists_append (h : e.Yields spaced s ps rest) : ∃ t : Text, s = t ++ rest := by
  obtain ⟨f, hf, _⟩ := h
  exact ⟨f.flatten, (lossless_scan e spaced _ _ _ hf).symm⟩

theorem Yields.length_le (h : e.Yields spaced s ps rest) : rest.length ≤ s.length := by
  obtain ⟨t, rfl⟩ := h.exists_append
  simp

/-- An expression that consumes takes at least one character. -/
theorem Yields.length_lt (he : consumes Rule.takes e) (h : e.Yields spaced s ps rest) :
    rest.length < s.length := by
  obtain ⟨f, hf, _⟩ := h
  exact length_lt_of_consumes (fun rule spaced ↦ lossless_scan (call rule) spaced)
    (fun rule spaced s ↦ Grammar.length_lt_of_parseWithin Rule.ranking _ rule spaced s) he hf

theorem Fails.nil (he : consumes Rule.takes e) : e.Fails spaced [] := by
  rcases fails_or_yields e spaced [] with h | ⟨ps, rest, h⟩
  · exact h
  · exact absurd (h.length_lt he) (Nat.not_lt_zero _)

/-! ### One expression in terms of those inside it -/

theorem yields_lit {t : Text} :
    (lit t).Yields spaced s ps rest ↔ s = t ++ rest ∧ ps = [] := by
  simp only [Yields, scan, read, Option.map_eq_some_iff, Prod.mk.injEq]
  constructor
  · rintro ⟨f, ⟨r, hr, rfl, rfl⟩, rfl⟩
    exact ⟨Text.after?_eq_some_iff.1 hr, rfl⟩
  · rintro ⟨hs, rfl⟩
    exact ⟨_, ⟨rest, Text.after?_eq_some_iff.2 hs, rfl, rfl⟩, rfl⟩

theorem fails_lit {t : Text} : (lit t).Fails spaced s ↔ ∀ rest, s ≠ t ++ rest := by
  constructor
  · intro h rest hs
    exact (yields_lit.2 ⟨hs, rfl⟩).not_fails h
  · intro h
    rcases fails_or_yields (lit t) spaced s with hfails | ⟨ps, rest, hyields⟩
    · exact hfails
    · exact absurd (yields_lit.1 hyields).1 (h rest)

theorem dropAnyCase_eq_some_iff {word t : Text} :
    dropAnyCase word s = some (t, rest) ↔
      s = t ++ rest ∧ t.map Char.toLower = word.map Char.toLower := by
  induction word generalizing s t with
  | nil =>
    rw [dropAnyCase, Option.some.injEq, Prod.mk.injEq, List.map_nil, List.map_eq_nil_iff]
    constructor
    · rintro ⟨rfl, rfl⟩
      exact ⟨rfl, rfl⟩
    · rintro ⟨rfl, rfl⟩
      exact ⟨rfl, rfl⟩
  | cons p word ih =>
    cases s with
    | nil =>
      refine iff_of_false (by simp [dropAnyCase]) ?_
      rintro ⟨hs, ht⟩
      rw [(List.append_eq_nil_iff.1 hs.symm).1] at ht
      exact List.cons_ne_nil _ _ ht.symm
    | cons c s =>
      rw [dropAnyCase]
      constructor
      · intro h
        split at h
        · rename_i hc
          obtain ⟨⟨t', rest'⟩, hmore, heq⟩ := Option.map_eq_some_iff.1 h
          obtain ⟨rfl, rfl⟩ := Prod.mk.inj heq
          obtain ⟨rfl, ht⟩ := ih.1 hmore
          exact ⟨rfl, by rw [List.map_cons, List.map_cons, hc, ht]⟩
        · simp at h
      · rintro ⟨hs, ht⟩
        cases t with
        | nil => exact absurd ht.symm (List.cons_ne_nil _ _)
        | cons d t =>
          obtain ⟨rfl, hrest⟩ := List.cons.inj hs
          obtain ⟨hc, hmore⟩ := List.cons.inj ht
          rw [if_pos hc, ih.2 ⟨hrest, hmore⟩]
          rfl

theorem yields_anyCase {word : Text} :
    (anyCase word).Yields spaced s ps rest ↔
      ∃ t, t.map Char.toLower = word.map Char.toLower ∧ s = t ++ rest ∧ ps = [] := by
  simp only [Yields, scan, read, Option.map_eq_some_iff, Prod.mk.injEq]
  constructor
  · rintro ⟨f, ⟨r, hr, rfl, rfl⟩, rfl⟩
    obtain ⟨hs, ht⟩ := dropAnyCase_eq_some_iff.1 hr
    exact ⟨r.1, ht, hs, rfl⟩
  · rintro ⟨t, ht, hs, rfl⟩
    exact ⟨_, ⟨(t, rest), dropAnyCase_eq_some_iff.2 ⟨hs, ht⟩, rfl, rfl⟩, rfl⟩

theorem yields_one {accepts : Char → Bool} :
    (one accepts).Yields spaced s ps rest ↔ ∃ c, s = c :: rest ∧ accepts c ∧ ps = [] := by
  cases s with
  | nil => simp [Yields, scan, read]
  | cons c s =>
    simp only [Yields, scan, read]
    constructor
    · rintro ⟨f, hf, rfl⟩
      split at hf
      · rename_i hc
        simp only [Option.some.injEq, Prod.mk.injEq] at hf
        obtain ⟨rfl, rfl⟩ := hf
        exact ⟨c, rfl, hc, rfl⟩
      · simp at hf
    · rintro ⟨d, heq, hd, rfl⟩
      simp only [List.cons.injEq] at heq
      obtain ⟨rfl, rfl⟩ := heq
      exact ⟨.text [c] .nil, by simp [hd], rfl⟩

theorem fails_one {accepts : Char → Bool} :
    (one accepts).Fails spaced s ↔ Text.startsWith accepts s = false := by
  cases s with
  | nil => simp [Fails, scan, read, Text.startsWith]
  | cons c s =>
    simp [Fails, scan, read, Text.startsWith]

theorem yields_seq :
    (seq a b).Yields spaced s ps rest ↔
      ∃ p mid q, a.Yields spaced s p mid ∧ b.Yields spaced (gapped spaced mid) q rest ∧
        ps = p ++ q := by
  constructor
  · rintro ⟨f, hf, rfl⟩
    simp only [scan, read] at hf
    split at hf
    · simp at hf
    · rename_i g mid hg
      obtain ⟨⟨h, rest'⟩, hh, heq⟩ := Option.map_eq_some_iff.1 hf
      simp only [Prod.mk.injEq] at heq
      obtain ⟨rfl, rfl⟩ := heq
      exact ⟨parts g, mid, parts h, ⟨g, hg, rfl⟩, ⟨h, hh, rfl⟩, by rw [parts_append]; rfl⟩
  · rintro ⟨p, mid, q, ⟨g, hg, rfl⟩, ⟨h, hh, rfl⟩, rfl⟩
    refine ⟨g ++ .text (skip isGap spaced mid).1 h, ?_, by rw [parts_append]; rfl⟩
    simp only [scan] at hg hh
    simp only [gapped] at hh
    simp only [scan, read, hg, hh, Option.map_some]

theorem fails_seq :
    (seq a b).Fails spaced s ↔
      a.Fails spaced s ∨ ∃ p mid, a.Yields spaced s p mid ∧ b.Fails spaced (gapped spaced mid) := by
  constructor
  · intro h
    rcases fails_or_yields a spaced s with ha | ⟨p, mid, ha⟩
    · exact Or.inl ha
    · rcases fails_or_yields b spaced (gapped spaced mid) with hb | ⟨q, rest, hb⟩
      · exact Or.inr ⟨p, mid, ha, hb⟩
      · exact absurd h (yields_seq.2 ⟨p, mid, q, ha, hb, rfl⟩).not_fails
  · intro h
    rcases fails_or_yields (seq a b) spaced s with hfails | ⟨ps, rest, hyields⟩
    · exact hfails
    · obtain ⟨p, mid, q, hp, hq, _⟩ := yields_seq.1 hyields
      rcases h with ha | ⟨p', mid', hp', hb⟩
      · exact absurd ha hp.not_fails
      · obtain ⟨_, rfl⟩ := hp.unique hp'
        exact absurd hb hq.not_fails

theorem yields_alt :
    (alt a b).Yields spaced s ps rest ↔
      a.Yields spaced s ps rest ∨ a.Fails spaced s ∧ b.Yields spaced s ps rest := by
  simp only [Yields, Fails, scan, read]
  split
  · rename_i h
    simp [h]
  · rename_i r h
    simp [h]

theorem fails_alt :
    (alt a b).Fails spaced s ↔ a.Fails spaced s ∧ b.Fails spaced s := by
  simp only [Fails, scan, read]
  split
  · rename_i h
    simp [h]
  · rename_i r h
    simp [h]

theorem yields_absent :
    (absent e).Yields spaced s ps rest ↔ e.Fails spaced s ∧ ps = [] ∧ rest = s := by
  simp only [Yields, Fails, scan, read]
  split
  · rename_i h
    constructor
    · rintro ⟨f, hf, rfl⟩
      simp only [Option.some.injEq, Prod.mk.injEq] at hf
      obtain ⟨rfl, rfl⟩ := hf
      exact ⟨h, rfl, rfl⟩
    · rintro ⟨_, rfl, rfl⟩
      exact ⟨.nil, rfl, rfl⟩
  · rename_i h
    simp [h]

theorem fails_absent : (absent e).Fails spaced s ↔ ¬ e.Fails spaced s := by
  simp only [Fails, scan, read]
  split
  · rename_i h
    simp [h]
  · rename_i r h
    simp [h]

/-- The text of a node matters for tokens only. -/
theorem ofNode_of_plain {rule : Rule} (h : rule.kind = .plain) (t : Text) (qs : List Part) :
    ofNode rule t qs = ofNode rule [] qs := by
  unfold ofNode
  split <;> first | rfl | exact absurd h (by decide)

/-- The parts that a node of a rule leaves, given its text and the parts inside it. -/
def contribute (rule : Rule) (text : Text) (inside : List Part) : List Part :=
  match rule.kind with
  | .silent => inside
  | .plain | .tight => ofNode rule text inside
  | .token => ofNode rule text []

theorem parts_wrap (rule : Rule) (f : Forest Rule) :
    parts (diagramGrammar.wrap rule f) = contribute rule f.flatten (parts f) := by
  show parts (match rule.kind with
    | .silent => f
    | .plain | .tight => .node rule f .nil
    | .token => .node rule (.text f.flatten .nil) .nil) = _
  rw [contribute]
  split <;> simp [parts, Forest.flatten]

theorem spacing_of_plain {rule : Rule} (h : rule.kind = .plain) (spaced : Bool) :
    diagramGrammar.spacing rule spaced = spaced := by
  show (match rule.kind with | .silent | .plain => spaced | .tight | .token => false) = spaced
  rw [h]

theorem spacing_of_tight {rule : Rule} (h : rule.kind = .tight) (spaced : Bool) :
    diagramGrammar.spacing rule spaced = false := by
  have hkind : diagramGrammar.kind rule = .tight := h
  rw [Grammar.spacing, hkind]

theorem spacing_of_token {rule : Rule} (h : rule.kind = .token) (spaced : Bool) :
    diagramGrammar.spacing rule spaced = false := by
  show (match rule.kind with | .silent | .plain => spaced | .tight | .token => false) = false
  rw [h]

theorem spacing_of_not {rule : Rule} (h : spaced = false) :
    diagramGrammar.spacing rule spaced = false := by
  show (match rule.kind with | .silent | .plain => spaced | .tight | .token => false) = false
  split
  · exact h
  · exact h
  · rfl
  · rfl

/-- What a rule contributes depends on its text only where no blanks are allowed inside it. -/
theorem contribute_eq_or (rule : Rule) (qs : List Part) :
    (∀ t, contribute rule t qs = contribute rule [] qs) ∨
      ∀ spaced, diagramGrammar.spacing rule spaced = false := by
  unfold contribute
  cases hkind : rule.kind with
  | silent => exact Or.inl fun t ↦ rfl
  | plain => exact Or.inl fun t ↦ ofNode_of_plain hkind t qs
  | tight => exact Or.inr (spacing_of_tight hkind)
  | token => exact Or.inr (spacing_of_token hkind)

theorem yields_call {rule : Rule} :
    (call rule).Yields spaced s ps rest ↔
      ∃ t qs, s = t ++ rest ∧ rule.body.Yields (diagramGrammar.spacing rule spaced) s qs rest ∧
        ps = contribute rule t qs := by
  simp only [Yields, scan, read, Rule.parseAt_eq, Option.map_eq_some_iff, Prod.mk.injEq]
  constructor
  · rintro ⟨f, ⟨⟨g, r⟩, hg, rfl, rfl⟩, rfl⟩
    exact ⟨g.flatten, parts g, (lossless_scan _ _ _ _ _ hg).symm, ⟨g, hg, rfl⟩,
      parts_wrap rule g⟩
  · rintro ⟨t, qs, hs, ⟨g, hg, rfl⟩, rfl⟩
    refine ⟨_, ⟨(g, rest), hg, rfl, rfl⟩, ?_⟩
    have hflat : g.flatten = t :=
      List.append_cancel_right ((lossless_scan _ _ _ _ _ hg).trans hs)
    rw [parts_wrap, hflat]

theorem fails_call {rule : Rule} :
    (call rule).Fails spaced s ↔ rule.body.Fails (diagramGrammar.spacing rule spaced) s := by
  simp only [Fails, scan, read, Rule.parseAt_eq, Option.map_eq_none_iff]

/-! ### Repetitions -/

/-- Rounds of a repetition after its first one, as many as match: blanks may stand before each, but
not before the text that is left. -/
inductive Rounds (e : Peg Rule) (spaced : Bool) : Text → List Part → Text → Prop
  | stop {s : Text} (h : e.Fails spaced (gapped spaced s)) : Rounds e spaced s [] s
  | step {s mid rest : Text} {p q : List Part} (h : e.Yields spaced (gapped spaced s) p mid)
      (more : Rounds e spaced mid q rest) : Rounds e spaced s (p ++ q) rest

theorem Rounds.unique {ps' : List Part} {rest' : Text} (h : Rounds e spaced s ps rest)
    (h' : Rounds e spaced s ps' rest') : ps = ps' ∧ rest = rest' := by
  induction h generalizing ps' rest' with
  | stop hfails =>
    cases h' with
    | stop _ => exact ⟨rfl, rfl⟩
    | step hyields _ => exact absurd hfails hyields.not_fails
  | step hyields _ ih =>
    cases h' with
    | stop hfails => exact absurd hfails hyields.not_fails
    | step hyields' more =>
      obtain ⟨rfl, rfl⟩ := hyields.unique hyields'
      obtain ⟨rfl, rfl⟩ := ih more
      exact ⟨rfl, rfl⟩

theorem length_gapped_le (spaced : Bool) (s : Text) : (gapped spaced s).length ≤ s.length :=
  length_skip_le isGap spaced s

/-- One round of a repetition as the grammar reads it, with the blanks before it. -/
def roundOf (e : Peg Rule) (spaced : Bool) (s : Text) : Match Rule :=
  (e.scan spaced (gapped spaced s)).map fun r ↦ (.text (skip isGap spaced s).1 r.1, r.2)

/-- The bound on the number of rounds is never reached, because each takes a character. -/
theorem rounds_roundOf (he : consumes Rule.takes e) (spaced : Bool) (allowed s : Text)
    (hs : s.length ≤ allowed.length) :
    Rounds e spaced s (parts (rounds (roundOf e spaced) allowed s).1)
      (rounds (roundOf e spaced) allowed s).2 := by
  induction allowed generalizing s with
  | nil =>
    obtain rfl : s = [] := List.eq_nil_of_length_eq_zero (Nat.le_zero.1 hs)
    apply Rounds.stop
    cases spaced <;> exact Fails.nil he
  | cons _ allowed ih =>
    cases hround : e.scan spaced (gapped spaced s) with
    | none =>
      rw [rounds, roundOf, hround]
      exact Rounds.stop hround
    | some r =>
      have hyields : e.Yields spaced (gapped spaced s) (parts r.1) r.2 := ⟨r.1, hround, rfl⟩
      have hlt := hyields.length_lt he
      have hle := length_gapped_le spaced s
      have hmore := ih r.2 (by simp only [List.length_cons] at hs; omega)
      rw [rounds, roundOf, hround]
      simp only [Option.map_some]
      rw [parts_append]
      exact Rounds.step hyields hmore

theorem yields_star (he : consumes Rule.takes e) :
    (star e).Yields spaced s ps rest ↔
      (e.Fails spaced s ∧ ps = [] ∧ rest = s) ∨
        ∃ p mid q, e.Yields spaced s p mid ∧ Rounds e spaced mid q rest ∧ ps = p ++ q := by
  cases hfirst : e.scan spaced s with
  | none =>
    have hstar : (star e).scan spaced s = some (.nil, s) := by
      rw [scan] at hfirst ⊢
      rw [read, hfirst]
    constructor
    · rintro ⟨f, hf, rfl⟩
      simp only [hstar, Option.some.injEq, Prod.mk.injEq] at hf
      obtain ⟨rfl, rfl⟩ := hf
      exact Or.inl ⟨hfirst, rfl, rfl⟩
    · rintro (⟨_, rfl, rfl⟩ | ⟨p, mid, q, hyields, _⟩)
      · exact ⟨.nil, hstar, rfl⟩
      · exact absurd hfirst hyields.not_fails
  | some r =>
    have hyields : e.Yields spaced s (parts r.1) r.2 := ⟨r.1, hfirst, rfl⟩
    have hmore := rounds_roundOf he spaced r.2 r.2 (Nat.le_refl _)
    have hstar : (star e).scan spaced s =
        some (r.1 ++ (rounds (roundOf e spaced) r.2 r.2).1,
          (rounds (roundOf e spaced) r.2 r.2).2) := by
      rw [scan] at hfirst ⊢
      rw [read, hfirst]
      rfl
    constructor
    · rintro ⟨f, hf, rfl⟩
      simp only [hstar, Option.some.injEq, Prod.mk.injEq] at hf
      obtain ⟨rfl, rfl⟩ := hf
      exact Or.inr ⟨_, _, _, hyields, hmore, parts_append _ _⟩
    · rintro (⟨hfails, _⟩ | ⟨p, mid, q, hp, hq, rfl⟩)
      · exact absurd hfails hyields.not_fails
      · obtain ⟨rfl, rfl⟩ := hyields.unique hp
        obtain ⟨rfl, rfl⟩ := hmore.unique hq
        exact ⟨_, hstar, parts_append _ _⟩

theorem not_fails_star : ¬ (star e).Fails spaced s := by
  simp only [Fails, scan, read]
  split <;> simp

/-- The characters of a class at the start of a text, where no blanks are allowed between them. -/
theorem yields_star_one {accepts : Char → Bool} :
    (star (one accepts)).Yields false s ps rest ↔ ps = [] ∧ rest = s.dropWhile accepts := by
  have hrounds : ∀ t : Text, Rounds (one accepts) false t [] (t.dropWhile accepts) := by
    intro t
    induction t with
    | nil => exact Rounds.stop (fails_one.2 rfl)
    | cons c t ih =>
      rw [List.dropWhile_cons]
      split
      · rename_i hc
        exact Rounds.step (p := []) (yields_one.2 ⟨c, rfl, hc, rfl⟩) ih
      · rename_i hc
        exact Rounds.stop (fails_one.2 (by simpa [Text.startsWith] using hc))
  have hstar : (star (one accepts)).Yields false s [] (s.dropWhile accepts) := by
    rw [yields_star rfl]
    cases s with
    | nil => exact Or.inl ⟨fails_one.2 rfl, rfl, rfl⟩
    | cons c s =>
      rw [List.dropWhile_cons]
      split
      · rename_i hc
        exact Or.inr ⟨[], s, [], yields_one.2 ⟨c, rfl, hc, rfl⟩, hrounds s, rfl⟩
      · rename_i hc
        exact Or.inl ⟨fails_one.2 (by simpa [Text.startsWith] using hc), rfl, rfl⟩
  constructor
  · intro h
    obtain ⟨rfl, rfl⟩ := h.unique hstar
    exact ⟨rfl, rfl⟩
  · rintro ⟨rfl, rfl⟩
    exact hstar

end Peg

end DiagramMacros
