import DiagramMacros.Proofs.Grammar.Yields
/-!
Characters at which a match has to end. A character that no terminal of an expression accepts acts
like the end of the text: what the expression does on a text is what it does on that text with the
character and anything else behind it (`stops_of_refuses`). The calls inside the expression have to
stop there too.

`Rule.Spells` says that a rule matches a text as a whole. A number that is spelled in this sense is
what the number rule takes from a longer text that goes on with an exclamation mark, as the factor
of an interpolation does. In the same way a comma or a colon ends what is tried at a component.
-/

set_option autoImplicit false
set_option relaxedAutoImplicit false

namespace DiagramMacros

open Expression

/-- A rule matches a text as a whole. -/
def Rule.Spells (rule : Rule) (t : Text) : Prop := (rule.parse t).map Prod.snd = some []

instance (rule : Rule) (t : Text) : Decidable (rule.Spells t) :=
  inferInstanceAs (Decidable (_ = _))

namespace Peg

theorem spells_iff {rule : Rule} {t : Text} :
    rule.Spells t ↔ ∃ ps, (call rule).Yields true t ps [] := by
  rw [Rule.Spells, Option.map_eq_some_iff]
  constructor
  · rintro ⟨⟨f, rest⟩, hf, rfl⟩
    exact ⟨parts f, f, hf, rfl⟩
  · rintro ⟨_, f, hf, _⟩
    exact ⟨(f, []), hf, rfl⟩

/-- Whether every terminal of an expression refuses a character, given for which rules that is
known. -/
def refuses (known : Rule → Bool) (c : Char) : Peg Rule → Bool
  | lit t => !t.contains c
  | anyCase t => t.all fun d ↦ d.toLower != c.toLower
  | one accepts => !accepts c
  | seq a b | alt a b => refuses known c a && refuses known c b
  | star e => consumes Rule.takes e && refuses known c e
  | absent e => refuses known c e
  | call rule => known rule

/-- What may be left of a tail of this kind: a tail of this kind, and where no blanks are skipped
the whole of it. -/
def Leaves (tails : Text → Prop) (spaced : Bool) (tail left : Text) : Prop :=
  tails left ∧ (spaced = false → left = tail)

/-- On texts of a class of characters, an expression does the same whether or not a tail of this
kind follows. -/
def Stops (inside : Char → Bool) (tails : Text → Prop) (e : Peg Rule) (spaced : Bool) : Prop :=
  ∀ x tail : Text, x.all inside → tails tail →
    (∀ ps rest, e.Yields spaced x ps rest →
      ∃ left, Leaves tails spaced tail left ∧ e.Yields spaced (x ++ tail) ps (rest ++ left)) ∧
    (e.Fails spaced x → e.Fails spaced (x ++ tail))

/-- Tails are not empty, and cutting off the blanks at their start leaves a tail. -/
def AreTails (tails : Text → Prop) : Prop :=
  ∀ tail, tails tail → tail ≠ [] ∧ tails (Text.afterGap tail)

theorem after?_append_stop {t : Text} {c : Char} (h : c ∉ t) (x more : Text) :
    Text.after? t (x ++ c :: more) = (Text.after? t x).map (· ++ c :: more) := by
  induction t generalizing x with
  | nil => rfl
  | cons p ps ih =>
    simp only [List.mem_cons, not_or] at h
    cases x with
    | nil => simp [Text.after?, Ne.symm h.1]
    | cons d x =>
      simp only [List.cons_append, Text.after?]
      split
      · exact ih h.2 x
      · rfl

theorem dropAnyCase_append_stop {t : Text} {c : Char}
    (h : t.all fun d ↦ d.toLower != c.toLower) (x more : Text) :
    dropAnyCase t (x ++ c :: more) =
      (dropAnyCase t x).map fun r ↦ (r.1, r.2 ++ c :: more) := by
  induction t generalizing x with
  | nil => rfl
  | cons p ps ih =>
    simp only [List.all_cons, Bool.and_eq_true, bne_iff_ne, ne_eq] at h
    cases x with
    | nil => simp [dropAnyCase, Ne.symm h.1]
    | cons d x =>
      simp only [List.cons_append, dropAnyCase]
      split
      · rw [ih h.2 x, Option.map_map, Option.map_map]
        rfl
      · rfl

section Stop

variable {inside : Char → Bool} {tails : Text → Prop} {e a b : Peg Rule} {spaced : Bool}

/-- What a match leaves of a text of a class is a text of that class. -/
theorem all_of_yields {x rest : Text} {ps : List Part} (hx : x.all inside)
    (h : e.Yields spaced x ps rest) : rest.all inside := by
  obtain ⟨t, rfl⟩ := h.exists_append
  rw [List.all_append, Bool.and_eq_true] at hx
  exact hx.2

theorem all_gapped {x : Text} (hx : x.all inside) (spaced : Bool) :
    (gapped spaced x).all inside := by
  have happend := skip_append isGap spaced x
  rw [← happend, List.all_append, Bool.and_eq_true] at hx
  exact hx.2

theorem Leaves.trans {tail left left' : Text} (h : Leaves tails spaced tail left)
    (h' : Leaves tails spaced left left') : Leaves tails spaced tail left' := by
  refine ⟨h'.1, fun hspaced ↦ ?_⟩
  rw [h'.2 hspaced, h.2 hspaced]

/-- Blanks are cut off a text and, if the text has nothing else, off the tail as well. -/
theorem gapped_append_tail (htails : AreTails tails) (spaced : Bool) (x : Text) {tail : Text}
    (htail : tails tail) :
    ∃ left, Leaves tails spaced tail left ∧
      gapped spaced (x ++ tail) = gapped spaced x ++ left := by
  cases spaced with
  | false => exact ⟨tail, ⟨htail, fun _ ↦ rfl⟩, rfl⟩
  | true =>
    induction x with
    | nil => exact ⟨Text.afterGap tail, ⟨(htails tail htail).2, by simp⟩, rfl⟩
    | cons d x ih =>
      simp only [gapped_true, Text.afterGap, List.cons_append, List.dropWhile_cons] at ih ⊢
      split
      · exact ih
      · exact ⟨tail, ⟨htail, by simp⟩, rfl⟩

theorem Stops.seq (htails : AreTails tails) (ha : Stops inside tails a spaced)
    (hb : Stops inside tails b spaced) : Stops inside tails (seq a b) spaced := by
  intro x tail hx htail
  constructor
  · intro ps rest h
    obtain ⟨p, mid, q, hp, hq, rfl⟩ := yields_seq.1 h
    have hmid := all_gapped (all_of_yields hx hp) spaced
    obtain ⟨left, hleft, hp'⟩ := (ha x tail hx htail).1 _ _ hp
    obtain ⟨left', hleft', hgap⟩ := gapped_append_tail htails spaced mid hleft.1
    obtain ⟨left'', hleft'', hq'⟩ := (hb _ left' hmid hleft'.1).1 _ _ hq
    exact ⟨left'', (hleft.trans hleft').trans hleft'',
      yields_seq.2 ⟨p, mid ++ left, q, hp', by rwa [hgap], rfl⟩⟩
  · intro h
    rcases fails_seq.1 h with hfails | ⟨p, mid, hp, hfails⟩
    · exact fails_seq.2 (Or.inl ((ha x tail hx htail).2 hfails))
    · have hmid := all_gapped (all_of_yields hx hp) spaced
      obtain ⟨left, hleft, hp'⟩ := (ha x tail hx htail).1 _ _ hp
      obtain ⟨left', hleft', hgap⟩ := gapped_append_tail htails spaced mid hleft.1
      refine fails_seq.2 (Or.inr ⟨p, mid ++ left, hp', ?_⟩)
      rw [hgap]
      exact (hb _ left' hmid hleft'.1).2 hfails

theorem Stops.alt (ha : Stops inside tails a spaced) (hb : Stops inside tails b spaced) :
    Stops inside tails (alt a b) spaced := by
  intro x tail hx htail
  constructor
  · intro ps rest h
    rcases yields_alt.1 h with h | ⟨hfails, h⟩
    · obtain ⟨left, hleft, h'⟩ := (ha x tail hx htail).1 _ _ h
      exact ⟨left, hleft, yields_alt.2 (Or.inl h')⟩
    · obtain ⟨left, hleft, h'⟩ := (hb x tail hx htail).1 _ _ h
      exact ⟨left, hleft, yields_alt.2 (Or.inr ⟨(ha x tail hx htail).2 hfails, h'⟩)⟩
  · intro h
    obtain ⟨hfirst, hsecond⟩ := fails_alt.1 h
    exact fails_alt.2 ⟨(ha x tail hx htail).2 hfirst, (hb x tail hx htail).2 hsecond⟩

theorem Stops.rounds (htails : AreTails tails) (he : Stops inside tails e spaced) {x rest : Text}
    {ps : List Part} (h : Rounds e spaced x ps rest) :
    ∀ tail, x.all inside → tails tail →
      ∃ left, Leaves tails spaced tail left ∧ Rounds e spaced (x ++ tail) ps (rest ++ left) := by
  induction h with
  | @stop s hfails =>
    intro tail hx htail
    obtain ⟨left, hleft, hgap⟩ := gapped_append_tail htails spaced s htail
    refine ⟨tail, ⟨htail, fun _ ↦ rfl⟩, Rounds.stop ?_⟩
    rw [hgap]
    exact (he _ left (all_gapped hx spaced) hleft.1).2 hfails
  | @step s mid rest p q hyields _ ih =>
    intro tail hx htail
    have hmid := all_of_yields (all_gapped hx spaced) hyields
    obtain ⟨left, hleft, hgap⟩ := gapped_append_tail htails spaced s htail
    obtain ⟨left', hleft', hyields'⟩ := (he _ left (all_gapped hx spaced) hleft.1).1 _ _ hyields
    obtain ⟨left'', hleft'', hmore⟩ := ih left' hmid hleft'.1
    refine ⟨left'', (hleft.trans hleft').trans hleft'', Rounds.step ?_ hmore⟩
    rwa [hgap]

theorem Stops.star (htails : AreTails tails) (hconsumes : consumes Rule.takes e)
    (he : Stops inside tails e spaced) : Stops inside tails (star e) spaced := by
  intro x tail hx htail
  refine ⟨fun ps rest h ↦ ?_, fun h ↦ absurd h not_fails_star⟩
  rcases (yields_star hconsumes).1 h with ⟨hfails, rfl, rfl⟩ | ⟨p, mid, q, hp, hq, rfl⟩
  · have hstop := (he rest tail hx htail).2 hfails
    exact ⟨tail, ⟨htail, fun _ ↦ rfl⟩, (yields_star hconsumes).2 (Or.inl ⟨hstop, rfl, rfl⟩)⟩
  · obtain ⟨left, hleft, hp'⟩ := (he x tail hx htail).1 _ _ hp
    obtain ⟨left', hleft', hq'⟩ := Stops.rounds htails he hq left (all_of_yields hx hp) hleft.1
    exact ⟨left', hleft.trans hleft',
      (yields_star hconsumes).2 (Or.inr ⟨p, _, q, hp', hq', rfl⟩)⟩

/-- An expression whose terminals refuse the first character of every tail stops before the tails,
if the rules that it calls do. -/
theorem stops_of_refuses (known : Rule → Bool) (htails : AreTails tails)
    (hknown : ∀ rule, known rule → Stops inside tails (call rule) spaced) (e : Peg Rule)
    (he : ∀ c more, tails (c :: more) → refuses known c e) : Stops inside tails e spaced := by
  -- A terminal does nothing to the tail, so it leaves the whole of it.
  have hterminal : ∀ e' : Peg Rule,
      (∀ x c more, tails (c :: more) → e'.scan spaced (x ++ c :: more) =
        (e'.scan spaced x).map fun r ↦ (r.1, r.2 ++ c :: more)) →
      Stops inside tails e' spaced := by
    intro e' h x tail _ htail
    obtain ⟨c, more, rfl⟩ := List.exists_cons_of_ne_nil (htails tail htail).1
    simp only [Yields, Fails, h x c more htail, Option.map_eq_none_iff]
    refine ⟨?_, id⟩
    rintro ps rest ⟨f, hf, rfl⟩
    exact ⟨c :: more, ⟨htail, fun _ ↦ rfl⟩, f, by rw [hf]; rfl, rfl⟩
  induction e with
  | lit t =>
    refine hterminal _ fun x c more htail ↦ ?_
    have hc : c ∉ t := by simpa [refuses] using he c more htail
    simp only [scan, read, after?_append_stop hc, Option.map_map]
    rfl
  | anyCase t =>
    refine hterminal _ fun x c more htail ↦ ?_
    simp only [scan, read, dropAnyCase_append_stop (he c more htail), Option.map_map]
    rfl
  | one accepts =>
    refine hterminal _ fun x c more htail ↦ ?_
    have hc : accepts c = false := by simpa [refuses] using he c more htail
    cases x with
    | nil => simp [scan, read, hc]
    | cons d x =>
      simp only [scan, read, List.cons_append]
      split <;> rfl
  | seq a b iha ihb =>
    have ha c more htail := (Bool.and_eq_true_iff.1 (he c more htail)).1
    have hb c more htail := (Bool.and_eq_true_iff.1 (he c more htail)).2
    exact Stops.seq htails (iha ha) (ihb hb)
  | alt a b iha ihb =>
    have ha c more htail := (Bool.and_eq_true_iff.1 (he c more htail)).1
    have hb c more htail := (Bool.and_eq_true_iff.1 (he c more htail)).2
    exact Stops.alt (iha ha) (ihb hb)
  | star e ih =>
    intro x tail hx htail
    obtain ⟨c, more, rfl⟩ := List.exists_cons_of_ne_nil (htails tail htail).1
    have hconsumes := (Bool.and_eq_true_iff.1 (he c more htail)).1
    have hround c more htail := (Bool.and_eq_true_iff.1 (he c more htail)).2
    exact Stops.star htails hconsumes (ih hround) x _ hx htail
  | absent e ih =>
    intro x tail hx htail
    have hstop := ih he x tail hx htail
    constructor
    · intro ps rest h
      obtain ⟨hfails, rfl, rfl⟩ := yields_absent.1 h
      exact ⟨tail, ⟨htail, fun _ ↦ rfl⟩, yields_absent.2 ⟨hstop.2 hfails, rfl, rfl⟩⟩
    · intro h
      rw [fails_absent] at h ⊢
      rcases fails_or_yields e spaced x with hfails | ⟨ps, rest, hyields⟩
      · exact absurd hfails h
      · obtain ⟨left, _, hyields'⟩ := hstop.1 _ _ hyields
        exact hyields'.not_fails
  | call rule =>
    intro x tail hx htail
    obtain ⟨c, more, rfl⟩ := List.exists_cons_of_ne_nil (htails tail htail).1
    exact hknown rule (he c more htail) x _ hx htail

theorem stops_call {rule : Rule}
    (h : Stops inside tails rule.body (diagramGrammar.spacing rule spaced)) :
    Stops inside tails (call rule) spaced := by
  intro x tail hx htail
  constructor
  · intro ps rest hyields
    obtain ⟨t, qs, rfl, hbody, rfl⟩ := yields_call.1 hyields
    obtain ⟨left, hleft, hbody'⟩ := (h _ tail hx htail).1 _ _ hbody
    obtain ⟨t', ht'⟩ := hbody'.exists_append
    refine ⟨left, ⟨hleft.1, fun hspaced ↦ hleft.2 (spacing_of_not hspaced)⟩, ?_⟩
    refine yields_call.2 ⟨t', qs, ht', hbody', ?_⟩
    rcases contribute_eq_or rule qs with hcontribute | htight
    · rw [hcontribute t, hcontribute t']
    · obtain rfl := hleft.2 (htight spaced)
      rw [List.append_assoc] at ht'
      rw [List.append_cancel_right ht']
  · intro hfails
    rw [fails_call] at hfails ⊢
    exact (h x tail hx htail).2 hfails

theorem Stops.fails_iff (h : Stops inside tails e spaced) {x tail : Text} (hx : x.all inside)
    (htail : tails tail) : e.Fails spaced (x ++ tail) ↔ e.Fails spaced x := by
  refine ⟨fun hfails ↦ ?_, (h x tail hx htail).2⟩
  rcases fails_or_yields e spaced x with hfails' | ⟨ps, rest, hyields⟩
  · exact hfails'
  · obtain ⟨left, _, hyields'⟩ := (h x tail hx htail).1 _ _ hyields
    exact absurd hfails hyields'.not_fails

end Stop

end Peg

end DiagramMacros
