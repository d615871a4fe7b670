import DiagramMacros.Proofs.Grammar.Balanced
/-!
Matches that depend on their own text only. What an expression takes from the start of a text is in
general settled by the whole of the text. But a group ends at its closing delimiter, and an
expression that ends with a group or with a literal text takes the same from every text that begins
with what it has taken (`Closed`). A body that ends at a character takes the same wherever that
character follows (`ClosedBefore`).

The options before the body of a path are the exception: where their closing bracket is missing in
the match, a later one would make a difference. Still the taken text tells whether there are options
(`Settled`), and so it determines what the match leaves (`Determined`).
-/

set_option autoImplicit false
set_option relaxedAutoImplicit false

namespace DiagramMacros.Peg

variable {a b e : Peg Rule} {spaced : Bool} {s rest : Text} {f : Forest Rule} {rule : Rule}
  {stops : Char → Bool}

/-- What is matched does not depend on the text after it. -/
def Closed (e : Peg Rule) (spaced : Bool) : Prop :=
  ∀ ⦃s : Text⦄ ⦃f : Forest Rule⦄ ⦃rest : Text⦄, e.scan spaced s = some (f, rest) →
    ∀ rest', e.scan spaced (f.flatten ++ rest') = some (f, rest')

/-- What is matched before one of these characters depends on nothing after that character. -/
def ClosedBefore (stops : Char → Bool) (e : Peg Rule) (spaced : Bool) : Prop :=
  ∀ ⦃s : Text⦄ ⦃f : Forest Rule⦄ ⦃c : Char⦄ ⦃rest : Text⦄,
    e.scan spaced s = some (f, c :: rest) → stops c →
      ∀ rest', e.scan spaced (f.flatten ++ c :: rest') = some (f, c :: rest')

theorem Closed.before (h : Closed e spaced) : ClosedBefore stops e spaced :=
  fun _ _ _ _ hscan _ rest' ↦ h hscan (_ :: rest')

/-! ### Sequences -/

theorem scan_seq_eq_some_iff :
    (seq a b).scan spaced s = some (f, rest) ↔ ∃ first mid second,
      a.scan spaced s = some (first, mid) ∧
        b.scan spaced (gapped spaced mid) = some (second, rest) ∧
          f = first ++ .text (skip isGap spaced mid).1 second := by
  constructor
  · intro h
    simp only [scan, read] at h
    split at h
    · simp at h
    · rename_i first mid hfirst
      obtain ⟨⟨second, rest'⟩, hsecond, heq⟩ := Option.map_eq_some_iff.1 h
      obtain ⟨rfl, rfl⟩ := Prod.mk.inj heq
      exact ⟨first, mid, second, hfirst, hsecond, rfl⟩
  · rintro ⟨first, mid, second, hfirst, hsecond, rfl⟩
    simp only [scan] at hfirst hsecond
    simp only [gapped] at hsecond
    simp only [scan, read, hfirst, hsecond, Option.map_some]

/-- Blanks are cut off in the same way whatever stands after the first character that is none. -/
theorem skip_append_of_skip {gap t : Text} {c : Char} (h : skip isGap spaced s = (gap, c :: t))
    (t' : Text) : skip isGap spaced (gap ++ c :: t') = (gap, c :: t') := by
  cases spaced with
  | false =>
    obtain ⟨rfl, _⟩ := Prod.mk.inj h
    rfl
  | true =>
    obtain ⟨hgap, hleft⟩ := Prod.mk.inj h
    have hblank : gap.all isGap := hgap ▸ List.all_takeWhile
    have hc : Text.startsWith isGap (c :: t') = false := by
      have hstart := Text.startsWith_dropWhile isGap s
      rw [hleft] at hstart
      exact hstart
    show (List.takeWhile _ _, List.dropWhile _ _) = _
    rw [Text.takeWhile_append_of_all hblank hc, Text.dropWhile_append_of_all hblank hc]

/-- What the second of two expressions takes begins with a character that does not depend on the
text after it, and neither do the blanks before it. -/
theorem exists_second {mid : Text} {second : Forest Rule} (hconsumes : consumes Rule.takes b)
    (h : b.scan spaced (gapped spaced mid) = some (second, rest)) :
    ∃ c t, (skip isGap spaced mid).1 ++ second.flatten = c :: t ∧ mid = c :: (t ++ rest) ∧
      ∀ rest', skip isGap spaced (c :: (t ++ rest')) =
        ((skip isGap spaced mid).1, second.flatten ++ rest') := by
  have hlossless := lossless_scan b spaced _ _ _ h
  have hyields : b.Yields spaced (gapped spaced mid) (Expression.parts second) rest := ⟨_, h, rfl⟩
  have hlength := hyields.length_lt hconsumes
  rw [← hlossless, List.length_append] at hlength
  obtain ⟨d, t, ht⟩ := List.exists_cons_of_length_pos (l := second.flatten) (by omega)
  have hskip : skip isGap spaced mid = ((skip isGap spaced mid).1, d :: (t ++ rest)) := by
    refine Prod.ext rfl ?_
    show gapped spaced mid = _
    rw [← hlossless, ht]
    rfl
  have hmid := skip_append isGap spaced mid
  rw [show (skip isGap spaced mid).2 = second.flatten ++ rest from hlossless.symm,
    ← List.append_assoc] at hmid
  have hagain := skip_append_of_skip hskip
  obtain ⟨c, v, hv⟩ := List.exists_cons_of_ne_nil
    (l := (skip isGap spaced mid).1 ++ second.flatten) (by rw [ht]; simp)
  refine ⟨c, v, hv, ?_, fun rest' ↦ ?_⟩
  · rw [← hmid, hv]
    rfl
  · have htext : c :: (v ++ rest') = (skip isGap spaced mid).1 ++ d :: (t ++ rest') := by
      rw [← List.cons_append, ← hv, ht]
      simp
    rw [htext, hagain, ht]
    rfl

theorem ClosedBefore.seq (ha : ClosedBefore stops a spaced) (hb : Closed b spaced)
    (hconsumes : consumes Rule.takes b)
    (hstops : ∀ ⦃c t second rest⦄, b.scan spaced (gapped spaced (c :: t)) = some (second, rest) →
      stops c) : Closed (seq a b) spaced := by
  intro s f rest h rest'
  obtain ⟨first, mid, second, hfirst, hsecond, rfl⟩ := scan_seq_eq_some_iff.1 h
  obtain ⟨c, t, htaken, rfl, hskip⟩ := exists_second hconsumes hsecond
  have hfirst' := ha hfirst (hstops hsecond) (t ++ rest')
  have hsecond' : b.scan spaced (gapped spaced (c :: (t ++ rest'))) = some (second, rest') := by
    rw [gapped, hskip rest']
    exact hb hsecond rest'
  rw [Forest.flatten_append, Forest.flatten, htaken, List.append_assoc, List.cons_append]
  refine scan_seq_eq_some_iff.2 ⟨first, _, second, hfirst', hsecond', ?_⟩
  rw [hskip rest']

theorem Closed.seq (ha : Closed a spaced) (hb : Closed b spaced)
    (hconsumes : consumes Rule.takes b) : Closed (seq a b) spaced := by
  have hbefore : ClosedBefore (fun _ ↦ true) a spaced := ha.before
  exact hbefore.seq hb hconsumes fun _ _ _ _ _ ↦ rfl

/-- The character before which the first of two expressions ends: that with which the second one
begins, or a blank. -/
theorem stops_of_opening {o : Char} (hopening : b.opening? = some o) (ho : stops o)
    (hgap : ∀ c, isGap c → stops c) ⦃c : Char⦄ ⦃t : Text⦄ ⦃second : Forest Rule⦄ ⦃rest : Text⦄
    (h : b.scan spaced (gapped spaced (c :: t)) = some (second, rest)) : stops c := by
  by_cases hc : isGap c
  · exact hgap c hc
  · have hgapped : gapped spaced (c :: t) = c :: t := by
      cases spaced with
      | false => rfl
      | true => exact Text.afterGap_of_not (by simpa using hc)
    have hyields : b.Yields spaced (gapped spaced (c :: t)) (Expression.parts second) rest :=
      ⟨_, h, rfl⟩
    obtain ⟨t', ht'⟩ := hyields.exists_opening hopening
    rw [hgapped] at ht'
    rwa [(List.cons.inj ht').1]

theorem closed_inOrder {es : List (Peg Rule)} (hne : es ≠ [])
    (h : ∀ e ∈ es, Closed e spaced ∧ consumes Rule.takes e) :
    Closed (inOrder es) spaced ∧ consumes Rule.takes (inOrder es) := by
  induction es with
  | nil => exact absurd rfl hne
  | cons e es ih =>
    obtain ⟨hclosed, hconsumes⟩ := h e List.mem_cons_self
    cases es with
    | nil => exact ⟨hclosed, hconsumes⟩
    | cons e' es =>
      obtain ⟨hmore, hmore'⟩ := ih (by simp) fun e he ↦ h e (List.mem_cons_of_mem _ he)
      exact ⟨hclosed.seq hmore hmore', Bool.or_eq_true_iff.2 (Or.inl hconsumes)⟩

/-! ### Other expressions -/

theorem closed_lit (t : Text) : Closed (lit t) spaced := by
  intro s f rest h rest'
  obtain ⟨_, _, heq⟩ := Option.map_eq_some_iff.1 h
  obtain ⟨rfl, rfl⟩ := Prod.mk.inj heq
  have hafter : Text.after? t (t ++ rest') = some rest' := Text.after?_eq_some_iff.2 rfl
  simp only [scan, read, Forest.flatten, List.append_nil, hafter, Option.map_some]

theorem scan_call_eq_some_iff :
    (call rule).scan spaced s = some (f, rest) ↔ ∃ inside,
      rule.body.scan (diagramGrammar.spacing rule spaced) s = some (inside, rest) ∧
        f = diagramGrammar.wrap rule inside := by
  rw [scan, read, Rule.parseAt_eq, Option.map_eq_some_iff]
  constructor
  · rintro ⟨⟨inside, rest'⟩, hbody, heq⟩
    obtain ⟨rfl, rfl⟩ := Prod.mk.inj heq
    exact ⟨inside, hbody, rfl⟩
  · rintro ⟨inside, hbody, rfl⟩
    exact ⟨_, hbody, rfl⟩

theorem Closed.call (h : Closed rule.body (diagramGrammar.spacing rule spaced)) :
    Closed (call rule) spaced := by
  intro s f rest hscan rest'
  obtain ⟨inside, hbody, rfl⟩ := scan_call_eq_some_iff.1 hscan
  rw [Grammar.flatten_wrap]
  exact scan_call_eq_some_iff.2 ⟨inside, h hbody rest', rfl⟩

/-- A token leaves its text. -/
theorem scan_token_iff (hrule : rule.kind = .token) :
    (call rule).scan spaced s = some (f, rest) ↔ ∃ t ps, s = t ++ rest ∧
      rule.body.Yields false s ps rest ∧ f = .node rule (.text t .nil) .nil := by
  have hwrap : ∀ inside : Forest Rule, diagramGrammar.wrap rule inside =
      .node rule (.text inside.flatten .nil) .nil := by
    intro inside
    have hkind : diagramGrammar.kind rule = .token := hrule
    rw [Grammar.wrap, hkind]
  rw [scan_call_eq_some_iff, spacing_of_token hrule]
  constructor
  · rintro ⟨inside, hbody, rfl⟩
    exact ⟨inside.flatten, _, (lossless_scan _ _ _ _ _ hbody).symm, ⟨inside, hbody, rfl⟩,
      hwrap inside⟩
  · rintro ⟨t, _, rfl, ⟨inside, hbody, _⟩, rfl⟩
    have htext : inside.flatten = t := List.append_cancel_right (lossless_scan _ _ _ _ _ hbody)
    exact ⟨inside, hbody, by rw [hwrap, htext]⟩

/-- A token that a text and a character after it settle. -/
theorem closedBefore_token (hrule : rule.kind = .token)
    (h : ∀ {t : Text} {c : Char} {rest : Text} {ps : List Expression.Part},
      rule.body.Yields false (t ++ c :: rest) ps (c :: rest) → stops c →
        ∀ rest', ∃ ps', rule.body.Yields false (t ++ c :: rest') ps' (c :: rest')) :
    ClosedBefore stops (call rule) spaced := by
  intro s f c rest hscan hc rest'
  obtain ⟨t, ps, rfl, hbody, rfl⟩ := (scan_token_iff hrule).1 hscan
  obtain ⟨ps', hbody'⟩ := h hbody hc rest'
  simp only [Forest.flatten, List.append_nil]
  exact (scan_token_iff hrule).2 ⟨t, ps', rfl, hbody', rfl⟩

/-- A balanced body ends before a character that opens no group, whatever is after it. -/
theorem closedBefore_balanced {nested : Rule} {o c : Char} {excluded : Text}
    (hr : nested.Nests o c) (hrule : rule.kind = .token)
    (hbody : rule.body = balanced nested excluded) (ho : excluded.contains o) :
    ClosedBefore (· != o) (call rule) spaced := by
  refine closedBefore_token hrule fun {t d rest ps} hyields hd rest' ↦ ?_
  rw [hbody] at hyields ⊢
  have hne : d ≠ o := by simpa using hd
  have hfails := (fails_alt.1 (hyields.fails_rest (consumes_round hr))).2
  have hexcluded : excluded.contains d := by simpa [fails_one] using fails_one.1 hfails
  obtain ⟨t', ht, hbalanced⟩ := isBalanced_of_yields hr hyields
  obtain rfl := List.append_cancel_right ht
  exact yields_of_isBalanced hr hbalanced ho hne hexcluded rest'

/-! ### Groups and calls -/

theorem ne_of_isGap {o : Char} (ho : isGap o = false) (c : Char) (hc : isGap c) : (c != o) := by
  rw [bne_iff_ne]
  rintro rfl
  rw [ho] at hc
  exact Bool.noConfusion hc

/-- A balanced body between two characters. -/
theorem closed_enclosed {nested : Rule} (inner : Rule) {o c opening closing : Char}
    {excluded : Text} (hr : nested.Nests o c) (hinner : inner.kind = .token)
    (hbody : inner.body = balanced nested excluded) (ho : excluded.contains o)
    (hgap : isGap o = false) (hclosing : closing != o)
    (hrule : rule.body = seq (lit [opening]) (seq (call inner) (lit [closing]))) :
    Closed (call rule) spaced := by
  apply Closed.call
  rw [hrule]
  refine (closed_lit _).seq ?_ (by simp [consumes])
  exact (closedBefore_balanced hr hinner hbody ho).seq (closed_lit _) rfl
    (stops_of_opening rfl hclosing (ne_of_isGap hgap))

theorem closed_argument : Closed (call .argument) spaced :=
  closed_enclosed .groupBody nests_brace rfl rfl rfl rfl rfl rfl

theorem closed_options : Closed (call .options) spaced :=
  closed_enclosed .optionsBody nests_brace rfl rfl rfl rfl rfl rfl

theorem closed_keywordCall (k : Keyword) (n : Nat) : Closed (keywordCall k n) spaced := by
  refine (closed_inOrder (by simp) fun e he ↦ ?_).1
  rcases List.mem_cons.1 he with rfl | he
  · exact ⟨closed_lit _, rfl⟩
  · rw [List.eq_of_mem_replicate he]
    exact ⟨closed_argument, rfl⟩

theorem closedBefore_coordinateName : ClosedBefore stops (call .coordinateName) spaced := by
  refine closedBefore_token rfl fun {t c rest ps} hyields _ rest' ↦ ?_
  obtain ⟨_, mid, _, hone, hstar, _⟩ := yields_seq.1 hyields
  obtain ⟨d, htext, hd, _⟩ := yields_one.1 hone
  obtain ⟨_, hrest⟩ := yields_star_one.1 hstar
  rw [gapped_false] at hrest
  have hc : Text.startsWith isNameLetter (c :: rest') = false := by
    have hstart := Text.startsWith_dropWhile isNameLetter mid
    rw [← hrest] at hstart
    exact hstart
  -- The name is its first letter and the longest run of letters after that.
  have hname : t = d :: mid.takeWhile isNameLetter := by
    have hmid := List.takeWhile_append_dropWhile (p := isNameLetter) (l := mid)
    rw [← hrest] at hmid
    rw [← hmid, ← List.cons_append] at htext
    exact List.append_cancel_right htext
  have hmore : (mid.takeWhile isNameLetter ++ c :: rest').dropWhile isNameLetter = c :: rest' :=
    Text.dropWhile_append_of_all List.all_takeWhile hc
  rw [hname]
  exact ⟨_, yields_seq.2 ⟨[], mid.takeWhile isNameLetter ++ c :: rest', [],
    yields_one.2 ⟨d, rfl, hd, rfl⟩, yields_star_one.2 ⟨rfl, hmore.symm⟩, rfl⟩⟩

theorem optional_eq_some_iff :
    (optional e).scan spaced s = some (f, rest) ↔ e.scan spaced s = some (f, rest) ∨
      e.scan spaced s = none ∧ f = .text [] .nil ∧ rest = s := by
  have hempty : empty.scan spaced s = some (.text [] .nil, s) := rfl
  cases he : e.scan spaced s with
  | none =>
    have hnone : (optional e).scan spaced s = empty.scan spaced s := by
      simp only [scan] at he
      simp only [scan, optional, read, he]
    rw [hnone, hempty]
    simp [eq_comm]
  | some m =>
    have hsome : (optional e).scan spaced s = some m := by
      simp only [scan] at he
      simp only [scan, optional, read, he]
    simp [hsome]

/-- The character after a place where something may be left out tells whether it is. -/
theorem closedBefore_optional {o : Char} (h : Closed e spaced)
    (hopening : ∀ {s f rest}, e.scan spaced s = some (f, rest) → ∃ t, s = o :: t) :
    ClosedBefore (· != o) (optional e) spaced := by
  intro s f c rest hscan hc rest'
  rcases optional_eq_some_iff.1 hscan with hsome | ⟨_, rfl, _⟩
  · exact optional_eq_some_iff.2 (Or.inl (h hsome _))
  · refine optional_eq_some_iff.2 (Or.inr ⟨?_, rfl, rfl⟩)
    cases hsome : e.scan spaced (Forest.flatten (.text [] .nil) ++ c :: rest') with
    | none => rfl
    | some m =>
      obtain ⟨t, ht⟩ := hopening hsome
      rw [(List.cons.inj ht).1] at hc
      simp at hc

theorem opening_of_options (h : (call .options).scan spaced s = some (f, rest)) :
    ∃ t, s = '[' :: t :=
  exists_opening_of_parseAt rfl h

theorem closed_coordinate : Closed (invocationBody .coordinate) spaced := by
  have hend : Closed (inOrder [lit ")", lit ";"]) spaced :=
    (closed_lit _).seq (closed_lit _) rfl
  have hbody : Closed (seq (call .parenBody) (inOrder [lit ")", lit ";"])) spaced :=
    (closedBefore_balanced nests_paren rfl rfl rfl).seq hend rfl
      (stops_of_opening (o := ')') rfl rfl (ne_of_isGap rfl))
  have hat : Closed (seq (lit ")") (seq (lit "at") (seq (lit "(")
      (seq (call .parenBody) (inOrder [lit ")", lit ";"]))))) spaced :=
    (closed_lit _).seq ((closed_lit _).seq ((closed_lit _).seq hbody rfl) rfl) rfl
  have hbefore : ClosedBefore (fun _ ↦ true) (call .coordinateName) spaced :=
    closedBefore_coordinateName
  have hname := (closed_lit "(").seq (hbefore.seq hat rfl fun _ _ _ _ _ ↦ rfl) rfl
  have hoptions := (closedBefore_optional closed_options opening_of_options).seq hname rfl
    (stops_of_opening (o := '(') rfl rfl (ne_of_isGap rfl))
  exact (closed_lit _).seq hoptions rfl

/-- Every call but those of paths ends with its own text. -/
theorem closed_invocation {k : Keyword} (hk : k ≠ .draw) :
    Closed (call (.invocation k)) spaced := by
  apply Closed.call
  rw [spacing_of_plain rfl]
  cases k with
  | coordinate => exact closed_coordinate
  | draw => exact absurd rfl hk
  | _ => exact closed_keywordCall _ _

/-! ### The text of a path -/

/-- What an expression leaves is settled by the taken text and the first character after it, up to
what is after the two. -/
def Settled (e : Peg Rule) (spaced : Bool) : Prop :=
  ∀ ⦃f f' : Forest Rule⦄ ⦃c c' : Char⦄ ⦃t t' rest rest' : Text⦄,
    e.scan spaced (f.flatten ++ c :: (t ++ rest)) = some (f, c :: (t ++ rest)) →
    e.scan spaced (f'.flatten ++ c' :: (t' ++ rest')) = some (f', c' :: (t' ++ rest')) →
      f.flatten ++ c :: t = f'.flatten ++ c' :: t' → f = f'

/-- What is left of a match is determined by the taken text. -/
def Determined (e : Peg Rule) (spaced : Bool) : Prop :=
  ∀ ⦃s s' : Text⦄ ⦃f f' : Forest Rule⦄ ⦃rest rest' : Text⦄, e.scan spaced s = some (f, rest) →
    e.scan spaced s' = some (f', rest') → f.flatten = f'.flatten → f = f'

theorem Determined.seq (ha : Settled a spaced) (hb : Determined b spaced)
    (hconsumes : consumes Rule.takes b) : Determined (seq a b) spaced := by
  intro s s' f f' rest rest' hscan hscan' hflatten
  obtain ⟨first, mid, second, hfirst, hsecond, rfl⟩ := scan_seq_eq_some_iff.1 hscan
  obtain ⟨first', mid', second', hfirst', hsecond', rfl⟩ := scan_seq_eq_some_iff.1 hscan'
  obtain ⟨c, t, htaken, rfl, hskip⟩ := exists_second hconsumes hsecond
  obtain ⟨c', t', htaken', rfl, hskip'⟩ := exists_second hconsumes hsecond'
  rw [← lossless_scan _ _ _ _ _ hfirst] at hfirst
  rw [← lossless_scan _ _ _ _ _ hfirst'] at hfirst'
  simp only [Forest.flatten_append, Forest.flatten, htaken, htaken'] at hflatten
  obtain rfl := ha hfirst hfirst' hflatten
  obtain ⟨rfl, rfl⟩ := List.cons.inj (List.append_cancel_left hflatten)
  obtain ⟨hgap, hsame⟩ := Prod.mk.inj ((hskip rest).symm.trans (hskip' rest))
  obtain rfl := hb hsecond hsecond' (List.append_cancel_right hsame)
  rw [hgap]

theorem Determined.call (h : Determined rule.body (diagramGrammar.spacing rule spaced)) :
    Determined (call rule) spaced := by
  intro s s' f f' rest rest' hscan hscan' hflatten
  obtain ⟨inside, hbody, rfl⟩ := scan_call_eq_some_iff.1 hscan
  obtain ⟨inside', hbody', rfl⟩ := scan_call_eq_some_iff.1 hscan'
  rw [Grammar.flatten_wrap, Grammar.flatten_wrap] at hflatten
  rw [h hbody hbody' hflatten]

end DiagramMacros.Peg
