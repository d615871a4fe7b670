import DiagramMacros.Proofs.Depth
import DiagramMacros.Proofs.Grammar.Closed
/-!
The groups and the bodies of the grammar, told by counting. The grammar has one recursive rule for
each pair of delimiters, and a body is a repetition of its groups and of characters that neither
open a group nor end the body. Such a repetition never goes back, and where a group in it is never
closed the group fails and the body ends before it. Counting the depth from left to right gives the
same matches (`Rule.matches_count_depth`): an argument and a coordinate of a path are the shortest
group, options go on to the first bracket outside the groups, and a path goes on to the first
semicolon outside them, in each case wherever there is one.

That a text is balanced and that it avoids the character that ends it is the same
(`isBalanced_iff_avoids`), by induction on how it is balanced in one direction and on its length in
the other. The four bodies are instances of one form, `Rule.IsBody`, and what a body with its last
character matches follows from the form alone (`Peg.yields_body_iff`).
-/

set_option autoImplicit false
set_option relaxedAutoImplicit false

namespace DiagramMacros

variable {d : Delimiters} {excluded t : Text} {stop c : Char}

/-! ### Balanced texts and the depth -/

/-- Assumes: the excluded characters are the opening delimiter and one other, the stop. A balanced
text comes back to depth zero and meets no stop there. -/
theorem reach?_of_isBalanced (h : IsBalanced d.opening d.closing excluded t)
    (hexcluded : ∀ c, excluded.contains c ↔ c = d.opening ∨ c = stop) (hstop : stop ≠ d.opening) :
    d.reach? (· == stop) 0 t = some 0 := by
  induction h generalizing stop with
  | nil => rfl
  | @char excluded t c hc _ ih =>
    have hfree : ¬(c = d.opening ∨ c = stop) := by
      rw [← hexcluded, hc]
      exact Bool.false_ne_true
    obtain ⟨hopening, hne⟩ := not_or.1 hfree
    rw [Delimiters.reach?_cons (by simp [hne]), Delimiters.step_zero hopening]
    exact ih hexcluded hstop
  | @group excluded inside t _ _ ihinside ihmore =>
    have hinside := Delimiters.reach?_succ (· == stop) (ihinside (by simp) d.closing_ne)
    rw [Delimiters.reach?_cons (by simp [hstop.symm]), Delimiters.step_opening,
      Delimiters.reach?_append, hinside, Option.bind_some, Delimiters.reach?_cons (by simp),
      Delimiters.step_closing]
    exact ihmore hexcluded hstop

/-- Assumes: no other characters than the opening delimiter and the stop are excluded. A text that
comes back to depth zero and meets no stop there is balanced. -/
theorem isBalanced_of_reach? (h : d.reach? (· == stop) 0 t = some 0)
    (hexcluded : ∀ c, excluded.contains c ↔ c = d.opening ∨ c = stop) :
    IsBalanced d.opening d.closing excluded t := by
  induction hn : t.length using Nat.strongRecOn generalizing t stop excluded with
  | ind n ih =>
    subst hn
    cases t with
    | nil => exact IsBalanced.nil
    | cons c t =>
      rw [Delimiters.reach?, Option.ite_none_left_eq_some] at h
      obtain ⟨hstop, h⟩ := h
      by_cases hc : c = d.opening
      · rw [hc, Delimiters.step_opening] at h
        obtain ⟨inside, rest, rfl, hinside, hrest⟩ := Delimiters.exists_closing h
        have hlength :
            inside.length + rest.length + 1 < (c :: (inside ++ d.closing :: rest)).length := by
          simp only [List.length_cons, List.length_append]
          omega
        rw [hc]
        exact IsBalanced.group (ih inside.length (by omega) hinside (by simp) rfl)
          (ih rest.length (by omega) hrest hexcluded rfl)
      · rw [Delimiters.step_zero hc] at h
        have hfree : excluded.contains c = false := by
          rw [Bool.eq_false_iff, ne_eq, hexcluded, not_or]
          exact ⟨hc, by simpa using hstop⟩
        exact IsBalanced.char hfree (ih t.length (by simp) h hexcluded rfl)

theorem isBalanced_iff_avoids (hexcluded : ∀ c, excluded.contains c ↔ c = d.opening ∨ c = stop)
    (hstop : stop ≠ d.opening) :
    IsBalanced d.opening d.closing excluded t ↔ d.Avoids stop t := by
  rw [← Delimiters.reach?_zero_iff_avoids]
  exact ⟨fun h ↦ reach?_of_isBalanced h hexcluded hstop, fun h ↦ isBalanced_of_reach? h hexcluded⟩

/-! ### Bodies and the character after them -/

/-- A rule matches texts of whole groups, as long as they go on before a character. -/
structure Rule.IsBody (rule : Rule) (d : Delimiters) (stop : Char) : Prop where
  kind : rule.kind = .token
  body : ∃ nested excluded, nested.Nests d.opening d.closing ∧
    rule.body = balanced nested excluded ∧
      ∀ c, excluded.contains c ↔ c = d.opening ∨ c = stop
  stop_ne : stop ≠ d.opening
  not_isGap : isGap d.opening = false ∧ isGap stop = false

theorem isBody_group : Rule.groupBody.IsBody .braces '}' :=
  ⟨rfl, ⟨_, _, nests_brace, rfl, by simp [Delimiters.braces]⟩, by decide, rfl, rfl⟩

theorem isBody_paren : Rule.parenBody.IsBody .parentheses ')' :=
  ⟨rfl, ⟨_, _, nests_paren, rfl, by simp [Delimiters.parentheses]⟩, by decide, rfl, rfl⟩

theorem isBody_options : Rule.optionsBody.IsBody .braces ']' :=
  ⟨rfl, ⟨_, _, nests_brace, rfl, by simp [Delimiters.braces, or_comm]⟩, by decide, rfl, rfl⟩

theorem isBody_path : Rule.pathBody.IsBody .braces ';' :=
  ⟨rfl, ⟨_, _, nests_brace, rfl, by simp [Delimiters.braces, or_comm]⟩, by decide, rfl, rfl⟩

namespace Peg

variable {rule inner : Rule} {spaced : Bool} {s rest : Text} {o : Char}

/-- A body followed by its last character. -/
theorem yields_body_iff (hinner : inner.IsBody d stop) :
    (∃ ps, (seq (call inner) (lit [stop])).Yields spaced s ps rest) ↔
      ∃ body, s = body ++ stop :: rest ∧ d.Avoids stop body := by
  obtain ⟨nested, excluded, hr, hbody, hexcluded⟩ := hinner.body
  have hspacing := spacing_of_token hinner.kind spaced
  constructor
  · rintro ⟨_, hyields⟩
    obtain ⟨_, mid, _, hfirst, hlast, _⟩ := yields_seq.1 hyields
    obtain ⟨_, ps, _, hinside, _⟩ := yields_call.1 hfirst
    rw [hspacing, hbody] at hinside
    obtain ⟨t, rfl, ht⟩ := isBalanced_of_yields hr hinside
    -- The body takes all blanks, so that its last character comes right after it.
    have hend := fails_one.1 (fails_alt.1 (hinside.fails_rest (consumes_round hr))).2
    have hgapped : gapped spaced mid = mid := by
      cases spaced with
      | false => rfl
      | true =>
        refine Text.afterGap_of_not ?_
        cases mid with
        | nil => rfl
        | cons c mid =>
          rcases (hexcluded c).1 (by simpa using hend) with rfl | rfl
          · exact hinner.not_isGap.1
          · exact hinner.not_isGap.2
    rw [hgapped] at hlast
    obtain ⟨rfl, _⟩ := yields_lit.1 hlast
    exact ⟨t, rfl, (isBalanced_iff_avoids hexcluded hinner.stop_ne).1 ht⟩
  · rintro ⟨body, rfl, havoids⟩
    have hbalanced := (isBalanced_iff_avoids hexcluded hinner.stop_ne).2 havoids
    obtain ⟨ps, hinside⟩ := yields_of_isBalanced hr hbalanced ((hexcluded _).2 (Or.inl rfl))
      hinner.stop_ne ((hexcluded _).2 (Or.inr rfl)) rest
    have hfirst : (call inner).Yields spaced (body ++ stop :: rest) (contribute inner body ps)
        (stop :: rest) :=
      yields_call.2 ⟨body, ps, rfl, by rwa [hspacing, hbody], rfl⟩
    have hgapped : gapped spaced (stop :: rest) = stop :: rest := by
      cases spaced with
      | false => rfl
      | true => exact Text.afterGap_of_not hinner.not_isGap.2
    have hlast : (lit [stop]).Yields spaced (gapped spaced (stop :: rest)) [] rest := by
      rw [hgapped]
      exact yields_lit.2 ⟨rfl, rfl⟩
    exact ⟨_, yields_seq.2 ⟨_, _, _, hfirst, hlast, rfl⟩⟩

/-- A body between two characters, with no blanks allowed around it. -/
theorem yields_enclosed_iff (hinner : inner.IsBody d stop) (hkind : rule.kind = .tight)
    (hrule : rule.body = seq (lit [o]) (seq (call inner) (lit [stop]))) :
    (∃ ps, (call rule).Yields spaced s ps rest) ↔
      ∃ body, s = o :: (body ++ stop :: rest) ∧ d.Avoids stop body := by
  have hspacing := spacing_of_tight hkind spaced
  constructor
  · rintro ⟨_, hyields⟩
    obtain ⟨_, _, _, hbody, _⟩ := yields_call.1 hyields
    rw [hspacing, hrule] at hbody
    obtain ⟨_, mid, ps, hopening, hinside, _⟩ := yields_seq.1 hbody
    obtain ⟨rfl, _⟩ := yields_lit.1 hopening
    obtain ⟨body, hmid, havoids⟩ := (yields_body_iff hinner).1 ⟨ps, hinside⟩
    rw [gapped_false] at hmid
    exact ⟨body, congrArg (o :: ·) hmid, havoids⟩
  · rintro ⟨body, rfl, havoids⟩
    obtain ⟨ps, hinside⟩ : ∃ ps, (seq (call inner) (lit [stop])).Yields false
        (body ++ stop :: rest) ps rest := (yields_body_iff hinner).2 ⟨body, rfl, havoids⟩
    have hbody : rule.body.Yields (diagramGrammar.spacing rule spaced)
        (o :: (body ++ stop :: rest)) ([] ++ ps) rest := by
      rw [hspacing, hrule]
      exact yields_seq.2 ⟨[], _, ps, yields_lit.2 ⟨rfl, rfl⟩, hinside, rfl⟩
    exact ⟨_, yields_call.2 ⟨o :: (body ++ [stop]), _, by simp, hbody, rfl⟩⟩

end Peg

/-! ### What the rules take -/

namespace Rule

open Peg

variable {rule inner : Rule} {s rest : Text} {o : Char}

/-- The text that a rule takes from the start of a text, and the text after it. -/
def taken? (rule : Rule) (s : Text) : Option (Text × Text) :=
  (rule.parse s).map fun m ↦ (m.1.flatten, m.2)

theorem taken?_eq_some_iff : rule.taken? s = some (t, rest) ↔
    s = t ++ rest ∧ ∃ ps, (call rule).Yields true s ps rest := by
  rw [taken?, Option.map_eq_some_iff]
  constructor
  · rintro ⟨⟨f, rest⟩, hparse, heq⟩
    obtain ⟨rfl, rfl⟩ := Prod.mk.inj heq
    exact ⟨(Grammar.flatten_of_parse _ hparse).symm, _, f, hparse, rfl⟩
  · rintro ⟨rfl, _, f, hscan, _⟩
    have hparse : rule.parse (t ++ rest) = some (f, rest) := hscan
    have htext := List.append_cancel_right (Grammar.flatten_of_parse _ hparse)
    exact ⟨(f, rest), hparse, by rw [htext]⟩

theorem taken?_eq_none_iff : rule.taken? s = none ↔ (call rule).Fails true s := by
  rw [taken?, Option.map_eq_none_iff]
  rfl

theorem isSome_taken?_iff : (rule.taken? s).isSome ↔ ∃ t rest, rule.taken? s = some (t, rest) := by
  rw [Option.isSome_iff_exists]
  exact Prod.exists

/-- A body between two characters ends at the first place where the second one stands at depth
zero. -/
theorem taken?_enclosed_iff (hinner : inner.IsBody d stop) (hkind : rule.kind = .tight)
    (hrule : rule.body = seq (lit [o]) (seq (call inner) (lit [stop]))) :
    rule.taken? s = some (t, rest) ↔
      s = t ++ rest ∧ ∃ body, t = o :: (body ++ [stop]) ∧ d.Avoids stop body := by
  rw [taken?_eq_some_iff, yields_enclosed_iff hinner hkind hrule]
  refine and_congr_right ?_
  rintro rfl
  have happend (body : Text) : o :: (body ++ stop :: rest) = o :: (body ++ [stop]) ++ rest := by
    simp
  simp only [happend, List.append_cancel_right_eq]

theorem isSome_taken?_enclosed_iff (hinner : inner.IsBody d stop) (hkind : rule.kind = .tight)
    (hrule : rule.body = seq (lit [o]) (seq (call inner) (lit [stop]))) :
    (rule.taken? s).isSome ↔ ∃ body rest, s = o :: (body ++ stop :: rest) ∧ d.depth body = 0 := by
  rw [isSome_taken?_iff]
  simp only [taken?_enclosed_iff hinner hkind hrule]
  constructor
  · rintro ⟨_, rest, rfl, body, rfl, havoids⟩
    exact ⟨body, rest, by simp, havoids.depth_eq⟩
  · rintro ⟨body, rest, rfl, hdepth⟩
    obtain ⟨before, after, heq, havoids⟩ := Delimiters.exists_avoids hdepth rest
    exact ⟨o :: (before ++ [stop]), after, by simp [heq], before, rfl, havoids⟩

/-- A rule that takes whole groups takes the shortest one. -/
theorem taken?_group_iff (hinner : inner.IsBody d d.closing) (hkind : rule.kind = .tight)
    (hrule : rule.body = seq (lit [d.opening]) (seq (call inner) (lit [d.closing]))) :
    rule.taken? s = some (t, rest) ↔ s = t ++ rest ∧ d.IsShortestGroup t := by
  rw [taken?_enclosed_iff hinner hkind hrule, Delimiters.isShortestGroup_iff]

theorem isSome_taken?_group_iff (hinner : inner.IsBody d d.closing) (hkind : rule.kind = .tight)
    (hrule : rule.body = seq (lit [d.opening]) (seq (call inner) (lit [d.closing]))) :
    (rule.taken? s).isSome ↔
      s.head? = some d.opening ∧ ∃ t, t <+: s ∧ t ≠ [] ∧ d.depth t = 0 := by
  rw [isSome_taken?_iff]
  simp only [taken?_group_iff hinner hkind hrule]
  constructor
  · rintro ⟨t, rest, rfl, hgroup⟩
    obtain ⟨t, rfl⟩ := List.head?_eq_some_iff.1 hgroup.opens
    exact ⟨rfl, _, List.prefix_append _ _, List.cons_ne_nil _ _, hgroup.depth_eq⟩
  · rintro ⟨hopens, t, ⟨rest, rfl⟩, hne, hdepth⟩
    obtain ⟨x, t, rfl⟩ := List.exists_cons_of_ne_nil hne
    obtain rfl : x = d.opening := Option.some.inj hopens
    obtain ⟨inside, more, rfl, havoids⟩ := Delimiters.exists_group hdepth
    exact ⟨d.opening :: (inside ++ [d.closing]), more ++ rest, by simp,
      Delimiters.isShortestGroup_iff.2 ⟨inside, rfl, havoids⟩⟩

/-! ### Paths -/

/-- Where the body of a path starts, given the text after its keyword: after the options, if there
are any, and the blanks around them. -/
def pathStart (u : Text) : Text :=
  Text.afterGap (((options.taken? (Text.afterGap u)).map Prod.snd).getD (Text.afterGap u))

theorem yields_optional_iff : (∃ ps, (optional (call rule)).Yields true s ps rest) ↔
    rest = ((rule.taken? s).map Prod.snd).getD s := by
  constructor
  · rintro ⟨ps, hyields⟩
    rcases yields_alt.1 hyields with hsome | ⟨hfails, hempty⟩
    · obtain ⟨t, rfl⟩ := hsome.exists_append
      rw [taken?_eq_some_iff.2 ⟨rfl, ps, hsome⟩]
      rfl
    · obtain ⟨hs, _⟩ := yields_lit.1 hempty
      rw [taken?_eq_none_iff.2 hfails]
      exact hs.symm
  · rintro rfl
    cases htaken : rule.taken? s with
    | none =>
      exact ⟨[], yields_alt.2 (Or.inr ⟨taken?_eq_none_iff.1 htaken, yields_lit.2 ⟨rfl, rfl⟩⟩)⟩
    | some m =>
      obtain ⟨_, ps, hyields⟩ := taken?_eq_some_iff.1 htaken
      exact ⟨ps, yields_alt.2 (Or.inl hyields)⟩

theorem yields_drawKeyword_iff : (∃ ps, (call drawKeyword).Yields true s ps rest) ↔
    s = "\\draw".toList ++ rest ∧ Text.startsWith isLetter rest = false := by
  constructor
  · rintro ⟨_, hyields⟩
    obtain ⟨_, _, _, hbody, _⟩ := yields_call.1 hyields
    obtain ⟨_, mid, _, hword, hend, _⟩ := yields_seq.1 hbody
    obtain ⟨hs, _⟩ := yields_lit.1 hword
    obtain ⟨hfails, _, hmid⟩ := yields_absent.1 hend
    obtain rfl : rest = mid := hmid
    exact ⟨hs, fails_one.1 hfails⟩
  · rintro ⟨rfl, hletter⟩
    have hbody : drawKeyword.body.Yields false ("\\draw".toList ++ rest) ([] ++ []) rest :=
      yields_seq.2 ⟨_, _, _, yields_lit.2 ⟨rfl, rfl⟩,
        yields_absent.2 ⟨fails_one.2 hletter, rfl, rfl⟩, rfl⟩
    exact ⟨_, yields_call.2 ⟨_, _, rfl, hbody, rfl⟩⟩

/-- A path goes on to the first semicolon at depth zero. -/
theorem yields_draw_iff : (∃ ps, (call (invocation .draw)).Yields true s ps rest) ↔
    ∃ u body, s = "\\draw".toList ++ u ∧ Text.startsWith isLetter u = false ∧
      pathStart u = body ++ ';' :: rest ∧ Delimiters.braces.Avoids ';' body := by
  constructor
  · rintro ⟨_, hyields⟩
    obtain ⟨_, _, _, hbody, _⟩ := yields_call.1 hyields
    obtain ⟨_, u, _, hkeyword, hmore, _⟩ := yields_seq.1 hbody
    obtain ⟨_, mid, ps, hoptions, hpath, _⟩ := yields_seq.1 hmore
    obtain ⟨hs, hletter⟩ := yields_drawKeyword_iff.1 ⟨_, hkeyword⟩
    obtain rfl := yields_optional_iff.1 ⟨_, hoptions⟩
    obtain ⟨body, hstart, havoids⟩ := (yields_body_iff isBody_path).1 ⟨ps, hpath⟩
    exact ⟨u, body, hs, hletter, hstart, havoids⟩
  · rintro ⟨u, body, hs, hletter, hstart, havoids⟩
    obtain ⟨_, hkeyword⟩ := yields_drawKeyword_iff.2 ⟨hs, hletter⟩
    obtain ⟨_, hoptions⟩ : ∃ ps, (optional (call options)).Yields true (gapped true u) ps _ :=
      yields_optional_iff.2 rfl
    obtain ⟨_, hpath⟩ : ∃ ps, (seq (call pathBody) (lit [';'])).Yields true (pathStart u) ps rest :=
      (yields_body_iff isBody_path).2 ⟨body, hstart, havoids⟩
    have hbody : (invocation .draw).body.Yields true s _ rest := yields_seq.2
      ⟨_, _, _, hkeyword, yields_seq.2 ⟨_, _, _, hoptions, hpath, rfl⟩, rfl⟩
    obtain ⟨t, ht⟩ := hbody.exists_append
    exact ⟨_, yields_call.2 ⟨t, _, ht, hbody, rfl⟩⟩

/-- Counting the depth from left to right gives the matches of the recursive rules. An argument, and
with parentheses for braces a coordinate of a path, matches if the text opens a group and some part
from its start brings the depth back to zero, and takes the shortest such part. Options match if a
bracket stands at depth zero after the first one, and end at the first such. A path matches if a
semicolon stands at depth zero after its keyword and options, and ends at the first such: so it
fails if every semicolon is inside a group, be that group closed or not. -/
theorem matches_count_depth (s : Text) :
    (((argument.taken? s).isSome ↔
        s.head? = some '{' ∧ ∃ t, t <+: s ∧ t ≠ [] ∧ Delimiters.braces.depth t = 0) ∧
      ∀ t rest, argument.taken? s = some (t, rest) ↔
        s = t ++ rest ∧ Delimiters.braces.IsShortestGroup t) ∧
    (((pathCoordinate.taken? s).isSome ↔
        s.head? = some '(' ∧ ∃ t, t <+: s ∧ t ≠ [] ∧ Delimiters.parentheses.depth t = 0) ∧
      ∀ t rest, pathCoordinate.taken? s = some (t, rest) ↔
        s = t ++ rest ∧ Delimiters.parentheses.IsShortestGroup t) ∧
    (((options.taken? s).isSome ↔
        ∃ body rest, s = '[' :: (body ++ ']' :: rest) ∧ Delimiters.braces.depth body = 0) ∧
      ∀ t rest, options.taken? s = some (t, rest) ↔
        s = t ++ rest ∧ ∃ body, t = '[' :: (body ++ [']']) ∧ Delimiters.braces.Avoids ']' body) ∧
    (((invocation .draw).taken? s).isSome ↔
        ∃ u body rest, s = "\\draw".toList ++ u ∧ Text.startsWith isLetter u = false ∧
          pathStart u = body ++ ';' :: rest ∧ Delimiters.braces.depth body = 0) ∧
      ∀ t rest, (invocation .draw).taken? s = some (t, rest) ↔
        s = t ++ rest ∧ ∃ u body, s = "\\draw".toList ++ u ∧
          Text.startsWith isLetter u = false ∧ pathStart u = body ++ ';' :: rest ∧
          Delimiters.braces.Avoids ';' body := by
  have hdraw (t rest : Text) : (invocation .draw).taken? s = some (t, rest) ↔
      s = t ++ rest ∧ ∃ u body, s = "\\draw".toList ++ u ∧ Text.startsWith isLetter u = false ∧
        pathStart u = body ++ ';' :: rest ∧ Delimiters.braces.Avoids ';' body := by
    rw [taken?_eq_some_iff, yields_draw_iff]
  refine ⟨⟨isSome_taken?_group_iff isBody_group rfl rfl, fun t rest ↦
      taken?_group_iff isBody_group rfl rfl⟩,
    ⟨isSome_taken?_group_iff isBody_paren rfl rfl, fun t rest ↦
      taken?_group_iff isBody_paren rfl rfl⟩,
    ⟨isSome_taken?_enclosed_iff isBody_options rfl rfl, fun t rest ↦
      taken?_enclosed_iff isBody_options rfl rfl⟩, ?_, hdraw⟩
  constructor
  · intro hsome
    obtain ⟨t, rest, htaken⟩ := isSome_taken?_iff.1 hsome
    obtain ⟨_, u, body, hs, hletter, hstart, havoids⟩ := (hdraw t rest).1 htaken
    exact ⟨u, body, rest, hs, hletter, hstart, havoids.depth_eq⟩
  · rintro ⟨u, body, rest, hs, hletter, hstart, hdepth⟩
    obtain ⟨before, after, heq, havoids⟩ := Delimiters.exists_avoids hdepth rest
    obtain ⟨ps, hyields⟩ :=
      yields_draw_iff.2 ⟨u, before, hs, hletter, hstart.trans heq, havoids⟩
    obtain ⟨t, ht⟩ := hyields.exists_append
    exact isSome_taken?_iff.2 ⟨t, after, taken?_eq_some_iff.2 ⟨ht, ps, hyields⟩⟩

/-- A closing brace outside the groups is text, and a bracket inside one ends no options. -/
example : options.taken? "[\x7d\x7b]\x7d] ;" = some ("[\x7d\x7b]\x7d]".toList, " ;".toList) := by
  decide

end Rule

end DiagramMacros
