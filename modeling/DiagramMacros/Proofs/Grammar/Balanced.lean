import DiagramMacros.Proofs.Grammar.Nodes
/-!
Texts whose groups are whole. The bodies of arguments, options, parentheses and paths are such
texts: they take characters that are not excluded and whole groups of one pair of delimiters, and
they end at the first excluded character outside the groups. What the grammar matches as such a body
is balanced (`isBalanced_of_yields`), and a balanced text is matched wherever an excluded character
follows it that does not open a group (`yields_of_isBalanced`). So a body does not depend on what
comes after that character.
-/

set_option autoImplicit false
set_option relaxedAutoImplicit false

namespace DiagramMacros

/-- Whole groups of a pair of delimiters, and characters outside a list. Inside the groups the
delimiters are what is excluded. -/
inductive IsBalanced (opening closing : Char) : Text → Text → Prop
  | nil {excluded : Text} : IsBalanced opening closing excluded []
  | char {excluded t : Text} {c : Char} (hc : excluded.contains c = false)
      (more : IsBalanced opening closing excluded t) : IsBalanced opening closing excluded (c :: t)
  | group {excluded inside t : Text}
      (hinside : IsBalanced opening closing [opening, closing] inside)
      (more : IsBalanced opening closing excluded t) :
      IsBalanced opening closing excluded (opening :: (inside ++ closing :: t))

/-- A rule matches the groups of a pair of delimiters. -/
structure Rule.Nests (nested : Rule) (opening closing : Char) : Prop where
  body : nested.body = Peg.seq (.lit [opening])
    (.seq (balanced nested [opening, closing]) (.lit [closing]))
  takes : nested.takes
  ne : closing ≠ opening

theorem nests_brace : Rule.braceNested.Nests '{' '}' := ⟨rfl, rfl, by decide⟩

theorem nests_paren : Rule.parenNested.Nests '(' ')' := ⟨rfl, rfl, by decide⟩

namespace Peg

open Expression

variable {e : Peg Rule} {s rest : Text} {ps : List Part}

/-- Where no blanks are allowed between them, the rounds after the first one are a repetition
again. -/
theorem yields_star_tight (he : consumes Rule.takes e) :
    (star e).Yields false s ps rest ↔ (e.Fails false s ∧ ps = [] ∧ rest = s) ∨
      ∃ p mid q, e.Yields false s p mid ∧ (star e).Yields false mid q rest ∧ ps = p ++ q := by
  have hrounds : ∀ {mid : Text} {q : List Part},
      (star e).Yields false mid q rest ↔ Rounds e false mid q rest := by
    intro mid q
    rw [yields_star he]
    constructor
    · rintro (⟨hfails, rfl, rfl⟩ | ⟨p, mid', q', hyields, more, rfl⟩)
      · exact Rounds.stop hfails
      · exact Rounds.step hyields more
    · rintro (hfails | ⟨hyields, more⟩)
      · exact Or.inl ⟨hfails, rfl, rfl⟩
      · exact Or.inr ⟨_, _, _, hyields, more, rfl⟩
  rw [yields_star he]
  simp only [hrounds]

/-- A repetition ends where there is no further round. -/
theorem Yields.fails_rest (he : consumes Rule.takes e) (h : (star e).Yields false s ps rest) :
    e.Fails false rest := by
  induction hn : s.length using Nat.strongRecOn generalizing s ps with
  | ind n ih =>
    rcases (yields_star_tight he).1 h with ⟨hfails, _, rfl⟩ | ⟨_, mid, _, hyields, more, _⟩
    · exact hfails
    · exact ih mid.length (hn ▸ hyields.length_lt he) more rfl

section Nested

variable {nested : Rule} {o c d : Char} {excluded t : Text}

/-- A round of a balanced text takes at least one character. -/
theorem consumes_round (hr : nested.Nests o c) :
    consumes Rule.takes (alt (call nested) (oneExcept excluded)) := by
  rw [consumes, consumes, hr.takes]
  rfl

theorem fails_nested (hr : nested.Nests o c) (hd : d ≠ o) :
    (call nested).Fails false (d :: s) := by
  rw [fails_call, hr.body]
  refine fails_seq.2 (Or.inl (fails_lit.2 fun rest hs ↦ ?_))
  exact hd (List.cons.inj hs).1

/-- A character that is excluded and opens no group is no round of a balanced text. -/
theorem fails_round (hr : nested.Nests o c) (hd : d ≠ o) (hexcluded : excluded.contains d) :
    (alt (call nested) (oneExcept excluded)).Fails false (d :: s) := by
  refine fails_alt.2 ⟨fails_nested hr hd, fails_one.2 ?_⟩
  rw [Text.startsWith_cons, hexcluded]
  rfl

/-- A group is a balanced text between its delimiters. -/
theorem yields_nested_iff (hr : nested.Nests o c) :
    (∃ ps, (call nested).Yields false s ps rest) ↔
      ∃ t ps, s = o :: t ∧ (balanced nested [o, c]).Yields false t ps (c :: rest) := by
  constructor
  · rintro ⟨_, hyields⟩
    obtain ⟨_, _, _, hbody, _⟩ := yields_call.1 hyields
    rw [spacing_of_not rfl, hr.body] at hbody
    obtain ⟨_, t, _, hopening, hmore, _⟩ := yields_seq.1 hbody
    obtain ⟨ps, mid, _, hinside, hclosing, _⟩ := yields_seq.1 hmore
    obtain ⟨rfl, _⟩ := yields_lit.1 hopening
    obtain ⟨hmid, _⟩ := yields_lit.1 hclosing
    rw [gapped_false] at hinside hmid
    rw [hmid] at hinside
    exact ⟨t, ps, rfl, hinside⟩
  · rintro ⟨t, ps, rfl, hinside⟩
    have hbody : nested.body.Yields false (o :: t) ([] ++ (ps ++ [])) rest := by
      rw [hr.body]
      exact yields_seq.2 ⟨[], t, _, yields_lit.2 ⟨rfl, rfl⟩,
        yields_seq.2 ⟨ps, c :: rest, [], hinside, yields_lit.2 ⟨rfl, rfl⟩, rfl⟩, rfl⟩
    obtain ⟨w, hw⟩ := hbody.exists_append
    exact ⟨_, yields_call.2 ⟨w, _, hw, by rwa [spacing_of_not rfl], rfl⟩⟩

/-- What is matched as a balanced text is balanced. -/
theorem isBalanced_of_yields (hr : nested.Nests o c)
    (h : (balanced nested excluded).Yields false s ps rest) :
    ∃ t, s = t ++ rest ∧ IsBalanced o c excluded t := by
  induction hn : s.length using Nat.strongRecOn generalizing excluded s rest ps with
  | ind n ih =>
    subst hn
    have hround : consumes Rule.takes (alt (call nested) (oneExcept excluded)) := consumes_round hr
    rcases (yields_star_tight hround).1 h with ⟨_, _, rfl⟩ | ⟨_, mid, _, hyields, more, _⟩
    · exact ⟨[], rfl, IsBalanced.nil⟩
    · obtain ⟨t, rfl, ht⟩ := ih _ (hyields.length_lt hround) more rfl
      rcases yields_alt.1 hyields with hgroup | ⟨_, hone⟩
      · obtain ⟨s', _, rfl, hinside⟩ := (yields_nested_iff hr).1 ⟨_, hgroup⟩
        obtain ⟨inside, rfl, hbalanced⟩ := ih s'.length (Nat.lt_succ_self _) hinside rfl
        exact ⟨_, by simp, IsBalanced.group hbalanced ht⟩
      · obtain ⟨d, rfl, hd, _⟩ := yields_one.1 hone
        exact ⟨d :: t, rfl, IsBalanced.char (by simpa using hd) ht⟩

/-- A balanced text is matched before every excluded character that opens no group. -/
theorem yields_of_isBalanced (hr : nested.Nests o c) (h : IsBalanced o c excluded t)
    (ho : excluded.contains o) (hd : d ≠ o) (hexcluded : excluded.contains d) (more : Text) :
    ∃ ps, (balanced nested excluded).Yields false (t ++ d :: more) ps (d :: more) := by
  induction h generalizing d more with
  | nil =>
    exact ⟨[], (yields_star_tight (consumes_round hr)).2
      (Or.inl ⟨fails_round hr hd hexcluded, rfl, rfl⟩)⟩
  | @char excluded t d' hd' _ ih =>
    obtain ⟨q, hmore⟩ := ih ho hd hexcluded more
    have hne : d' ≠ o := by
      rintro rfl
      rw [ho] at hd'
      exact Bool.noConfusion hd'
    have hyields : (alt (call nested) (oneExcept excluded)).Yields false (d' :: (t ++ d :: more)) []
        (t ++ d :: more) :=
      yields_alt.2 (Or.inr ⟨fails_nested hr hne, yields_one.2 ⟨d', rfl, by rw [hd']; rfl, rfl⟩⟩)
    exact ⟨_, (yields_star_tight (consumes_round hr)).2 (Or.inr ⟨_, _, _, hyields, hmore, rfl⟩)⟩
  | @group excluded inside t _ _ ihinside ihmore =>
    obtain ⟨q, hmore⟩ := ihmore ho hd hexcluded more
    obtain ⟨p, hinside⟩ := ihinside (by simp) hr.ne (by simp) (t ++ d :: more)
    obtain ⟨p', hgroup⟩ := (yields_nested_iff hr).2 ⟨_, p, rfl, hinside⟩
    have htext : o :: (inside ++ c :: t) ++ d :: more = o :: (inside ++ c :: (t ++ d :: more)) := by
      simp
    rw [htext]
    exact ⟨_, (yields_star_tight (consumes_round hr)).2
      (Or.inr ⟨_, _, _, yields_alt.2 (Or.inl hgroup), hmore, rfl⟩)⟩

end Nested

end Peg

end DiagramMacros
