import DiagramMacros.Diagram.Lexeme
import DiagramMacros.Proofs.Grammar.Nodes
/-!
Calls at the start of a text. A call starts with a backslash and its keyword, and no letter follows
the keyword (`IsCall.exists_after`). So the keyword is the whole control word at the start of the
text (`IsCall.atStart?_eq`), and at most one of the ten rules matches. The order in which they are
tried therefore does not matter (`matchCallIn_eq_some_iff`).
-/

set_option autoImplicit false
set_option relaxedAutoImplicit false

namespace DiagramMacros

open Peg

/-- A call matches the start of a text: what it leaves, and the text after it. -/
def IsCall (k : Keyword) (s : Text) (tree : Forest Rule) (rest : Text) : Prop :=
  (Rule.invocation k).parse s = some (tree, rest)

/-- No call matches the start of a text. -/
def NoCall (s : Text) : Prop := ∀ k, (Rule.invocation k).parse s = none

/-! ### Control words -/

theorem not_isLetter_of_isGap {c : Char} (h : isGap c) : isLetter c = false := by
  simp only [isGap, Bool.or_eq_true, beq_iff_eq] at h
  rcases h with ((rfl | rfl) | rfl) | rfl <;> rfl

namespace Keyword

theorem word_injective {k k' : Keyword} (h : k.word = k'.word) : k = k' := by
  have hall : ∀ k ∈ all, ∀ k' ∈ all, k.word = k'.word → k = k' := by decide
  exact hall k (mem_all k) k' (mem_all k') h

theorem all_isLetter_word (k : Keyword) : k.word.all isLetter := by cases k <;> rfl

/-- A keyword is found among keywords by its word. -/
theorem find?_word {order : List Keyword} (h : ∀ k, k ∈ order) (w : Text) (k : Keyword) :
    (order.find? fun k' ↦ k'.word == w) = some k ↔ w = k.word := by
  constructor
  · intro hfind
    exact (beq_iff_eq.1 (@List.find?_some _ (fun k' ↦ k'.word == w) k order hfind)).symm
  · rintro rfl
    cases hfind : order.find? fun k' ↦ k'.word == k.word with
    | none => exact absurd (List.find?_eq_none.1 hfind k (h k)) (by simp)
    | some k' =>
      have hword := @List.find?_some _ (fun k' ↦ k'.word == k.word) k' order hfind
      rw [word_injective (beq_iff_eq.1 hword)]

/-- Whatever the order in which the keywords are looked for, the one that is found is the control
word. -/
theorem atStartIn_eq_some_iff {order : List Keyword} (h : ∀ k, k ∈ order) {s : Text} {k : Keyword} :
    atStartIn order s = some k ↔ ∃ t, s = '\\' :: t ∧ t.takeWhile isLetter = k.word := by
  constructor
  · intro hfind
    unfold atStartIn at hfind
    split at hfind
    · rename_i t
      exact ⟨t, rfl, (find?_word h _ k).1 hfind⟩
    · simp at hfind
  · rintro ⟨t, rfl, ht⟩
    exact (find?_word h _ k).2 ht

theorem atStart?_eq_some_iff {s : Text} {k : Keyword} :
    atStart? s = some k ↔ ∃ t, s = '\\' :: t ∧ t.takeWhile isLetter = k.word :=
  atStartIn_eq_some_iff mem_all

end Keyword

/-! ### One call -/

variable {k k' : Keyword} {s rest rest' : Text} {tree tree' : Forest Rule}

theorem IsCall.flatten (h : IsCall k s tree rest) : s = tree.flatten ++ rest :=
  (lossless_scan (call (.invocation k)) true s tree rest h).symm

/-- A call takes at least one character. -/
theorem IsCall.size_pos (h : IsCall k s tree rest) : rest.length < s.length := by
  have hyields : (call (.invocation k)).Yields true s (Expression.parts tree) rest := ⟨tree, h, rfl⟩
  exact hyields.length_lt (by cases k <;> rfl)

/-- A literal text before something that begins with no letter, perhaps after blanks. -/
theorem exists_after_of_seq {w : Text} {e : Peg Rule} {ps : List Expression.Part}
    (h : (seq (lit w) e).Yields true s ps rest)
    (he : ∀ t p, e.Yields true t p rest → Text.startsWith isLetter t = false) :
    ∃ after, s = w ++ after ∧ Text.startsWith isLetter after = false := by
  obtain ⟨_, after, p, hlit, hmore, _⟩ := yields_seq.1 h
  exact ⟨after, (yields_lit.1 hlit).1,
    Text.not_startsWith_of_afterGap (fun _ ↦ not_isLetter_of_isGap) (he _ p hmore)⟩

theorem not_startsWith_of_opening {rule : Rule} {c : Char} (hrule : rule.body.opening? = some c)
    (hc : isLetter c = false) {spaced : Bool} {ps : List Expression.Part}
    (h : (call rule).Yields spaced s ps rest) : Text.startsWith isLetter s = false := by
  obtain ⟨f, hf, _⟩ := h
  obtain ⟨t, rfl⟩ := exists_opening_of_parseAt hrule hf
  rwa [Text.startsWith_cons]

theorem exists_after_of_keywordCall {n : Nat} {ps : List Expression.Part}
    (h : (keywordCall k (n + 1)).Yields true s ps rest) :
    ∃ after, s = '\\' :: k.word ++ after ∧ Text.startsWith isLetter after = false := by
  refine exists_after_of_seq h fun t p harguments ↦ ?_
  cases n with
  | zero => exact not_startsWith_of_opening rfl rfl harguments
  | succ n =>
    obtain ⟨_, _, _, hargument, _⟩ := yields_seq.1 harguments
    exact not_startsWith_of_opening rfl rfl hargument

theorem exists_after_of_coordinate {ps : List Expression.Part}
    (h : (invocationBody .coordinate).Yields true s ps rest) :
    ∃ after, s = '\\' :: Keyword.coordinate.word ++ after ∧
      Text.startsWith isLetter after = false := by
  refine exists_after_of_seq h fun t p hmore ↦ ?_
  obtain ⟨_, mid, _, hoptions, hname, _⟩ := yields_seq.1 hmore
  rcases yields_alt.1 hoptions with hoptions | ⟨_, hempty⟩
  · exact not_startsWith_of_opening rfl rfl hoptions
  · obtain rfl : t = mid := (yields_lit.1 hempty).1
    obtain ⟨t', ht'⟩ := hname.exists_opening (c := '(') rfl
    refine Text.not_startsWith_of_afterGap (fun _ ↦ not_isLetter_of_isGap) ?_
    rw [gapped_true] at ht'
    rw [ht']
    rfl

theorem exists_after_of_draw {ps : List Expression.Part}
    (h : (invocationBody .draw).Yields true s ps rest) :
    ∃ after, s = '\\' :: Keyword.draw.word ++ after ∧ Text.startsWith isLetter after = false := by
  obtain ⟨_, _, _, hkeyword, _⟩ := yields_seq.1 h
  obtain ⟨_, _, _, hword, _⟩ := yields_call.1 hkeyword
  obtain ⟨_, after, _, hlit, hend, _⟩ := yields_seq.1 hword
  exact ⟨after, (yields_lit.1 hlit).1, fails_one.1 (yields_absent.1 hend).1⟩

/-- A call starts with a backslash and its keyword, after which there is no letter. -/
theorem IsCall.exists_after (h : IsCall k s tree rest) :
    ∃ after, s = '\\' :: k.word ++ after ∧ Text.startsWith isLetter after = false := by
  have hyields : (call (.invocation k)).Yields true s (Expression.parts tree) rest := ⟨tree, h, rfl⟩
  obtain ⟨_, _, _, hbody, _⟩ := yields_call.1 hyields
  cases k with
  | coordinate => exact exists_after_of_coordinate hbody
  | draw => exact exists_after_of_draw hbody
  | coor => exact exists_after_of_keywordCall (n := 3) hbody
  | node => exact exists_after_of_keywordCall (n := 2) hbody
  | circle => exact exists_after_of_keywordCall (n := 3) hbody
  | mass => exact exists_after_of_keywordCall (n := 2) hbody
  | vec => exact exists_after_of_keywordCall (n := 3) hbody
  | pic => exact exists_after_of_keywordCall (n := 4) hbody
  | xyaxis => exact exists_after_of_keywordCall (n := 1) hbody
  | grid => exact exists_after_of_keywordCall (n := 0) hbody

theorem IsCall.exists_backslash (h : IsCall k s tree rest) : ∃ t, s = '\\' :: t := by
  obtain ⟨after, hs, _⟩ := h.exists_after
  exact ⟨k.word ++ after, hs⟩

/-- The keyword of a call is the whole control word at its start. -/
theorem IsCall.atStart?_eq (h : IsCall k s tree rest) : Keyword.atStart? s = some k := by
  obtain ⟨after, hs, hafter⟩ := h.exists_after
  exact Keyword.atStart?_eq_some_iff.2 ⟨k.word ++ after, hs,
    Text.takeWhile_append_of_all k.all_isLetter_word hafter⟩

/-- Two calls that match the same text have the same keyword. -/
theorem IsCall.keyword_unique (h : IsCall k s tree rest) (h' : IsCall k' s tree' rest') :
    k = k' :=
  Option.some.inj (h.atStart?_eq.symm.trans h'.atStart?_eq)

/-- At most one call matches a text. -/
theorem IsCall.unique (h : IsCall k s tree rest) (h' : IsCall k' s tree' rest') :
    k = k' ∧ tree = tree' ∧ rest = rest' := by
  obtain rfl := h.keyword_unique h'
  exact ⟨rfl, Prod.mk.inj (Option.some.inj (h.symm.trans h'))⟩

theorem NoCall.not_isCall (h : NoCall s) : ¬ IsCall k s tree rest := by
  intro hcall
  have heq := (h k).symm.trans hcall
  simp at heq

theorem exists_isCall (h : ¬ NoCall s) : ∃ k tree rest, IsCall k s tree rest := by
  rw [NoCall, Classical.not_forall] at h
  obtain ⟨k, hk⟩ := h
  obtain ⟨⟨tree, rest⟩, hcall⟩ := Option.ne_none_iff_exists'.1 hk
  exact ⟨k, tree, rest, hcall⟩

/-! ### Trying the calls -/

section Order

variable {order : List Keyword} (horder : ∀ k, k ∈ order)

include horder

theorem matchCallIn_eq_none_iff : matchCallIn order s = none ↔ NoCall s := by
  rw [matchCallIn, List.findSome?_eq_none_iff]
  constructor
  · intro h k
    exact Option.map_eq_none_iff.1 (h k (horder k))
  · intro h k _
    rw [h k]
    rfl

/-- The call that is found is the one that matches. -/
theorem matchCallIn_eq_some_iff :
    matchCallIn order s = some (k, tree, rest) ↔ IsCall k s tree rest := by
  have hfound : ∀ {k : Keyword} {tree : Forest Rule} {rest : Text},
      matchCallIn order s = some (k, tree, rest) → IsCall k s tree rest := by
    intro k tree rest h
    obtain ⟨k', _, hk'⟩ := List.exists_of_findSome?_eq_some h
    obtain ⟨r, hr, heq⟩ := Option.map_eq_some_iff.1 hk'
    simp only [Prod.mk.injEq] at heq
    obtain ⟨rfl, rfl⟩ := heq
    exact hr
  refine ⟨hfound, fun h ↦ ?_⟩
  cases hmatch : matchCallIn order s with
  | none => exact absurd h ((matchCallIn_eq_none_iff horder).1 hmatch).not_isCall
  | some r =>
    obtain ⟨k', tree', rest'⟩ := r
    obtain ⟨rfl, rfl, rfl⟩ := (hfound hmatch).unique h
    rfl

end Order

theorem matchCall?_eq_none_iff : matchCall? s = none ↔ NoCall s :=
  matchCallIn_eq_none_iff Keyword.mem_all

theorem matchCall?_eq_some_iff : matchCall? s = some (k, tree, rest) ↔ IsCall k s tree rest :=
  matchCallIn_eq_some_iff Keyword.mem_all

end DiagramMacros
