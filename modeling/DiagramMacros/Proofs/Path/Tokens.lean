import DiagramMacros.Path.Scan
import DiagramMacros.Proofs.Grammar.Nodes
/-!
The tokens of a path body. A coordinate, an operator and a node start with different characters, so
at most one of them stands at the start of a text, and the order in which they are tried does not
matter (`read?_eq_some_iff`).

A row is the body cut into tokens: blanks and a token, blanks and a token, and so on. There is no
bound on the length of a row. Every body has exactly one row that cannot be continued
(`exists_row`, `Row.unique`).
-/

set_option autoImplicit false
set_option relaxedAutoImplicit false

namespace DiagramMacros

open Peg Text

/-! ### One token -/

/-- The rules of the operators. -/
def operatorRules : List Rule :=
  [.incrementalLine, .relativeLine, .lineTo, .horizontalFirst, .verticalFirst, .cycle]

/-- A token stands at the start of a text, with this text after it. -/
inductive TokenAt (s : Text) : PathToken → Text → Prop
  | coordinate {inside : Forest Rule} {rest : Text}
      (h : Rule.pathCoordinate.parse s = some (.node .pathCoordinate inside .nil, rest)) :
      TokenAt s (.coordinate (inside.textOf .parenBody)) rest
  | operator {rule : Rule} {o : PathOperator} {inside : Forest Rule} {rest : Text}
      (h : Rule.pathOperator.parse s =
        some (.node .pathOperator (.node rule inside .nil) .nil, rest))
      (ho : PathOperator.ofRule? rule = some o) : TokenAt s (.operator o) rest
  | node {inside : Forest Rule} {rest : Text}
      (h : Rule.pathNode.parse s = some (.node .pathNode inside .nil, rest)) :
      TokenAt s (.node ⟨inside.textIn .argument .groupBody, optionStyle inside⟩) rest

/-- No token stands at the start of a text. -/
def NoToken (s : Text) : Prop :=
  Rule.pathCoordinate.parse s = none ∧ Rule.pathOperator.parse s = none ∧
    Rule.pathNode.parse s = none

section Token

variable {s rest : Text} {token : PathToken} {f : Forest Rule}

theorem opening_of_pathCoordinate (h : Rule.pathCoordinate.parse s = some (f, rest)) :
    ∃ t, s = '(' :: t :=
  exists_opening_of_parseAt rfl h

/-- The node of an operator has the node of one of the operators in it. -/
theorem exists_of_pathOperator (h : Rule.pathOperator.parse s = some (f, rest)) :
    ∃ rule inside o, f = .node .pathOperator (.node rule inside .nil) .nil ∧
      PathOperator.ofRule? rule = some o ∧
        ∃ c t, s = c :: t ∧ (c = '-' ∨ c = '|' ∨ c = 'c') := by
  rw [Rule.parse_eq] at h
  obtain ⟨⟨g, rest'⟩, hbody, hm⟩ := Option.map_eq_some_iff.1 h
  obtain ⟨rfl, _⟩ := Prod.mk.inj hm
  obtain ⟨rule, hmem, hrule⟩ := exists_of_scan_firstOf operatorRules hbody
  have hkind : rule.kind ≠ .silent ∧ ∃ o c, PathOperator.ofRule? rule = some o ∧
      rule.body.opening? = some c ∧ (c = '-' ∨ c = '|' ∨ c = 'c') := by
    simp only [operatorRules, List.mem_cons, List.not_mem_nil, or_false] at hmem
    rcases hmem with rfl | rfl | rfl | rfl | rfl | rfl
    all_goals exact ⟨by decide, _, _, rfl, rfl, by decide⟩
  obtain ⟨hsilent, o, c, ho, hc, hcases⟩ := hkind
  obtain ⟨inside, rfl⟩ := Rule.exists_node hsilent hrule
  obtain ⟨t, ht⟩ := exists_opening_of_parseAt hc hrule
  exact ⟨rule, inside, o, rfl, ho, c, t, ht, hcases⟩

theorem opening_of_pathNode (h : Rule.pathNode.parse s = some (f, rest)) : ∃ t, s = 'n' :: t := by
  have hyields : (call .pathNode).Yields true s (Expression.parts f) rest := ⟨f, h, rfl⟩
  obtain ⟨_, _, _, hbody, _⟩ := yields_call.1 hyields
  obtain ⟨_, _, _, ⟨g, hkeyword, _⟩, _⟩ := yields_seq.1 hbody
  exact exists_opening_of_parseAt rfl hkeyword

theorem pathCoordinate_eq_none {c : Char} {t : Text} (hc : c ≠ '(') :
    Rule.pathCoordinate.parse (c :: t) = none := by
  cases hparse : Rule.pathCoordinate.parse (c :: t) with
  | none => rfl
  | some m =>
    obtain ⟨t', ht'⟩ := opening_of_pathCoordinate hparse
    exact absurd (List.cons.inj ht').1 hc

theorem pathOperator_eq_none {c : Char} {t : Text} (hc : ¬ (c = '-' ∨ c = '|' ∨ c = 'c')) :
    Rule.pathOperator.parse (c :: t) = none := by
  cases hparse : Rule.pathOperator.parse (c :: t) with
  | none => rfl
  | some m =>
    obtain ⟨_, _, _, _, _, d, t', ht', hd⟩ := exists_of_pathOperator hparse
    obtain rfl := (List.cons.inj ht').1
    exact absurd hd hc

/-- The order in which the tokens are tried does not matter. -/
theorem read?_eq_some_iff : PathToken.read? s = some (token, rest) ↔ TokenAt s token rest := by
  have hcoordinate : Rule.pathCoordinate.kind ≠ .silent := by decide
  have hoperator : Rule.pathOperator.kind ≠ .silent := by decide
  have hnode : Rule.pathNode.kind ≠ .silent := by decide
  rw [PathToken.read?]
  constructor
  · intro h
    cases hc : Rule.pathCoordinate.parseNode? s with
    | some m =>
      simp only [hc, Option.some.injEq, Prod.mk.injEq] at h
      obtain ⟨rfl, rfl⟩ := h
      exact TokenAt.coordinate ((Rule.parseNode?_eq_some_iff hcoordinate).1 hc)
    | none =>
      simp only [hc] at h
      cases ho : Rule.pathOperator.parseNode? s with
      | some m =>
        obtain ⟨f, rest'⟩ := m
        have hparse := (Rule.parseNode?_eq_some_iff hoperator).1 ho
        obtain ⟨rule, inside, o, heq, hrule, _⟩ := exists_of_pathOperator hparse
        obtain rfl : f = .node rule inside .nil := by simpa using heq
        simp only [ho, Forest.nodes, List.head?_cons, Option.bind_some, hrule, Option.map_some,
          Option.some.injEq, Prod.mk.injEq] at h
        obtain ⟨rfl, rfl⟩ := h
        exact TokenAt.operator hparse hrule
      | none =>
        simp only [ho] at h
        obtain ⟨m, hm, heq⟩ := Option.map_eq_some_iff.1 h
        obtain ⟨rfl, rfl⟩ := Prod.mk.inj heq
        exact TokenAt.node ((Rule.parseNode?_eq_some_iff hnode).1 hm)
  · intro h
    cases h with
    | coordinate h => simp only [(Rule.parseNode?_eq_some_iff hcoordinate).2 h]
    | @operator rule o inside rest h ho =>
      obtain ⟨_, _, _, _, _, c, t, rfl, hc⟩ := exists_of_pathOperator h
      have hnone : Rule.pathCoordinate.parseNode? (c :: t) = none := by
        refine (Rule.parseNode?_eq_none_iff hcoordinate).2 (pathCoordinate_eq_none ?_)
        rintro rfl
        simp at hc
      simp only [hnone, (Rule.parseNode?_eq_some_iff hoperator).2 h, Forest.nodes, List.head?_cons,
        Option.bind_some, ho, Option.map_some]
    | node h =>
      obtain ⟨t, rfl⟩ := opening_of_pathNode h
      have hnone : Rule.pathCoordinate.parseNode? ('n' :: t) = none :=
        (Rule.parseNode?_eq_none_iff hcoordinate).2 (pathCoordinate_eq_none (by decide))
      have hnone' : Rule.pathOperator.parseNode? ('n' :: t) = none :=
        (Rule.parseNode?_eq_none_iff hoperator).2 (pathOperator_eq_none (by decide))
      simp only [hnone, hnone', (Rule.parseNode?_eq_some_iff hnode).2 h, Option.map_some]

theorem read?_eq_none_iff : PathToken.read? s = none ↔ NoToken s := by
  constructor
  · intro h
    have hno : ∀ token rest, ¬ TokenAt s token rest := by
      intro token rest htoken
      rw [read?_eq_some_iff.2 htoken] at h
      simp at h
    refine ⟨?_, ?_, ?_⟩
    · cases hparse : Rule.pathCoordinate.parse s with
      | none => rfl
      | some m =>
        obtain ⟨inside, heq⟩ := Rule.exists_node (by decide) hparse
        exact absurd (TokenAt.coordinate (by rw [hparse, ← heq])) (hno _ _)
    · cases hparse : Rule.pathOperator.parse s with
      | none => rfl
      | some m =>
        obtain ⟨rule, inside, o, heq, ho, _⟩ := exists_of_pathOperator hparse
        exact absurd (TokenAt.operator (by rw [hparse, ← heq]) ho) (hno _ _)
    · cases hparse : Rule.pathNode.parse s with
      | none => rfl
      | some m =>
        obtain ⟨inside, heq⟩ := Rule.exists_node (by decide) hparse
        exact absurd (TokenAt.node (by rw [hparse, ← heq])) (hno _ _)
  · rintro ⟨hcoordinate, hoperator, hnode⟩
    cases hread : PathToken.read? s with
    | none => rfl
    | some m =>
      obtain ⟨token, rest⟩ := m
      cases read?_eq_some_iff.1 hread with
      | coordinate h => simp [hcoordinate] at h
      | operator h ho => simp [hoperator] at h
      | node h => simp [hnode] at h

/-- A token takes at least one character, and the first one is no blank. -/
theorem TokenAt.exists_text (h : TokenAt s token rest) :
    ∃ c t, s = c :: t ++ rest ∧ isBlank c = false := by
  have htext : ∀ {rule : Rule} {f : Forest Rule}, consumes Rule.takes (call rule) →
      rule.parse s = some (f, rest) → ∃ c t, s = c :: t ++ rest := by
    intro rule f htakes hparse
    have hyields : (call rule).Yields true s (Expression.parts f) rest := ⟨f, hparse, rfl⟩
    obtain ⟨t, rfl⟩ := hyields.exists_append
    have hlength := hyields.length_lt htakes
    cases t with
    | nil => simp at hlength
    | cons c t => exact ⟨c, t, rfl⟩
  have hfirst : ∀ {c d : Char} {t t' : Text}, s = c :: t ++ rest → s = d :: t' →
      isBlank d = false → isBlank c = false := by
    intro c d t t' hs hs' hd
    obtain rfl := (List.cons.inj (hs.symm.trans hs')).1
    exact hd
  cases h with
  | coordinate h =>
    obtain ⟨c, t, hs⟩ := htext rfl h
    obtain ⟨t', hs'⟩ := opening_of_pathCoordinate h
    exact ⟨c, t, hs, hfirst hs hs' (by decide)⟩
  | operator h ho =>
    obtain ⟨c, t, hs⟩ := htext rfl h
    obtain ⟨_, _, _, _, _, d, t', hs', hd⟩ := exists_of_pathOperator h
    refine ⟨c, t, hs, hfirst hs hs' ?_⟩
    rcases hd with rfl | rfl | rfl <;> decide
  | node h =>
    obtain ⟨c, t, hs⟩ := htext rfl h
    obtain ⟨t', hs'⟩ := opening_of_pathNode h
    exact ⟨c, t, hs, hfirst hs hs' (by decide)⟩

theorem noToken_nil : NoToken [] := by
  rw [← read?_eq_none_iff]
  cases hread : PathToken.read? [] with
  | none => rfl
  | some m =>
    obtain ⟨c, t, hs, _⟩ := (read?_eq_some_iff.1 hread).exists_text
    simp at hs

theorem TokenAt.unique {token' : PathToken} {rest' : Text} (h : TokenAt s token rest)
    (h' : TokenAt s token' rest') : token = token' ∧ rest = rest' := by
  have heq := (read?_eq_some_iff.2 h).symm.trans (read?_eq_some_iff.2 h')
  simpa using heq

theorem TokenAt.not_noToken (h : TokenAt s token rest) : ¬ NoToken s := by
  intro hno
  have heq := (read?_eq_some_iff.2 h).symm.trans (read?_eq_none_iff.2 hno)
  simp at heq

theorem exists_tokenAt (h : ¬ NoToken s) : ∃ token rest, TokenAt s token rest := by
  rw [← read?_eq_none_iff] at h
  obtain ⟨⟨token, rest⟩, hread⟩ := Option.ne_none_iff_exists'.1 h
  exact ⟨token, rest, read?_eq_some_iff.1 hread⟩

end Token

/-! ### Rows of tokens -/

/-- A token of a path body as it is written, with the blanks before it. -/
@[ext]
structure PlacedToken where
  gap : Text
  text : Text
  token : PathToken

/-- Tokens at the start of a text, with blanks before each, and the text after the last one. -/
inductive Row : Text → List PlacedToken → Text → Prop
  | stop {s : Text} : Row s [] s
  | token {gap text rest last : Text} {token : PathToken} {row : List PlacedToken}
      (hgap : gap.all isBlank) (h : TokenAt (text ++ rest) token rest) (more : Row rest row last) :
      Row (gap ++ (text ++ rest)) (⟨gap, text, token⟩ :: row) last

section Rows

variable {s last last' : Text} {row row' : List PlacedToken}

/-- Nothing of a text is lost in its row, and nothing occurs twice. -/
theorem Row.flatten (h : Row s row last) : s = (row.flatMap fun w ↦ w.gap ++ w.text) ++ last := by
  induction h with
  | stop => rfl
  | @token gap text rest last token row _ _ _ ih =>
    rw [List.flatMap_cons, List.append_assoc, List.append_assoc, ← ih]

theorem Row.gap_blank (h : Row s row last) : ∀ w ∈ row, w.gap.all isBlank := by
  induction h with
  | stop => simp
  | @token gap text rest last token row hgap _ _ ih =>
    intro w hw
    rcases List.mem_cons.1 hw with rfl | hw
    · exact hgap
    · exact ih w hw

theorem row_nil_iff : Row s [] last ↔ s = last := by
  constructor
  · rintro ⟨⟩
    rfl
  · rintro rfl
    exact Row.stop

theorem row_cons_iff {w : PlacedToken} :
    Row s (w :: row) last ↔ ∃ rest, s = w.gap ++ (w.text ++ rest) ∧ w.gap.all isBlank ∧
      TokenAt (w.text ++ rest) w.token rest ∧ Row rest row last := by
  constructor
  · intro h
    cases h with
    | token hgap htoken more => exact ⟨_, rfl, hgap, htoken, more⟩
  · rintro ⟨rest, rfl, hgap, htoken, more⟩
    exact Row.token hgap htoken more

theorem row_append_iff :
    Row s (row ++ row') last ↔ ∃ mid, Row s row mid ∧ Row mid row' last := by
  induction row generalizing s with
  | nil => simp [row_nil_iff]
  | cons w row ih =>
    rw [List.cons_append, row_cons_iff]
    constructor
    · rintro ⟨rest, hs, hgap, htoken, more⟩
      obtain ⟨mid, hrow, hrow'⟩ := ih.1 more
      exact ⟨mid, row_cons_iff.2 ⟨rest, hs, hgap, htoken, hrow⟩, hrow'⟩
    · rintro ⟨mid, hrow, hrow'⟩
      obtain ⟨rest, hs, hgap, htoken, more⟩ := row_cons_iff.1 hrow
      exact ⟨rest, hs, hgap, htoken, ih.2 ⟨mid, more, hrow'⟩⟩

/-- The blanks before a token end where it begins. -/
theorem TokenAt.startsWith_isBlank {token : PathToken} (h : TokenAt s token last) :
    startsWith isBlank s = false := by
  obtain ⟨c, t, rfl, hc⟩ := h.exists_text
  exact hc

theorem trimStart_append {gap : Text} (hgap : gap.all isBlank)
    (hs : startsWith isBlank s = false) : trimStart (gap ++ s) = s :=
  dropWhile_append_of_all hgap hs

theorem exists_gap_trimStart (s : Text) :
    ∃ gap : Text, gap.all isBlank ∧ s = gap ++ trimStart s :=
  ⟨s.takeWhile isBlank, List.all_takeWhile, List.takeWhile_append_dropWhile.symm⟩

/-- The first tokens of two rows of a text are the same. -/
theorem Row.head_unique {w w' : PlacedToken} (h : Row s (w :: row) last)
    (h' : Row s (w' :: row') last') : w = w' ∧ ∃ rest, Row rest row last ∧ Row rest row' last' := by
  obtain ⟨rest, hs, hgap, htoken, more⟩ := row_cons_iff.1 h
  obtain ⟨rest', hs', hgap', htoken', more'⟩ := row_cons_iff.1 h'
  have htrim : trimStart s = w.text ++ rest := by
    rw [hs, trimStart_append hgap htoken.startsWith_isBlank]
  have htrim' : trimStart s = w'.text ++ rest' := by
    rw [hs', trimStart_append hgap' htoken'.startsWith_isBlank]
  rw [← htrim] at htoken hs
  rw [← htrim'] at htoken' hs'
  obtain ⟨htokens, rfl⟩ := htoken.unique htoken'
  have hgaps : w.gap = w'.gap := List.append_cancel_right (hs.symm.trans hs')
  have htexts : w.text = w'.text := List.append_cancel_right (htrim.symm.trans htrim')
  exact ⟨PlacedToken.ext hgaps htexts htokens, rest, more, more'⟩

/-- A row that cannot be continued cannot be part of a longer one. -/
theorem Row.not_noToken {w : PlacedToken} (h : Row s (w :: row) last) :
    ¬ NoToken (trimStart s) := by
  obtain ⟨rest, rfl, hgap, htoken, _⟩ := row_cons_iff.1 h
  rw [trimStart_append hgap htoken.startsWith_isBlank]
  exact htoken.not_noToken

/-- A text has one row only that cannot be continued. -/
theorem Row.unique (h : Row s row last) (hlast : NoToken (trimStart last)) (h' : Row s row' last')
    (hlast' : NoToken (trimStart last')) : row = row' ∧ last = last' := by
  induction row generalizing s row' with
  | nil =>
    obtain rfl := row_nil_iff.1 h
    cases row' with
    | nil => exact ⟨rfl, row_nil_iff.1 h'⟩
    | cons w' row' => exact absurd hlast h'.not_noToken
  | cons w row ih =>
    cases row' with
    | nil =>
      obtain rfl := row_nil_iff.1 h'
      exact absurd hlast' h.not_noToken
    | cons w' row' =>
      obtain ⟨rfl, rest, more, more'⟩ := h.head_unique h'
      obtain ⟨rfl, rfl⟩ := ih more more'
      exact ⟨rfl, rfl⟩

/-- Every text has a row that cannot be continued. -/
theorem exists_row (s : Text) : ∃ row last, Row s row last ∧ NoToken (trimStart last) := by
  induction hn : s.length using Nat.strongRecOn generalizing s with
  | ind n ih =>
    by_cases hno : NoToken (trimStart s)
    · exact ⟨[], s, Row.stop, hno⟩
    · obtain ⟨token, rest, htoken⟩ := exists_tokenAt hno
      obtain ⟨gap, hgap, hs⟩ := exists_gap_trimStart s
      obtain ⟨c, t, htext, _⟩ := htoken.exists_text
      have hlength : rest.length < n := by
        rw [← hn, hs, htext]
        simp
        omega
      obtain ⟨row, last, hrow, hlast⟩ := ih rest.length hlength rest rfl
      rw [htext] at hs htoken
      rw [hs]
      exact ⟨_, last, Row.token hgap htoken hrow, hlast⟩

end Rows

end DiagramMacros
