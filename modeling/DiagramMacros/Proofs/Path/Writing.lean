import DiagramMacros.Proofs.Grammar.Outline
import DiagramMacros.Proofs.Path.Tokens
import DiagramMacros.Proofs.Words
/-!
Tokens of a path as they are written. A token is read again from its own text whatever follows it,
with two exceptions: a line must not be followed by a plus sign, which would make it relative, nor
the word that closes a path by a letter or digit (`tokenAt_written`). In a row of tokens written one
after the other, with blanks between them or none, only the second exception can occur, between two
of those words (`Written`). So the tokens of such a text are the ones that are written in it
(`Written.exists_row`), also after trimming (`Written.trim`).
-/

set_option autoImplicit false
set_option relaxedAutoImplicit false

namespace DiagramMacros

open Peg Text

/-! ### Matches of given texts -/

namespace Peg

variable {a b : Peg Rule} {rule inner nested : Rule} {o c opening closing : Char}
  {excluded s t : Text} {spaced : Bool}

theorem scan_alt_of_fails (h : a.Fails spaced s) : (alt a b).scan spaced s = b.scan spaced s := by
  rw [Fails, scan] at h
  rw [scan, scan, Peg.read, h]

theorem scan_alt_of_some {m : Forest Rule × Text} (h : a.scan spaced s = some m) :
    (alt a b).scan spaced s = some m := by
  rw [scan] at h
  rw [scan, Peg.read, h]

theorem scan_written (hbody : rule.body = lit t) (hkind : rule.kind = .plain) (spaced : Bool)
    (rest : Text) :
    (call rule).scan spaced (t ++ rest) = some (.node rule (.text t .nil) .nil, rest) := by
  refine scan_call_eq_some_iff.2 ⟨.text t .nil, ?_, ?_⟩
  · rw [hbody]
    exact Option.map_eq_some_iff.2 ⟨rest, Text.after?_eq_some_iff.2 rfl, rfl⟩
  · have hplain : diagramGrammar.kind rule = .plain := hkind
    rw [Grammar.wrap, hplain]

/-- What a rule for a balanced body between two characters leaves. -/
def enclosedForest (inner : Rule) (opening closing : Char) (t : Text) : Forest Rule :=
  .text [opening] (.text [] (.node inner (.text t .nil) (.text [] (.text [closing] .nil))))

theorem textOf_enclosedForest (inner : Rule) (opening closing : Char) (t : Text) :
    (enclosedForest inner opening closing t).textOf inner = t := by
  simp [enclosedForest, Forest.textOf, Forest.inside, Forest.nodes, Forest.flatten]

theorem scan_enclosed (hr : nested.Nests o c) (hinner : inner.kind = .token)
    (hbody : inner.body = balanced nested excluded) (hkind : rule.kind = .tight)
    (hrule : rule.body = seq (lit [opening]) (seq (call inner) (lit [closing])))
    (ho : excluded.contains o) (hclosing : closing ≠ o) (hexcluded : excluded.contains closing)
    (h : IsBalanced o c excluded t) (spaced : Bool) (rest : Text) :
    (call rule).scan spaced (opening :: (t ++ closing :: rest)) =
      some (.node rule (enclosedForest inner opening closing t) .nil, rest) := by
  have htight : diagramGrammar.kind rule = .tight := hkind
  have hspacing : diagramGrammar.spacing rule spaced = false := by rw [Grammar.spacing, htight]
  have hwrap (f : Forest Rule) : diagramGrammar.wrap rule f = .node rule f .nil := by
    rw [Grammar.wrap, htight]
  have hlit (d : Char) (s : Text) : (lit [d]).scan false (d :: s) = some (.text [d] .nil, s) := by
    simp [scan, read, Text.after?]
  obtain ⟨ps, hyields⟩ := yields_of_isBalanced hr h ho hclosing hexcluded rest
  have hinside : (call inner).scan false (t ++ closing :: rest) =
      some (.node inner (.text t .nil) .nil, closing :: rest) :=
    (scan_token_iff hinner).2 ⟨t, ps, rfl, by rwa [hbody], rfl⟩
  refine scan_call_eq_some_iff.2 ⟨enclosedForest inner opening closing t, ?_, (hwrap _).symm⟩
  rw [hspacing, hrule]
  exact scan_seq_eq_some_iff.2 ⟨_, _, _, hlit opening _,
    scan_seq_eq_some_iff.2 ⟨_, _, _, hinside, hlit closing rest, rfl⟩, rfl⟩

end Peg

/-! ### Tokens in front of any text -/

/-- How a token is written, a node without options. -/
def PathToken.written : PathToken → Text
  | .coordinate expression => '(' :: (expression ++ [')'])
  | .operator o => o.written
  | .node n => n.print

/-- A token that is read again as itself: its parts are whole groups, its operator is not relative,
and it has no options. -/
inductive PathToken.IsPlain : PathToken → Prop
  | coordinate {expression : Text} (h : IsBalanced '(' ')' ['(', ')'] expression) :
      IsPlain (.coordinate expression)
  | operator {o : PathOperator} (h : o.isRelative = false) : IsPlain (.operator o)
  | node {label : Text} (h : IsBalanced '{' '}' ['{', '}'] label) : IsPlain (.node ⟨label, {}⟩)

section Token

variable {s rest label expression : Text} {o : PathOperator} {token : PathToken}

theorem tokenAt_coordinate (h : IsBalanced '(' ')' ['(', ')'] expression) (rest : Text) :
    TokenAt ('(' :: (expression ++ ')' :: rest)) (.coordinate expression) rest := by
  have hparse : (call .pathCoordinate).scan true ('(' :: (expression ++ ')' :: rest)) =
      some (.node .pathCoordinate (enclosedForest .parenBody '(' ')' expression) .nil, rest) :=
    scan_enclosed nests_paren rfl rfl rfl rfl rfl (by decide) rfl h true rest
  have htoken := TokenAt.coordinate hparse
  rwa [textOf_enclosedForest] at htoken

/-- What the rule of nodes leaves inside a node that is printed without options. -/
def bareNodeForest (label : Text) : Forest Rule :=
  .node .nodeKeyword (.text "node".toList .nil) (.text [' ']
    (.node .options (enclosedForest .optionsBody '[' ']' []) (.text [' ']
      (.node .argument (enclosedForest .groupBody '{' '}' label) .nil))))

theorem node_bareNodeForest (label : Text) :
    (⟨(bareNodeForest label).textIn .argument .groupBody, optionStyle (bareNodeForest label)⟩ :
      InlineNode) = ⟨label, {}⟩ := by
  have hlabel : (bareNodeForest label).textIn .argument .groupBody = label :=
    textOf_enclosedForest .groupBody '{' '}' label
  rw [hlabel]
  rfl

theorem tokenAt_node (h : IsBalanced '{' '}' ['{', '}'] label) (rest : Text) :
    TokenAt (InlineNode.print ⟨label, {}⟩ ++ rest) (.node ⟨label, {}⟩) rest := by
  have hkeyword (s : Text) : (call .nodeKeyword).scan true ("node".toList ++ ' ' :: s) =
      some (.node .nodeKeyword (.text "node".toList .nil) .nil, ' ' :: s) := by
    refine (scan_token_iff rfl).2 ⟨"node".toList, [], rfl, ?_, rfl⟩
    exact yields_seq.2 ⟨[], ' ' :: s, [], yields_lit.2 ⟨rfl, rfl⟩,
      yields_absent.2 ⟨fails_one.2 rfl, rfl, rfl⟩, rfl⟩
  have hoptions (s : Text) : (call .options).scan true ('[' :: ([] ++ ']' :: s)) =
      some (.node .options (enclosedForest .optionsBody '[' ']' []) .nil, s) :=
    scan_enclosed nests_brace rfl rfl rfl rfl rfl (by decide) rfl .nil true s
  have hargument : (call .argument).scan true ('{' :: (label ++ '}' :: rest)) =
      some (.node .argument (enclosedForest .groupBody '{' '}' label) .nil, rest) :=
    scan_enclosed nests_brace rfl rfl rfl rfl rfl (by decide) rfl h true rest
  have htext : InlineNode.print ⟨label, {}⟩ ++ rest =
      "node".toList ++ ' ' :: '[' :: ([] ++ ']' :: ' ' :: '{' :: (label ++ '}' :: rest)) := by
    simp [InlineNode.print, Style.inBrackets, Style.print, Style.printEntries, Text.join,
      Braces.enclose]
  have hbody : Rule.pathNode.body.scan true (InlineNode.print ⟨label, {}⟩ ++ rest) =
      some (bareNodeForest label, rest) := by
    rw [htext]
    exact scan_seq_eq_some_iff.2 ⟨_, _, _, hkeyword _, scan_seq_eq_some_iff.2 ⟨_, _, _,
      optional_eq_some_iff.2 (Or.inl (hoptions _)), hargument, rfl⟩, rfl⟩
  have hparse : (call .pathNode).scan true (InlineNode.print ⟨label, {}⟩ ++ rest) =
      some (.node .pathNode (bareNodeForest label) .nil, rest) :=
    scan_call_eq_some_iff.2 ⟨_, hbody, rfl⟩
  have htoken := TokenAt.node hparse
  rwa [node_bareNodeForest] at htoken

/-- The operator of a path by the rule that matches it. -/
theorem tokenAt_of_scan (rule : Rule) (inside : Forest Rule)
    (h : Rule.pathOperator.body.scan true s = some (.node rule inside .nil, rest))
    (ho : PathOperator.ofRule? rule = some o) : TokenAt s (.operator o) rest := by
  have hparse : (call .pathOperator).scan true s =
      some (.node .pathOperator (.node rule inside .nil) .nil, rest) :=
    scan_call_eq_some_iff.2 ⟨_, h, rfl⟩
  exact TokenAt.operator hparse ho

/-- The rules of lines match nothing that does not start as a line does. -/
theorem fails_lines (h : ∀ more, s ≠ "--".toList ++ more) :
    (call .incrementalLine).Fails true s ∧ (call .relativeLine).Fails true s ∧
      (call .lineTo).Fails true s :=
  ⟨fails_call.2 (fails_seq.2 (Or.inl (fails_lit.2 h))),
    fails_call.2 (fails_seq.2 (Or.inl (fails_lit.2 h))), fails_call.2 (fails_lit.2 h)⟩

theorem scan_pathOperator_of_not_line (h : ∀ more, s ≠ "--".toList ++ more) :
    Rule.pathOperator.body.scan true s =
      (firstOf [call .horizontalFirst, call .verticalFirst, call .cycle]).scan true s := by
  obtain ⟨hincremental, hrelative, hline⟩ := fails_lines h
  show (alt _ (alt _ (alt _ _))).scan true s = _
  rw [scan_alt_of_fails hincremental, scan_alt_of_fails hrelative, scan_alt_of_fails hline]

/-- A line that no plus sign follows is no relative one. -/
theorem fails_relativeLines (h : Text.startsWith (· == '+') (Text.afterGap rest) = false) :
    (call .incrementalLine).Fails true ("--".toList ++ rest) ∧
      (call .relativeLine).Fails true ("--".toList ++ rest) := by
  have hsigns (signs : Text) : (lit ('+' :: signs)).Fails true (gapped true rest) := by
    refine fails_lit.2 fun more heq ↦ ?_
    rw [gapped_true] at heq
    rw [heq, List.cons_append, Text.startsWith_cons] at h
    exact Bool.noConfusion h
  have hline : (lit "--".toList).Yields true ("--".toList ++ rest) [] rest :=
    yields_lit.2 ⟨rfl, rfl⟩
  exact ⟨fails_call.2 (fails_seq.2 (Or.inr ⟨[], rest, hline, hsigns _⟩)),
    fails_call.2 (fails_seq.2 (Or.inr ⟨[], rest, hline, hsigns _⟩))⟩

theorem tokenAt_operator (h : o.isRelative = false)
    (hplus : Text.startsWith (· == '+') (Text.afterGap rest) = false)
    (hword : o = .cycle → Text.startsWith isWordLetter rest = false) :
    TokenAt (o.written ++ rest) (.operator o) rest := by
  cases o with
  | line =>
    obtain ⟨hincremental, hrelative⟩ := fails_relativeLines hplus
    refine tokenAt_of_scan .lineTo (.text "--".toList .nil) ?_ rfl
    show (alt _ (alt _ (alt _ _))).scan true ("--".toList ++ rest) = _
    rw [scan_alt_of_fails hincremental, scan_alt_of_fails hrelative]
    exact scan_alt_of_some (scan_written rfl rfl true rest)
  | horizontalFirst =>
    refine tokenAt_of_scan .horizontalFirst (.text "-|".toList .nil) ?_ rfl
    rw [scan_pathOperator_of_not_line (by simp [PathOperator.written])]
    exact scan_alt_of_some (scan_written rfl rfl true rest)
  | verticalFirst =>
    refine tokenAt_of_scan .verticalFirst (.text "|-".toList .nil) ?_ rfl
    have hfails : (call .horizontalFirst).Fails true ("|-".toList ++ rest) :=
      fails_call.2 (fails_lit.2 (by simp))
    rw [scan_pathOperator_of_not_line (by simp [PathOperator.written])]
    exact (scan_alt_of_fails hfails).trans (scan_alt_of_some (scan_written rfl rfl true rest))
  | cycle =>
    refine tokenAt_of_scan .cycle (.text "cycle".toList .nil) ?_ rfl
    have hfails : (call .horizontalFirst).Fails true ("cycle".toList ++ rest) :=
      fails_call.2 (fails_lit.2 (by simp))
    have hfails' : (call .verticalFirst).Fails true ("cycle".toList ++ rest) :=
      fails_call.2 (fails_lit.2 (by simp))
    rw [scan_pathOperator_of_not_line (by simp [PathOperator.written])]
    refine (scan_alt_of_fails hfails).trans ((scan_alt_of_fails hfails').trans ?_)
    refine (scan_token_iff rfl).2 ⟨"cycle".toList, [], rfl, ?_, rfl⟩
    exact yields_seq.2 ⟨[], rest, [], yields_lit.2 ⟨rfl, rfl⟩,
      yields_absent.2 ⟨fails_one.2 (hword rfl), rfl, rfl⟩, rfl⟩
  | relativeLine => exact absurd h (by decide)
  | incrementalLine => exact absurd h (by decide)

/-- A token is read from its own text in front of any other, unless a plus sign follows or a word
goes on. -/
theorem tokenAt_written (h : token.IsPlain)
    (hplus : Text.startsWith (· == '+') (Text.afterGap rest) = false)
    (hword : token = .operator .cycle → Text.startsWith isWordLetter rest = false) :
    TokenAt (token.written ++ rest) token rest := by
  cases h with
  | @coordinate expression h =>
    have htoken := tokenAt_coordinate h rest
    rwa [PathToken.written, List.cons_append, List.append_assoc, List.singleton_append]
  | operator h => exact tokenAt_operator h hplus fun ho ↦ hword (congrArg _ ho)
  | node h => exact tokenAt_node h rest

theorem PathToken.IsPlain.startsWith_isBlank (h : token.IsPlain) (rest : Text) :
    Text.startsWith isBlank (token.written ++ rest) = false := by
  cases h with
  | coordinate _ => rfl
  | @operator o _ => cases o <;> rfl
  | node _ => rfl

theorem PathToken.IsPlain.startsWith_plus (h : token.IsPlain) (rest : Text) :
    Text.startsWith (· == '+') (Text.afterGap (token.written ++ rest)) = false := by
  cases h with
  | coordinate _ => rfl
  | @operator o _ => cases o <;> rfl
  | node _ => rfl

theorem PathToken.IsPlain.exists_last (h : token.IsPlain) :
    ∃ t c, token.written = t ++ [c] ∧ isBlank c = false := by
  cases h with
  | @coordinate expression _ => exact ⟨'(' :: expression, ')', rfl, by decide⟩
  | @operator o _ =>
    have hne : o.written ≠ [] := by cases o <;> decide
    refine ⟨_, _, (List.dropLast_concat_getLast hne).symm, ?_⟩
    cases o <;> rfl
  | @node label _ =>
    refine ⟨"node ".toList ++ Style.inBrackets {} ++ ' ' :: '{' :: label, '}', ?_, by decide⟩
    rw [PathToken.written, InlineNode.print, Braces.enclose, List.append_assoc]
    rfl

end Token

/-! ### Rows of tokens as they are written -/

/-- A text in which plain tokens are written one after the other with blanks between them or none,
without a letter or digit right after the word that closes a path. -/
inductive Written : List PathToken → Text → Prop
  | blank {gap : Text} (hgap : gap.all isBlank) : Written [] gap
  | token {gap rest : Text} {token : PathToken} {tokens : List PathToken} (hgap : gap.all isBlank)
      (h : token.IsPlain)
      (hword : token = .operator .cycle → Text.startsWith isWordLetter rest = false)
      (more : Written tokens rest) : Written (token :: tokens) (gap ++ (token.written ++ rest))

namespace Text

variable {s t gap : Text} {accepts : Char → Bool}

theorem startsWith_afterGap_append (haccepts : ∀ c, isBlank c → accepts c = false)
    (hgap : gap.all isBlank) (hs : startsWith accepts (afterGap s) = false) :
    startsWith accepts (afterGap (gap ++ s)) = false := by
  induction gap with
  | nil => exact hs
  | cons c gap ih =>
    obtain ⟨hc, hgap⟩ := Bool.and_eq_true_iff.1 (List.all_cons.symm.trans hgap)
    by_cases hcgap : isGap c
    · rw [← List.singleton_append, List.append_assoc, afterGap_append (by simp [hcgap])]
      exact ih hgap
    · have hfirst : startsWith isGap (c :: (gap ++ s)) = false := by
        rw [startsWith_cons]
        exact Bool.eq_false_iff.2 hcgap
      rw [List.cons_append, afterGap_of_not hfirst]
      exact haccepts c hc

/-- Trimming at the end goes no further than to a character that is no blank. -/
theorem trimEnd_append_of_last {c : Char} (h : s = t ++ [c]) (hc : isBlank c = false)
    (rest : Text) : trimEnd (s ++ rest) = s ++ trimEnd rest := by
  have hend : startsWith isBlank s.reverse = false := by
    rw [h, List.reverse_append, List.reverse_singleton, List.singleton_append, startsWith_cons, hc]
  rw [trimEnd, List.reverse_append, List.dropWhile_append, dropWhile_of_not hend, trimEnd]
  split
  · rename_i hempty
    rw [List.isEmpty_iff.1 hempty, List.reverse_reverse, List.reverse_nil, List.append_nil]
  · rw [List.reverse_append, List.reverse_reverse]

end Text

namespace Written

variable {token : PathToken} {tokens : List PathToken} {s rest gap : Text}

theorem cons (h : token.IsPlain)
    (hword : token = .operator .cycle → Text.startsWith isWordLetter rest = false)
    (more : Written tokens rest) : Written (token :: tokens) (token.written ++ rest) :=
  @Written.token [] rest token tokens rfl h hword more

theorem prepend (h : Written tokens s) (hgap : gap.all isBlank) : Written tokens (gap ++ s) := by
  have happend {gap' : Text} (hgap' : gap'.all isBlank) : (gap ++ gap').all isBlank := by
    rw [List.all_append, hgap, hgap']
    rfl
  cases h with
  | blank hgap' => exact .blank (happend hgap')
  | token hgap' hplain hword more =>
    rw [← List.append_assoc]
    exact .token (happend hgap') hplain hword more

/-- Behind blanks a row of tokens does not go on with a plus sign. -/
theorem startsWith_plus (h : Written tokens s) :
    Text.startsWith (· == '+') (Text.afterGap s) = false := by
  have hblank : ∀ c, isBlank c → (c == '+') = false := by
    intro c hc
    rw [beq_eq_false_iff_ne]
    rintro rfl
    exact absurd hc (by decide)
  cases h with
  | blank hgap =>
    rw [← List.append_nil s]
    exact startsWith_afterGap_append hblank hgap rfl
  | token hgap hplain _ _ =>
    exact startsWith_afterGap_append hblank hgap (hplain.startsWith_plus _)

/-- The tokens of a text are the ones that are written in it. -/
theorem exists_row (h : Written tokens s) : ∃ row last, Row s row last ∧ trimStart last = [] ∧
    row.map PlacedToken.token = tokens := by
  induction h with
  | @blank gap hgap =>
    refine ⟨[], gap, .stop, ?_, rfl⟩
    rw [← List.append_nil gap]
    exact trimStart_append hgap rfl
  | token hgap hplain hword more ih =>
    obtain ⟨row, last, hrow, hlast, rfl⟩ := ih
    have htoken := tokenAt_written hplain more.startsWith_plus hword
    exact ⟨_ :: row, last, .token hgap htoken hrow, hlast, rfl⟩

theorem trimStart (h : Written tokens s) : Written tokens (trimStart s) := by
  cases h with
  | blank hgap =>
    rw [← List.append_nil s, trimStart_append hgap rfl]
    exact .blank rfl
  | token hgap hplain hword more =>
    rw [trimStart_append hgap (hplain.startsWith_isBlank _)]
    exact .cons hplain hword more

theorem trimEnd (h : Written tokens s) : Written tokens (trimEnd s) := by
  induction h with
  | @blank gap hgap =>
    have hnil : Text.trimEnd gap = [] := trimEnd_append (s := []) hgap
    rw [hnil]
    exact .blank rfl
  | @token gap rest token tokens hgap hplain hword more ih =>
    obtain ⟨t, c, hlast, hc⟩ := hplain.exists_last
    have hlast' : gap ++ token.written = gap ++ t ++ [c] := by rw [hlast, List.append_assoc]
    rw [← List.append_assoc, trimEnd_append_of_last hlast' hc, List.append_assoc]
    exact .token hgap hplain (fun hcycle ↦ startsWith_trimEnd (hword hcycle)) ih

theorem trim (h : Written tokens s) : Written tokens (trim s) := h.trimStart.trimEnd

end Written

end DiagramMacros
