import DiagramMacros.Proofs.Document.Arguments
import DiagramMacros.Proofs.Document.EarlierDefinitions
import DiagramMacros.Proofs.Lexing.Walk
/-!
Which failure of a source is reported. Where the source cannot be cut into lexemes, nothing is built
and the failure is that of the search for calls. Otherwise it is that of the first call that is not
built in the scope of the definitions before it (`reports_first_failure`), which is found by
induction along the lexemes: as long as none has failed, those that are built leave the scope of
their definitions.
-/

set_option autoImplicit false
set_option relaxedAutoImplicit false

namespace DiagramMacros

open Text

/-- The report on the call at this place among lexemes, which is not built in the scope of the
definitions before it. -/
inductive FailsAt (ls : List PlacedLexeme) (i : Nat) : Report → Prop
  | intro {k : Keyword} {tree : Forest Rule} {span : Span} {defs : List Definition}
      {failure : Failure} (hl : ls[i]? = some ⟨.call k tree, span⟩)
      (hdefs : definitionsOf ((ls.take i).map PlacedLexeme.lexeme) = .ok defs)
      (hbuild : (Scope.ofDefinitions defs).buildLexeme (.call k tree) = .error failure) :
      FailsAt ls i ⟨failure, span⟩

/-- The report on the first call that is not built. -/
structure FailsFirstAt (ls : List PlacedLexeme) (i : Nat) (report : Report) : Prop where
  fails : FailsAt ls i report
  first : ∀ j, j < i → ∀ report, ¬ FailsAt ls j report

section Run

variable {scope : Scope} {ls before after : List PlacedLexeme} {tokens : List Token} {i j : Nat}
  {report report' : Report}

/-- Where building ends with a failure everything before has been built. -/
theorem exists_built_of_buildAll (h : buildAll scope ls = .error report) :
    ∃ before l after tokens mid, ls = before ++ l :: after ∧ Built scope before tokens mid ∧
      mid.buildLexeme l.lexeme = .error report.failure ∧ report.span = l.span := by
  induction ls generalizing scope with
  | nil => simp [buildAll] at h
  | cons l ls ih =>
    rw [buildAll] at h
    cases hbuild : scope.buildLexeme l.lexeme with
    | error failure =>
      rw [hbuild] at h
      obtain rfl := Except.error.inj h
      exact ⟨[], l, ls, [], scope, rfl, Built.nil, hbuild, rfl⟩
    | ok built =>
      rw [hbuild] at h
      obtain ⟨before, l', after, tokens, mid, rfl, hbuilt, hfailure, hspan⟩ :=
        ih (map_eq_error_iff.1 h)
      exact ⟨l :: before, l', after, built.1 :: tokens, mid, rfl, Built.cons hbuild hbuilt,
        hfailure, hspan⟩

theorem FailsAt.unique (h : FailsAt ls i report) (h' : FailsAt ls i report') :
    report = report' := by
  obtain ⟨hl, hdefs, hbuild⟩ := h
  obtain ⟨hl', hdefs', hbuild'⟩ := h'
  rw [hl] at hl'
  obtain ⟨⟨rfl, rfl⟩, rfl⟩ : (_ ∧ _) ∧ _ := by simpa using hl'
  obtain rfl := Except.ok.inj (hdefs.symm.trans hdefs')
  obtain rfl := Except.error.inj (hbuild.symm.trans hbuild')
  rfl

/-- What comes after a call makes no difference to it. -/
theorem failsAt_append_iff (hi : i < before.length) :
    FailsAt (before ++ after) i report ↔ FailsAt before i report := by
  have hget : (before ++ after)[i]? = before[i]? := List.getElem?_append_left hi
  have htake : (before ++ after).take i = before.take i := List.take_append_of_le_length hi.le
  constructor
  · rintro ⟨hl, hdefs, hbuild⟩
    exact ⟨hget ▸ hl, htake ▸ hdefs, hbuild⟩
  · rintro ⟨hl, hdefs, hbuild⟩
    exact ⟨hget.trans hl, by rwa [htake], hbuild⟩

/-- Among lexemes that have been built none fails. -/
theorem Built.not_failsAt (h : Built {} ls tokens scope) : ¬ FailsAt ls i report := by
  rintro ⟨hl, hdefs, hbuild⟩
  obtain ⟨mid, hfirst, hlast⟩ := h.take i
  obtain ⟨defs, hdefs', rfl⟩ := hfirst.exists_definitions [] rfl
  obtain rfl := Except.ok.inj (hdefs.symm.trans hdefs')
  rw [← List.head?_drop] at hl
  generalize ls.drop i = rest at hl hlast
  generalize tokens.drop i = later at hlast
  cases hlast with
  | nil => simp at hl
  | cons hbuilt _ =>
    obtain rfl := Option.some.inj hl
    rw [hbuild] at hbuilt
    simp at hbuilt

theorem FailsFirstAt.unique (h : FailsFirstAt ls i report) (h' : FailsFirstAt ls j report') :
    report = report' := by
  obtain hlt | rfl | hlt := Nat.lt_trichotomy i j
  · exact absurd h.fails (h'.first i hlt report)
  · exact h.fails.unique h'.fails
  · exact absurd h'.fails (h.first j hlt report')

theorem exists_failsFirstAt (h : buildAll {} ls = .error report) :
    ∃ i, FailsFirstAt ls i report := by
  obtain ⟨before, l, after, tokens, mid, rfl, hbuilt, hfailure, hspan⟩ :=
    exists_built_of_buildAll h
  obtain ⟨defs, hdefs, rfl⟩ := hbuilt.exists_definitions [] rfl
  refine ⟨before.length, ?_, fun j hj report' hfails ↦ ?_⟩
  · have htake : (before ++ l :: after).take before.length = before := List.take_left
    obtain ⟨lexeme, span⟩ := l
    obtain ⟨failure, _⟩ := report
    cases lexeme with
    | raw text => simp [Scope.buildLexeme] at hfailure
    | call k tree =>
      obtain rfl := hspan
      exact ⟨by simp, by rwa [htake], hfailure⟩
  · exact hbuilt.not_failsAt ((failsAt_append_iff hj).1 hfails)

/-- Building fails just where a call fails, and with the report on the first such call. -/
theorem buildAll_eq_error_iff :
    buildAll {} ls = .error report ↔ ∃ i, FailsFirstAt ls i report := by
  refine ⟨exists_failsFirstAt, ?_⟩
  rintro ⟨i, hfirst⟩
  cases hbuild : buildAll {} ls with
  | error report' =>
    obtain ⟨j, hfirst'⟩ := exists_failsFirstAt hbuild
    rw [hfirst.unique hfirst']
  | ok r => exact absurd hfirst.fails (built_of_buildAll hbuild).not_failsAt

/-- Where a call fails there is a first one that does. -/
theorem FailsAt.exists_first (h : FailsAt ls i report) :
    ∃ report j, FailsFirstAt ls j report := by
  cases hbuild : buildAll {} ls with
  | error report' => exact ⟨report', exists_failsFirstAt hbuild⟩
  | ok r => exact absurd h (built_of_buildAll hbuild).not_failsAt

end Run

/-! ### Reports on sources -/

/-- A call at its stretch of a source, complete with all its arguments. The stretch is the text of
the call, and no failure to build it is for a lack of arguments: only a labelled coordinate with a
blank name is malformed. -/
structure IsWhole (source : Text) (k : Keyword) (tree : Forest Rule) (span : Span) : Prop where
  text : source.slice? span.start span.stop = some tree.flatten
  opening : tree.flatten.head? = some '\\'
  arguments : (Lexeme.call k tree).arguments.length = k.arity
  malformed : ∀ (scope : Scope) k', scope.buildLexeme (.call k tree) = .error (.malformedCall k') ↔
    k = .coor ∧ k' = .coor ∧
      ∃ name, (Lexeme.call k tree).arguments[1]? = some name ∧ trim name = []

theorem IsCall.head?_flatten {k : Keyword} {s rest : Text} {tree : Forest Rule}
    (h : IsCall k s tree rest) : tree.flatten.head? = some '\\' := by
  obtain ⟨t, hs⟩ := h.exists_backslash
  have hflatten := h.flatten
  have hsize := h.size_pos
  cases htext : tree.flatten with
  | nil =>
    rw [htext] at hflatten
    rw [hflatten] at hsize
    exact absurd hsize (Nat.lt_irrefl _)
  | cons c text =>
    rw [htext, hs] at hflatten
    rw [(List.cons.inj hflatten).1]
    rfl

theorem isWhole_of_mem {source : Text} {ls : List PlacedLexeme} (h : lexPlaced source = .ok ls)
    {k : Keyword} {tree : Forest Rule} {span : Span} (hmem : ⟨.call k tree, span⟩ ∈ ls) :
    IsWhole source k tree span := by
  obtain ⟨_, _, _, _, hcall, _⟩ := ((followsWalk_lexPlaced h).calls k tree span).1 hmem
  exact ⟨(isPartition_lexPlaced h).texts _ hmem, hcall.head?_flatten, hcall.length_arguments,
    fun _ _ ↦ hcall.malformedCall_iff⟩

/-- The first failure of a source is reported. If the source cannot be cut into lexemes, that is the
failure of the search for calls, whatever the calls before it would have made. Otherwise it is the
failure of the first call that is not built in the scope of the definitions before it, reported with
the stretch of that call, and without such a call there is a document. -/
theorem reports_first_failure (source : Text) :
    (∀ e, lexPlaced source = .error e →
      Document.ofSource source = .error ⟨.malformedCall e.keyword, e.span⟩) ∧
    ∀ ls, lexPlaced source = .ok ls →
      (∀ report, Document.ofSource source = .error report ↔ ∃ i, FailsFirstAt ls i report) ∧
      ((∃ report, Document.ofSource source = .error report) ↔ ∃ i report, FailsAt ls i report) ∧
      ∀ k tree span, ⟨.call k tree, span⟩ ∈ ls → IsWhole source k tree span := by
  refine ⟨fun e h ↦ by rw [Document.ofSource, h], fun ls h ↦ ?_⟩
  have hbuild : ∀ report, Document.ofSource source = .error report ↔
      buildAll {} ls = .error report := by
    intro report
    rw [Document.ofSource, h]
    exact map_eq_error_iff
  refine ⟨fun report ↦ (hbuild report).trans buildAll_eq_error_iff, ?_,
    fun _ _ _ hmem ↦ isWhole_of_mem h hmem⟩
  simp only [hbuild, buildAll_eq_error_iff]
  constructor
  · rintro ⟨report, i, hfirst⟩
    exact ⟨i, report, hfirst.fails⟩
  · rintro ⟨i, report, hfails⟩
    exact hfails.exists_first

/-- Two calls that are not built, after one that is. -/
def failingSource : Text :=
  ("intro\n\\coor\x7b0,0\x7d\x7bA\x7d\x7b\x7d\x7b\x7d\n\\node\x7bQ\x7d\x7bx\x7d\x7b\x7d" ++
    "\\coor\x7b0,0\x7d\x7b \x7d\x7b\x7d\x7b\x7d").toList

/-- A call that would not be built, before a reserved keyword that begins no call. -/
def refusedAfterSource : Text := "\\node\x7bQ\x7d\x7bx\x7d\x7b\x7d\\coor".toList

theorem reports_first_failure_node :
    (∃ ls i k tree, lexPlaced failingSource = .ok ls ∧
      FailsFirstAt ls i ⟨.unknownCoordinate "Q".toList, ⟨24, 37⟩⟩ ∧
      IsWhole failingSource k tree ⟨24, 37⟩) ∧
    lexPlaced refusedAfterSource = .error ⟨.coor, ⟨13, 18⟩⟩ ∧
      Document.ofSource refusedAfterSource = .error ⟨.malformedCall .coor, ⟨13, 18⟩⟩ := by
  have hrefused : lexPlaced refusedAfterSource = .error ⟨.coor, ⟨13, 18⟩⟩ := by decide +kernel
  refine ⟨?_, hrefused, (reports_first_failure refusedAfterSource).1 _ hrefused⟩
  obtain ⟨ls, hls⟩ := exists_of_isOk (show (lexPlaced failingSource).isOk by decide +kernel)
  obtain ⟨hfirst, -, hwhole⟩ := (reports_first_failure failingSource).2 ls hls
  have hreport : (Document.ofSource failingSource).map (fun _ ↦ ()) =
      .error ⟨.unknownCoordinate "Q".toList, ⟨24, 37⟩⟩ := by decide +kernel
  obtain ⟨i, hfails⟩ := (hfirst _).1 (map_eq_error_iff.1 hreport)
  obtain ⟨hl, _, _⟩ := hfails.fails
  exact ⟨ls, i, _, _, hls, hfails, hwhole _ _ _ (List.mem_of_getElem? hl)⟩

end DiagramMacros
