import DiagramMacros.Proofs.Path.Pen
import DiagramMacros.Proofs.Path.Tokens
/-!
Reading a path body in passes, and the row of its tokens. A pass at a token takes it
(`run_token`), and a pass at any other text changes nothing (`run_stuck`). So the passes take the
first tokens of the row, as many as there are passes, and where they end the body is either used up
or rejected (`read_eq`).

In terms of the whole row, which has no bound on its length, reading gives the segments of the row
if it has at most a hundred tokens, the first failure among the first hundred, and otherwise the
place where the passes end (`read_agrees_with_row`). A body is rejected for a lack of progress not
only at a text that is no token but also after a hundred tokens (`read_eq_stuckPath_iff`,
`long_row_is_stuck`).
-/

set_option autoImplicit false
set_option relaxedAutoImplicit false

namespace DiagramMacros

open Text

namespace PathScan

variable {scope : Scope} {done gap s text rest last : Text} {pen : Pen}
  {segments : List (Segment Float)} {token : PathToken} {row : List PlacedToken} {n : Nat}

/-! ### Passes -/

theorem skipBlanks_eq (hgap : gap.all isBlank) (hs : startsWith isBlank s = false) :
    skipBlanks (done ++ (gap ++ s)) ⟨size done, pen, segments⟩ =
      ⟨size (done ++ gap), pen, segments⟩ := by
  have hsize : size done + (size (gap ++ s) - size s) = size (done ++ gap) := by
    rw [size_append, size_append]
    omega
  rw [skipBlanks]
  simp only [dropBytes_append, trimStart_append hgap hs, hsize]

/-- The cursor is at the end of the body just when nothing is after it. -/
theorem size_le_iff : size (done ++ (gap ++ s)) ≤ size (done ++ gap) ↔ s = [] := by
  rw [← size_eq_zero_iff, size_append, size_append, size_append]
  omega

/-- A pass at a token. -/
theorem run_token (hgap : gap.all isBlank) (htoken : TokenAt (text ++ rest) token rest) :
    run (done ++ (gap ++ (text ++ rest))) scope (n + 1) ⟨size done, pen, segments⟩ =
      pen.step scope token >>= fun r ↦ run (done ++ (gap ++ (text ++ rest))) scope n
        ⟨size (done ++ (gap ++ text)), r.2, segments ++ [r.1]⟩ := by
  have hne : text ++ rest ≠ [] := by
    obtain ⟨c, t, heq, _⟩ := htoken.exists_text
    rw [heq]
    simp
  have hdrop : (done ++ (gap ++ (text ++ rest))).dropBytes (size (done ++ gap)) = text ++ rest := by
    rw [← List.append_assoc]
    exact dropBytes_append _ _
  have hsize : size (done ++ gap) + (size (text ++ rest) - size rest) =
      size (done ++ (gap ++ text)) := by
    simp only [size_append]
    omega
  rw [run]
  simp only [skipBlanks_eq hgap htoken.startsWith_isBlank, size_le_iff, hne, if_false, step, hdrop,
    read?_eq_some_iff.2 htoken, hsize, bind_assoc, pure_bind]

/-- The passes that are left where there is nothing but blanks. -/
theorem run_blank (hgap : gap.all isBlank) :
    run (done ++ gap) scope n ⟨size done, pen, segments⟩ = .ok segments := by
  have hskip := @skipBlanks_eq done gap [] pen segments hgap rfl
  have hend := (@size_le_iff done gap []).2 rfl
  rw [List.append_nil] at hskip hend
  cases n with
  | zero => simp only [run, hskip, if_pos hend, pure, Except.pure]
  | succ n => simp only [run, hskip, if_pos hend, pure, Except.pure]

/-- The passes that are left at a text that is no token, or no pass at any text: nothing changes. -/
theorem run_stuck (hgap : gap.all isBlank) (hs : startsWith isBlank s = false) (hne : s ≠ [])
    (hlast : n = 0 ∨ NoToken s) :
    run (done ++ (gap ++ s)) scope n ⟨size done, pen, segments⟩ =
      .error (.stuckPath (size (done ++ gap))) := by
  induction n generalizing done gap with
  | zero => simp only [run, skipBlanks_eq hgap hs, size_le_iff, hne, if_false]
  | succ n ih =>
    have hno : NoToken s := hlast.resolve_left (Nat.succ_ne_zero n)
    have hdrop : (done ++ (gap ++ s)).dropBytes (size (done ++ gap)) = s := by
      rw [← List.append_assoc]
      exact dropBytes_append _ _
    have hmore := @ih (done ++ gap) [] rfl (Or.inr hno)
    rw [List.nil_append, List.append_nil, List.append_assoc] at hmore
    rw [run]
    simp only [skipBlanks_eq hgap hs, size_le_iff, hne, if_false, step, hdrop,
      read?_eq_none_iff.2 hno, pure_bind, hmore]

/-- As many passes as a row has tokens take the row, up to the first token that fails. -/
theorem run_row (h : Row s row last) :
    run (done ++ s) scope (row.length + n) ⟨size done, pen, segments⟩ =
      Pen.trace scope pen (row.map PlacedToken.token) >>= fun r ↦ run (done ++ s) scope n
        ⟨size (done ++ row.flatMap fun w ↦ w.gap ++ w.text), r.2, segments ++ r.1⟩ := by
  induction h generalizing done pen segments with
  | stop =>
    rw [List.map_nil, Pen.trace, List.flatMap_nil, List.length_nil, Nat.zero_add, List.append_nil]
    show _ = run _ scope n ⟨size done, pen, segments ++ []⟩
    rw [List.append_nil]
  | @token gap text rest last token row hgap htoken _ ih =>
    have hbody : done ++ (gap ++ (text ++ rest)) = done ++ (gap ++ text) ++ rest := by simp
    rw [List.length_cons, Nat.add_right_comm, run_token hgap htoken, List.map_cons, Pen.trace,
      bind_assoc]
    refine bind_congr fun r ↦ ?_
    rw [hbody, ih, bind_assoc]
    refine bind_congr fun more ↦ ?_
    simp only [pure_bind, List.flatMap_cons, List.append_assoc, List.singleton_append]

/-- Where the passes end the body is used up, or reading is stuck. -/
theorem run_last (h : n = 0 ∨ NoToken (trimStart s)) :
    run (done ++ s) scope n ⟨size done, pen, segments⟩ =
      if trimStart s = [] then .ok segments
      else .error (.stuckPath (size (done ++ s) - size (trimStart s))) := by
  obtain ⟨gap, hgap, hs⟩ := exists_gap_trimStart s
  by_cases hnil : trimStart s = []
  · rw [hnil, List.append_nil] at hs
    rw [if_pos hnil, hs, run_blank hgap]
  · have hstart : startsWith isBlank (trimStart s) = false := startsWith_dropWhile isBlank s
    have hrun := @run_stuck scope done gap (trimStart s) pen segments n hgap hstart hnil h
    rw [← hs] at hrun
    have hsize : size (done ++ s) - size (trimStart s) = size (done ++ gap) := by
      rw [hs, trimStart_append hgap hstart]
      simp only [size_append]
      omega
    rw [if_neg hnil, hrun, hsize]

end PathScan

namespace DrawnPath

variable {style : Style} {body : Text} {scope : Scope} {last : Text} {row : List PlacedToken}
  {failure : Failure} {segments : List (Segment Float)} {pen : Pen}

/-! ### The row of a body -/

/-- The tokens of a body that there are passes for: all of its row, or the first hundred tokens of
it. -/
structure IsRead (body : Text) (row : List PlacedToken) (last : Text) : Prop where
  isRow : Row body row last
  length_le : row.length ≤ 100
  ends : row.length = 100 ∨ NoToken (trimStart last)

/-- What reading a body gives, in terms of the tokens that there are passes for. -/
theorem read_eq (h : IsRead body row last) :
    read style body scope = Pen.trace scope {} (row.map PlacedToken.token) >>= fun r ↦
      if trimStart last = [] then .ok ⟨style, r.1⟩
      else .error (.stuckPath (size body - size (trimStart last))) := by
  have hpasses : row.length + (100 - row.length) = 100 :=
    Nat.add_sub_cancel' h.length_le
  have hends : 100 - row.length = 0 ∨ NoToken (trimStart last) :=
    h.ends.imp_left fun heq ↦ by rw [heq, Nat.sub_self]
  have hrow := @PathScan.run_row scope [] body last {} [] row (100 - row.length) h.isRow
  rw [hpasses] at hrow
  rw [read]
  show PathScan.run ([] ++ body) scope 100 ⟨size [], {}, []⟩ >>= _ = _
  rw [hrow, bind_assoc]
  refine bind_congr fun r ↦ ?_
  have hbody : ([] : Text) ++ body = (row.flatMap fun w ↦ w.gap ++ w.text) ++ last :=
    h.isRow.flatten
  rw [hbody]
  show PathScan.run _ scope _ ⟨size (row.flatMap fun w ↦ w.gap ++ w.text), r.2, r.1⟩ >>= _ = _
  rw [PathScan.run_last hends, ← h.isRow.flatten]
  split <;> rfl

theorem isRead_take (h : Row body row last) (hlast : NoToken (trimStart last)) :
    ∃ left, IsRead body (row.take 100) left ∧ Row left (row.drop 100) last := by
  by_cases hle : row.length ≤ 100
  · rw [List.take_of_length_le hle, List.drop_of_length_le hle]
    exact ⟨last, ⟨h, hle, Or.inr hlast⟩, Row.stop⟩
  · rw [← List.take_append_drop 100 row, row_append_iff] at h
    obtain ⟨left, hrow, hmore⟩ := h
    have hlength : (row.take 100).length = 100 := by
      rw [List.length_take]
      omega
    exact ⟨left, ⟨hrow, Nat.le_of_eq hlength, Or.inl hlength⟩, hmore⟩

theorem exists_isRead (body : Text) : ∃ row last, IsRead body row last := by
  obtain ⟨row, last, hrow, hlast⟩ := exists_row body
  obtain ⟨left, hread, _⟩ := isRead_take hrow hlast
  exact ⟨_, left, hread⟩

/-- A coordinate that there is a pass for fails as the whole body does, if nothing before it fails.
-/
theorem read_eq_error_of_resolve {w : PlacedToken} {expression : Text}
    (h : Row body (row ++ [w]) last) (hlength : row.length < 100)
    (htrace : Pen.trace scope {} (row.map PlacedToken.token) = .ok (segments, pen))
    (hw : w.token = .coordinate expression)
    (hresolve : pen.resolve scope expression = .error failure) :
    read style body scope = .error failure := by
  have hfail : Pen.trace scope {} ((row ++ [w]).map PlacedToken.token) = .error failure := by
    rw [List.map_append, List.map_singleton, hw]
    exact Pen.trace_eq_error_iff.2 ⟨_, expression, [], segments, pen, rfl, htrace, hresolve⟩
  have hpasses : (row ++ [w]).length + (100 - (row ++ [w]).length) = 100 := by
    rw [List.length_append, List.length_singleton]
    omega
  have hrow := @PathScan.run_row scope [] body last {} [] (row ++ [w])
    (100 - (row ++ [w]).length) h
  rw [hpasses, hfail] at hrow
  rw [read]
  show PathScan.run ([] ++ body) scope 100 ⟨size [], {}, []⟩ >>= _ = _
  rw [hrow]
  rfl

/-- What reading a body gives, in terms of its whole row. -/
structure AgreesWithRow (style : Style) (body : Text) (scope : Scope) (row : List PlacedToken)
    (last : Text) : Prop where
  /-- Nothing of the body is skipped but blanks, and nothing is taken twice. -/
  layout : body = (row.flatMap fun w ↦ w.gap ++ w.text) ++ last ∧ ∀ w ∈ row, w.gap.all isBlank
  /-- A row of at most a hundred tokens that uses up the body and has no failure in it becomes its
  segments. -/
  complete : trimStart last = [] → row.length ≤ 100 → ∀ segments pen,
    Pen.trace scope {} (row.map PlacedToken.token) = .ok (segments, pen) →
      read style body scope = .ok ⟨style, segments⟩ ∧
        List.Forall₂ StandsFor (row.map PlacedToken.token) segments
  /-- The first coordinate that fails, if it is among the first hundred tokens, is the failure of the
  body. -/
  failed : ∀ before w after segments pen expression failure,
    row.take 100 = before ++ w :: after →
    Pen.trace scope {} (before.map PlacedToken.token) = .ok (segments, pen) →
    w.token = .coordinate expression → pen.resolve scope expression = .error failure →
      read style body scope = .error failure
  /-- Otherwise reading is stuck after the first hundred tokens, or all of them if there are fewer,
  and the blanks after them. -/
  stuck : ¬ (trimStart last = [] ∧ row.length ≤ 100) → ∀ segments pen,
    Pen.trace scope {} ((row.take 100).map PlacedToken.token) = .ok (segments, pen) →
      ∃ passed left, Row body (row.take 100) left ∧ body = passed ++ trimStart left ∧
        read style body scope = .error (.stuckPath (size passed))

theorem agreesWithRow (style : Style) (scope : Scope) (h : Row body row last)
    (hlast : NoToken (trimStart last)) : AgreesWithRow style body scope row last := by
  refine ⟨⟨h.flatten, h.gap_blank⟩, fun hnil hle segments pen htrace ↦ ?_, ?_,
    fun hnot segments pen htrace ↦ ?_⟩
  · rw [read_eq ⟨h, hle, Or.inr hlast⟩, htrace]
    exact ⟨if_pos hnil, Pen.forall₂_standsFor htrace⟩
  · intro before w after segments pen expression failure htake htrace hw hresolve
    obtain ⟨left, hread, _⟩ := isRead_take h hlast
    have hrow := hread.isRow
    have hlength := hread.length_le
    rw [htake, List.append_cons, row_append_iff] at hrow
    obtain ⟨mid, hbefore, _⟩ := hrow
    rw [htake, List.length_append, List.length_cons] at hlength
    exact read_eq_error_of_resolve hbefore (by omega) htrace hw hresolve
  · obtain ⟨left, hread, hmore⟩ := isRead_take h hlast
    obtain ⟨gap, hgap, hleft⟩ := exists_gap_trimStart left
    have hbody : body = ((row.take 100).flatMap fun w ↦ w.gap ++ w.text) ++ gap ++
        trimStart left := by
      rw [List.append_assoc, ← hleft]
      exact hread.isRow.flatten
    refine ⟨_, left, hread.isRow, hbody, ?_⟩
    -- With nothing left after the passes the row would have ended there.
    have hne : trimStart left ≠ [] := by
      intro hnil
      cases hdrop : row.drop 100 with
      | nil =>
        rw [hdrop, row_nil_iff] at hmore
        rw [hmore] at hnil
        exact hnot ⟨hnil, List.drop_eq_nil_iff.1 hdrop⟩
      | cons w more =>
        rw [hdrop] at hmore
        exact hmore.not_noToken (hnil ▸ noToken_nil)
    have hsize : size body - size (trimStart left) =
        size (((row.take 100).flatMap fun w ↦ w.gap ++ w.text) ++ gap) := by
      conv_lhs => rw [hbody]
      rw [size_append]
      omega
    rw [read_eq hread, htrace, ← hsize]
    exact if_neg hne

/-- Every body has one row of tokens that cannot be continued, of whatever length, and reading the
body agrees with it. -/
theorem read_agrees_with_row (style : Style) (body : Text) (scope : Scope) :
    ∃ row last, Row body row last ∧ NoToken (trimStart last) ∧
      (∀ row' last', Row body row' last' → NoToken (trimStart last') →
        row' = row ∧ last' = last) ∧
      AgreesWithRow style body scope row last := by
  obtain ⟨row, last, hrow, hlast⟩ := exists_row body
  exact ⟨row, last, hrow, hlast, fun row' last' hrow' hlast' ↦ hrow'.unique hlast' hrow hlast,
    agreesWithRow style scope hrow hlast⟩

/-- Blanks before, between and after three tokens. -/
theorem read_agrees_with_row_cycle :
    let scope : Scope := ⟨[("A".toList, Point.ofVec ⟨1, 2⟩)]⟩
    let body : Text := " (A)\t--cycle\n".toList
    ∃ row last, Row body row last ∧
      row.map PlacedToken.text = ["(A)".toList, "--".toList, "cycle".toList] ∧
      AgreesWithRow {} body scope row last ∧
      read {} body scope =
        .ok ⟨{}, [.point (Point.ofVec ⟨1, 2⟩), .operator .line, .operator .cycle]⟩ := by
  intro scope body
  have hpoint : TokenAt ("(A)".toList ++ "\t--cycle\n".toList) (.coordinate "A".toList)
      "\t--cycle\n".toList :=
    @TokenAt.coordinate _ (.text "(" (.text [] (.node .parenBody (.text "A" .nil)
      (.text [] (.text ")" .nil))))) _ (by decide +kernel)
  have hline : TokenAt ("--".toList ++ "cycle\n".toList) (.operator .line) "cycle\n".toList :=
    @TokenAt.operator _ .lineTo _ (.text "--" .nil) _ (by decide +kernel) rfl
  have hcycle : TokenAt ("cycle".toList ++ "\n".toList) (.operator .cycle) "\n".toList :=
    @TokenAt.operator _ .cycle _ (.text "cycle" .nil) _ (by decide +kernel) rfl
  have hrow : Row body _ "\n".toList :=
    @Row.token " ".toList _ _ _ _ _ rfl hpoint
      (@Row.token "\t".toList _ _ _ _ _ rfl hline (@Row.token [] _ _ _ _ _ rfl hcycle Row.stop))
  obtain ⟨row, last, _, _, hunique, hagrees⟩ := read_agrees_with_row {} body scope
  obtain ⟨rfl, rfl⟩ := hunique _ _ hrow noToken_nil
  have hexpression : Expression.read? (trim "A".toList) = some (.name "A".toList) := by
    decide +kernel
  have hresolve : scope.resolve "A".toList = .ok (Point.ofVec ⟨1, 2⟩) := by
    rw [Scope.resolve, hexpression]
    rfl
  have htrace : Pen.trace scope {} [.coordinate "A".toList, .operator .line, .operator .cycle] =
      .ok ([.point (Point.ofVec ⟨1, 2⟩), .operator .line, .operator .cycle],
        ⟨some (Point.ofVec ⟨1, 2⟩), none⟩) := by
    rw [Pen.trace, Pen.step, Pen.resolve, hresolve]
    rfl
  exact ⟨_, _, hrow, rfl, hagrees, (hagrees.complete rfl (by decide) _ _ htrace).1⟩

/-! ### Where reading is stuck -/

/-- Reading is stuck where the tokens that there are passes for end, if nothing before it fails and
the body goes on. -/
theorem read_eq_stuckPath_iff {offset : Nat} :
    read style body scope = .error (.stuckPath offset) ↔
      ∃ row last segments pen, IsRead body row last ∧
        Pen.trace scope {} (row.map PlacedToken.token) = .ok (segments, pen) ∧
        trimStart last ≠ [] ∧ offset = size body - size (trimStart last) := by
  constructor
  · intro h
    obtain ⟨row, last, hread⟩ := exists_isRead body
    rw [read_eq hread] at h
    rcases bind_eq_error_iff.1 h with htrace | ⟨⟨segments, pen⟩, htrace, hend⟩
    · obtain ⟨_, _, _, _, _, _, _, hresolve⟩ := Pen.trace_eq_error_iff.1 htrace
      exact absurd hresolve Pen.resolve_ne_stuckPath
    · split at hend
      · simp at hend
      · rename_i hne
        simp only [Except.error.injEq, Failure.stuckPath.injEq] at hend
        exact ⟨row, last, segments, pen, hread, htrace, hne, hend.symm⟩
  · rintro ⟨row, last, segments, pen, hread, htrace, hne, rfl⟩
    rw [read_eq hread, htrace]
    exact if_neg hne

/-- Where reading is stuck the body goes on with something other than blanks, and either this is no
token or there have been a hundred tokens. A body of at most a hundred tokens is not rejected, if
its coordinates can be resolved. -/
theorem stuck_at_no_token_or_last_pass (style : Style) (body : Text) (scope : Scope) :
    (∀ offset, read style body scope = .error (.stuckPath offset) →
      ∃ passed rest, body = passed ++ rest ∧ size passed = offset ∧ rest ≠ [] ∧
        startsWith isBlank rest = false ∧
        (NoToken rest ∨
          ∃ row last, Row body row last ∧ row.length = 100 ∧ trimStart last = rest)) ∧
    ∀ row last segments pen, Row body row last → trimStart last = [] → row.length ≤ 100 →
      Pen.trace scope {} (row.map PlacedToken.token) = .ok (segments, pen) →
        read style body scope = .ok ⟨style, segments⟩ := by
  constructor
  · intro offset h
    obtain ⟨row, last, segments, pen, hread, htrace, hne, rfl⟩ := read_eq_stuckPath_iff.1 h
    obtain ⟨gap, hgap, hlast⟩ := exists_gap_trimStart last
    have hbody : body = (row.flatMap fun w ↦ w.gap ++ w.text) ++ gap ++ trimStart last := by
      rw [List.append_assoc, ← hlast]
      exact hread.isRow.flatten
    refine ⟨_, trimStart last, hbody, ?_, hne, startsWith_dropWhile isBlank last, ?_⟩
    · have hsize := congrArg size hbody
      rw [size_append] at hsize
      omega
    · exact hread.ends.symm.imp_right fun hlength ↦ ⟨row, last, hread.isRow, hlength, rfl⟩
  · intro row last segments pen hrow hnil hle htrace
    rw [read_eq ⟨hrow, hle, Or.inr (hnil ▸ noToken_nil)⟩, htrace]
    exact if_pos hnil

/-- A text after a point that is no token. -/
theorem stuck_at_no_token_or_last_pass_question :
    let scope : Scope := ⟨[("A".toList, Point.ofVec ⟨1, 2⟩)]⟩
    read {} "(A) ??".toList scope = .error (.stuckPath 4) ∧
      (NoToken "??".toList ∨ ∃ row last, Row "(A) ??".toList row last ∧ row.length = 100 ∧
        trimStart last = "??".toList) := by
  intro scope
  have hstuck : (read {} "(A) ??".toList scope).map (fun _ ↦ 0) = .error (.stuckPath 4) := by
    decide +kernel
  have hread := map_eq_error_iff.1 hstuck
  obtain ⟨passed, rest, hbody, hsize, _, _, hends⟩ :=
    (stuck_at_no_token_or_last_pass {} "(A) ??".toList scope).1 4 hread
  have hrest : rest = "??".toList := by
    rw [← dropBytes_append passed rest, ← hbody, hsize]
    rfl
  rw [hrest] at hends
  exact ⟨hread, hends⟩

/-- A path of 51 points with a line between each two of them: 101 tokens. -/
def longBody : Text := (List.replicate 50 "(A)--".toList).flatten ++ "(A)".toList

/-- The last of 101 tokens is a token, and still reading is stuck there. -/
theorem long_row_is_stuck :
    let scope : Scope := ⟨[("A".toList, Point.ofVec ⟨1, 2⟩)]⟩
    read {} longBody scope = .error (.stuckPath 250) ∧ longBody.dropBytes 250 = "(A)".toList ∧
      TokenAt (longBody.dropBytes 250) (.coordinate "A".toList) [] ∧
      ¬ ∀ style body scope offset, read style body scope = .error (.stuckPath offset) →
        NoToken (body.dropBytes offset) := by
  intro scope
  have hstuck : (read {} longBody scope).map (fun _ ↦ 0) = .error (.stuckPath 250) := by
    decide +kernel
  have hrest : longBody.dropBytes 250 = "(A)".toList := by decide +kernel
  have htoken : TokenAt (longBody.dropBytes 250) (.coordinate "A".toList) [] := by
    rw [hrest]
    exact @TokenAt.coordinate _ (.text "(" (.text [] (.node .parenBody (.text "A" .nil)
      (.text [] (.text ")" .nil))))) _ (by decide +kernel)
  have hread := map_eq_error_iff.1 hstuck
  exact ⟨hread, hrest, htoken, fun hclaim ↦ htoken.not_noToken (hclaim _ _ _ _ hread)⟩

end DrawnPath

end DiagramMacros
