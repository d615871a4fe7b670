import DiagramMacros.Proofs.DecimalNumerals
import DiagramMacros.Proofs.Expression.Names
import DiagramMacros.Proofs.Path.Reading
import DiagramMacros.Proofs.Path.Writing
/-!
Reading a path that has been printed. A path that was read has no more segments than there are
passes, and its labels are texts of whole groups (`DrawnPath.length_le_and_isBalanced`). It is
printed one token after the other, and its printed body has just these tokens
(`Segment.written_flatMap_print`): a pair of numbers for a point, a plain line for a relative one,
and a node without options. No operator among them is relative, so the pen waits for nothing, and
each coordinate is the point of the numbers in it, in every scope (`Vec.IsDecimal.exists_resolve`).
So the printed body is read as the same segments (`Segment.exists_trace`,
`DrawnPath.read_printBody`).

Two conditions are on what was printed. Two cycles next to each other would be printed as one word
that closes nothing, and a number that is not finite is printed as a word that is read as no finite
number.
-/

set_option autoImplicit false
set_option relaxedAutoImplicit false

namespace DiagramMacros

open Peg Text

/-! ### The coordinate of a printed point -/

section Coordinate

variable {s t : Text}

theorem Peg.isBalanced_of_excluded {o c : Char} {excluded : Text}
    (h : s.all fun d ↦ !excluded.contains d) : IsBalanced o c excluded s := by
  induction s with
  | nil => exact .nil
  | cons d s ih =>
    obtain ⟨hd, hs⟩ := Bool.and_eq_true_iff.1 (List.all_cons.symm.trans h)
    exact .char (Bool.not_eq_true' _ ▸ hd) (ih hs)

/-- The text between the parentheses of a printed point. -/
def Vec.printPair (v : Vec Float) : Text := Numeral.print v.x ++ ',' :: Numeral.print v.y

theorem Vec.isBalanced_printPair (v : Vec Float) :
    IsBalanced '(' ')' ['(', ')'] v.printPair := by
  have hmarks (x : Float) : (Numeral.print x).all fun d ↦ !(['(', ')'] : Text).contains d := by
    refine List.all_eq_true.2 fun d hd ↦ ?_
    have hmark := List.all_eq_true.1 (Numeral.all_isMark_print x) d hd
    rw [contains_eq_false_of_all (by decide) hmark]
    rfl
  refine isBalanced_of_excluded ?_
  rw [printPair, List.all_append, List.all_cons, hmarks, hmarks]
  rfl

theorem isComponentLetter_of_isDecimalMark {c : Char} (h : isDecimalMark c) :
    isComponentLetter c := by
  rw [isComponentLetter, contains_eq_false_of_all (by decide) h]
  rfl

theorem isComponent_of_isDecimalMark (h : s.all isDecimalMark) (hne : s ≠ []) : IsComponent s := by
  obtain ⟨c, s, rfl⟩ := List.exists_cons_of_ne_nil hne
  have hall : ∀ d ∈ c :: s, isComponentLetter d := fun d hd ↦
    isComponentLetter_of_isDecimalMark (List.all_eq_true.1 h d hd)
  exact ⟨c, s, rfl, hall c List.mem_cons_self,
    List.all_eq_true.2 fun d hd ↦ hall d (List.mem_cons_of_mem c hd)⟩

theorem startsWith_isGap_of_isDecimalMark (h : s.all isDecimalMark) (rest : Text) (hne : s ≠ []) :
    startsWith isGap (s ++ rest) = false := by
  obtain ⟨c, s, rfl⟩ := List.exists_cons_of_ne_nil hne
  have hblank := Item.isBlank_of_isDecimalMark (List.all_eq_true.1 h c List.mem_cons_self)
  refine Bool.eq_false_iff.2 fun hgap ↦ ?_
  rw [isBlank_of_isGap hgap] at hblank
  exact Bool.noConfusion hblank

/-- Two decimal numerals with a comma between them are read as a pair. -/
theorem Expression.read?_of_isDecimalMark (hs : s.all isDecimalMark) (hsne : s ≠ [])
    (ht : t.all isDecimalMark) (htne : t ≠ []) :
    Expression.read? (s ++ ',' :: t) = some (.cartesian s t) := by
  have hpair : (call .cartesian).Yields true (s ++ ',' :: t) [.operand (.cartesian s t)] [] := by
    refine yields_cartesian.2 ⟨s, t, t, isComponent_of_isDecimalMark hs hsne, rfl,
      isComponent_of_isDecimalMark ht htne, ?_, rfl, rfl⟩
    have hgap := startsWith_isGap_of_isDecimalMark ht [] htne
    rw [List.append_nil] at hgap
    rw [List.append_nil, afterGap_of_not hgap]
  have hwhole : wholeForms.Yields true (s ++ ',' :: t) [.operand (.cartesian s t)] [] :=
    yields_alt.2 (Or.inl (yields_whole.2 ⟨[], hpair, rfl, rfl⟩))
  rw [← afterGap_of_not (startsWith_isGap_of_isDecimalMark hs _ hsne)] at hwhole
  exact read?_of_yields hwhole

end Coordinate

/-! ### Numbers and points that are read where they are printed -/

/-- The components of a vector are printed as decimal numerals. -/
def Vec.IsDecimal (v : Vec Float) : Prop :=
  (Numeral.print v.x).all isDecimalMark ∧ (Numeral.print v.y).all isDecimalMark

instance (v : Vec Float) : Decidable v.IsDecimal := inferInstanceAs (Decidable (_ ∧ _))

/-- The components of a vector are printed as decimal numerals, and as the same ones once they have
been read. -/
def Vec.IsStable (v : Vec Float) : Prop := Numeral.isStable v.x ∧ Numeral.isStable v.y

instance (v : Vec Float) : Decidable v.IsStable := inferInstanceAs (Decidable (_ ∧ _))

/-- A number and the one that is read where it is printed. -/
def Numeral.IsReread (x y : Float) : Prop :=
  (Numeral.read? (Numeral.print x)).map Numeral.toScalar = some y

section Numbers

variable {x y : Float} {v w : Vec Float}

theorem Numeral.print_ne_nil_of_isDecimalMark (h : (Numeral.print x).all isDecimalMark) :
    Numeral.print x ≠ [] := by
  obtain ⟨n, hn, -⟩ := Numeral.exists_read_print_decimal h
  exact Item.ne_nil_of_read? hn

theorem Scope.exists_readNumber_print (h : (Numeral.print x).all isDecimalMark) :
    ∃ y, Numeral.IsReread x y ∧ Scope.readNumber (Numeral.print x) = .ok y := by
  obtain ⟨n, hn, hfinite⟩ := Numeral.exists_read_print_decimal h
  refine ⟨Numeral.toScalar n, congrArg (Option.map Numeral.toScalar) hn, ?_⟩
  have hne := Numeral.print_ne_nil_of_isDecimalMark h
  have htrim := (Item.isTrimmed_of_isDecimalMark h hne).trim_eq
  rw [Scope.readNumber, htrim, hn]
  exact if_pos hfinite

theorem Numeral.IsReread.print_eq (h : Numeral.IsReread x y) (hstable : Numeral.isStable x) :
    Numeral.print y = Numeral.print x := by
  obtain ⟨n, hn, hsame, -⟩ := Item.exists_read_print hstable
  rw [IsReread, hn] at h
  obtain rfl := Option.some.inj h
  exact hsame

/-- A vector and the one that is read where it is printed. -/
def Vec.IsReread (v w : Vec Float) : Prop := Numeral.IsReread v.x w.x ∧ Numeral.IsReread v.y w.y

theorem Vec.IsReread.print_eq (h : v.IsReread w) (hstable : v.IsStable) : w.print = v.print := by
  rw [Vec.print, h.1.print_eq hstable.1, h.2.print_eq hstable.2]
  rfl

theorem Vec.IsDecimal.isTrimmed_printPair (h : v.IsDecimal) : IsTrimmed v.printPair := by
  have hblank {s : Text} (hs : s.all isDecimalMark) : ∀ c ∈ s, isBlank c = false := fun c hc ↦
    Item.isBlank_of_isDecimalMark (List.all_eq_true.1 hs c hc)
  refine isTrimmed_of_isWord ⟨by simp [Vec.printPair], ?_⟩
  rw [Vec.printPair, List.forall_mem_append, List.forall_mem_cons]
  exact ⟨hblank h.1, by decide, hblank h.2⟩

/-- The coordinate of a printed point is read in every scope as the point of the numbers in it. -/
theorem Vec.IsDecimal.exists_resolve (h : v.IsDecimal) :
    ∃ w, v.IsReread w ∧ ∀ scope : Scope, scope.resolve v.printPair = .ok (Point.ofVec w) := by
  obtain ⟨x, hx, hreadx⟩ := Scope.exists_readNumber_print h.1
  obtain ⟨y, hy, hready⟩ := Scope.exists_readNumber_print h.2
  refine ⟨⟨x, y⟩, ⟨hx, hy⟩, fun scope ↦ ?_⟩
  have hpair := Expression.read?_of_isDecimalMark h.1 (Numeral.print_ne_nil_of_isDecimalMark h.1)
    h.2 (Numeral.print_ne_nil_of_isDecimalMark h.2)
  rw [Scope.resolve, h.isTrimmed_printPair.trim_eq, Vec.printPair, hpair]
  show Scope.evaluate scope (.cartesian _ _) = _
  rw [Scope.evaluate, hreadx, hready]
  rfl

end Numbers

/-! ### Segments that are read where they are printed -/

namespace PathOperator

/-- The operator that stands for an operator between points that are given absolutely. -/
def absolute (o : PathOperator) : PathOperator := if o.isRelative then .line else o

theorem isRelative_absolute (o : PathOperator) : o.absolute.isRelative = false := by
  cases o <;> rfl

theorem print_eq (o : PathOperator) : o.print = o.absolute.written := by
  cases o <;> rfl

theorem eq_cycle_of_absolute {o : PathOperator} (h : o.absolute = .cycle) : o = .cycle := by
  cases o <;> first | rfl | exact absurd h (by decide)

end PathOperator

namespace Segment

variable {scope : Scope} {pen : Pen} {segment segment' : Segment Float}
  {segments segments' : List (Segment Float)}

/-- The token that a segment is printed as. -/
def token : Segment Float → PathToken
  | point p => .coordinate p.position.printPair
  | operator o => .operator o.absolute
  | node n => .node n

/-- A segment and the one that is read where it is printed. -/
inductive IsReread : Segment Float → Segment Float → Prop
  | point {p : Point Float} {v : Vec Float} (h : p.position.IsReread v) :
      IsReread (.point p) (.point (Point.ofVec v))
  | operator {o : PathOperator} : IsReread (.operator o) (.operator o.absolute)
  | node {n : InlineNode} : IsReread (.node n) (.node ⟨n.label, {}⟩)

/-- A segment that can be read where it is printed: the numbers of a point are printed as decimal
numerals, and a node has no options and a label of whole groups. -/
inductive IsReadable : Segment Float → Prop
  | point {p : Point Float} (h : p.position.IsDecimal) : IsReadable (.point p)
  | operator {o : PathOperator} : IsReadable (.operator o)
  | node {label : Text} (h : IsBalanced '{' '}' ['{', '}'] label) : IsReadable (.node ⟨label, {}⟩)

theorem IsReadable.isPlain_token (h : segment.IsReadable) : segment.token.IsPlain := by
  cases h with
  | @point p _ => exact .coordinate p.position.isBalanced_printPair
  | @operator o => exact .operator o.isRelative_absolute
  | node h => exact .node h

theorem startsWith_isWordLetter_print (h : ¬ segment.isCycle) (rest : Text) :
    startsWith isWordLetter (segment.print ++ rest) = false := by
  cases segment with
  | point p => rfl
  | operator o =>
    cases o with
    | cycle => exact absurd rfl h
    | _ => rfl
  | node n => rfl

/-- Segments without two cycles next to each other are written as they are printed. -/
theorem written_flatMap_print (h : ∀ s ∈ segments, s.IsReadable)
    (hcycles : segments.IsChain fun s t ↦ ¬ (s.isCycle ∧ t.isCycle)) :
    Written (segments.map token) (segments.flatMap print) := by
  induction segments with
  | nil => exact .blank rfl
  | cons segment segments ih =>
    obtain ⟨hsegment, hmore⟩ := List.forall_mem_cons.1 h
    have hplain := hsegment.isPlain_token
    have hwritten := ih hmore hcycles.of_cons
    rw [List.map_cons, List.flatMap_cons]
    cases segment with
    | point p => exact .cons hplain (fun hcycle ↦ PathToken.noConfusion hcycle) hwritten
    | operator o =>
      show Written _ (o.print ++ _)
      rw [o.print_eq]
      refine .cons hplain (fun hcycle ↦ ?_) hwritten
      obtain rfl := PathOperator.eq_cycle_of_absolute (PathToken.operator.inj hcycle)
      -- What follows the word is the end, or a segment that does not start as a word goes on.
      cases segments with
      | nil => rfl
      | cons next segments =>
        have hnext := (List.isChain_cons_cons.1 hcycles).1
        exact startsWith_isWordLetter_print (fun hcycle ↦ hnext ⟨rfl, hcycle⟩) _
    | node n =>
      have hprint : (node n : Segment Float).print ++ segments.flatMap print =
          [' '] ++ ((node n).token.written ++ ([' '] ++ segments.flatMap print)) := by
        simp [print, token, PathToken.written]
      rw [hprint]
      exact .token rfl hplain (fun hcycle ↦ PathToken.noConfusion hcycle) (hwritten.prepend rfl)

theorem IsReadable.exists_step (h : segment.IsReadable) (scope : Scope)
    (hpen : pen.pending = none) : ∃ segment' pen',
      pen.step scope segment.token = .ok (segment', pen') ∧ pen'.pending = none ∧
        segment.IsReread segment' := by
  cases h with
  | @point p h =>
    obtain ⟨v, hv, hresolve⟩ := h.exists_resolve
    have hpoint : pen.resolve scope p.position.printPair =
        .ok (Point.ofVec v, ⟨some (Point.ofVec v), none⟩) := by
      rw [Pen.resolve, hpen, hresolve]
      rfl
    exact ⟨_, _, bind_eq_ok_iff.2 ⟨_, hpoint, rfl⟩, rfl, .point hv⟩
  | @operator o =>
    have hpending : (if o.absolute.isRelative then some o.absolute else none) = none := by
      rw [o.isRelative_absolute]
      rfl
    exact ⟨_, _, rfl, hpending, .operator⟩
  | node _ => exact ⟨_, pen, rfl, hpen, .node⟩

/-- A pen that waits for nothing makes of the printed tokens the segments again. -/
theorem exists_trace (h : ∀ s ∈ segments, s.IsReadable) (scope : Scope) (pen : Pen)
    (hpen : pen.pending = none) : ∃ segments' pen',
      Pen.trace scope pen (segments.map token) = .ok (segments', pen') ∧
        List.Forall₂ IsReread segments segments' := by
  induction segments generalizing pen with
  | nil => exact ⟨[], pen, rfl, .nil⟩
  | cons segment segments ih =>
    obtain ⟨hsegment, hmore⟩ := List.forall_mem_cons.1 h
    obtain ⟨segment', pen₁, hstep, hpen₁, hreread⟩ := hsegment.exists_step scope hpen
    obtain ⟨segments', pen', htrace, hall⟩ := ih hmore pen₁ hpen₁
    exact ⟨_, pen', Pen.trace_cons_eq_ok_iff.2 ⟨_, _, _, hstep, htrace, rfl⟩, .cons hreread hall⟩

theorem IsReread.print_eq (h : segment.IsReread segment') (hreadable : segment.IsReadable)
    (hstable : ∀ p ∈ segment.point?, p.position.IsStable) : segment'.print = segment.print := by
  cases hreadable with
  | point _ =>
    cases h with
    | point h => exact h.print_eq (hstable _ rfl)
  | @operator o =>
    cases h with
    | operator => cases o <;> rfl
  | node _ =>
    cases h with
    | node => rfl

theorem flatMap_print_eq (h : List.Forall₂ IsReread segments segments')
    (hreadable : ∀ s ∈ segments, s.IsReadable)
    (hstable : ∀ s ∈ segments, ∀ p ∈ s.point?, p.position.IsStable) :
    segments'.flatMap print = segments.flatMap print := by
  induction h with
  | nil => rfl
  | cons hreread _ ih =>
    obtain ⟨hfirst, hmore⟩ := List.forall_mem_cons.1 hreadable
    obtain ⟨hfirst', hmore'⟩ := List.forall_mem_cons.1 hstable
    rw [List.flatMap_cons, List.flatMap_cons, hreread.print_eq hfirst hfirst', ih hmore hmore']

end Segment

/-! ### Paths -/

/-- The label of a node that stands in a text is a text of whole groups. -/
theorem TokenAt.isBalanced_label {s rest : Text} {n : InlineNode} (h : TokenAt s (.node n) rest) :
    IsBalanced '{' '}' ['{', '}'] n.label := by
  cases h with
  | @node inside _ hparse =>
    obtain ⟨f, hbody, heq⟩ := scan_call_eq_some_iff.1 hparse
    obtain ⟨-, rfl, -⟩ := Forest.node.inj heq
    obtain ⟨hrow, hnodes⟩ := nodes_of_scan rfl hbody
    have houtlines : ∀ rules ∈ Rule.pathNode.body.outlines, Rule.argument ∈ rules := by decide
    obtain ⟨argument, hnode, htext⟩ := Forest.exists_textIn .groupBody (houtlines _ hrow)
    rw [htext]
    exact isBalanced_of_argument (hnodes _ hnode)

theorem Row.exists_tokenAt {s last : Text} {row : List PlacedToken} (h : Row s row last) :
    ∀ w ∈ row, ∃ s rest, TokenAt s w.token rest := by
  induction h with
  | stop => simp
  | token _ htoken _ ih => exact List.forall_mem_cons.2 ⟨⟨_, _, htoken⟩, ih⟩

theorem Pen.mem_of_forall₂_standsFor {tokens : List PathToken} {segments : List (Segment Float)}
    (h : List.Forall₂ StandsFor tokens segments) {n : InlineNode} (hn : .node n ∈ segments) :
    .node n ∈ tokens := by
  induction h with
  | nil => exact absurd hn List.not_mem_nil
  | cons hfirst _ ih =>
    rcases List.mem_cons.1 hn with rfl | hn
    · cases hfirst
      exact List.mem_cons_self
    · exact List.mem_cons_of_mem _ (ih hn)

namespace DrawnPath

variable {style : Style} {body : Text} {scope : Scope} {d : DrawnPath Float}

/-- A path has no more segments than there are passes, and its labels are texts of whole groups. -/
theorem length_le_and_isBalanced (h : read style body scope = .ok d) :
    d.segments.length ≤ 100 ∧
      ∀ n, .node n ∈ d.segments → IsBalanced '{' '}' ['{', '}'] n.label := by
  obtain ⟨row, last, hread⟩ := exists_isRead body
  rw [read_eq hread] at h
  obtain ⟨⟨segments, pen⟩, htrace, hend⟩ := bind_eq_ok_iff.1 h
  have hstands := Pen.forall₂_standsFor htrace
  split at hend
  · obtain rfl := Except.ok.inj hend
    refine ⟨?_, fun n hn ↦ ?_⟩
    · rw [← hstands.length_eq, List.length_map]
      exact hread.length_le
    · obtain ⟨w, hw, htoken⟩ := List.mem_map.1 (Pen.mem_of_forall₂_standsFor hstands hn)
      obtain ⟨s, rest, hat⟩ := hread.isRow.exists_tokenAt w hw
      rw [htoken] at hat
      exact hat.isBalanced_label
  · exact absurd hend.symm ok_ne_error

/-- A path whose segments can be read where they are printed. -/
theorem isReadable (h : read style body scope = .ok d)
    (hoptions : ∀ n ∈ d.nodes, n.style.entries = [])
    (hdecimal : ∀ p ∈ d.points, p.position.IsDecimal) : ∀ s ∈ d.segments, s.IsReadable := by
  intro s hs
  cases s with
  | point p => exact .point (hdecimal p (List.mem_filterMap.2 ⟨_, hs, rfl⟩))
  | operator o => exact .operator
  | node n =>
    have hlabel := (length_le_and_isBalanced h).2 n hs
    obtain ⟨label, ⟨entries⟩⟩ := n
    obtain rfl := hoptions _ (List.mem_filterMap.2 ⟨_, hs, rfl⟩)
    exact .node hlabel

/-- A path can be read where it is printed. Assumes: the path was read, its nodes have no options,
no two cycles are next to each other, and the components of its points are printed as decimal
numerals. Then its printed body, with or without blanks before it, is read in every scope as the
same segments, a plain line for each relative one and the literal point for each point. If the
numerals are stable, the path that is read is printed as the same text. -/
theorem read_printBody (hread : read style body scope = .ok d)
    (hoptions : ∀ n ∈ d.nodes, n.style.entries = [])
    (hcycles : d.segments.IsChain fun s t ↦ ¬ (s.isCycle ∧ t.isCycle))
    (hdecimal : ∀ p ∈ d.points, p.position.IsDecimal) (style' : Style) (scope' : Scope)
    {gap : Text} (hgap : gap.all isBlank) :
    ∃ d', read style' (gap ++ d.printBody) scope' = .ok d' ∧ d'.style = style' ∧
      List.Forall₂ Segment.IsReread d.segments d'.segments ∧
      ((∀ p ∈ d.points, p.position.IsStable) → d'.printBody = d.printBody) := by
  have hreadable := isReadable hread hoptions hdecimal
  have hwritten := (Segment.written_flatMap_print hreadable hcycles).trim.prepend hgap
  obtain ⟨row, last, hrow, hlast, htokens⟩ := hwritten.exists_row
  obtain ⟨segments', pen, htrace, hall⟩ := Segment.exists_trace hreadable scope' {} rfl
  have hlength : row.length ≤ 100 := by
    rw [← List.length_map (f := PlacedToken.token), htokens, List.length_map]
    exact (length_le_and_isBalanced hread).1
  refine ⟨⟨style', segments'⟩, ?_, rfl, hall, fun hstable ↦ ?_⟩
  · rw [printBody, read_eq ⟨hrow, hlength, Or.inr (hlast ▸ noToken_nil)⟩, htokens, htrace]
    exact if_pos hlast
  · have hpoints : ∀ s ∈ d.segments, ∀ p ∈ s.point?, p.position.IsStable := fun s hs p hp ↦
      hstable p (List.mem_filterMap.2 ⟨s, hs, hp⟩)
    rw [printBody, printBody, Segment.flatMap_print_eq hall hreadable hpoints]

/-- A step from the pen, a node, and a return to the start. -/
theorem read_printBody_step :
    let body : Text := "(1,0) --++(0.5,2) node {A} |- (3,-4.25)\n-- cycle".toList
    let printed : Text := "(1,0)--(1.5,2) node [] {A} |-(3,-4.25)--cycle".toList
    ∃ d, read {} body {} = .ok d ∧ d.printBody = printed ∧ d.segments.length = 8 ∧
      ∀ style scope, ∃ d', read style (' ' :: printed) scope = .ok d' ∧ d'.style = style ∧
        List.Forall₂ Segment.IsReread d.segments d'.segments ∧ d'.printBody = printed := by
  intro body printed
  have hfound : (read {} body {}).toOption.any fun d ↦ d.printBody = printed ∧
      d.segments.length = 8 ∧ (∀ n ∈ d.nodes, n.style.entries = []) ∧
      (d.segments.IsChain fun s t ↦ ¬ (s.isCycle ∧ t.isCycle)) ∧
      (∀ p ∈ d.points, p.position.IsDecimal) ∧ ∀ p ∈ d.points, p.position.IsStable := by
    decide +kernel
  obtain ⟨d, hd, hfacts⟩ := (Option.any_eq_true _ _).1 hfound
  obtain ⟨hprint, hlength, hoptions, hcycles, hdecimal, hstable⟩ := of_decide_eq_true hfacts
  have hread : read {} body {} = .ok d := by
    cases hresult : read {} body {} with
    | error failure => simp [hresult, Except.toOption] at hd
    | ok d' => rw [hresult] at hd; exact congrArg _ (Option.some.inj hd)
  refine ⟨d, hread, hprint, hlength, fun style scope ↦ ?_⟩
  have hgap : ([' '] : Text).all isBlank := rfl
  obtain ⟨d', hread', hstyle, hsegments, hsame⟩ :=
    read_printBody hread hoptions hcycles hdecimal style scope hgap
  rw [hprint] at hread' hsame
  exact ⟨d', hread', hstyle, hsegments, hsame hstable⟩

end DrawnPath

end DiagramMacros
