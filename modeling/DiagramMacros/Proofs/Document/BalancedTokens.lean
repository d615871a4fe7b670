import DiagramMacros.Proofs.Document.Annotation
import DiagramMacros.Proofs.Document.Arguments
import DiagramMacros.Proofs.Document.EarlierDefinitions
import DiagramMacros.Proofs.Style.BalancedPrinting
/-!
Braces in printed tokens. The arguments of a call are balanced (`IsCall.isBalanced_arguments`), for
they are texts of whole groups. So a call whose style list has no quotes makes a tidy token: its
labels and names are balanced, and its styles print balanced properties (`isTidy_of_build`).
Annotating keeps a token tidy (`Token.Annotated.isTidy`), and a tidy token is printed balanced
(`Token.IsTidy.isBalanced_print`).
-/

set_option autoImplicit false
set_option relaxedAutoImplicit false

namespace DiagramMacros

open Braces Peg Text

/-! ### Arguments -/

/-- A text of whole groups with no brace outside of them is balanced. -/
theorem IsBalanced.isBalanced {excluded t : Text} (h : IsBalanced '{' '}' excluded t)
    (hopen : '{' ∈ excluded) (hclose : '}' ∈ excluded) : Braces.isBalanced t := by
  induction h with
  | nil => rfl
  | @char excluded t c hc _ ih =>
    have hne {brace : Char} (hbrace : brace ∈ excluded) : c ≠ brace := by
      rintro rfl
      rw [List.contains_iff_mem.2 hbrace] at hc
      exact Bool.noConfusion hc
    exact isBalanced_append_cons (s := []) rfl (ih hopen hclose) (hne hopen) (hne hclose)
  | @group excluded inside t _ _ ihinside ih =>
    have htext : '{' :: (inside ++ '}' :: t) = enclose inside ++ t := by simp [enclose]
    rw [htext]
    exact isBalanced_append (isBalanced_enclose (ihinside (by decide) (by decide)))
      (ih hopen hclose)

/-- The arguments of a call are balanced. -/
theorem IsCall.isBalanced_arguments {k : Keyword} {s rest : Text} {tree : Forest Rule}
    (h : IsCall k s tree rest) :
    ∀ t ∈ (Lexeme.call k tree).arguments, isBalanced t := by
  obtain ⟨inside, rfl, hbody⟩ := h.exists_inside
  obtain ⟨-, hnodes⟩ := nodes_of_scan (isFixed_invocationBody k) hbody
  refine List.forall_mem_map.2 fun f hf ↦ ?_
  obtain ⟨⟨rule, f'⟩, hnode, heq⟩ := List.mem_filterMap.1 hf
  obtain ⟨rfl, rfl⟩ : rule = .argument ∧ f' = f := by simpa using heq
  exact (isBalanced_of_argument (hnodes _ hnode)).isBalanced (by decide) (by decide)

/-- The style list among the arguments of a call: the last one, except for the axes, which have
none. -/
def Keyword.styleList? (arguments : List Text) : Keyword → Option Text
  | xyaxis => none
  | _ => arguments.getLast?

/-! ### Printed pieces -/

namespace Braces

theorem isBalanced_flatMap {α : Type} {print : α → Text} {l : List α}
    (h : ∀ a ∈ l, isBalanced (print a)) : isBalanced (l.flatMap print) := by
  induction l with
  | nil => rfl
  | cons a l ih =>
    obtain ⟨ha, hl⟩ := List.forall_mem_cons.1 h
    exact isBalanced_append ha (ih hl)

end Braces

theorem isBalanced_vec (v : Vec Float) : isBalanced v.print := by
  rw [Vec.print, List.append_assoc]
  exact isBalanced_append (s := ['(']) rfl (isBalanced_append (isBalanced_numeral v.x)
    (isBalanced_append (isBalanced_append (s := [',']) rfl (isBalanced_numeral v.y)) rfl))

namespace Style

/-- A text that is assigned to a key, or printed alone, is balanced with the key. -/
theorem isBalanced_assigned {key t : Text} (hkey : isBalanced key) (ht : isBalanced t) :
    isBalanced (printEntry (key, .text t)) := by
  rw [printEntry, printValue]
  split
  · exact ht
  · exact isBalanced_append_cons hkey ht (by decide) (by decide)

theorem isBalanced_of_mem_directions {side : Text} (h : side ∈ directions) : isBalanced side := by
  have hall : directions.all isBalanced := by decide
  exact List.all_eq_true.1 hall side h

theorem IsTidy.gainsFlag {key : Text} {before after : Style} (h : IsTidy before.entries)
    (hgains : before.GainsFlag key after) (hkey : isBalanced key) : IsTidy after.entries := by
  cases hgains with
  | replaced left right old =>
    obtain ⟨hleft, hright⟩ := List.forall_mem_append.1 h
    exact List.forall_mem_append.2
      ⟨hleft, List.forall_mem_cons.2 ⟨hkey, (List.forall_mem_cons.1 hright).2⟩⟩
  | added entries => exact List.forall_mem_append.2 ⟨h, List.forall_mem_singleton.2 hkey⟩

/-- The flags of a placement are balanced. -/
theorem IsTidy.placed {before after : Style} (h : IsTidy before.entries)
    (hplaced : before.Placed after) : IsTidy after.entries := by
  obtain ⟨sloped, hsloped, hside⟩ := hplaced
  have htidy : IsTidy sloped.entries := by
    rcases hsloped with rfl | hgains
    · exact h
    · exact h.gainsFlag hgains (by decide)
  rcases hside with rfl | ⟨side, hside, -, rfl⟩
  · exact htidy
  · exact List.forall_mem_append.2
      ⟨htidy, List.forall_mem_singleton.2 (isBalanced_of_mem_directions hside)⟩

end Style

/-! ### Tidy tokens -/

/-- The label of a node in a path is balanced, and its style prints balanced properties. -/
inductive Segment.IsTidy : Segment Float → Prop
  | point (p : Point Float) : IsTidy (.point p)
  | operator (o : PathOperator) : IsTidy (.operator o)
  | node {label : Text} {style : Style} (hlabel : isBalanced label)
    (hstyle : Style.IsTidy style.entries) : IsTidy (.node ⟨label, style⟩)

/-- The labels and names of a token are balanced, and its styles print balanced properties. -/
inductive Token.IsTidy : Token → Prop
  | raw {text : Text} (htext : isBalanced text) : IsTidy (.raw text)
  | coordinate {c : NamedCoordinate} (hname : isBalanced c.name)
    (hstyle : Style.IsTidy c.style.entries)
    (hlabel : ∀ label ∈ c.label, isBalanced label.text ∧ Style.IsTidy label.style.entries) :
    IsTidy (.coordinate c)
  | node {n : PlacedNode} (hlabel : isBalanced n.label) (hstyle : Style.IsTidy n.style.entries) :
    IsTidy (.node n)
  | path {d : DrawnPath Float} (hstyle : Style.IsTidy d.style.entries)
    (hsegments : ∀ s ∈ d.segments, s.IsTidy) : IsTidy (.path d)
  | circle {c : Circle} (hstyle : Style.IsTidy c.style.entries) : IsTidy (.circle c)
  | angle {m : AngleMark} (hfirst : isBalanced m.first) (hvertex : isBalanced m.vertex)
    (hsecond : isBalanced m.second) (hstyle : Style.IsTidy m.style.entries) : IsTidy (.angle m)
  | axes {a : Axes} (hx : isBalanced a.xLabel) (hy : isBalanced a.yLabel) : IsTidy (.axes a)
  | grid {g : Grid} (hstyle : Style.IsTidy g.style.entries) : IsTidy (.grid g)

theorem Segment.Annotated.isTidy {s s' : Segment Float} (h : s.Annotated s') (htidy : s.IsTidy) :
    s'.IsTidy := by
  cases h with
  | point p quadrant => exact .point _
  | operator o => exact .operator o
  | node label hplaced =>
    cases htidy with
    | node hlabel hstyle => exact .node hlabel (hstyle.placed hplaced)

theorem isTidy_of_forall₂ {ss ss' : List (Segment Float)}
    (h : List.Forall₂ Segment.Annotated ss ss') (htidy : ∀ s ∈ ss, s.IsTidy) :
    ∀ s ∈ ss', s.IsTidy := by
  induction h with
  | nil => exact htidy
  | cons hs _ ih =>
    obtain ⟨hfirst, hmore⟩ := List.forall_mem_cons.1 htidy
    exact List.forall_mem_cons.2 ⟨hs.isTidy hfirst, ih hmore⟩

/-- Annotating keeps a token tidy. -/
theorem Token.Annotated.isTidy {token token' : Token} (h : token.Annotated token')
    (htidy : token.IsTidy) : token'.IsTidy := by
  cases htidy with
  | raw htext =>
    cases h
    exact .raw htext
  | coordinate hname hstyle hlabel =>
    cases h
    exact .coordinate hname hstyle hlabel
  | node hlabel hstyle =>
    cases h
    exact .node hlabel hstyle
  | path hstyle hsegments =>
    cases h with
    | path style h => exact .path hstyle (isTidy_of_forall₂ h hsegments)
  | circle hstyle =>
    cases h
    exact .circle hstyle
  | angle hfirst hvertex hsecond hstyle =>
    cases h
    exact .angle hfirst hvertex hsecond hstyle
  | axes hx hy =>
    cases h
    exact .axes hx hy
  | grid hstyle =>
    cases h
    exact .grid hstyle

/-! ### Printing -/

namespace NamedCoordinate

variable {c : NamedCoordinate} {label : Label}

/-- Both the direction of a label and the options left for it are balanced. -/
theorem isTidy_placeLabel (h : Style.IsTidy label.style.entries) :
    (∀ d ∈ (c.placeLabel label).1, isBalanced d) ∧
      Style.IsTidy (c.placeLabel label).2.entries := by
  have houtward (q : Quadrant) : isBalanced q.outward := by cases q <;> decide
  rw [placeLabel]
  split
  · rename_i direction hdirection
    refine ⟨fun d hd ↦ ?_, h.erase direction⟩
    obtain rfl := Option.some.inj hd
    exact Style.isBalanced_of_mem_directions (List.mem_of_find?_eq_some hdirection)
  · split
    · exact ⟨fun d hd ↦ absurd hd nofun, h⟩
    · refine ⟨fun d hd ↦ ?_, h⟩
      obtain ⟨q, -, rfl⟩ := Option.map_eq_some_iff.1 hd
      exact houtward q

theorem isBalanced_printLabel (hlabel : isBalanced label.text)
    (hstyle : Style.IsTidy label.style.entries) : isBalanced (c.printLabel label) := by
  obtain ⟨hdirection, hoptions⟩ := c.isTidy_placeLabel hstyle
  rw [printLabel]
  generalize c.placeLabel label = placed at hdirection hoptions ⊢
  refine isBalanced_enclose (isBalanced_append (isBalanced_append ?_ ?_) hlabel)
  · split
    · rfl
    · exact hoptions.inBrackets
  · cases h : placed.1 with
    | none => rfl
    | some d => exact isBalanced_append (hdirection d h) (t := [':']) rfl

theorem isTidy_options (hstyle : Style.IsTidy c.style.entries)
    (hlabel : ∀ label ∈ c.label, isBalanced label.text ∧ Style.IsTidy label.style.entries) :
    Style.IsTidy c.options.entries := by
  rw [options]
  split
  · rename_i label heq
    obtain ⟨htext, hentries⟩ := hlabel label heq
    split
    · exact hstyle
    · exact hstyle.put (Style.isBalanced_assigned (by decide)
        (isBalanced_printLabel htext hentries))
  · exact hstyle

theorem isBalanced_print (hname : isBalanced c.name) (hoptions : Style.IsTidy c.options.entries) :
    isBalanced c.print := by
  have hbrackets :
      isBalanced (if c.options.isEmpty then [] else c.options.inBrackets ++ [' ']) := by
    split
    · rfl
    · exact isBalanced_append hoptions.inBrackets rfl
  exact isBalanced_append (isBalanced_append (isBalanced_append (isBalanced_append
    (isBalanced_append rfl hbrackets) (isBalanced_append (s := ['(']) rfl hname)) rfl)
    (isBalanced_vec c.point.position)) rfl

end NamedCoordinate

theorem PlacedNode.isBalanced_print {n : PlacedNode} (hlabel : isBalanced n.label)
    (hstyle : Style.IsTidy n.style.entries) : isBalanced n.print :=
  isBalanced_append (isBalanced_append (isBalanced_append (isBalanced_append
    (isBalanced_append rfl hstyle.inBrackets) rfl) (isBalanced_vec n.point.position))
    (isBalanced_append (s := [' ']) rfl (isBalanced_enclose hlabel))) rfl

theorem Segment.IsTidy.isBalanced_print {s : Segment Float} (h : s.IsTidy) :
    isBalanced s.print := by
  cases h with
  | point p => exact isBalanced_vec p.position
  | operator o => cases o <;> decide
  | node hlabel hstyle =>
    have hnode := isBalanced_append (isBalanced_append (s := "node ".toList) rfl hstyle.inBrackets)
      (isBalanced_append (s := [' ']) rfl (isBalanced_enclose hlabel))
    exact isBalanced_append (isBalanced_append (s := [' ']) rfl hnode) rfl

theorem DrawnPath.isBalanced_print {d : DrawnPath Float} (hstyle : Style.IsTidy d.style.entries)
    (hsegments : ∀ s ∈ d.segments, s.IsTidy) : isBalanced d.print := by
  have hbody : isBalanced d.printBody := by
    rw [printBody, isBalanced_trim]
    exact isBalanced_flatMap fun s hs ↦ (hsegments s hs).isBalanced_print
  exact isBalanced_append (isBalanced_append (isBalanced_append rfl hstyle.inBrackets)
    (isBalanced_append (s := [' ']) rfl hbody)) rfl

theorem Circle.isBalanced_print {c : Circle} (hstyle : Style.IsTidy c.style.entries) :
    isBalanced c.print :=
  isBalanced_append (isBalanced_append (isBalanced_append (isBalanced_append
    (isBalanced_append rfl hstyle.inBrackets)
    (isBalanced_append (s := [' ']) rfl (isBalanced_vec c.centre.position))) rfl)
    (isBalanced_numeral c.radius)) rfl

theorem AngleMark.isBalanced_print {m : AngleMark} (hfirst : isBalanced m.first)
    (hvertex : isBalanced m.vertex) (hsecond : isBalanced m.second)
    (hstyle : Style.IsTidy m.style.entries) : isBalanced m.print := by
  have hangle := isBalanced_append (isBalanced_append (isBalanced_append (isBalanced_append
    (isBalanced_append (s := "angle=".toList) rfl hfirst) (t := "--".toList) rfl) hvertex)
    (t := "--".toList) rfl) hsecond
  exact isBalanced_append (isBalanced_append (isBalanced_append rfl hstyle.inBrackets)
    (isBalanced_append (s := [' ']) rfl (isBalanced_enclose hangle))) rfl

theorem Axes.isBalanced_printArrow (ends : Vec Float × Vec Float) {placement label : Text}
    (hplacement : isBalanced placement) (hlabel : isBalanced label) :
    isBalanced (printArrow ends placement label) := by
  refine isBalanced_append (isBalanced_append (isBalanced_append (isBalanced_append
    (isBalanced_append rfl (isBalanced_vec ends.1)) rfl) (isBalanced_vec ends.2)) ?_) rfl
  split
  · rfl
  · exact isBalanced_append (isBalanced_append (isBalanced_append (s := " node [".toList) rfl
      hplacement) rfl) (isBalanced_enclose hlabel)

theorem Axes.isBalanced_print {a : Axes} (hx : isBalanced a.xLabel) (hy : isBalanced a.yLabel)
    (extent : Extent Float) : isBalanced (a.print extent) :=
  isBalanced_append (isBalanced_printArrow _ (by decide) hx)
    (isBalanced_append (s := ['\n']) rfl (isBalanced_printArrow _ (by decide) hy))

theorem Grid.isBalanced_print {g : Grid} (hstyle : Style.IsTidy g.style.entries)
    (extent : Extent Float) : isBalanced (g.print extent) :=
  isBalanced_append (isBalanced_append (isBalanced_append (isBalanced_append
    (isBalanced_append rfl hstyle.inBrackets)
    (isBalanced_append (s := [' ']) rfl (isBalanced_vec _))) rfl) (isBalanced_vec _)) rfl

/-- A tidy token is printed balanced. -/
theorem Token.IsTidy.isBalanced_print {token : Token} (h : token.IsTidy) (extent : Extent Float) :
    isBalanced (token.print extent) := by
  cases h with
  | raw htext => exact htext
  | coordinate hname hstyle hlabel =>
    exact NamedCoordinate.isBalanced_print hname (NamedCoordinate.isTidy_options hstyle hlabel)
  | node hlabel hstyle => exact PlacedNode.isBalanced_print hlabel hstyle
  | path hstyle hsegments => exact DrawnPath.isBalanced_print hstyle hsegments
  | circle hstyle => exact Circle.isBalanced_print hstyle
  | angle hfirst hvertex hsecond hstyle =>
    exact AngleMark.isBalanced_print hfirst hvertex hsecond hstyle
  | axes hx hy => exact Axes.isBalanced_print hx hy extent
  | grid hstyle => exact Grid.isBalanced_print hstyle extent

/-! ### Building tokens -/

namespace AngleMark

theorem styleOf_eq (label list : Text) :
    styleOf label list =
      if label.isEmpty then Style.read list (some .angle)
      else (Style.read list (some .angle)).put "quotes" (.text ('\"' :: label ++ ['\"'])) := by
  rw [styleOf]
  split
  · rfl
  · refine congrArg Style.mk ?_
    rw [Recipe.entries, Recipe.addEntry, ← List.append_assoc, Assoc.putAll_concat]
    rfl

/-- The quoted label is balanced like the label. -/
theorem isTidy_styleOf {label list : Text} (hlabel : isBalanced label) (hlist : isBalanced list)
    (hquote : '\"' ∉ list) : Style.IsTidy (styleOf label list).entries := by
  have hread := Style.isTidy_read hlist hquote (some .angle)
  rw [styleOf_eq]
  split
  · exact hread
  · exact hread.put (Style.isBalanced_assigned (by decide)
      (isBalanced_append (isBalanced_append (s := ['\"']) rfl hlabel) rfl))

end AngleMark

section Build

variable {scope scope' : Scope} {k : Keyword} {inside : Forest Rule} {token : Token}

theorem isTidy_arrow (p q : Point Float) {label : Text} {style : Style} (hlabel : isBalanced label)
    (hstyle : Style.IsTidy style.entries) :
    Token.IsTidy (.path (DrawnPath.arrow p q label style)) := by
  refine .path hstyle fun s hs ↦ ?_
  have hempty : Style.IsTidy ({} : Style).entries := fun e he ↦ absurd he List.not_mem_nil
  rw [DrawnPath.arrow] at hs
  split at hs
  · simp only [List.append_nil, List.cons_append, List.nil_append, List.mem_cons,
      List.not_mem_nil, or_false] at hs
    rcases hs with rfl | rfl | rfl
    · exact .point p
    · exact .operator .line
    · exact .point q
  · simp only [List.cons_append, List.nil_append, List.mem_cons, List.not_mem_nil,
      or_false] at hs
    rcases hs with rfl | rfl | rfl | rfl
    · exact .point p
    · exact .operator .line
    · exact .node hlabel hempty
    · exact .point q

theorem isTidy_of_buildNode {preset : Option Preset} {expression label list : Text}
    (h : scope.buildNode preset expression label list = .ok token) (hlabel : isBalanced label)
    (hlist : isBalanced list) (hquote : '\"' ∉ list) : token.IsTidy := by
  obtain ⟨p, -, hpure⟩ := bind_eq_ok_iff.1 h
  obtain rfl := Except.ok.inj hpure
  exact .node hlabel (Style.isTidy_read hlist hquote preset)

/-- What is built from balanced arguments is tidy if the style list has no quotes. -/
theorem isTidy_of_buildFigure (h : scope.buildFigure k inside = .ok token) (hk : k ≠ .draw)
    (harguments : ∀ t ∈ argumentTexts inside, isBalanced t)
    (hquote : ∀ list ∈ k.styleList? (argumentTexts inside), '\"' ∉ list) : token.IsTidy := by
  unfold Scope.buildFigure at h
  split at h
  case h_1 expression label list heq =>
    simp only [heq, List.forall_mem_cons] at harguments hquote
    obtain ⟨-, hlabel, hlist, -⟩ := harguments
    exact isTidy_of_buildNode h hlabel hlist (hquote list rfl)
  case h_2 expression label list heq =>
    simp only [heq, List.forall_mem_cons] at harguments hquote
    obtain ⟨-, hlabel, hlist, -⟩ := harguments
    exact isTidy_of_buildNode h hlabel hlist (hquote list rfl)
  case h_3 start stop label list heq =>
    obtain ⟨p, -, h⟩ := bind_eq_ok_iff.1 h
    obtain ⟨q, -, hpure⟩ := bind_eq_ok_iff.1 h
    obtain rfl := Except.ok.inj hpure
    simp only [heq, List.forall_mem_cons] at harguments hquote
    obtain ⟨-, -, hlabel, hlist, -⟩ := harguments
    rw [← isBalanced_trim] at hlabel
    exact isTidy_arrow p q hlabel (Style.isTidy_read hlist (hquote list rfl) (some .vec))
  case h_4 a b c list heq =>
    obtain ⟨p, -, h⟩ := bind_eq_ok_iff.1 h
    obtain ⟨q, -, h⟩ := bind_eq_ok_iff.1 h
    obtain ⟨r, -, h⟩ := bind_eq_ok_iff.1 h
    obtain ⟨circle, hcircle, hpure⟩ := bind_eq_ok_iff.1 h
    obtain rfl := Except.ok.inj hpure
    simp only [heq, List.forall_mem_cons] at harguments hquote
    obtain ⟨-, -, -, hlist, -⟩ := harguments
    refine .circle ?_
    rw [style_of_through hcircle]
    exact Style.isTidy_read hlist (hquote list rfl) none
  case h_5 a b c label list heq =>
    obtain ⟨-, -, h⟩ := bind_eq_ok_iff.1 h
    obtain ⟨-, -, h⟩ := bind_eq_ok_iff.1 h
    obtain ⟨-, -, hpure⟩ := bind_eq_ok_iff.1 h
    obtain rfl := Except.ok.inj hpure
    simp only [heq, List.forall_mem_cons] at harguments hquote
    obtain ⟨ha, hb, hc, hlabel, hlist, -⟩ := harguments
    rw [← isBalanced_trim] at ha hb hc hlabel
    exact .angle ha hb hc (AngleMark.isTidy_styleOf hlabel hlist (hquote list rfl))
  case h_6 x y heq =>
    obtain rfl := Except.ok.inj h
    simp only [heq, List.forall_mem_cons] at harguments
    obtain ⟨hx, hy, -⟩ := harguments
    rw [← isBalanced_trim] at hx hy
    exact .axes hx hy
  case h_7 list heq =>
    obtain rfl := Except.ok.inj h
    simp only [heq, List.forall_mem_cons] at harguments hquote
    exact .grid (Style.isTidy_read harguments.1 (hquote list rfl) (some .helplines))
  case h_8 => exact absurd rfl hk
  case h_9 => exact absurd h nofun

theorem isTidy_of_build (h : scope.build k inside = .ok (token, scope'))
    (hcoordinate : k ≠ .coordinate) (hdraw : k ≠ .draw)
    (harguments : ∀ t ∈ argumentTexts inside, isBalanced t)
    (hquote : ∀ list ∈ k.styleList? (argumentTexts inside), '\"' ∉ list) : token.IsTidy := by
  unfold Scope.build at h
  split at h
  case h_1 expression name label list heq =>
    simp only [heq, List.forall_mem_cons] at harguments hquote
    obtain ⟨-, hname, hlabel, hlist, -⟩ := harguments
    rw [← isBalanced_trim] at hname hlabel
    unfold Scope.buildLabelled at h
    dsimp only at h
    split at h
    · exact absurd h nofun
    · obtain ⟨p, -, hpure⟩ := bind_eq_ok_iff.1 h
      obtain ⟨rfl, -⟩ := Prod.mk.inj (Except.ok.inj hpure)
      refine .coordinate hname (fun e he ↦ absurd he List.not_mem_nil) fun l hl ↦ ?_
      obtain rfl := Option.some.inj hl
      exact ⟨hlabel, Style.isTidy_read hlist (hquote list rfl) none⟩
  case h_2 => exact absurd rfl hcoordinate
  case h_3 =>
    obtain ⟨token', hbuild, heq⟩ := map_eq_ok_iff.1 h
    obtain ⟨rfl, -⟩ := Prod.mk.inj heq
    exact isTidy_of_buildFigure hbuild hdraw harguments hquote

end Build

/-- Braces stay balanced. What is printed of a call whose style list has no quotes is balanced, in
every diagram, whatever the midpoint that it is annotated with. -/
theorem calls_print_balanced {k : Keyword} {s rest : Text} {tree : Forest Rule}
    (hcall : IsCall k s tree rest) (hk : k ≠ .coordinate ∧ k ≠ .draw)
    (hquote : ∀ list ∈ k.styleList? (Lexeme.call k tree).arguments, '\"' ∉ list)
    {scope scope' : Scope} {token : Token}
    (hbuild : scope.buildLexeme (.call k tree) = .ok (token, scope')) (midpoint : Vec Float)
    (extent : Extent Float) :
    isBalanced ((token.annotate midpoint).print extent) ∧ isBalanced (token.print extent) := by
  have harguments := hcall.isBalanced_arguments
  obtain ⟨inside, rfl, -⟩ := hcall.exists_inside
  have htidy : token.IsTidy := isTidy_of_build hbuild hk.1 hk.2 harguments hquote
  exact ⟨((token.annotated_annotate midpoint).isTidy htidy).isBalanced_print extent,
    htidy.isBalanced_print extent⟩

/-- A call with braces in its label, and with a group in its style list. -/
def nestedVectorSource : Text :=
  "\\vec\x7b0,0\x7d\x7b2,1\x7d\x7b$v_\x7b1\x7d$\x7d\x7bevery node=\x7bred,sep=2pt\x7d,dashed\x7d"

theorem calls_print_balanced_nested :
    ∃ tree token scope, IsCall .vec nestedVectorSource tree [] ∧
      Scope.buildLexeme {} (.call .vec tree) = .ok (token, scope) ∧
      ∀ midpoint extent, isBalanced ((token.annotate midpoint).print extent) ∧
        isBalanced (token.print extent) := by
  have hfound : ((Rule.invocation .vec).parse nestedVectorSource).any (fun m ↦
      m.2 = [] ∧ (Scope.buildLexeme {} (.call .vec m.1)).isOk ∧
        ∀ list ∈ Keyword.vec.styleList? (Lexeme.call .vec m.1).arguments, '\"' ∉ list) := by
    decide +kernel
  obtain ⟨⟨tree, rest⟩, hcall, hbuild⟩ := (Option.any_eq_true _ _).1 hfound
  simp only [decide_eq_true_eq] at hbuild
  obtain ⟨rfl, hok, hquote⟩ := hbuild
  obtain ⟨⟨token, scope⟩, htoken⟩ := exists_of_isOk hok
  exact ⟨tree, token, scope, hcall, htoken, fun midpoint extent ↦
    calls_print_balanced hcall (by decide) hquote htoken midpoint extent⟩

end DiagramMacros
