import DiagramMacros.Proofs.Document.Annotation
import DiagramMacros.Proofs.Words
/-!
What the midpoint decides in the printed tokens. The printed tokens are texts put one after the
other, most of them the same for every midpoint (`VariesOnlyIn`). A midpoint decides the side of a
label without placement, and the properties of a node of a path without placement
(`Token.FreeText`). A placement of their own, which is an entry for a side or for an anchor
(`Style.hasPlacement_iff`), takes both of them out of its reach. So tokens in which everything has a
placement are printed alike around all midpoints.

Trimming a printed path does not disturb this: it takes away the space before a node at the start
and the one after a node at the end, whatever the properties of the node are (`Padded`).
-/

set_option autoImplicit false
set_option relaxedAutoImplicit false

namespace DiagramMacros

/-! ### Texts that depend on an input -/

section Varying

variable {α β : Type} {free free' : (α → Text) → Prop} {text first second : α → Text}

/-- A text that depends on an input, put together from pieces that do not depend on it and from
free ones. -/
inductive VariesOnlyIn (free : (α → Text) → Prop) : (α → Text) → Prop
  | fixed (text : Text) : VariesOnlyIn free fun _ ↦ text
  | free {text : α → Text} (h : free text) : VariesOnlyIn free text
  | append {first second : α → Text} (hfirst : VariesOnlyIn free first)
    (hsecond : VariesOnlyIn free second) : VariesOnlyIn free fun a ↦ first a ++ second a

namespace VariesOnlyIn

theorem mono (hfree : ∀ text, free text → free' text) (h : VariesOnlyIn free text) :
    VariesOnlyIn free' text := by
  induction h with
  | fixed text => exact .fixed text
  | free h => exact .free (hfree _ h)
  | append _ _ hfirst hsecond => exact .append hfirst hsecond

/-- A text with fixed texts around it. -/
theorem between (h : VariesOnlyIn free text) (before after : Text) :
    VariesOnlyIn free fun a ↦ before ++ text a ++ after :=
  .append (.append (.fixed before) h) (.fixed after)

theorem flatMap {texts : β → α → Text} {bs : List β} (h : ∀ b ∈ bs, VariesOnlyIn free (texts b)) :
    VariesOnlyIn free fun a ↦ bs.flatMap (texts · a) := by
  induction bs with
  | nil => exact .fixed []
  | cons b bs ih =>
    obtain ⟨hb, hbs⟩ := List.forall_mem_cons.1 h
    exact .append hb (ih hbs)

/-- Without free pieces the text is the same for all inputs. -/
theorem eq_of_not_free (h : VariesOnlyIn free text) (hnone : ∀ text, ¬free text) (a b : α) :
    text a = text b := by
  induction h with
  | fixed text => rfl
  | free h => exact absurd h (hnone _)
  | append _ _ hfirst hsecond => exact congrArg₂ (· ++ ·) hfirst hsecond

end VariesOnlyIn

/-- A text with fixed blanks at its ends and a varying part between them that is not empty and has
no blanks at its own ends. -/
inductive Padded (free : (α → Text) → Prop) : (α → Text) → Prop
  | intro (before : Text) {core : α → Text} (after : Text) (hbefore : before.all Text.isBlank)
    (hafter : after.all Text.isBlank) (hcore : VariesOnlyIn free core) (hne : ∀ a, core a ≠ [])
    (htrimmed : ∀ a, Text.IsTrimmed (core a)) : Padded free fun a ↦ before ++ core a ++ after

namespace Padded

theorem append (hfirst : Padded free first) (hsecond : Padded free second) :
    Padded free fun a ↦ first a ++ second a := by
  obtain ⟨before, after, hbefore, hafter, hcore, hne, htrimmed⟩ := hfirst
  obtain ⟨before', after', hbefore', hafter', hcore', hne', htrimmed'⟩ := hsecond
  rename_i core core'
  have hall : Padded free fun a ↦
      before ++ (core a ++ (after ++ before') ++ core' a) ++ after' := by
    refine .intro before after' hbefore hafter' (.append (.append hcore (.fixed _)) hcore')
      (fun a ↦ ?_) fun a ↦ ⟨?_, ?_⟩
    · simp [hne a]
    · rw [List.append_assoc, Text.startsWith_append_of_ne_nil _ (hne a)]
      exact (htrimmed a).1
    · rw [Text.endsWith_append_of_ne_nil _ (hne' a)]
      exact (htrimmed' a).2
  simpa only [List.append_assoc] using hall

theorem fixed {text : Text} (hne : text ≠ []) (htrimmed : Text.IsTrimmed text) :
    Padded free fun _ ↦ text := by
  have hall : Padded free fun _ ↦ [] ++ text ++ [] :=
    .intro [] [] rfl rfl (.fixed text) (fun _ ↦ hne) fun _ ↦ htrimmed
  simpa using hall

theorem trim (h : Padded free text) : VariesOnlyIn free fun a ↦ Text.trim (text a) := by
  obtain ⟨before, after, hbefore, hafter, hcore, -, htrimmed⟩ := h
  simpa only [Text.trim_append hafter, Text.trim_prepend hbefore, (htrimmed _).trim_eq] using hcore

end Padded

end Varying

/-! ### Tokens -/

/-- The properties of the node in some place, as they are printed. -/
def Segment.propertiesAt (ss : List (Segment Float)) (i : Nat) : Text :=
  (ss[i]?.bind node?).elim [] fun n ↦ n.style.print

namespace Token

/-- Whether every label that is printed, and every node of a path, says where it goes. -/
def isPlaced : Token → Bool
  | coordinate c => c.label.all fun label ↦ label.text.isEmpty || label.style.hasPlacement
  | path d => d.nodes.all fun n ↦ n.style.hasPlacement
  | _ => true

/-- The parts of a printed token that a midpoint decides: the side of a label that does not say
where it goes, and the properties of such a node of a path. -/
inductive FreeText : Token → (Vec Float → Text) → Prop
  | label {c : NamedCoordinate} {label : Label} (hlabel : c.label = some label)
    (htext : label.text ≠ []) (h : label.style.hasPlacement = false) :
    FreeText (.coordinate c) fun m ↦ (Quadrant.classify c.point.position m).outward ++ [':']
  | node {d : DrawnPath Float} {i : Nat} {n : InlineNode}
    (hnode : d.segments[i]? = some (.node n)) (h : n.style.hasPlacement = false) :
    FreeText (.path d) fun m ↦ Segment.propertiesAt (d.annotate m).segments i

theorem not_freeText_of_isPlaced {token : Token} (h : token.isPlaced) (text : Vec Float → Text) :
    ¬token.FreeText text := by
  rintro (⟨hlabel, htext, hfree⟩ | ⟨hnode, hfree⟩)
  · rw [isPlaced, hlabel] at h
    simp [htext, hfree] at h
  · rename_i d i n
    have hmem : n ∈ d.nodes :=
      List.mem_filterMap.2 ⟨_, List.mem_iff_getElem?.2 ⟨i, hnode⟩, rfl⟩
    exact Bool.noConfusion (hfree.symm.trans (List.all_eq_true.1 h n hmem))

end Token

/-! ### Coordinates -/

namespace Style

variable {style : Style}

theorem direction?_eq_none (h : style.hasPlacement = false) : style.direction? = none := by
  refine List.find?_eq_none.2 fun key hkey hflag ↦ ?_
  obtain ⟨value, hvalue, -⟩ := (Option.any_eq_true _ _).1 hflag
  have hcontains : style.contains key := Option.isSome_of_mem hvalue
  exact List.any_eq_false.1 h key (List.mem_append_left _ hkey) hcontains

/-- A text is printed under its key with the same text around it, whichever it is. -/
theorem exists_inBrackets_put (style : Style) {key : Text} (hkey : bareKeys.contains key = false) :
    ∃ before after, ∀ text, (style.put key (.text text)).inBrackets = before ++ text ++ after := by
  obtain ⟨es, es', hput⟩ := Assoc.exists_put_eq style.entries key
  obtain ⟨before, after, hjoin⟩ :=
    Text.exists_join_eq ", " (es.map printEntry) (es'.map printEntry)
  refine ⟨'[' :: before ++ key ++ ['='], after ++ [']'], fun text ↦ ?_⟩
  have hentry : printEntry (key, .text text) = key ++ '=' :: text := by
    rw [printEntry, printValue, hkey]
    rfl
  rw [inBrackets, print, printEntries_eq_map, put, hput, List.map_append, List.map_cons, hjoin,
    hentry]
  simp

theorem isEmpty_put (style : Style) (key : Text) (value : Value) :
    (style.put key value).isEmpty = false := by
  obtain ⟨es, es', hput⟩ := Assoc.exists_put_eq style.entries key
  rw [isEmpty, put, hput]
  simp

end Style

namespace NamedCoordinate

variable {c : NamedCoordinate} {label : Label}

/-- The coordinate with the quadrant that its point has around a midpoint. -/
def seenFrom (c : NamedCoordinate) (midpoint : Vec Float) : NamedCoordinate :=
  { c with point := c.point.classify midpoint }

theorem variesOnlyIn_printLabel (hlabel : c.label = some label) (htext : label.text ≠ []) :
    VariesOnlyIn (Token.FreeText (.coordinate c)) fun m ↦ (c.seenFrom m).printLabel label := by
  cases h : label.style.hasPlacement with
  | true =>
    have hplace (m : Vec Float) : (c.seenFrom m).placeLabel label = c.placeLabel label := by
      rw [placeLabel, placeLabel, if_pos h, if_pos h]
    simp only [printLabel, hplace]
    exact .fixed _
  | false =>
    have hplace (m : Vec Float) : (c.seenFrom m).placeLabel label =
        (some (Quadrant.classify c.point.position m).outward, label.style) := by
      rw [placeLabel, Style.direction?_eq_none h, h]
      rfl
    have hfree := (VariesOnlyIn.free (Token.FreeText.label hlabel htext h)).between
      ('{' :: if label.style.isEmpty then [] else label.style.inBrackets) (label.text ++ ['}'])
    simpa [printLabel, hplace, Braces.enclose] using hfree

theorem options_of_unlabelled (h : ∀ label ∈ c.label, label.text = []) : c.options = c.style := by
  rw [options]
  split
  · rename_i label heq
    rw [h label heq]
    rfl
  · rfl

theorem options_of_labelled (hlabel : c.label = some label) (htext : label.text ≠ []) :
    c.options = c.style.put "label" (.text (c.printLabel label)) := by
  rw [options, hlabel]
  exact if_neg (by simpa using htext)

/-- In a printed coordinate a midpoint decides at most the side of its label. -/
theorem variesOnlyIn_print (c : NamedCoordinate) :
    VariesOnlyIn (Token.FreeText (.coordinate c)) fun m ↦ (c.seenFrom m).print := by
  -- Whatever the options are, the coordinate is printed with them and is otherwise the same.
  have hprint (m : Vec Float) : (c.seenFrom m).print = "\\coordinate ".toList ++
      (if (c.seenFrom m).options.isEmpty then [] else (c.seenFrom m).options.inBrackets ++ [' ']) ++
        ('(' :: c.name ++ ") at ".toList ++ c.point.print ++ [';']) := by
    have hname : (c.seenFrom m).name = c.name := rfl
    have hpoint : (c.seenFrom m).point.print = c.point.print := rfl
    unfold print
    simp only [hname, hpoint, List.append_assoc]
  simp only [hprint]
  refine .between ?_ _ _
  by_cases h : ∀ label ∈ c.label, label.text = []
  · have hoptions (m : Vec Float) : (c.seenFrom m).options = c.style :=
      options_of_unlabelled (c := c.seenFrom m) h
    simp only [hoptions]
    exact .fixed _
  · obtain ⟨label, hlabel, htext⟩ := not_forall₂.1 h
    have hoptions (m : Vec Float) : (c.seenFrom m).options =
        c.style.put "label" (.text ((c.seenFrom m).printLabel label)) :=
      options_of_labelled hlabel htext
    obtain ⟨before, after, hput⟩ :=
      c.style.exists_inBrackets_put (show Style.bareKeys.contains "label".toList = false by decide)
    simp only [hoptions, Style.isEmpty_put, Bool.false_eq_true, if_false, hput, List.append_assoc]
    simpa only [List.append_assoc] using
      (variesOnlyIn_printLabel hlabel htext).between before (after ++ [' '])

end NamedCoordinate

/-! ### Paths -/

/-- Characters that are no blanks keep a text between them trimmed. -/
theorem Text.isTrimmed_cons_append {b c : Char} (hb : isBlank b = false) (hc : isBlank c = false)
    (s : Text) : IsTrimmed (b :: s ++ [c]) :=
  ⟨hb, (endsWith_append_of_ne_nil _ (List.cons_ne_nil c [])).trans hc⟩

namespace Segment

variable {free : (Vec Float → Text) → Prop}

theorem padded_print_point (p : Point Float) : Padded free fun _ ↦ (point p).print :=
  .fixed nofun (Text.isTrimmed_cons_append rfl rfl _)

theorem padded_print_operator (o : PathOperator) :
    Padded free fun _ ↦ (operator o : Segment Float).print := by
  refine .fixed ?_ ?_
  all_goals cases o <;> decide

/-- A node is printed with a space on both sides and its properties in between. -/
theorem padded_print_node (label : Text) {style : Vec Float → Style}
    (hstyle : VariesOnlyIn free fun m ↦ (style m).print) :
    Padded free fun m ↦ (node ⟨label, style m⟩ : Segment Float).print := by
  have hcore : VariesOnlyIn free fun m ↦ (InlineNode.mk label (style m)).print := by
    simpa [InlineNode.print, Style.inBrackets] using
      hstyle.between ("node ".toList ++ ['[']) (']' :: ' ' :: Braces.enclose label)
  have hprint (m : Vec Float) : (InlineNode.mk label (style m)).print =
      'n' :: ("ode ".toList ++ (style m).inBrackets ++ ' ' :: '{' :: label) ++ ['}'] := by
    simp [InlineNode.print, Braces.enclose]
  have hne (m : Vec Float) : (InlineNode.mk label (style m)).print ≠ [] := by
    rw [hprint]
    exact List.append_ne_nil_of_right_ne_nil _ (List.cons_ne_nil _ _)
  have htrimmed (m : Vec Float) : Text.IsTrimmed (InlineNode.mk label (style m)).print := by
    rw [hprint]
    exact Text.isTrimmed_cons_append rfl rfl _
  exact .intro [' '] [' '] rfl rfl hcore hne htrimmed

end Segment

namespace DrawnPath

/-- Placed segments are printed with blanks at most at the ends, and in between a midpoint decides
the properties of the nodes without placement. -/
theorem padded_placeFrom {free : (Vec Float → Text) → Prop} (closed : Vec Float → Bool)
    (before : Vec Float → List (Segment Float)) {ss : List (Segment Float)} (hne : ss ≠ [])
    (hfree : ∀ i n, ss[i]? = some (.node n) → n.style.hasPlacement = false →
      free fun m ↦ Segment.propertiesAt
        (placeFrom (closed m) (before m) (ss.map (classifySegment m))) i) :
    Padded free fun m ↦
      (placeFrom (closed m) (before m) (ss.map (classifySegment m))).flatMap Segment.print := by
  induction ss generalizing before with
  | nil => exact absurd rfl hne
  | cons s ss ih =>
    have hfirst : Padded free fun m ↦ (placeSegment (closed m) (before m)
        (ss.map (classifySegment m)) (classifySegment m s)).print := by
      cases s with
      | point p => exact Segment.padded_print_point p
      | operator o => exact Segment.padded_print_operator o
      | node n =>
        cases h : n.style.hasPlacement with
        | true =>
          have hkept (m : Vec Float) : placeSegment (closed m) (before m)
              (ss.map (classifySegment m)) (classifySegment m (.node n)) = .node n := if_pos h
          simp only [hkept]
          exact Segment.padded_print_node n.label (.fixed n.style.print)
        | false =>
          have hlabel (m : Vec Float) : ∃ style, placeSegment (closed m) (before m)
              (ss.map (classifySegment m)) (classifySegment m (.node n)) =
                .node ⟨n.label, style⟩ := by
            change ∃ style, placeSegment _ _ _ (.node n) = _
            rw [placeSegment, h]
            split
            · exact ⟨_, rfl⟩
            · split <;> exact ⟨_, rfl⟩
          choose style hstyle using hlabel
          have hproperties := hfree 0 n rfl h
          simp only [List.map_cons, placeFrom, Segment.propertiesAt, hstyle] at hproperties
          simp only [hstyle]
          exact Segment.padded_print_node n.label (.free hproperties)
    simp only [List.map_cons, placeFrom, List.flatMap_cons]
    by_cases hmore : ss = []
    · subst hmore
      simpa [placeFrom] using hfirst
    · exact hfirst.append (ih _ hmore fun i n hnode hn ↦ hfree (i + 1) n hnode hn)

/-- In a printed path a midpoint decides at most the properties of its nodes without placement. -/
theorem variesOnlyIn_print (d : DrawnPath Float) :
    VariesOnlyIn (Token.FreeText (.path d)) fun m ↦ (d.annotate m).print := by
  have hbody : VariesOnlyIn (Token.FreeText (.path d)) fun m ↦ (d.annotate m).printBody := by
    by_cases hnil : d.segments = []
    · have hempty (m : Vec Float) : (d.annotate m).printBody = [] := by
        rw [printBody, annotate, placeLabels, hnil]
        rfl
      simp only [hempty]
      exact .fixed []
    · exact (padded_placeFrom _ (fun _ ↦ []) hnil fun i n hnode hn ↦ .node hnode hn).trim
  have hprint (m : Vec Float) : (d.annotate m).print =
      "\\draw ".toList ++ d.style.inBrackets ++ [' '] ++ (d.annotate m).printBody ++ [';'] := by
    have hstyle : (d.annotate m).style = d.style := rfl
    unfold print
    simp only [hstyle, List.append_assoc, List.cons_append, List.nil_append]
  simp only [hprint]
  exact hbody.between _ [';']

end DrawnPath

/-! ### All tokens -/

theorem Token.variesOnlyIn_print (extent : Extent Float) (token : Token) :
    VariesOnlyIn token.FreeText fun m ↦ (token.annotate m).print extent := by
  cases token with
  | coordinate c => exact c.variesOnlyIn_print
  | path d => exact d.variesOnlyIn_print
  | node n => exact .fixed n.print
  | circle c => exact .fixed c.print
  | raw text => exact .fixed text
  | angle m => exact .fixed m.print
  | axes a => exact .fixed (a.print extent)
  | grid g => exact .fixed (g.print extent)

/-- The tokens as they are printed once they are annotated with a midpoint. -/
def printAround (extent : Extent Float) (tokens : List Token) (midpoint : Vec Float) : Text :=
  (tokens.map (Token.annotate midpoint)).flatMap (Token.print extent)

/-- A midpoint decides nothing about labels and nodes that say where they go: if all do, the tokens
are printed alike around any two midpoints, and in general they are printed alike but for the sides
of the other labels and the properties of the other nodes. -/
theorem explicit_placements_stand (extent : Extent Float) (tokens : List Token) :
    ((∀ token ∈ tokens, token.isPlaced) →
      ∀ m m', printAround extent tokens m = printAround extent tokens m') ∧
    VariesOnlyIn (fun text ↦ ∃ token ∈ tokens, token.FreeText text)
      (printAround extent tokens) := by
  have hprint : printAround extent tokens =
      fun m ↦ tokens.flatMap fun token ↦ (token.annotate m).print extent :=
    funext fun m ↦ List.flatMap_map ..
  have hvaries : VariesOnlyIn (fun text ↦ ∃ token ∈ tokens, token.FreeText text)
      (printAround extent tokens) := by
    rw [hprint]
    exact .flatMap fun token htoken ↦
      (token.variesOnlyIn_print extent).mono fun _ htext ↦ ⟨token, htoken, htext⟩
  refine ⟨fun hplaced m m' ↦ hvaries.eq_of_not_free ?_ m m', hvaries⟩
  rintro text ⟨token, htoken, htext⟩
  exact Token.not_freeText_of_isPlaced (hplaced token htoken) text htext

/-- A label with a direction that has a value, and a node of a path with an anchor. -/
theorem explicit_placements_stand_pinned :
    let above : Style := ⟨[("red".toList, .flag), ("above".toList, .length 3)]⟩
    let anchored : Style := ⟨[("anchor".toList, .text "south")]⟩
    let tokens : List Token :=
      [.coordinate { NamedCoordinate.ofPoint (.ofVec ⟨1, 2⟩) "A" with label := some ⟨"x", above⟩ },
        .raw "\n", .path (.arrow (.ofVec ⟨0, 0⟩) (.ofVec ⟨2, 1⟩) [] {}),
        .path ⟨{}, [.point (.ofVec ⟨1, 2⟩), .node ⟨"n", anchored⟩, .point (.ofVec ⟨3, 0⟩)]⟩]
    (∀ token ∈ tokens, token.isPlaced) ∧
      printAround .empty tokens ⟨0, 0⟩ = printAround .empty tokens ⟨5, 5⟩ := by
  intro above anchored tokens
  have hplaced : ∀ token ∈ tokens, token.isPlaced := by decide
  exact ⟨hplaced, (explicit_placements_stand .empty tokens).1 hplaced _ _⟩

end DiagramMacros
