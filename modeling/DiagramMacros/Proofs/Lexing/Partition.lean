import DiagramMacros.Proofs.Lexing.Units
import Mathlib.Data.List.Chain
/-!
The lexemes of a source are a partition of it: they follow each other without gaps, none is empty,
the text of each is cut out of the source at its stretch, and raw ones are as long as they can be,
so that no two of them are neighbours.
-/

set_option autoImplicit false
set_option relaxedAutoImplicit false

namespace DiagramMacros

open Text

/-- Stretches from one byte to another, each beginning where the one before it ends. None is empty.
-/
def Contiguous : Nat → List Span → Nat → Prop
  | start, [], stop => start = stop
  | start, span :: spans, stop =>
    span.start = start ∧ start < span.stop ∧ Contiguous span.stop spans stop

/-- Lexemes that follow each other from some byte on and have this text together. -/
def Placed : Nat → List PlacedLexeme → Text → Prop
  | _, [], s => s = []
  | start, l :: ls, s =>
    l.lexeme.text ≠ [] ∧ l.span = ⟨start, start + size l.lexeme.text⟩ ∧
      ∃ rest, s = l.lexeme.text ++ rest ∧ Placed (start + size l.lexeme.text) ls rest

/-- Not both of two lexemes are raw. -/
def NotBothRaw (l l' : PlacedLexeme) : Prop := ¬ (l.lexeme.isRaw ∧ l'.lexeme.isRaw)

theorem placed_rawOf {start : Nat} {pending s : Text} {ls : List PlacedLexeme}
    (h : Placed (start + size pending) ls s) :
    Placed start (rawOf start pending ++ ls) (pending ++ s) := by
  unfold rawOf
  by_cases hpending : pending = []
  · subst hpending
    exact h
  · rw [if_neg hpending]
    exact ⟨hpending, rfl, s, rfl, h⟩

theorem isChain_call {k : Keyword} {tree : Forest Rule} {span : Span} {ls : List PlacedLexeme}
    (h : ls.IsChain NotBothRaw) :
    (⟨.call k tree, span⟩ :: ls : List PlacedLexeme).IsChain NotBothRaw :=
  List.isChain_cons.2 ⟨fun _ _ hraw ↦ Bool.noConfusion hraw.1, h⟩

theorem isChain_rawOf_call {start : Nat} {pending : Text} {k : Keyword} {tree : Forest Rule}
    {span : Span} {ls : List PlacedLexeme} (h : ls.IsChain NotBothRaw) :
    (rawOf start pending ++ ⟨.call k tree, span⟩ :: ls).IsChain NotBothRaw := by
  unfold rawOf
  by_cases hpending : pending = []
  · rw [if_pos hpending]
    exact isChain_call h
  · rw [if_neg hpending]
    refine List.isChain_cons.2 ⟨fun l hl hraw ↦ ?_, isChain_call h⟩
    obtain rfl : ⟨.call k tree, span⟩ = l := Option.some.inj hl
    exact Bool.noConfusion hraw.2

/-- Placed lexemes are a partition of a source: from its first byte to its last one, none of them
empty and no two neighbours both raw, and the text of each is what the source has at its stretch,
which begins and ends between characters. -/
structure IsPartition (source : Text) (ls : List PlacedLexeme) : Prop where
  contiguous : Contiguous 0 (ls.map PlacedLexeme.span) (size source)
  texts : ∀ l ∈ ls, source.slice? l.span.start l.span.stop = some l.lexeme.text
  alternate : ls.IsChain NotBothRaw

/-- What the search finds, it finds in place. -/
theorem Lexing.placed {start : Nat} {pending s : Text}
    {r : Except LexFailure (List PlacedLexeme)} (h : Lexing start pending s r) :
    ∀ ls, r = .ok ls → Placed start ls (pending ++ s) ∧ ls.IsChain NotBothRaw := by
  induction h with
  | @finish start pending =>
    rintro ls ⟨⟩
    have hend : Placed (start + size pending) [] [] := rfl
    have hplaced := placed_rawOf hend
    rw [List.append_nil] at hplaced
    refine ⟨hplaced, ?_⟩
    unfold rawOf
    by_cases hpending : pending = []
    · rw [if_pos hpending]
      exact List.isChain_nil
    · rw [if_neg hpending]
      exact List.isChain_singleton _
  | @unit start pending u rest r _ _ _ _ ih =>
    intro ls hr
    obtain ⟨hplaced, hchain⟩ := ih ls hr
    rw [List.append_assoc] at hplaced
    exact ⟨hplaced, hchain⟩
  | @call start pending s rest k tree r hcall _ ih =>
    intro ls hr
    obtain ⟨ls', hls', rfl⟩ := map_eq_ok_iff.1 hr
    obtain ⟨hplaced, hchain⟩ := ih ls' hls'
    refine ⟨placed_rawOf ⟨?_, rfl, rest, hcall.flatten, hplaced⟩, isChain_rawOf_call hchain⟩
    intro hnil
    have hlength := hcall.size_pos
    have hs := hcall.flatten
    rw [show tree.flatten = [] from hnil, List.nil_append] at hs
    rw [hs] at hlength
    exact absurd hlength (Nat.lt_irrefl _)
  | refused _ _ =>
    intro ls hr
    simp at hr

theorem placed_lexPlaced {source : Text} {ls : List PlacedLexeme} (h : lexPlaced source = .ok ls) :
    Placed 0 ls source ∧ ls.IsChain NotBothRaw :=
  (lexing_lexPlaced source).placed ls h

theorem Placed.contiguous {start : Nat} {ls : List PlacedLexeme} {s : Text}
    (h : Placed start ls s) : Contiguous start (ls.map PlacedLexeme.span) (start + size s) := by
  induction ls generalizing start s with
  | nil =>
    obtain rfl : s = [] := h
    rfl
  | cons l ls ih =>
    obtain ⟨hne, hspan, rest, rfl, hmore⟩ := h
    have hpos : 0 < size l.lexeme.text := Nat.pos_of_ne_zero fun h ↦ hne (size_eq_zero_iff.1 h)
    have hrest := ih hmore
    rw [Nat.add_assoc, ← size_append] at hrest
    rw [List.map_cons, hspan]
    exact ⟨rfl, Nat.lt_add_of_pos_right hpos, hrest⟩

/-- The text of each lexeme stands in the source at its stretch. -/
theorem Placed.slice? {done s : Text} {ls : List PlacedLexeme} (h : Placed (size done) ls s) :
    ∀ l ∈ ls, (done ++ s).slice? l.span.start l.span.stop = some l.lexeme.text := by
  induction ls generalizing done s with
  | nil => simp
  | cons l ls ih =>
    obtain ⟨_, hspan, rest, rfl, hmore⟩ := h
    intro l' hl'
    rcases List.mem_cons.1 hl' with rfl | hl'
    · rw [hspan, ← List.append_assoc]
      exact slice?_append done l'.lexeme.text rest
    · rw [← size_append] at hmore
      rw [← List.append_assoc]
      exact ih hmore l' hl'

theorem Placed.le_start {start : Nat} {ls : List PlacedLexeme} {s : Text}
    (h : Placed start ls s) : ∀ l ∈ ls, start ≤ l.span.start := by
  induction ls generalizing start s with
  | nil => simp
  | cons l ls ih =>
    obtain ⟨_, hspan, rest, _, hmore⟩ := h
    intro l' hl'
    rcases List.mem_cons.1 hl' with rfl | hl'
    · rw [hspan]
    · exact (Nat.le_add_right _ _).trans (ih hmore l' hl')

/-- A lexeme that begins in another one is the same one. -/
theorem Placed.eq_of_overlap {start : Nat} {ls : List PlacedLexeme} {s : Text}
    (h : Placed start ls s) {l l' : PlacedLexeme} (hl : l ∈ ls) (hl' : l' ∈ ls)
    (hstart : l.span.start ≤ l'.span.start) (hstop : l'.span.start < l.span.stop) : l = l' := by
  induction ls generalizing start s with
  | nil => simp at hl
  | cons head ls ih =>
    obtain ⟨hne, hspan, rest, _, hmore⟩ := h
    have hpos : size head.lexeme.text ≠ 0 := fun hzero ↦ hne (size_eq_zero_iff.1 hzero)
    rcases List.mem_cons.1 hl with rfl | hmem
    · rcases List.mem_cons.1 hl' with rfl | hmem'
      · rfl
      · have hle := hmore.le_start l' hmem'
        rw [hspan] at hstop
        exact absurd hstop (Nat.not_lt_of_le hle)
    · rcases List.mem_cons.1 hl' with rfl | hmem'
      · have hle := hmore.le_start l hmem
        rw [hspan] at hstart
        dsimp only at hstart
        omega
      · exact ih hmore hmem hmem'

/-- The lexemes of a source are a partition of it. -/
theorem isPartition_lexPlaced {source : Text} {ls : List PlacedLexeme}
    (h : lexPlaced source = .ok ls) : IsPartition source ls := by
  obtain ⟨hplaced, halternate⟩ := placed_lexPlaced h
  have hplaced' : Placed (size []) ls source := hplaced
  refine ⟨?_, hplaced'.slice?, halternate⟩
  rw [← Nat.zero_add (size source)]
  exact hplaced.contiguous

theorem Placed.spans {start : Nat} {ls : List PlacedLexeme} {s : Text} (h : Placed start ls s) :
    Lexeme.spans start (ls.map PlacedLexeme.lexeme) = ls.map PlacedLexeme.span := by
  induction ls generalizing start s with
  | nil => rfl
  | cons l ls ih =>
    obtain ⟨_, hspan, rest, _, hmore⟩ := h
    rw [List.map_cons, List.map_cons, Lexeme.spans, hspan, ← ih hmore]
    rfl

/-- The stretches that the lexemes of a source have by their sizes are where the search finds them.
-/
theorem spans_lex {source : Text} {lexemes : List Lexeme} (h : lex source = .ok lexemes) :
    ∃ ls, lexPlaced source = .ok ls ∧ ls.map PlacedLexeme.lexeme = lexemes ∧
      ls.map PlacedLexeme.span = Lexeme.spans 0 lexemes := by
  obtain ⟨ls, hls, rfl⟩ := map_eq_ok_iff.1 h
  exact ⟨ls, hls, rfl, (placed_lexPlaced hls).1.spans.symm⟩

end DiagramMacros
