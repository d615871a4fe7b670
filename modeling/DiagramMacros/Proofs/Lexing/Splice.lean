import DiagramMacros.Diagram.Document
import DiagramMacros.Proofs.Lexing.Partition
/-!
What becomes of a source: its calls are replaced, each by the printed token that is built from it,
and everything else stays as it is (`source_kept_outside_calls`). The replaced stretches are those
of the calls among the lexemes, so this rests on the lexemes being a partition of the source.
-/

set_option autoImplicit false
set_option relaxedAutoImplicit false

namespace DiagramMacros

open Text

/-- Lexemes built in order, each in the scope that the ones before it leave. -/
inductive Built : Scope → List PlacedLexeme → List Token → Scope → Prop
  | nil {scope : Scope} : Built scope [] [] scope
  | cons {scope scope' scope'' : Scope} {l : PlacedLexeme} {ls : List PlacedLexeme} {token : Token}
      {tokens : List Token} (h : scope.buildLexeme l.lexeme = .ok (token, scope'))
      (more : Built scope' ls tokens scope'') : Built scope (l :: ls) (token :: tokens) scope''

/-- The source from a byte on, with texts in place of some of its stretches. -/
def splice (source : Text) : Nat → List (Span × Text) → Text
  | pos, [] => source.slice pos (size source)
  | pos, (span, text) :: more => source.slice pos span.start ++ text ++ splice source span.stop more

/-- The stretches of the calls among lexemes, each with the printed token at its place. -/
def replacements (extent : Extent Float) : List PlacedLexeme → List Token → List (Span × Text)
  | ⟨.raw _, _⟩ :: ls, _ :: tokens => replacements extent ls tokens
  | ⟨.call _ _, span⟩ :: ls, token :: tokens =>
    (span, token.print extent) :: replacements extent ls tokens
  | _, _ => []

/-- The tokens of raw lexemes are their texts. -/
def KeepsRaw (l : PlacedLexeme) (token : Token) : Prop :=
  ∀ text, l.lexeme = .raw text → token = .raw text

theorem Built.keepsRaw {scope scope' : Scope} {ls : List PlacedLexeme} {tokens : List Token}
    (h : Built scope ls tokens scope') : List.Forall₂ KeepsRaw ls tokens := by
  induction h with
  | nil => exact List.Forall₂.nil
  | @cons scope scope' scope'' l ls token tokens hbuild _ ih =>
    refine List.Forall₂.cons (fun text hl ↦ ?_) ih
    rw [hl] at hbuild
    exact (congrArg Prod.fst (Except.ok.inj hbuild)).symm

theorem built_of_buildAll {scope scope' : Scope} {ls : List PlacedLexeme} {tokens : List Token}
    (h : buildAll scope ls = .ok (tokens, scope')) : Built scope ls tokens scope' := by
  induction ls generalizing scope tokens with
  | nil =>
    obtain ⟨rfl, rfl⟩ := Prod.mk.inj (Except.ok.inj h)
    exact Built.nil
  | cons l ls ih =>
    rw [buildAll] at h
    cases hbuild : scope.buildLexeme l.lexeme with
    | error failure =>
      rw [hbuild] at h
      simp at h
    | ok built =>
      rw [hbuild] at h
      obtain ⟨⟨tokens', scope''⟩, hmore, heq⟩ := map_eq_ok_iff.1 h
      obtain ⟨rfl, rfl⟩ := Prod.mk.inj heq
      exact Built.cons hbuild (ih hmore)

/-- Annotating tokens with a midpoint, if there is one, keeps raw tokens as they are. -/
theorem keepsRaw_annotate {ls : List PlacedLexeme} {tokens : List Token}
    (h : List.Forall₂ KeepsRaw ls tokens) (midpoint : Option (Point Float)) :
    List.Forall₂ KeepsRaw ls
      (midpoint.elim tokens fun m ↦ tokens.map (Token.annotate m.position)) := by
  cases midpoint with
  | none => exact h
  | some m =>
    refine List.forall₂_map_right_iff.2 (h.imp fun l token hraw text hl ↦ ?_)
    rw [hraw text hl]
    rfl

/-- Replacing the calls gives the printed tokens one after the other. The text `pending` is raw text
that the next replacement has before it. -/
theorem splice_replacements {source : Text} {extent : Extent Float} {ls : List PlacedLexeme}
    {tokens : List Token} (h : List.Forall₂ KeepsRaw ls tokens) :
    ∀ {done pending s : Text}, source = done ++ pending ++ s →
      Placed (size done + size pending) ls s →
      splice source (size done) (replacements extent ls tokens) =
        pending ++ tokens.flatMap (Token.print extent) := by
  induction h with
  | nil =>
    intro done pending s hsource hplaced
    obtain rfl : s = [] := hplaced
    have hend : size source = size done + size pending := by
      rw [hsource, size_append, size_append, size_nil, Nat.add_zero]
    rw [replacements, splice, hend, hsource, slice_append]
    · simp
    · simp
    · simp
  | @cons l token ls tokens hraw _ ih =>
    intro done pending s hsource hplaced
    obtain ⟨lexeme, span⟩ := l
    obtain ⟨_, hspan, rest, hs, hmore⟩ := hplaced
    dsimp only at hspan hs hmore
    subst hspan hs
    cases lexeme with
    | raw text =>
      have hmore' : Placed (size done + size (pending ++ text)) ls rest := by
        rw [size_append, ← Nat.add_assoc]
        exact hmore
      have hrest := ih (by rw [hsource]; simp [Lexeme.text]) hmore'
      rw [replacements, hrest, hraw text rfl, List.flatMap_cons, List.append_assoc]
      rfl
    | call k tree =>
      have hstop : size done + size pending + size tree.flatten =
          size (done ++ pending ++ tree.flatten) := by
        rw [size_append, size_append]
      have hmore' : Placed (size (done ++ pending ++ tree.flatten) + size []) ls rest := by
        rw [← hstop]
        exact hmore
      have hrest := ih (by rw [hsource]; simp [Lexeme.text]) hmore'
      rw [replacements, splice]
      dsimp only [Lexeme.text]
      rw [hstop, hrest, hsource, slice_append, List.flatMap_cons, List.append_assoc]
      rfl

/-- A document is made of the lexemes of its source, built in order. -/
theorem exists_built_of_ofSource {source : Text} {d : Document}
    (h : Document.ofSource source = .ok d) : ∃ ls tokens, lexPlaced source = .ok ls ∧
      Built {} ls tokens d.scope ∧
      d.tokens = d.midpoint.elim tokens fun m ↦ tokens.map (Token.annotate m.position) := by
  unfold Document.ofSource at h
  cases hlex : lexPlaced source with
  | error e =>
    rw [hlex] at h
    simp at h
  | ok ls =>
    rw [hlex] at h
    obtain ⟨⟨tokens, scope⟩, hbuild, rfl⟩ := map_eq_ok_iff.1 h
    exact ⟨ls, tokens, rfl, built_of_buildAll hbuild, rfl⟩

/-- The body of a document is its source with the calls replaced. -/
theorem body_eq_splice {source : Text} {d : Document} {ls : List PlacedLexeme} {tokens : List Token}
    (hlex : lexPlaced source = .ok ls) (hbuilt : Built {} ls tokens d.scope)
    (htokens : d.tokens = d.midpoint.elim tokens fun m ↦ tokens.map (Token.annotate m.position)) :
    d.body = splice source 0 (replacements d.extent ls d.tokens) := by
  have hraw : List.Forall₂ KeepsRaw ls d.tokens := by
    rw [htokens]
    exact keepsRaw_annotate hbuilt.keepsRaw d.midpoint
  have hplaced : Placed (size [] + size []) ls source := (placed_lexPlaced hlex).1
  have hsplice := @splice_replacements source d.extent ls d.tokens hraw [] [] source rfl hplaced
  exact hsplice.symm

/-- Raw lexemes are built in every scope. -/
theorem exists_buildAll_of_isRaw {ls : List PlacedLexeme} (h : ∀ l ∈ ls, l.lexeme.isRaw)
    (scope : Scope) : ∃ tokens, buildAll scope ls = .ok (tokens, scope) := by
  induction ls with
  | nil => exact ⟨[], rfl⟩
  | cons l ls ih =>
    obtain ⟨tokens, hmore⟩ := ih fun l' hl' ↦ h l' (List.mem_cons_of_mem _ hl')
    obtain ⟨lexeme, span⟩ := l
    cases lexeme with
    | raw text =>
      refine ⟨.raw text :: tokens, ?_⟩
      rw [buildAll]
      simp only [Scope.buildLexeme, hmore]
      rfl
    | call k tree => exact Bool.noConfusion (h ⟨.call k tree, span⟩ List.mem_cons_self)

/-- Raw lexemes have nothing to replace. -/
theorem replacements_of_isRaw {extent : Extent Float} {ls : List PlacedLexeme} {tokens : List Token}
    (h : ∀ l ∈ ls, l.lexeme.isRaw) : replacements extent ls tokens = [] := by
  induction ls generalizing tokens with
  | nil => rfl
  | cons l ls ih =>
    obtain ⟨lexeme, span⟩ := l
    cases lexeme with
    | raw text =>
      cases tokens with
      | nil => rfl
      | cons token tokens => exact ih fun l' hl' ↦ h l' (List.mem_cons_of_mem _ hl')
    | call k tree => exact Bool.noConfusion (h ⟨.call k tree, span⟩ List.mem_cons_self)

/-- A source with no call is its own body. -/
theorem exists_ofSource_of_isRaw {source : Text} {ls : List PlacedLexeme}
    (hlex : lexPlaced source = .ok ls) (hraw : ∀ l ∈ ls, l.lexeme.isRaw) :
    ∃ d, Document.ofSource source = .ok d ∧ d.body = source := by
  obtain ⟨tokens, hbuild⟩ := exists_buildAll_of_isRaw hraw {}
  have hd : Document.ofSource source = .ok (Document.finish tokens {}) := by
    rw [Document.ofSource, hlex]
    simp only [hbuild]
    rfl
  have hbody := body_eq_splice hlex (d := Document.finish tokens {}) (built_of_buildAll hbuild) rfl
  rw [replacements_of_isRaw hraw, splice] at hbody
  have hall := slice_append [] source []
  rw [size_nil, Nat.zero_add, List.nil_append, List.append_nil] at hall
  exact ⟨_, hd, hbody.trans hall⟩

/-- Outside its calls a source is kept: its lexemes are a partition of it, the body of its document
has the printed token of each call at the stretch of that call and the source everywhere else, and a
source with no call becomes a document that is the source itself, up to what is put around it. -/
theorem source_kept_outside_calls (source : Text) :
    (∀ ls, lexPlaced source = .ok ls → IsPartition source ls) ∧
    (∀ d, Document.ofSource source = .ok d → ∃ ls tokens, lexPlaced source = .ok ls ∧
      Built {} ls tokens d.scope ∧
      d.tokens = (d.midpoint.elim tokens fun m ↦ tokens.map (Token.annotate m.position)) ∧
      d.body = splice source 0 (replacements d.extent ls d.tokens)) ∧
    (∀ ls, lexPlaced source = .ok ls → (∀ l ∈ ls, l.lexeme.isRaw) →
      ∃ d, Document.ofSource source = .ok d ∧
        d.output true = Preamble.opening ++ source ++ Preamble.closing ∧
        d.output false = source) := by
  refine ⟨fun ls hlex ↦ isPartition_lexPlaced hlex, fun d hd ↦ ?_, fun ls hlex hraw ↦ ?_⟩
  · obtain ⟨ls, tokens, hlex, hbuilt, htokens⟩ := exists_built_of_ofSource hd
    exact ⟨ls, tokens, hlex, hbuilt, htokens, body_eq_splice hlex hbuilt htokens⟩
  · obtain ⟨d, hd, hbody⟩ := exists_ofSource_of_isRaw hlex hraw
    refine ⟨d, hd, ?_, hbody⟩
    rw [← hbody]
    rfl

/-- A comment that hides a call, a line break and a character of two bytes, all before a call. -/
def axesSource : Text := "é%\\grid\x7b\x7d\n\\\\\\xyaxis\x7bx\x7d\x7by\x7d!".toList

/-- The same with no call. -/
def rawSource : Text := "é%\\grid\x7b\x7d\n\\\\\\%xyaxis".toList

theorem source_kept_outside_calls_axes :
    (∃ ls d, lexPlaced axesSource = .ok ls ∧ Document.ofSource axesSource = .ok d ∧
      ls.map PlacedLexeme.span = [⟨0, 13⟩, ⟨13, 26⟩, ⟨26, 27⟩] ∧ IsPartition axesSource ls ∧
      d.body = splice axesSource 0 (replacements d.extent ls d.tokens)) ∧
    ∃ d, Document.ofSource rawSource = .ok d ∧ d.output false = rawSource := by
  constructor
  · have hok : (Document.ofSource axesSource).isOk := by decide +kernel
    cases hd : Document.ofSource axesSource with
    | error report =>
      rw [hd] at hok
      exact Bool.noConfusion hok
    | ok d =>
      obtain ⟨hpartition, hbody, _⟩ := source_kept_outside_calls axesSource
      obtain ⟨ls, _, hlex, _, _, hsplice⟩ := hbody d hd
      have hspans : ((lexPlaced axesSource).map fun ls ↦ ls.map PlacedLexeme.span) =
          .ok [⟨0, 13⟩, ⟨13, 26⟩, ⟨26, 27⟩] := by decide +kernel
      rw [hlex] at hspans
      exact ⟨ls, d, hlex, rfl, Except.ok.inj hspans, hpartition ls hlex, hsplice⟩
  · have hlex : lexPlaced rawSource = .ok [⟨.raw rawSource, 0, size rawSource⟩] := by decide +kernel
    have hraw : ∀ l ∈ [(⟨.raw rawSource, 0, size rawSource⟩ : PlacedLexeme)], l.lexeme.isRaw := by
      simp [Lexeme.isRaw]
    obtain ⟨d, hd, _, houtput⟩ := (source_kept_outside_calls rawSource).2.2 _ hlex hraw
    exact ⟨d, hd, houtput⟩

end DiagramMacros
