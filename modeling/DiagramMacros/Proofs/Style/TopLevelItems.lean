import DiagramMacros.Proofs.Depth
import DiagramMacros.Proofs.Style.Splitting
/-!
The items of an arbitrary list, balanced or not. A text ends outside braces and quotes if it has an
even number of quotes and, without what is quoted, comes back to depth zero (`Items.EndsOutside`).
The two counts of the scan are exactly that (`Items.isOpen_after_iff`), although each of them hides
characters from the other.

A list without a comma outside is a single piece, and otherwise its first such comma cuts off a
piece that ends outside, after which the scan starts again. This is a case distinction
(`Items.exists_first_cut`) and an induction on lists (`Items.cut_induction`), from which the laws
follow for all lists (`Items.split_at_outer_commas`): the items come in order from the text between
commas, none has a comma outside, the items joined with commas are their own items, and a list that
ends outside can be followed by a comma and any other list.
-/

set_option autoImplicit false
set_option relaxedAutoImplicit false

namespace DiagramMacros.Items

open Text

variable {p : Position} {s item blanks : Text} {c : Char}

/-! ### Outside braces and quotes -/

/-- A text without what stands in quotes, and without the quotes. The first argument tells whether a
quote is open at its start; a quote that is never closed goes on to the end. -/
def unquoted : Bool → Text → Text
  | _, [] => []
  | quoted, c :: s =>
    if c = '\"' then unquoted (!quoted) s
    else if quoted then unquoted quoted s
    else c :: unquoted quoted s

/-- No quote and no brace is open at the end of a text. Braces in quotes do not count, and neither
does a closing brace with none open. -/
structure EndsOutside (s : Text) : Prop where
  quotes : s.count '\"' % 2 = 0
  depth_eq : Delimiters.braces.depth (unquoted false s) = 0

theorem endsOutside_iff : EndsOutside s ↔
    s.count '\"' % 2 = 0 ∧ Delimiters.braces.depth (unquoted false s) = 0 :=
  ⟨fun h ↦ ⟨h.quotes, h.depth_eq⟩, fun h ↦ ⟨h.1, h.2⟩⟩

instance (s : Text) : Decidable (EndsOutside s) := decidable_of_iff _ endsOutside_iff.symm

/-- The position after a character outside quotes. -/
theorem step_unquoted (depth : Nat) (hc : c ≠ '\"') :
    Position.step ⟨depth, false⟩ c = ⟨Delimiters.braces.step depth c, false⟩ := by
  rw [Position.step, if_neg hc, Delimiters.step]
  by_cases hopening : c = '\x7b'
  · simp [hopening, Delimiters.braces]
  · by_cases hclosing : c = '\x7d' <;> simp [hopening, hclosing, Delimiters.braces]

/-- The scan is in quotes after an odd number of them, and its depth is that of the text without
what is quoted. -/
theorem after_eq (depth : Nat) (quoted : Bool) (s : Text) :
    Position.after ⟨depth, quoted⟩ s =
      ⟨Delimiters.braces.depthFrom depth (unquoted quoted s),
        quoted != decide (s.count '\"' % 2 = 1)⟩ := by
  induction s generalizing depth quoted with
  | nil => simp [Position.after, unquoted, Delimiters.depthFrom]
  | cons c s ih =>
    rw [Position.after_cons]
    by_cases hc : c = '\"'
    · have hparity : decide ((s.count '\"' + 1) % 2 = 1) = !decide (s.count '\"' % 2 = 1) := by
        rw [← decide_not, decide_eq_decide]
        omega
      have hstep : Position.step ⟨depth, quoted⟩ c = ⟨depth, !quoted⟩ := if_pos hc
      rw [hstep, ih, unquoted, if_pos hc, hc, List.count_cons_self, hparity, Bool.not_bne,
        Bool.bne_not]
    · rw [List.count_cons_of_ne hc, unquoted, if_neg hc]
      cases quoted with
      | true =>
        have hstep : Position.step ⟨depth, true⟩ c = ⟨depth, true⟩ := by
          rw [Position.step, if_neg hc]
          rfl
        rw [hstep, ih]
        rfl
      | false =>
        rw [step_unquoted depth hc, ih]
        rfl

/-- The scan is outside braces and quotes exactly if the text ends there. -/
theorem isOpen_after_iff : (Position.after {} s).isOpen ↔ EndsOutside s := by
  rw [after_eq, Position.isOpen, endsOutside_iff, Delimiters.depth, and_comm]
  simp

/-! ### The first cut -/

/-- A text is a single piece, or its first piece ends where a comma follows outside. -/
theorem exists_first_cut (p : Position) (s : Text) : pieces p s = [s] ∨
    ∃ a b, s = a ++ ',' :: b ∧ pieces p a = [a] ∧ (p.after a).isOpen := by
  induction s generalizing p with
  | nil => exact Or.inl rfl
  | cons c s ih =>
    by_cases hcomma : c = ',' ∧ p.isOpen
    · obtain ⟨rfl, hopen⟩ := hcomma
      exact Or.inr ⟨[], s, rfl, rfl, hopen⟩
    · rcases ih (p.step c) with hsingle | ⟨a, b, rfl, hsingle, hopen⟩
      · exact Or.inl (pieces_cons hcomma hsingle)
      · exact Or.inr ⟨c :: a, b, rfl, pieces_cons hcomma hsingle, hopen⟩

/-- What holds of single pieces, and of a list if it holds of the list after its first piece, holds
of all lists. -/
theorem cut_induction {motive : Text → Prop} (single : ∀ s, pieces {} s = [s] → motive s)
    (cut : ∀ a b, pieces {} a = [a] → (Position.after {} a).isOpen → motive b →
      motive (a ++ ',' :: b)) (s : Text) : motive s := by
  induction hn : s.length using Nat.strongRecOn generalizing s with
  | ind n ih =>
    subst hn
    rcases exists_first_cut {} s with hsingle | ⟨a, b, rfl, hsingle, hopen⟩
    · exact single s hsingle
    · have hlt : b.length < (a ++ ',' :: b).length := by
        rw [List.length_append, List.length_cons]
        omega
      exact cut a b hsingle hopen (ih b.length hlt b rfl)

/-- The pieces are what stands between commas of the list. -/
theorem join_pieces (s : Text) : join "," (pieces {} s) = s := by
  induction s using cut_induction with
  | single s hsingle => rw [hsingle, join_singleton]
  | cut a b hsingle hopen ih =>
    obtain ⟨piece, others, hpieces⟩ := exists_pieces {} b
    rw [pieces_append_comma hopen, hsingle, List.singleton_append, hpieces, join_comma_cons,
      ← hpieces, ih]

/-- Every piece is a single one. -/
theorem pieces_of_mem_pieces (s : Text) : ∀ piece ∈ pieces {} s, pieces {} piece = [piece] := by
  induction s using cut_induction with
  | single s hsingle => simp [hsingle]
  | cut a b hsingle hopen ih =>
    rw [pieces_append_comma hopen, hsingle, List.singleton_append]
    exact List.forall_mem_cons.2 ⟨hsingle, ih⟩

/-! ### Blanks around an item -/

theorem after_append (p : Position) (s t : Text) : p.after (s ++ t) = (p.after s).after t :=
  List.foldl_append

theorem after_of_blanks (h : blanks.all isBlank) : p.after blanks = p := by
  induction blanks with
  | nil => rfl
  | cons c blanks ih =>
    rw [List.all_cons, Bool.and_eq_true] at h
    have hspecial := isSpecial_of_isBlank h.1
    simp only [isSpecial, Bool.or_eq_false_iff, beq_eq_false_iff_ne] at hspecial
    obtain ⟨⟨⟨hquote, _⟩, hopening⟩, hclosing⟩ := hspecial
    have hstep : p.step c = p := by simp [Position.step, hquote, hopening, hclosing]
    rw [Position.after_cons, hstep, ih h.2]

/-- A text without the blanks at its ends ends at the same depth. -/
theorem after_trim (p : Position) (s : Text) : p.after (trim s) = p.after s := by
  obtain ⟨before, after, hs, hbefore, hafter⟩ := exists_trim s
  conv_rhs => rw [hs]
  rw [after_append, after_append, after_of_blanks hbefore, after_of_blanks hafter]

/-- A single piece stays one without the blanks at its ends. -/
theorem pieces_trim (h : pieces {} s = [s]) : pieces {} (trim s) = [trim s] := by
  obtain ⟨before, after, hs, hbefore, -⟩ := exists_trim s
  rw [pieces_eq_singleton_iff] at h ⊢
  intro u v htrim
  have hcut : s = (before ++ u) ++ ',' :: (v ++ after) := by
    rw [hs, htrim]
    simp
  have hclosed := h _ _ hcut
  rwa [after_append, after_of_blanks hbefore] at hclosed

/-- A single piece is its own item, or none if it is blank. -/
theorem split_of_single (h : pieces {} s = [s]) :
    trim s = [] ∧ split s = [] ∨ trim s ≠ [] ∧ split s = [trim s] := by
  rw [split, h]
  by_cases htrim : trim s = [] <;> simp [htrim]

theorem split_trim (h : pieces {} s = [s]) : split (trim s) = split s := by
  rw [split, split, h, pieces_trim h, List.map_singleton, List.map_singleton,
    (isTrimmed_trim s).trim_eq]

/-! ### The laws of splitting -/

/-- An item has no comma outside braces and quotes. -/
theorem not_endsOutside_of_mem_split (h : item ∈ split s) {before after : Text}
    (hitem : item = before ++ ',' :: after) : ¬EndsOutside before := by
  obtain ⟨-, piece, hpiece, rfl⟩ := mem_split_iff.1 h
  rw [← isOpen_after_iff]
  exact pieces_eq_singleton_iff.1 (pieces_trim (pieces_of_mem_pieces s piece hpiece)) _ _ hitem

/-- The items joined with commas are the items of the list that they make. -/
theorem split_join_split (s : Text) : split (join "," (split s)) = split s := by
  induction s using cut_induction with
  | single s hsingle =>
    rcases split_of_single hsingle with ⟨-, hsplit⟩ | ⟨-, hsplit⟩
    · rw [hsplit]
      rfl
    · rw [hsplit, join_singleton, split_trim hsingle, hsplit]
  | cut a b hsingle hopen ih =>
    rw [split_append_comma hopen]
    rcases split_of_single hsingle with ⟨-, hsplit⟩ | ⟨-, hsplit⟩
    · rw [hsplit, List.nil_append, ih]
    · rw [hsplit, List.singleton_append]
      cases hmore : split b with
      | nil => rw [join_singleton, split_trim hsingle, hsplit]
      | cons item items =>
        have hopen' : (Position.after {} (trim a)).isOpen := by rwa [after_trim]
        rw [join_comma_cons, split_append_comma hopen', ← hmore, ih, split_trim hsingle, hsplit,
          List.singleton_append]

/-- The items of a list come in order from what stands between commas. They are trimmed and not
empty, and none has a comma outside braces and quotes. Joined with commas they are split into the
same items. A list that ends outside braces and quotes can be followed by a comma and any other
list, and the items of the whole are those of the two. -/
theorem split_at_outer_commas :
    (∀ s : Text,
      (∃ between, join "," between = s ∧
        split s = (between.map trim).filter fun item ↦ !item.isEmpty) ∧
      (∀ item ∈ split s, item ≠ [] ∧ IsTrimmed item ∧
        ∀ before after, item = before ++ ',' :: after → ¬EndsOutside before) ∧
      split (join "," (split s)) = split s) ∧
    ∀ a b : Text, EndsOutside a → split (a ++ ',' :: b) = split a ++ split b := by
  refine ⟨fun s ↦ ⟨⟨pieces {} s, join_pieces s, rfl⟩, fun item hitem ↦ ?_, split_join_split s⟩,
    fun a b ha ↦ split_append_comma (isOpen_after_iff.2 ha)⟩
  exact ⟨ne_nil_of_mem_split hitem, isTrimmed_of_mem_split hitem,
    fun before after ↦ not_endsOutside_of_mem_split hitem⟩

/-- A list that closes a brace too many and quotes an opening one, before a list whose brace is
never closed. -/
theorem split_at_outer_commas_unbalanced :
    let a := "é=\x7d, \"\x7b,\" ,,".toList
    let b := " x=\x7b1,2 , \"y\"".toList
    EndsOutside a ∧
      split (a ++ ',' :: b) = split a ++ split b ∧
      split a = ["é=\x7d".toList, "\"\x7b,\"".toList] ∧
      split b = ["x=\x7b1,2 , \"y\"".toList] ∧
      ¬EndsOutside "x=\x7b1" ∧
      split (join "," (split (a ++ ',' :: b))) = split (a ++ ',' :: b) := by
  intro a b
  have hends : EndsOutside a := by decide
  have hitem : "x=\x7b1,2 , \"y\"".toList ∈ split b := by decide
  exact ⟨hends, split_at_outer_commas.2 a b hends, by decide, by decide,
    ((split_at_outer_commas.1 b).2.1 _ hitem).2.2 _ "2 , \"y\"" rfl,
    (split_at_outer_commas.1 (a ++ ',' :: b)).2.2⟩

end DiagramMacros.Items
