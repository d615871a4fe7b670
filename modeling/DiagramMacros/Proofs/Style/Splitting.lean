import DiagramMacros.Braces
import DiagramMacros.Proofs.Words
import DiagramMacros.Style.Items
/-!
Joining items into a list and splitting it again. An item is sealed if its braces are matched, its
commas stand in braces and it has no quotes. Sealed items that are joined with commas are the items
of the list (`split_join`), and every item of a balanced list without quotes is sealed
(`isSealed_of_mem_split`). Blanks make no difference to this (`isSealed_congr`).

Sealed or not, a list that ends outside braces and quotes can be followed by a comma and another
list, and the items of the whole are those of both (`split_append_comma`).
-/

set_option autoImplicit false
set_option relaxedAutoImplicit false

namespace DiagramMacros

namespace Braces

variable {s : Text} {c : Char} {depth after : Nat}

/-- The depth after a character. -/
def depthStep (depth : Nat) (c : Char) : Option Nat :=
  if c = '{' then some (depth + 1)
  else if c = '}' then (if depth = 0 then none else some (depth - 1))
  else some depth

theorem depthFrom_cons (depth : Nat) (c : Char) (s : Text) :
    depthFrom depth (c :: s) = (depthStep depth c).bind fun d ↦ depthFrom d s := by
  simp only [depthFrom, depthStep]
  split
  · rfl
  · split
    · cases depth <;> rfl
    · rfl

theorem depthStep_succ (h : depthStep depth c = some after) :
    depthStep (depth + 1) c = some (after + 1) := by
  unfold depthStep at h ⊢
  split at h
  · simp_all
  · split at h
    · split at h
      · simp at h
      · obtain rfl := Option.some.inj h
        simp_all
        omega
    · simp_all

end Braces

namespace Items

open Text Braces

variable {s t item body : Text} {c : Char} {depth after : Nat}

/-! ### Sealed texts -/

/-- The brace depth after a character; none if it closes a brace that is not open, is a quote, or is
a comma at depth zero. -/
def sealStep (depth : Nat) (c : Char) : Option Nat :=
  if c = '\"' ∨ (c = ',' ∧ depth = 0) then none else depthStep depth c

/-- The brace depth after a text none of whose characters ends an item. -/
def sealFrom : Nat → Text → Option Nat
  | depth, [] => some depth
  | depth, c :: s => (sealStep depth c).bind fun d ↦ sealFrom d s

/-- A text has no quotes, its braces are matched, and each of its commas stands in braces. -/
def IsSealed (s : Text) : Prop := sealFrom 0 s = some 0

instance (s : Text) : Decidable (IsSealed s) := inferInstanceAs (Decidable (_ = _))

theorem sealStep_eq_some : sealStep depth c = some after ↔
    c ≠ '\"' ∧ ¬(c = ',' ∧ depth = 0) ∧ depthStep depth c = some after := by
  rw [sealStep, Option.ite_none_left_eq_some, not_or, and_assoc]

theorem sealFrom_append (depth : Nat) (s t : Text) :
    sealFrom depth (s ++ t) = (sealFrom depth s).bind fun d ↦ sealFrom d t := by
  induction s generalizing depth with
  | nil => rfl
  | cons c s ih => simp only [List.cons_append, sealFrom, ih, Option.bind_assoc]

theorem IsSealed.append (hs : IsSealed s) (ht : IsSealed t) : IsSealed (s ++ t) := by
  rw [IsSealed, sealFrom_append, hs]
  exact ht

/-- The characters that matter to where an item ends. -/
def isSpecial (c : Char) : Bool := c == '\"' || c == ',' || c == '{' || c == '}'

theorem sealStep_of_not_special (hc : isSpecial c = false) : sealStep depth c = some depth := by
  simp only [isSpecial, Bool.or_eq_false_iff, beq_eq_false_iff_ne] at hc
  obtain ⟨⟨⟨hquote, hcomma⟩, hopen⟩, hclose⟩ := hc
  simp [sealStep, depthStep, hquote, hcomma, hopen, hclose]

theorem sealFrom_of_not_special (h : ∀ c ∈ s, isSpecial c = false) :
    sealFrom depth s = some depth := by
  induction s with
  | nil => rfl
  | cons c s ih =>
    obtain ⟨hc, hs⟩ := List.forall_mem_cons.1 h
    rw [sealFrom, sealStep_of_not_special hc, Option.bind_some, ih hs]

theorem isSpecial_eq_false {accepts : Char → Bool}
    (hnone : ("\",\x7b\x7d".toList.any accepts) = false) (h : accepts c) : isSpecial c = false := by
  refine Bool.eq_false_iff.2 fun hspecial ↦ ?_
  simp only [isSpecial, Bool.or_eq_true, beq_iff_eq, or_assoc] at hspecial
  refine Bool.eq_false_iff.1 hnone (List.any_eq_true.2 ⟨c, ?_, h⟩)
  rcases hspecial with rfl | rfl | rfl | rfl <;> decide

theorem isSpecial_of_isBlank (h : isBlank c) : isSpecial c = false :=
  isSpecial_eq_false (by decide) h

theorem sealFrom_inked (depth : Nat) (s : Text) : sealFrom depth (inked s) = sealFrom depth s := by
  induction s generalizing depth with
  | nil => rfl
  | cons c s ih =>
    cases hc : isBlank c with
    | true =>
      rw [sealFrom, sealStep_of_not_special (isSpecial_of_isBlank hc), Option.bind_some, ← ih]
      simp [inked, hc]
    | false =>
      have hinked : inked (c :: s) = c :: inked s := by simp [inked, hc]
      simp only [hinked, sealFrom, ih]

/-- Whether a text is sealed depends only on its characters that are no blanks. -/
theorem isSealed_congr (h : inked s = inked t) : IsSealed s ↔ IsSealed t := by
  rw [IsSealed, IsSealed, ← sealFrom_inked 0 s, h, sealFrom_inked]

theorem depthFrom_of_sealFrom (h : sealFrom depth s = some after) :
    depthFrom depth s = some after := by
  induction s generalizing depth with
  | nil => exact h
  | cons c s ih =>
    obtain ⟨d, hstep, hrest⟩ := Option.bind_eq_some_iff.1 h
    rw [depthFrom_cons, (sealStep_eq_some.1 hstep).2.2, Option.bind_some, ih hrest]

theorem IsSealed.isBalanced (h : IsSealed s) : isBalanced s := by
  rw [Braces.isBalanced, depthFrom_of_sealFrom h, beq_self_eq_true]

theorem isBalanced_join {separator : Text} (hseparator : Braces.isBalanced separator)
    {items : List Text} (h : ∀ i ∈ items, Braces.isBalanced i) :
    Braces.isBalanced (join separator items) := by
  induction items with
  | nil => rfl
  | cons i items ih =>
    obtain ⟨hi, hitems⟩ := List.forall_mem_cons.1 h
    cases items with
    | nil => rwa [join_singleton]
    | cons j items =>
      rw [join_cons_cons]
      exact isBalanced_append (isBalanced_append hi hseparator) (ih hitems)

theorem notMem_of_sealFrom (h : sealFrom depth s = some after) : '\"' ∉ s := by
  induction s generalizing depth with
  | nil => simp
  | cons c s ih =>
    obtain ⟨d, hstep, hrest⟩ := Option.bind_eq_some_iff.1 h
    exact List.not_mem_cons_of_ne_of_not_mem (sealStep_eq_some.1 hstep).1.symm (ih hrest)

theorem notMem_join {items : List Text} (h : ∀ i ∈ items, IsSealed i) :
    '\"' ∉ join ", " items := by
  intro hmem
  rcases mem_join hmem with hseparator | ⟨i, hi, hquote⟩
  · exact absurd hseparator (by decide)
  · exact notMem_of_sealFrom (h i hi) hquote

/-- In braces, no comma ends an item. -/
theorem sealFrom_of_depthFrom (hquote : '\"' ∉ s) (h : depthFrom depth s = some after) :
    sealFrom (depth + 1) s = some (after + 1) := by
  induction s generalizing depth with
  | nil => simpa [depthFrom, sealFrom] using h
  | cons c s ih =>
    obtain ⟨hc, hs⟩ := List.ne_and_not_mem_of_not_mem_cons hquote
    rw [depthFrom_cons] at h
    obtain ⟨d, hstep, hrest⟩ := Option.bind_eq_some_iff.1 h
    have hseal : sealStep (depth + 1) c = some (d + 1) :=
      sealStep_eq_some.2 ⟨hc.symm, by omega, depthStep_succ hstep⟩
    rw [sealFrom, hseal, Option.bind_some, ih hs hrest]

/-- A balanced text in braces may stand at any depth. -/
theorem sealFrom_enclose (hquote : '\"' ∉ body) (hbalanced : isBalanced body) (depth : Nat) :
    sealFrom depth (enclose body) = some depth := by
  have hbody : depthFrom depth body = some depth := by
    simpa using depthFrom_add (beq_iff_eq.1 hbalanced) depth
  have hinside := sealFrom_of_depthFrom hquote hbody
  simp [enclose, sealFrom, sealFrom_append, hinside, sealStep, depthStep]

/-! ### The items of a list -/

theorem mem_split_iff : item ∈ split s ↔ item ≠ [] ∧ ∃ piece ∈ pieces {} s, trim piece = item := by
  simp [split, and_comm]

theorem ne_nil_of_mem_split (h : item ∈ split s) : item ≠ [] := (mem_split_iff.1 h).1

theorem isTrimmed_of_mem_split (h : item ∈ split s) : IsTrimmed item := by
  obtain ⟨-, piece, -, rfl⟩ := mem_split_iff.1 h
  exact isTrimmed_trim piece

theorem sublist_of_mem_pieces {p : Position} {piece : Text} (h : piece ∈ pieces p s) :
    piece.Sublist s := by
  induction s generalizing p piece with
  | nil =>
    obtain rfl := List.mem_singleton.1 h
    exact List.Sublist.refl _
  | cons c s ih =>
    rw [pieces] at h
    split at h
    · rcases List.mem_cons.1 h with rfl | h
      · exact List.nil_sublist _
      · exact (ih h).cons c
    · split at h
      · obtain rfl := List.mem_singleton.1 h
        exact (List.nil_sublist s).cons_cons c
      · rename_i first others hpieces
        have hmem {t : Text} (ht : t ∈ first :: others) : t.Sublist s := ih (hpieces ▸ ht)
        rcases List.mem_cons.1 h with rfl | h
        · exact (hmem List.mem_cons_self).cons_cons c
        · exact (hmem (List.mem_cons_of_mem _ h)).cons c

/-- An item is part of its list, and so no longer. -/
theorem length_le_of_mem_split (h : item ∈ split s) : item.length ≤ s.length := by
  obtain ⟨-, piece, hpiece, rfl⟩ := mem_split_iff.1 h
  obtain ⟨before, after, hs, -⟩ := exists_trim piece
  have htrim : (trim piece).length ≤ piece.length := by
    conv_rhs => rw [hs]
    simp only [List.length_append]
    omega
  exact Nat.le_trans htrim (sublist_of_mem_pieces hpiece).length_le

/-! ### Splitting -/

theorem exists_pieces (p : Position) (s : Text) : ∃ piece others, pieces p s = piece :: others := by
  cases s with
  | nil => exact ⟨_, _, rfl⟩
  | cons c s =>
    rw [pieces]
    split
    · exact ⟨_, _, rfl⟩
    · split <;> exact ⟨_, _, rfl⟩

theorem pieces_cons {p : Position} {piece : Text} {others : List Text}
    (h : ¬(c = ',' ∧ p.isOpen)) (hpieces : pieces (p.step c) s = piece :: others) :
    pieces p (c :: s) = (c :: piece) :: others := by
  rw [pieces, if_neg h, hpieces]

theorem step_of_depthStep (hquote : c ≠ '\"') (h : depthStep depth c = some after) :
    Position.step ⟨depth, false⟩ c = ⟨after, false⟩ := by
  unfold depthStep at h
  unfold Position.step
  rw [if_neg hquote, if_neg Bool.false_ne_true]
  split at h
  · simp_all
  · split at h
    · split at h <;> simp_all
    · simp_all

/-- A sealed text goes into the piece that is under way. -/
theorem pieces_append {piece : Text} {others : List Text} (h : sealFrom depth s = some after)
    (hpieces : pieces ⟨after, false⟩ t = piece :: others) :
    pieces ⟨depth, false⟩ (s ++ t) = (s ++ piece) :: others := by
  induction s generalizing depth with
  | nil =>
    obtain rfl := Option.some.inj h
    exact hpieces
  | cons c s ih =>
    obtain ⟨d, hstep, hrest⟩ := Option.bind_eq_some_iff.1 h
    obtain ⟨hquote, hcomma, hdepth⟩ := sealStep_eq_some.1 hstep
    refine pieces_cons ?_ ?_
    · simpa [Position.isOpen] using hcomma
    · rw [step_of_depthStep hquote hdepth]
      exact ih hrest

theorem map_trim_pieces_join {items : List Text} (hne : items ≠ [])
    (hsealed : ∀ i ∈ items, IsSealed i) (htrimmed : ∀ i ∈ items, IsTrimmed i) {blanks : Text}
    (hblanks : blanks.all isBlank) : (pieces {} (blanks ++ join ", " items)).map trim = items := by
  -- The space after a comma belongs to the next piece, so the list may begin with blanks.
  induction items generalizing blanks with
  | nil => exact absurd rfl hne
  | cons i items ih =>
    obtain ⟨hi, hitems⟩ := List.forall_mem_cons.1 hsealed
    obtain ⟨hitrimmed, hitemstrimmed⟩ := List.forall_mem_cons.1 htrimmed
    have hfirst : sealFrom 0 (blanks ++ i) = some 0 :=
      IsSealed.append (sealFrom_of_not_special fun c hc ↦
        isSpecial_of_isBlank (List.all_eq_true.1 hblanks c hc)) hi
    have htrim : trim (blanks ++ i) = i := by rw [trim_prepend hblanks, hitrimmed.trim_eq]
    cases items with
    | nil =>
      have hpieces : pieces {} (blanks ++ i) = [blanks ++ i] := by
        simpa using pieces_append hfirst (t := []) rfl
      rw [join_singleton, hpieces, List.map_singleton, htrim]
    | cons j items =>
      have hcomma : blanks ++ join ", " (i :: j :: items) =
          (blanks ++ i) ++ ',' :: ([' '] ++ join ", " (j :: items)) := by
        rw [join_cons_cons]
        simp
      have hpieces : pieces {} (blanks ++ join ", " (i :: j :: items)) =
          (blanks ++ i) :: pieces {} ([' '] ++ join ", " (j :: items)) := by
        have hnext : pieces ⟨0, false⟩ (',' :: ([' '] ++ join ", " (j :: items))) =
            [] :: pieces {} ([' '] ++ join ", " (j :: items)) := rfl
        rw [hcomma]
        simpa using pieces_append hfirst hnext
      rw [hpieces, List.map_cons, htrim, ih (by simp) hitems hitemstrimmed rfl]

/-- Joining items and splitting the list gives the items. -/
theorem split_join {items : List Text} (hsealed : ∀ i ∈ items, IsSealed i)
    (htrimmed : ∀ i ∈ items, IsTrimmed i) (hne : ∀ i ∈ items, i ≠ []) :
    split (join ", " items) = items := by
  by_cases hnil : items = []
  · rw [hnil]
    rfl
  · have hblanks : ([] : Text).all isBlank := rfl
    have hpieces := map_trim_pieces_join hnil hsealed htrimmed hblanks
    rw [List.nil_append] at hpieces
    rw [split, hpieces, List.filter_eq_self]
    exact fun i hi ↦ by simpa using hne i hi

/-- Every piece of a balanced text without quotes is sealed. -/
theorem isSealed_pieces {piece : Text} {others : List Text} (hquote : '"' ∉ s)
    (h : depthFrom depth s = some 0) (hpieces : pieces ⟨depth, false⟩ s = piece :: others) :
    sealFrom depth piece = some 0 ∧ ∀ p ∈ others, IsSealed p := by
  induction s generalizing depth piece others with
  | nil =>
    obtain ⟨rfl, rfl⟩ := List.cons.inj hpieces
    exact ⟨h, by simp⟩
  | cons c s ih =>
    obtain ⟨hc, hs⟩ := List.ne_and_not_mem_of_not_mem_cons hquote
    rw [depthFrom_cons] at h
    obtain ⟨d, hstep, hrest⟩ := Option.bind_eq_some_iff.1 h
    obtain ⟨piece', others', hpieces'⟩ := exists_pieces ⟨d, false⟩ s
    obtain ⟨hpiece, hothers⟩ := ih hs hrest hpieces'
    by_cases hcomma : c = ',' ∧ depth = 0
    · obtain ⟨rfl, rfl⟩ := hcomma
      obtain rfl : 0 = d := Option.some.inj hstep
      rw [pieces, if_pos ⟨rfl, rfl⟩, hpieces'] at hpieces
      obtain ⟨rfl, rfl⟩ := List.cons.inj hpieces
      exact ⟨rfl, List.forall_mem_cons.2 ⟨hpiece, hothers⟩⟩
    · rw [← step_of_depthStep hc.symm hstep] at hpieces'
      rw [pieces_cons (by simpa [Position.isOpen] using hcomma) hpieces'] at hpieces
      obtain ⟨rfl, rfl⟩ := List.cons.inj hpieces
      refine ⟨?_, hothers⟩
      rw [sealFrom, sealStep_eq_some.2 ⟨hc.symm, hcomma, hstep⟩, Option.bind_some, hpiece]

theorem isSealed_of_mem_split (hquote : '"' ∉ s) (hbalanced : isBalanced s)
    (hitem : item ∈ split s) : IsSealed item := by
  obtain ⟨-, piece, hpiece, rfl⟩ := mem_split_iff.1 hitem
  obtain ⟨first, others, hpieces⟩ := exists_pieces {} s
  obtain ⟨hfirst, hothers⟩ := isSealed_pieces hquote (beq_iff_eq.1 hbalanced) hpieces
  rw [isSealed_congr (inked_trim piece)]
  rw [hpieces] at hpiece
  rcases List.mem_cons.1 hpiece with rfl | hpiece
  · exact hfirst
  · exact hothers piece hpiece

/-! ### Lists one after the other -/

variable {p : Position} {items : List Text}

theorem Position.isOpen_iff : p.isOpen ↔ p = {} := by
  obtain ⟨depth, quoted⟩ := p
  simp [isOpen]

theorem Position.step_comma (p : Position) : p.step ',' = p := by
  cases hquoted : p.quoted <;> simp [step, hquoted]

theorem Position.after_cons (p : Position) (c : Char) (s : Text) :
    p.after (c :: s) = (p.step c).after s := rfl

/-- A comma where none is open ends the last piece, and the text after it is cut on its own. -/
theorem pieces_append_comma (h : (p.after s).isOpen) :
    pieces p (s ++ ',' :: t) = pieces p s ++ pieces {} t := by
  induction s generalizing p with
  | nil =>
    obtain rfl := Position.isOpen_iff.1 h
    rfl
  | cons c s ih =>
    rw [Position.after_cons] at h
    by_cases hcomma : c = ',' ∧ p.isOpen
    · obtain ⟨rfl, hopen⟩ := hcomma
      rw [Position.step_comma] at h
      rw [List.cons_append, pieces, if_pos ⟨rfl, hopen⟩, ih h, pieces, if_pos ⟨rfl, hopen⟩,
        List.cons_append]
    · obtain ⟨piece, others, hpieces⟩ := exists_pieces (p.step c) s
      have hmore := ih h
      rw [hpieces, List.cons_append] at hmore
      rw [List.cons_append, pieces_cons hcomma hmore, pieces_cons hcomma hpieces, List.cons_append]

theorem split_append_comma (h : (Position.after {} s).isOpen) :
    split (s ++ ',' :: t) = split s ++ split t := by
  rw [split, pieces_append_comma h, List.map_append, List.filter_append]
  rfl

theorem join_comma_cons (i j : Text) (items : List Text) :
    join "," (i :: j :: items) = i ++ ',' :: join "," (j :: items) := by
  rw [join_cons_cons, List.append_assoc]
  rfl

/-- Lists joined with commas have the items of all of them. -/
theorem split_join_comma (h : ∀ i ∈ items, (Position.after {} i).isOpen) :
    split (join "," items) = items.flatMap split := by
  induction items with
  | nil => rfl
  | cons i items ih =>
    obtain ⟨hi, hitems⟩ := List.forall_mem_cons.1 h
    cases items with
    | nil => rw [join_singleton, List.flatMap_singleton]
    | cons j items =>
      rw [join_comma_cons, split_append_comma hi, ih hitems]
      rfl

/-- A text is a single piece if each of its commas stands in braces or quotes. -/
theorem pieces_eq_singleton_iff :
    pieces p s = [s] ↔ ∀ before after, s = before ++ ',' :: after → ¬ (p.after before).isOpen := by
  induction s generalizing p with
  | nil => simp [pieces]
  | cons c s ih =>
    by_cases hcomma : c = ',' ∧ p.isOpen
    · obtain ⟨rfl, hopen⟩ := hcomma
      rw [pieces, if_pos ⟨rfl, hopen⟩]
      refine ⟨fun h ↦ by simp at h, fun h ↦ absurd hopen (h [] s rfl)⟩
    · obtain ⟨piece, others, hpieces⟩ := exists_pieces (p.step c) s
      have htail : pieces p (c :: s) = [c :: s] ↔ pieces (p.step c) s = [s] := by
        rw [pieces_cons hcomma hpieces, hpieces]
        simp
      rw [htail, ih]
      constructor
      · intro h before after heq
        cases before with
        | nil =>
          obtain ⟨rfl, rfl⟩ := List.cons.inj heq
          exact fun hopen ↦ hcomma ⟨rfl, hopen⟩
        | cons d before =>
          obtain ⟨rfl, hs⟩ := List.cons.inj heq
          exact h before after hs
      · rintro h before after rfl
        exact h (c :: before) after rfl

end Items

end DiagramMacros
