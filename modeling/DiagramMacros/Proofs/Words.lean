import DiagramMacros.Text
import Mathlib.Data.List.Basic
/-!
White space in a text. Trimming and collapsing change nothing but blanks: the characters that are
no blanks stay as they are (`inked_trim`, `inked_collapse`). A collapsed text has the words of the
text it came from (`words_collapse`), with a space between neighbours and no other blank, so
collapsing it again does nothing (`collapse_collapse`).
-/

set_option autoImplicit false
set_option relaxedAutoImplicit false

namespace DiagramMacros.Text

variable {s t : Text} {b c : Char}

/-! ### Blanks at the ends -/

/-- There is no blank at either end. -/
def IsTrimmed (s : Text) : Prop := startsWith isBlank s = false ∧ endsWith isBlank s = false

instance (s : Text) : Decidable (IsTrimmed s) := inferInstanceAs (Decidable (_ ∧ _))

theorem isTrimmed_nil : IsTrimmed [] := ⟨rfl, rfl⟩

theorem startsWith_append_of_ne_nil (accepts : Char → Bool) (hs : s ≠ []) :
    startsWith accepts (s ++ t) = startsWith accepts s := by
  cases s with
  | nil => exact absurd rfl hs
  | cons c s => rfl

theorem endsWith_append_of_ne_nil (accepts : Char → Bool) (ht : t ≠ []) :
    endsWith accepts (s ++ t) = endsWith accepts t := by
  rw [endsWith, List.getLast?_append_of_ne_nil s ht, endsWith]

theorem endsWith_eq_startsWith_reverse (accepts : Char → Bool) (s : Text) :
    endsWith accepts s = startsWith accepts s.reverse := by
  rw [startsWith, List.head?_reverse, endsWith]

theorem endsWith_trimEnd (s : Text) : endsWith isBlank (trimEnd s) = false := by
  rw [endsWith_eq_startsWith_reverse, trimEnd, List.reverse_reverse]
  exact startsWith_dropWhile isBlank s.reverse

/-- Trimming at the end leaves what the text starts with, if anything. -/
theorem startsWith_trimEnd {accepts : Char → Bool} (h : startsWith accepts s = false) :
    startsWith accepts (trimEnd s) = false := by
  by_cases hnil : trimEnd s = []
  · rw [hnil]
    rfl
  · have hsplit : trimEnd s ++ (s.reverse.takeWhile isBlank).reverse = s := by
      rw [trimEnd, ← List.reverse_append, List.takeWhile_append_dropWhile, List.reverse_reverse]
    rwa [← hsplit, startsWith_append_of_ne_nil accepts hnil] at h

theorem isTrimmed_trim (s : Text) : IsTrimmed (trim s) :=
  ⟨startsWith_trimEnd (startsWith_dropWhile isBlank s), endsWith_trimEnd (trimStart s)⟩

theorem IsTrimmed.trim_eq (h : IsTrimmed s) : trim s = s := by
  have hend : startsWith isBlank s.reverse = false :=
    (endsWith_eq_startsWith_reverse isBlank s).symm.trans h.2
  rw [trim, trimStart, dropWhile_of_not h.1, trimEnd, dropWhile_of_not hend, List.reverse_reverse]

/-- Texts with no blank at their ends keep having none when they are put around another. -/
theorem IsTrimmed.append_cons (hs : IsTrimmed s) (ht : IsTrimmed t) (hs' : s ≠ []) (ht' : t ≠ [])
    (c : Char) : IsTrimmed (s ++ c :: t) := by
  refine ⟨(startsWith_append_of_ne_nil isBlank hs').trans hs.1, ?_⟩
  rw [List.append_cons, endsWith_append_of_ne_nil isBlank ht']
  exact ht.2

/-! ### Words -/

/-- A word has characters, and none of them is a blank. -/
def IsWord (w : Text) : Prop := w ≠ [] ∧ ∀ c ∈ w, isBlank c = false

theorem wordsFrom_append_of_not_blank (word : Text) (h : ∀ c ∈ s, isBlank c = false) :
    wordsFrom word (s ++ t) = wordsFrom (s.reverse ++ word) t := by
  induction s generalizing word with
  | nil => rfl
  | cons c s ih =>
    obtain ⟨hc, hs⟩ := List.forall_mem_cons.1 h
    rw [List.cons_append, wordsFrom, hc, if_neg Bool.false_ne_true, ih _ hs, List.reverse_cons,
      List.append_assoc, List.singleton_append]

/-- A blank ends the word before it. -/
theorem wordsFrom_append_blank (word : Text) (hb : isBlank b) :
    wordsFrom word (s ++ b :: t) = wordsFrom word s ++ words t := by
  induction s generalizing word with
  | nil => simp [wordsFrom, hb, words]
  | cons c s ih =>
    rw [List.cons_append, wordsFrom, wordsFrom]
    split
    · rw [ih, List.append_assoc]
    · rw [ih]

theorem words_append_blank (hb : isBlank b) : words (s ++ b :: t) = words s ++ words t :=
  wordsFrom_append_blank [] hb

theorem words_of_isWord (h : IsWord s) : words s = [s] := by
  have hword := wordsFrom_append_of_not_blank (t := []) [] h.2
  rw [List.append_nil, List.append_nil] at hword
  rw [words, hword, wordsFrom, List.reverse_reverse, List.isEmpty_reverse,
    List.isEmpty_eq_false_iff.2 h.1, if_neg Bool.false_ne_true]

theorem isWord_of_mem_wordsFrom {word w : Text} (hword : ∀ c ∈ word, isBlank c = false)
    (h : w ∈ wordsFrom word s) : IsWord w := by
  induction s generalizing word with
  | nil =>
    rw [wordsFrom] at h
    split at h
    · simp at h
    · rename_i hne
      obtain rfl := List.mem_singleton.1 h
      exact ⟨by simpa using hne, by simpa using hword⟩
  | cons c s ih =>
    rw [wordsFrom] at h
    split at h
    · rcases List.mem_append.1 h with hfirst | hrest
      · split at hfirst
        · simp at hfirst
        · rename_i hne
          obtain rfl := List.mem_singleton.1 hfirst
          exact ⟨by simpa using hne, by simpa using hword⟩
      · exact ih (by simp) hrest
    · rename_i hc
      exact ih (List.forall_mem_cons.2 ⟨Bool.eq_false_iff.2 hc, hword⟩) h

theorem isWord_of_mem_words {w : Text} (h : w ∈ words s) : IsWord w :=
  isWord_of_mem_wordsFrom (by simp) h

@[simp] theorem join_nil (separator : Text) : join separator [] = [] := rfl

@[simp] theorem join_singleton (separator s : Text) : join separator [s] = s := by simp [join]

theorem join_cons_cons (separator s t : Text) (others : List Text) :
    join separator (s :: t :: others) = s ++ separator ++ join separator (t :: others) := by
  simp [join]

/-- What stands around one of the joined texts does not depend on that text. -/
theorem exists_join_eq (separator : Text) (ss ts : List Text) :
    ∃ before after, ∀ s, join separator (ss ++ s :: ts) = before ++ s ++ after := by
  induction ss with
  | nil =>
    cases ts with
    | nil => exact ⟨[], [], fun s ↦ by simp⟩
    | cons t ts =>
      refine ⟨[], separator ++ join separator (t :: ts), fun s ↦ ?_⟩
      rw [List.nil_append, join_cons_cons, List.append_assoc, List.nil_append]
  | cons first ss ih =>
    obtain ⟨before, after, h⟩ := ih
    refine ⟨first ++ separator ++ before, after, fun s ↦ ?_⟩
    obtain ⟨t, others, hsplit⟩ := List.exists_cons_of_ne_nil (List.append_ne_nil_of_right_ne_nil ss
      (List.cons_ne_nil s ts))
    rw [List.cons_append, hsplit, join_cons_cons, ← hsplit, h]
    simp only [List.append_assoc]

theorem words_join {ws : List Text} (h : ∀ w ∈ ws, IsWord w) : words (join " " ws) = ws := by
  induction ws with
  | nil => rfl
  | cons w ws ih =>
    obtain ⟨hw, hws⟩ := List.forall_mem_cons.1 h
    cases ws with
    | nil => rw [join_singleton, words_of_isWord hw]
    | cons w' ws =>
      have hspace : join " " (w :: w' :: ws) = w ++ ' ' :: join " " (w' :: ws) := by
        rw [join_cons_cons, List.append_assoc]
        rfl
      rw [hspace, words_append_blank rfl, words_of_isWord hw, ih hws, List.singleton_append]

/-- Collapsing keeps the words. -/
theorem words_collapse (s : Text) : words (collapse s) = words s :=
  words_join fun _ ↦ isWord_of_mem_words

theorem collapse_collapse (s : Text) : collapse (collapse s) = collapse s := by
  rw [collapse, words_collapse, collapse]

/-! ### What is not blank -/

/-- The characters of a text that are no blanks. -/
def inked (s : Text) : Text := s.filter fun c ↦ !isBlank c

@[simp] theorem inked_append (s t : Text) : inked (s ++ t) = inked s ++ inked t :=
  List.filter_append s t

theorem inked_eq_nil (h : s.all isBlank) : inked s = [] := by
  rw [inked, List.filter_eq_nil_iff]
  intro c hc
  simp [List.all_eq_true.1 h c hc]

theorem inked_eq_self (h : ∀ c ∈ s, isBlank c = false) : inked s = s :=
  List.filter_eq_self.2 fun c hc ↦ by rw [h c hc, Bool.not_false]

theorem inked_trim (s : Text) : inked (trim s) = inked s := by
  obtain ⟨before, after, hs, hbefore, hafter⟩ := exists_trim s
  calc inked (trim s)
      = inked before ++ inked (trim s) ++ inked after := by
        rw [inked_eq_nil hbefore, inked_eq_nil hafter, List.nil_append, List.append_nil]
    _ = inked s := by rw [← inked_append, ← inked_append, ← hs]

theorem flatten_wordsFrom (word s : Text) :
    (wordsFrom word s).flatten = word.reverse ++ inked s := by
  induction s generalizing word with
  | nil => cases word <;> simp [wordsFrom, inked]
  | cons c s ih =>
    rw [wordsFrom]
    split
    · rename_i hc
      cases word <;> simp [ih, inked, hc]
    · rename_i hc
      simp [ih, inked, hc]

theorem inked_collapse (s : Text) : inked (collapse s) = inked s := by
  have hwords (s : Text) : inked s = (words s).flatten := (flatten_wordsFrom [] s).symm
  rw [hwords, hwords, words_collapse]

theorem mem_inked_iff : c ∈ inked s ↔ c ∈ s ∧ isBlank c = false := by
  simp [inked, List.mem_filter]

/-- Collapsing puts in and takes out only blanks. -/
theorem mem_collapse_iff (hc : isBlank c = false) : c ∈ collapse s ↔ c ∈ s := by
  have hinked := congrArg (c ∈ ·) (inked_collapse s)
  simpa [mem_inked_iff, hc] using hinked

theorem eq_nil_of_inked (hs : startsWith isBlank s = false) (h : inked s = []) : s = [] := by
  cases s with
  | nil => rfl
  | cons c s =>
    rw [startsWith_cons] at hs
    simp [inked, hs] at h

theorem head?_inked (hs : startsWith isBlank s = false) : (inked s).head? = s.head? := by
  cases s with
  | nil => rfl
  | cons c s =>
    rw [startsWith_cons] at hs
    simp [inked, hs]

theorem getLast?_inked (hs : endsWith isBlank s = false) : (inked s).getLast? = s.getLast? := by
  rcases List.eq_nil_or_concat s with rfl | ⟨s, c, rfl⟩
  · rfl
  · rw [List.concat_eq_append] at hs ⊢
    rw [endsWith_append_of_ne_nil isBlank (List.cons_ne_nil c [])] at hs
    have hc : isBlank c = false := hs
    rw [inked_append, inked_eq_self (s := [c]) (by simpa using hc), List.getLast?_concat,
      List.getLast?_concat]

theorem getLast?_trim (hs : endsWith isBlank s = false) : (trim s).getLast? = s.getLast? := by
  rw [← getLast?_inked hs, ← getLast?_inked (isTrimmed_trim s).2, inked_trim]

theorem mem_trim_iff (hc : isBlank c = false) : c ∈ trim s ↔ c ∈ s := by
  have hinked := congrArg (c ∈ ·) (inked_trim s)
  simpa [mem_inked_iff, hc] using hinked

/-! ### Collapsed texts -/

theorem mem_join {separator : Text} {ws : List Text} (h : c ∈ join separator ws) :
    c ∈ separator ∨ ∃ w ∈ ws, c ∈ w := by
  induction ws with
  | nil => simp at h
  | cons w ws ih =>
    cases ws with
    | nil => exact Or.inr ⟨w, List.mem_cons_self, by simpa using h⟩
    | cons w' ws =>
      rw [join_cons_cons, List.mem_append, List.mem_append] at h
      rcases h with (hw | hseparator) | hrest
      · exact Or.inr ⟨w, List.mem_cons_self, hw⟩
      · exact Or.inl hseparator
      · exact (ih hrest).imp_right fun ⟨w, hw, hc⟩ ↦ ⟨w, List.mem_cons_of_mem _ hw, hc⟩

/-- The only blanks in a collapsed text are spaces. -/
theorem eq_space_of_mem_collapse (h : c ∈ collapse s) (hc : isBlank c) : c = ' ' := by
  rcases mem_join h with hspace | ⟨w, hw, hmem⟩
  · exact List.mem_singleton.1 hspace
  · rw [(isWord_of_mem_words hw).2 c hmem] at hc
    exact absurd hc Bool.false_ne_true

theorem isTrimmed_of_isWord (h : IsWord s) : IsTrimmed s := by
  have hany (o : Option Char) (ho : ∀ c ∈ o, c ∈ s) : o.any isBlank = false := by
    cases o with
    | none => rfl
    | some c => exact h.2 c (ho c rfl)
  exact ⟨hany _ fun _ ↦ List.mem_of_mem_head?, hany _ fun _ ↦ List.mem_of_mem_getLast?⟩

theorem join_ne_nil {ws : List Text} (separator : Text) (hne : ws ≠ []) (h : ∀ w ∈ ws, w ≠ []) :
    join separator ws ≠ [] := by
  obtain ⟨w, ws, rfl⟩ := List.exists_cons_of_ne_nil hne
  have hw : w ≠ [] := h w List.mem_cons_self
  cases ws with
  | nil => rwa [join_singleton]
  | cons w' ws =>
    rw [join_cons_cons]
    simp [hw]

theorem isTrimmed_join {ws : List Text} (hne : ∀ w ∈ ws, w ≠ []) (h : ∀ w ∈ ws, IsTrimmed w)
    (separator : Text) : IsTrimmed (join separator ws) := by
  induction ws with
  | nil => exact isTrimmed_nil
  | cons w ws ih =>
    obtain ⟨hw, hws⟩ := List.forall_mem_cons.1 h
    obtain ⟨hwne, hwsne⟩ := List.forall_mem_cons.1 hne
    cases ws with
    | nil => rwa [join_singleton]
    | cons w' ws =>
      rw [join_cons_cons, List.append_assoc]
      refine ⟨(startsWith_append_of_ne_nil isBlank hwne).trans hw.1, ?_⟩
      rw [← List.append_assoc,
        endsWith_append_of_ne_nil isBlank (join_ne_nil separator (by simp) hwsne)]
      exact (ih hwsne hws).2

theorem isTrimmed_collapse (s : Text) : IsTrimmed (collapse s) :=
  isTrimmed_join (fun _ hw ↦ (isWord_of_mem_words hw).1)
    (fun _ hw ↦ isTrimmed_of_isWord (isWord_of_mem_words hw)) " "

theorem collapse_ne_nil (hs : IsTrimmed s) (hne : s ≠ []) : collapse s ≠ [] := by
  intro hnil
  have hinked : inked s = [] := by rw [← inked_collapse, hnil]; rfl
  exact hne (eq_nil_of_inked hs.1 hinked)

theorem head?_collapse (hs : startsWith isBlank s = false) : (collapse s).head? = s.head? := by
  rw [← head?_inked hs, ← head?_inked (isTrimmed_collapse s).1, inked_collapse]

theorem words_ne_nil (h : ∃ c ∈ s, isBlank c = false) : words s ≠ [] := by
  obtain ⟨c, hc, hblank⟩ := h
  intro hnil
  have hinked : inked s = [] := by
    have hflatten := flatten_wordsFrom [] s
    rw [← words, hnil] at hflatten
    exact hflatten.symm
  exact List.not_mem_nil (hinked ▸ mem_inked_iff.2 ⟨hc, hblank⟩)

/-- A text with no blank at its ends that is collapsed to a single word was that word: a blank
inside would have had words on both sides. -/
theorem collapse_eq_self (hs : IsTrimmed s) (hspace : ' ' ∉ collapse s) : collapse s = s := by
  have hinside : ∀ c ∈ s, isBlank c = false := by
    intro c hc
    refine Bool.eq_false_iff.2 fun hblank ↦ hspace ?_
    obtain ⟨before, after, rfl⟩ := List.append_of_mem hc
    have hbefore : words before ≠ [] := by
      cases before with
      | nil => exact absurd (hblank.symm.trans hs.1) (by simp)
      | cons d before => exact words_ne_nil ⟨d, List.mem_cons_self, hs.1⟩
    have hafter : words after ≠ [] := by
      rcases List.eq_nil_or_concat after with rfl | ⟨after, d, rfl⟩
      · have hend : isBlank c = false := by simpa [endsWith] using hs.2
        exact absurd (hblank.symm.trans hend) (by simp)
      · have hlast : before ++ c :: (after ++ [d]) = (before ++ c :: after) ++ [d] := by simp
        rw [List.concat_eq_append, hlast, IsTrimmed,
          endsWith_append_of_ne_nil isBlank (List.cons_ne_nil d [])] at hs
        exact words_ne_nil ⟨d, by simp, hs.2⟩
    obtain ⟨w, ws, hw⟩ := List.exists_cons_of_ne_nil hbefore
    obtain ⟨w', ws', hw'⟩ := List.exists_cons_of_ne_nil hafter
    rw [collapse, words_append_blank hblank, hw, hw', List.cons_append]
    cases ws <;> simp [join]
  have hcollapse : ∀ c ∈ collapse s, isBlank c = false := by
    intro c hc
    refine Bool.eq_false_iff.2 fun hblank ↦ hspace ?_
    rwa [← eq_space_of_mem_collapse hc hblank]
  rw [← inked_eq_self hcollapse, inked_collapse, inked_eq_self hinside]

end DiagramMacros.Text
