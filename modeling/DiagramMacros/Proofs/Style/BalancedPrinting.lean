import DiagramMacros.Proofs.PrintedNumerals
import DiagramMacros.Proofs.Style.Printing
/-!
Braces in printed styles. What is printed of a property is balanced if the item that gave it is
sealed (`Item.isBalanced_printEntry`): its text is kept whole, or cut at the equals sign only where
the rest is balanced, or read as a group whose items are sealed again. So a style that is read from
a balanced list without quotes prints balanced properties (`Style.isTidy_read`), and it keeps doing
so when properties are put in or taken out.
-/

set_option autoImplicit false
set_option relaxedAutoImplicit false

namespace DiagramMacros

open Text

namespace Braces

variable {s t : Text}

theorem depthStep_of_ne {c : Char} (hopen : c ≠ '{') (hclose : c ≠ '}') (depth : Nat) :
    depthStep depth c = some depth := by
  rw [depthStep, if_neg hopen, if_neg hclose]

/-- Whether a text is balanced depends only on its characters that are no blanks. -/
theorem depthFrom_inked (depth : Nat) (s : Text) :
    depthFrom depth (inked s) = depthFrom depth s := by
  induction s generalizing depth with
  | nil => rfl
  | cons c s ih =>
    cases hc : isBlank c with
    | true =>
      have hne : c ≠ '{' ∧ c ≠ '}' := by
        constructor <;> rintro rfl <;> exact absurd hc (by decide)
      rw [depthFrom_cons, depthStep_of_ne hne.1 hne.2, Option.bind_some, ← ih]
      simp [inked, hc]
    | false =>
      have hinked : inked (c :: s) = c :: inked s := by simp [inked, hc]
      simp only [hinked, depthFrom_cons, ih]

theorem isBalanced_congr (h : inked s = inked t) : isBalanced s = isBalanced t := by
  rw [isBalanced, isBalanced, ← depthFrom_inked 0 s, h, depthFrom_inked]

theorem isBalanced_trim (s : Text) : isBalanced (trim s) = isBalanced s :=
  isBalanced_congr (inked_trim s)

theorem depthFrom_of_notMem (hopen : '{' ∉ s) (hclose : '}' ∉ s) (depth : Nat) :
    depthFrom depth s = some depth := by
  induction s with
  | nil => rfl
  | cons c s ih =>
    obtain ⟨hne, hs⟩ := List.ne_and_not_mem_of_not_mem_cons hopen
    obtain ⟨hne', hs'⟩ := List.ne_and_not_mem_of_not_mem_cons hclose
    rw [depthFrom_cons, depthStep_of_ne (Ne.symm hne) (Ne.symm hne'), Option.bind_some, ih hs hs']

theorem isBalanced_of_all {accepts : Char → Bool} (h : s.all accepts)
    (hopen : accepts '{' = false) (hclose : accepts '}' = false) : isBalanced s := by
  have hnone {c : Char} (hc : accepts c = false) : c ∉ s := fun hmem ↦ by
    rw [List.all_eq_true.1 h c hmem] at hc
    exact Bool.noConfusion hc
  rw [isBalanced, depthFrom_of_notMem (hnone hopen) (hnone hclose), beq_self_eq_true]

/-- A text without braces between two balanced ones. -/
theorem isBalanced_append_cons {c : Char} (hs : isBalanced s) (ht : isBalanced t)
    (hopen : c ≠ '{') (hclose : c ≠ '}') : isBalanced (s ++ c :: t) := by
  refine isBalanced_append hs ?_
  rw [isBalanced, depthFrom_cons, depthStep_of_ne hopen hclose]
  exact ht

theorem isBalanced_numeral (x : Float) : isBalanced (Numeral.print x) :=
  isBalanced_of_all (Numeral.all_isMark_print x) rfl rfl

end Braces

open Braces

/-! ### One property -/

namespace Item

open Style

variable {item key value : Text} {v : Value} {e : Entry}

/-- What is printed of a property with a number or a length is balanced if its key is. -/
theorem isBalanced_printEntry_measure (hkey : isBalanced key) (hv : v.IsMeasure) :
    isBalanced (printEntry (key, v)) := by
  rcases hv with ⟨x, rfl⟩ | ⟨x, rfl⟩
  · exact isBalanced_append_cons hkey (isBalanced_numeral x) (by decide) (by decide)
  · rw [printEntry, printValue, List.append_assoc, List.cons_append]
    exact isBalanced_append_cons hkey (isBalanced_append (isBalanced_numeral x) rfl) (by decide)
      (by decide)

/-- A text that is assigned as a whole is printed with the braces of its item. -/
theorem isBalanced_printEntry_text (hbalanced : isBalanced item)
    (hassign : assignment? item = some (key, value)) :
    isBalanced (printEntry (collapse key, .text value)) := by
  obtain ⟨before, after, rfl, -, rfl, rfl, -⟩ := assignment?_eq_some hassign
  rw [printEntry, printValue]
  split
  · rename_i hbare
    have hkey : isBalanced before := by
      have hkeys : bareKeys.all isBalanced := by decide
      rw [← isBalanced_trim, ← isBalanced_congr (inked_collapse (trim before))]
      exact List.all_eq_true.1 hkeys _ (List.contains_iff_mem.1 hbare)
    rw [isBalanced, depthFrom_append, beq_iff_eq.1 hkey, Option.bind_some, depthFrom_cons,
      depthStep_of_ne (by decide) (by decide)] at hbalanced
    rwa [isBalanced_trim]
  · rw [isBalanced_congr (t := before ++ '=' :: after)]
    · exact hbalanced
    · rw [List.append_cons, List.append_cons before]
      simp only [inked_append, inked_collapse, inked_trim]

end Item

/-! ### The properties of a list -/

namespace Style

variable {list : Text} {preset : Option Preset}

/-- Every property is printed balanced. -/
def IsTidy (entries : List Entry) : Prop := ∀ e ∈ entries, isBalanced (printEntry e)

theorem IsTidy.isBalanced_join {entries : List Entry} (h : IsTidy entries) :
    isBalanced (join ", " (printEntries entries)) := by
  refine Items.isBalanced_join rfl ?_
  rw [printEntries_eq_map]
  exact List.forall_mem_map.2 h

theorem IsTidy.inBrackets {style : Style} (h : IsTidy style.entries) :
    isBalanced style.inBrackets :=
  isBalanced_append_cons (s := []) rfl (isBalanced_append h.isBalanced_join rfl) (by decide)
    (by decide)

theorem IsTidy.put {entries : List Entry} (h : IsTidy entries) {key : Text} {value : Value}
    (hnew : isBalanced (printEntry (key, value))) : IsTidy (Assoc.put entries key value) := by
  intro e he
  rcases Assoc.mem_put he with he | rfl
  · exact h e he
  · exact hnew

theorem IsTidy.erase {entries : List Entry} (h : IsTidy entries) (key : Text) :
    IsTidy (Assoc.erase entries key) :=
  fun e he ↦ h e (List.mem_of_mem_filter he)

theorem isTidy_bundle (p : Preset) : IsTidy p.bundle := by
  have hall : Preset.all.all fun p ↦ p.bundle.all fun e ↦ isBalanced (printEntry e) := by
    decide +kernel
  exact fun e he ↦ Preset.of_mem_bundle hall he

/-- If every item of a list gives a property that is printed balanced, so are all properties. -/
theorem isTidy_of_items (h : ∀ item ∈ Items.split list, ∀ e, Item.read? item = some e →
    isBalanced (printEntry e)) (preset : Option Preset) : IsTidy (read list preset).entries := by
  intro e he
  rcases mem_read he with ⟨p, hp⟩ | ⟨item, hitem, -, hread⟩
  · exact isTidy_bundle p e hp
  · exact h item hitem e hread

end Style

namespace Item

open Style Items

variable {item : Text} {e : Entry}

/-- What is printed of the property that a sealed item gives is balanced. -/
theorem isBalanced_printEntry (hsealed : IsSealed item) (h : read? item = some e) :
    isBalanced (printEntry e) := by
  induction hn : item.length using Nat.strongRecOn generalizing item e with
  | ind n ih =>
    cases read?_eq_some_iff.1 h with
    | @assigned key value v hassign hread =>
      have hkey := (isSealed_key hassign hsealed hread).isBalanced
      rcases assigned?_eq_some hread with ⟨body, rfl, hbody, rfl⟩ | ⟨-, hmeasure⟩
      · have hquote : '\"' ∉ body := fun hmem ↦
          notMem_value hassign (notMem_of_sealFrom hsealed) (by simp [enclose, hmem])
        have hinner : IsTidy (read body none).entries := by
          refine isTidy_of_items (fun i hi e' he' ↦ ?_) none
          have hlt := length_lt_of_mem_body hassign hi
          exact ih i.length (hn ▸ hlt) (isSealed_of_mem_split hquote hbody.balanced hi) he' rfl
        exact isBalanced_append_cons hkey (isBalanced_enclose hinner.isBalanced_join) (by decide)
          (by decide)
      · exact isBalanced_printEntry_measure hkey hmeasure
    | text hassign => exact isBalanced_printEntry_text hsealed.isBalanced hassign
    | own hform =>
      obtain ⟨key, t, rfl, hbare, -, rfl | hstyle⟩ := ownForm?_eq_some hform
      · rw [printEntry_bare hbare]
        exact hsealed.isBalanced
      · have hall : lineStyles.all isBalanced := by decide
        rw [printEntry_bare hbare]
        exact List.all_eq_true.1 hall t hstyle
    | flag _ _ hflag =>
      obtain ⟨rfl, -⟩ := flag?_eq_some hflag
      rw [printEntry, printValue, isBalanced_congr (inked_collapse item)]
      exact hsealed.isBalanced

end Item

/-- A balanced list without quotes gives properties that are printed balanced. -/
theorem Style.isTidy_read {list : Text} (hbalanced : isBalanced list) (hquote : '\"' ∉ list)
    (preset : Option Preset) : IsTidy (read list preset).entries :=
  isTidy_of_items (fun _ hitem _ hread ↦
    Item.isBalanced_printEntry (Items.isSealed_of_mem_split hquote hbalanced hitem) hread) preset

end DiagramMacros
