import DiagramMacros.Proofs.Style.Alike
/-!
Texts that are printed without their key. A text that came from a form that tells its key, or from a
preset, is read again as it is. A text that was assigned to one of these keys may be any text, and
what it is read as when it stands alone has nothing to do with the key, unless the text is of the
form of that key or says the key once more (`Style.bare_text_read_again`).
-/

set_option autoImplicit false
set_option relaxedAutoImplicit false

namespace DiagramMacros

open Text

namespace Item

variable {key t : Text} {e : Entry}

/-- A text says a key: as a flag, or as the key of an assignment. -/
def SaysKey (key t : Text) : Prop :=
  flag? t = some (key, .flag) ∨ ∃ k value, assignment? t = some (k, value) ∧
    (k = key ∨ (assigned? value = none ∧ collapse k = key))

theorem ownForm?_of_assigned? {k value : Text} {v : Value} (h : assignment? t = some (k, value))
    (hv : assigned? value = some v) : ownForm? t = none := by
  rw [ownForm?_of_mem (mem_of_assignment? h)]
  cases hquotes : quotes? t with
  | none => rfl
  | some e => rw [assigned?_of_quotes? hquotes h] at hv; simp at hv

theorem assignment?_of_flag? (h : flag? t = some e) : assignment? t = none := by
  obtain ⟨-, -, hall⟩ := flag?_eq_some h
  refine assignment?_of_notMem fun hmem ↦ ?_
  exact absurd (List.all_eq_true.1 hall _ hmem) (by decide)

/-- What is filed under a key. -/
theorem read?_key_iff (hkey : collapse key = key) : (∃ v, read? t = some (key, v)) ↔
    (∃ v, ownForm? t = some (key, v)) ∨ (ownForm? t = none ∧ SaysKey key t) := by
  constructor
  · rintro ⟨v, h⟩
    cases read?_eq_some_iff.1 h with
    | assigned assignment reads =>
      exact Or.inr ⟨ownForm?_of_assigned? assignment reads, Or.inr ⟨_, _, assignment, Or.inl rfl⟩⟩
    | text assignment unread notOwn =>
      exact Or.inr ⟨notOwn, Or.inr ⟨_, _, assignment, Or.inr ⟨unread, rfl⟩⟩⟩
    | own form => exact Or.inl ⟨v, form⟩
    | flag unassigned notOwn words =>
      obtain ⟨heq, -⟩ := flag?_eq_some words
      obtain ⟨-, rfl⟩ := Prod.mk.inj heq
      exact Or.inr ⟨notOwn, Or.inl words⟩
  · rintro (⟨v, hown⟩ | ⟨hnone, hflag | ⟨k, value, hassign, hk⟩⟩)
    · exact ⟨v, read?_of_ownForm? hown⟩
    · exact ⟨.flag, read?_eq_some_iff.2 (.flag (assignment?_of_flag? hflag) hnone hflag)⟩
    · cases hassigned : assigned? value with
      | some v =>
        obtain rfl : k = key := hk.resolve_right fun h ↦ by simp [hassigned] at h
        exact ⟨v, read?_eq_some_iff.2 (.assigned hassign hassigned)⟩
      | none =>
        have hwords : collapse k = key := by
          rcases hk with rfl | ⟨-, hwords⟩
          · exact hkey
          · exact hwords
        exact ⟨_, hwords ▸ read?_eq_some_iff.2 (.text hassign hassigned hnone)⟩

end Item

namespace Style

variable {list t : Text} {preset : Option Preset} {key : Text}

/-- A text under such a key has been assigned, or else it is read again as it is. -/
theorem read?_or_assigned (hbare : key ∈ bareKeys)
    (hmem : (key, .text t) ∈ (read list preset).entries) :
    Item.read? t = some (key, .text t) ∨ ∃ item ∈ Items.split list, Item.ownForm? item = none ∧
      ∃ k, Item.assignment? item = some (k, t) ∧ collapse k = key := by
  rcases mem_read hmem with ⟨p, hp⟩ | ⟨item, hitem, -, hread⟩
  · obtain ⟨⟨key', v⟩, hread, halike⟩ := Preset.alike_of_mem_bundle hp
    rw [printEntry_bare hbare] at hread
    rw [alikeEntry, Bool.and_eq_true, beq_iff_eq] at halike
    obtain ⟨rfl, hvalue⟩ := halike
    cases v <;> simp [Value.alike] at hvalue
    exact Or.inl (hvalue ▸ hread)
  · cases Item.read?_eq_some_iff.1 hread with
    | assigned assignment reads =>
      rcases Item.assigned?_eq_some reads with ⟨_, -, -, hv⟩ | ⟨-, ⟨_, hv⟩ | ⟨_, hv⟩⟩ <;> simp at hv
    | text assignment unread notOwn =>
      exact Or.inr ⟨item, hitem, notOwn, _, assignment, rfl⟩
    | own form =>
      obtain ⟨_, t', heq, -, hagain, -⟩ := Item.ownForm?_eq_some form
      obtain ⟨rfl, htext⟩ := Prod.mk.inj heq
      obtain rfl := Value.text.inj htext
      exact Or.inl (Item.read?_of_ownForm? hagain)
    | flag unassigned notOwn words =>
      obtain ⟨heq, -⟩ := Item.flag?_eq_some words
      simp at heq

/-- Texts that are printed without their key. Such a text stands alone when it is printed. It is
read again as it is unless it was assigned, and an assigned one is filed under its key exactly if it
is of the form of that key, or of no such form and says the key once more. -/
theorem bare_text_read_again (hbare : key ∈ bareKeys)
    (hmem : (key, .text t) ∈ (read list preset).entries) :
    printEntry (key, .text t) = t ∧
    (Item.read? t = some (key, .text t) ∨ ∃ item ∈ Items.split list, Item.ownForm? item = none ∧
      ∃ k, Item.assignment? item = some (k, t) ∧ collapse k = key) ∧
    ((∃ v, Item.read? t = some (key, v)) ↔
      (∃ v, Item.ownForm? t = some (key, v)) ∨ (Item.ownForm? t = none ∧ Item.SaysKey key t)) :=
  ⟨printEntry_bare hbare, read?_or_assigned hbare hmem,
    Item.read?_key_iff (collapse_bareKey hbare)⟩

theorem bare_text_read_again_red :
    printEntry ("color".toList, .text "red".toList) = "red".toList ∧
      ∃ v, Item.read? "red".toList = some ("color".toList, v) := by
  have hentries : (read "color=red".toList (some .vec)).entries =
    [_, _, ("color".toList, .text "red".toList)] := rfl
  have hmem : ("color".toList, .text "red".toList) ∈
      (read "color=red".toList (some .vec)).entries := by
    rw [hentries]
    simp
  obtain ⟨hprint, -, hfiled⟩ := bare_text_read_again (by decide) hmem
  exact ⟨hprint, hfiled.2 (Or.inl ⟨.text "red".toList, rfl⟩)⟩

/-- The side of a label that is assigned to the colour is printed as that side. -/
theorem assigned_bare_text_is_lost : ¬ ∀ (list : Text) (preset : Option Preset) (key t : Text),
    key ∈ bareKeys → (key, .text t) ∈ (read list preset).entries →
      ∃ v, Item.read? (printEntry (key, .text t)) = some (key, v) := by
  intro h
  have hentries : (read "color=above".toList none).entries =
    [("color".toList, .text "above".toList)] := rfl
  obtain ⟨v, hv⟩ := h "color=above".toList none "color".toList "above".toList (by decide)
    (hentries ▸ List.mem_cons_self)
  have hflag : Item.read? (printEntry ("color".toList, .text "above".toList)) =
    some ("above".toList, .flag) := rfl
  rw [hflag] at hv
  simp at hv

end Style

end DiagramMacros
