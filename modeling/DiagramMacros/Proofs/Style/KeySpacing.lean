import DiagramMacros.Proofs.Style.Readings
/-!
White space in keys. The key of a flag or of a text is written with one space between its words
(`IsUneven.compound`), whatever the item had there. The key of a number, a length or a group stands
as it was given, so among the keys with the same words there is one that overrides in the usual way
and perhaps others, all of them such unevenly spaced keys (`Style.keys_told_by_words`).

A group is a style that has been read, so what holds of every list holds in every group
(`Style.Inside.exists_read`).
-/

set_option autoImplicit false
set_option relaxedAutoImplicit false

namespace DiagramMacros

open Text

namespace Assoc

variable {β : Type} {before after : List (Text × β)} {key : Text}

theorem get?_of_notMem (h : key ∉ keys after) : get? after key = none := by
  cases hget : get? after key with
  | none => rfl
  | some value => exact absurd (List.mem_map_of_mem (mem_of_get? hget)) h

/-- An entry counts if its key does not come again. -/
theorem mem_putAll_of_last {e : Text × β} (h : e.1 ∉ keys after) :
    e ∈ putAll [] (before ++ e :: after) := by
  have hlater : e.1 ∉ keys after.reverse := by
    rwa [keys, List.map_reverse, List.mem_reverse]
  have hget : get? (putAll [] (before ++ e :: after)) e.1 = some e.2 := by
    rw [get?_putAll, List.reverse_append, List.reverse_cons, List.append_assoc, get?_append,
      get?_of_notMem hlater, Option.none_or, List.singleton_append, get?, if_pos rfl]
  exact mem_of_get? hget

end Assoc

namespace Value

/-- A number, a length or a group. -/
def IsCompound (v : Value) : Prop := v.IsMeasure ∨ ∃ inner, v = .group inner

end Value

/-- The words of the key of a property are not written with one space between them, and its value is
a number, a length or a group. -/
structure IsUneven (e : Entry) : Prop where
  uneven : collapse e.1 ≠ e.1
  compound : e.2.IsCompound

namespace Item

variable {item : Text} {e : Entry}

/-- Only the forms for numbers, lengths and groups keep the white space in a key. -/
theorem isUneven_of_read? (h : read? item = some e) (huneven : collapse e.1 ≠ e.1) :
    IsUneven e := by
  refine ⟨huneven, ?_⟩
  cases read?_eq_some_iff.1 h with
  | assigned assignment reads =>
    rcases assigned?_eq_some reads with ⟨body, -, -, rfl⟩ | ⟨-, hmeasure⟩
    · exact Or.inr ⟨_, rfl⟩
    · exact Or.inl hmeasure
  | text assignment unread notOwn => exact absurd (collapse_collapse _) huneven
  | own form =>
    obtain ⟨key, t, rfl, hbare, -⟩ := ownForm?_eq_some form
    exact absurd (Style.collapse_bareKey hbare) huneven
  | flag unassigned notOwn words =>
    obtain ⟨rfl, -⟩ := flag?_eq_some words
    exact absurd (collapse_collapse _) huneven

end Item

theorem Preset.collapse_key {p : Preset} {e : Entry} (h : e ∈ p.bundle) : collapse e.1 = e.1 := by
  have heven : Preset.all.all fun p ↦ p.bundle.all fun e ↦ collapse e.1 == e.1 := by decide
  exact beq_iff_eq.1 (of_mem_bundle heven h)

namespace Style

variable {list : Text} {preset : Option Preset} {inner : List Entry} {e e' : Entry}

/-- Properties, and the properties in their groups at any depth. -/
inductive Inside (entries : List Entry) : List Entry → Prop
  | self : Inside entries entries
  | group {outer inner : List Entry} {key : Text} (outside : Inside entries outer)
      (mem : (key, .group inner) ∈ outer) : Inside entries inner

theorem exists_read_of_group {key : Text} (h : (key, .group inner) ∈ (read list preset).entries) :
    ∃ body, inner = (read body none).entries := by
  rcases mem_read h with ⟨p, hp⟩ | ⟨item, -, -, hread⟩
  · exact absurd hp (p.group_notMem_bundle key inner)
  · obtain ⟨body, -, -, hinner⟩ := Item.exists_body_of_read_group hread
    exact ⟨body, hinner⟩

theorem Inside.exists_read (h : Inside (read list preset).entries inner) :
    ∃ list preset, inner = (read list preset).entries := by
  induction h with
  | self => exact ⟨list, preset, rfl⟩
  | group outside mem ih =>
    obtain ⟨list', preset', rfl⟩ := ih
    obtain ⟨body, rfl⟩ := exists_read_of_group mem
    exact ⟨body, none, rfl⟩

theorem isUneven_of_mem (h : e ∈ (read list preset).entries) (huneven : collapse e.1 ≠ e.1) :
    IsUneven e := by
  rcases mem_read h with ⟨p, hp⟩ | ⟨item, -, -, hread⟩
  · exact absurd (Preset.collapse_key hp) huneven
  · exact Item.isUneven_of_read? hread huneven

/-- Two keys with the same words cannot both be evenly spaced. -/
theorem isUneven_or_of_same_words (h : e ∈ (read list preset).entries)
    (h' : e' ∈ (read list preset).entries) (hkeys : e.1 ≠ e'.1)
    (hwords : collapse e.1 = collapse e'.1) : IsUneven e ∨ IsUneven e' := by
  by_cases heven : collapse e.1 = e.1
  · refine Or.inr (isUneven_of_mem h' fun heven' ↦ hkeys ?_)
    rw [← heven, hwords, heven']
  · exact Or.inl (isUneven_of_mem h heven)

theorem eq_of_same_key (h : e ∈ (read list preset).entries) (h' : e' ∈ (read list preset).entries)
    (hkeys : e.1 = e'.1) : e = e' := by
  rw [entries_read] at h h'
  have hapart := Assoc.nodup_keys_putAll (given list preset)
  have hvalue := (Assoc.get?_of_mem hapart h).symm.trans (hkeys ▸ Assoc.get?_of_mem hapart h')
  exact Prod.ext hkeys (Option.some.inj hvalue)

/-- Keys with the same words. In a style that has been read, and in its groups at every depth, of
two distinct keys with the same words one has a number, a length or a group and is not evenly
spaced. The last property with its words, whatever the kinds of the others and however they are
spaced, is in the style, and every other property with these words there is left over because it or
the last one is of that kind. -/
theorem keys_told_by_words (list : Text) (preset : Option Preset) :
    (∀ inner, Inside (read list preset).entries inner → ∀ e ∈ inner, ∀ e' ∈ inner,
      e.1 ≠ e'.1 → collapse e.1 = collapse e'.1 → IsUneven e ∨ IsUneven e') ∧
    ∀ before e after, given list preset = before ++ e :: after →
      (∀ e' ∈ after, collapse e'.1 ≠ collapse e.1) →
      e ∈ (read list preset).entries ∧ ∀ e' ∈ (read list preset).entries,
        collapse e'.1 = collapse e.1 → e' = e ∨ IsUneven e ∨ IsUneven e' := by
  constructor
  · intro inner hinside e he e' he' hkeys hwords
    obtain ⟨list', preset', rfl⟩ := hinside.exists_read
    exact isUneven_or_of_same_words he he' hkeys hwords
  · intro before e after hgiven hlast
    have hlater : e.1 ∉ Assoc.keys after := by
      intro hmem
      obtain ⟨e', he', hkey⟩ := List.mem_map.1 hmem
      exact hlast e' he' (congrArg collapse hkey)
    have hmem : e ∈ (read list preset).entries := by
      rw [entries_read, hgiven]
      exact Assoc.mem_putAll_of_last hlater
    refine ⟨hmem, fun e' he' hwords ↦ ?_⟩
    by_cases hkeys : e'.1 = e.1
    · exact Or.inl (eq_of_same_key he' hmem hkeys)
    · exact Or.inr (isUneven_or_of_same_words he' hmem hkeys hwords).symm

/-- The line width of a preset, and one that is given with two spaces in its key. -/
def widened : Style := read "line  width=2pt, fill  with=red, fill with=blue".toList (some .vec)

theorem exists_widened : ∃ e ∈ widened.entries, ∃ e' ∈ widened.entries,
    e.1 ≠ e'.1 ∧ collapse e.1 = collapse e'.1 := by
  have hkeys : Assoc.keys widened.entries = ["line width".toList, "arrows".toList,
      "line  width".toList, "fill with".toList] := by decide +kernel
  have hone : "line width".toList ∈ Assoc.keys widened.entries := by simp [hkeys]
  have htwo : "line  width".toList ∈ Assoc.keys widened.entries := by simp [hkeys]
  obtain ⟨e, he, hone⟩ := List.mem_map.1 hone
  obtain ⟨e', he', htwo⟩ := List.mem_map.1 htwo
  refine ⟨e, he, e', he', ?_⟩
  rw [hone, htwo]
  decide

theorem keys_told_by_words_widened :
    (∃ e ∈ widened.entries, ∃ e' ∈ widened.entries,
      e.1 ≠ e'.1 ∧ collapse e.1 = collapse e'.1 ∧ (IsUneven e ∨ IsUneven e')) ∧
    ("fill with".toList, .text "blue".toList) ∈ widened.entries := by
  obtain ⟨hdistinct, hlast⟩ :=
    keys_told_by_words "line  width=2pt, fill  with=red, fill with=blue".toList (some .vec)
  obtain ⟨e, he, e', he', hkeys, hwords⟩ := exists_widened
  refine ⟨⟨e, he, e', he', hkeys, hwords, hdistinct _ .self e he e' he' hkeys hwords⟩, ?_⟩
  exact (hlast [_, _, _, _] ("fill with".toList, .text "blue".toList) [] rfl (by simp)).1

/-- A second property is made by two spaces in the key of a length. -/
theorem uneven_key_is_kept : ¬ ∀ (list : Text) (preset : Option Preset) (inner : List Entry),
    Inside (read list preset).entries inner → ∀ e ∈ inner, ∀ e' ∈ inner,
      e.1 ≠ e'.1 → collapse e.1 ≠ collapse e'.1 := by
  intro h
  obtain ⟨e, he, e', he', hkeys, hwords⟩ := exists_widened
  exact h _ _ _ .self e he e' he' hkeys hwords

end Style

end DiagramMacros
