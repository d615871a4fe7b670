import DiagramMacros.Assoc
import Mathlib.Data.List.Induction
import Mathlib.Data.List.Nodup
/-!
Entries put one after the other. Position and value follow opposite rules: a key stands where it
first occurs, with the value that it has last (`putAll_eq_latest`). Over entries with distinct keys,
`put` and `erase` touch the entry of their key and nothing else (`put_append_cons`,
`erase_append_cons`).
-/

set_option autoImplicit false
set_option relaxedAutoImplicit false

namespace DiagramMacros

/-- One more element at the end is dropped if it is there already. -/
theorem eraseDups_append_singleton {α : Type} [BEq α] [LawfulBEq α] (l : List α) (a : α) :
    (l ++ [a]).eraseDups = if a ∈ l then l.eraseDups else l.eraseDups ++ [a] := by
  rw [List.eraseDups_append]
  by_cases hmem : a ∈ l
  · simp [hmem, List.removeAll]
  · simp [hmem, List.removeAll, List.eraseDups_cons]

namespace Assoc

variable {β : Type} {entries before after : List (Text × β)} {key : Text} {value old : β}

/-- One entry for each key: in the place where the key first occurs, with the value that it has
last. -/
def latest (entries : List (Text × β)) : List (Text × β) :=
  (keys entries).eraseDups.filterMap fun key ↦ (get? entries.reverse key).map (key, ·)

theorem keys_append (before after : List (Text × β)) :
    keys (before ++ after) = keys before ++ keys after := List.map_append

theorem get?_append (before after : List (Text × β)) (key : Text) :
    get? (before ++ after) key = (get? before key).or (get? after key) := by
  induction before with
  | nil => rfl
  | cons e before ih =>
    by_cases h : e.1 = key
    · simp [get?, h]
    · simp [get?, h, ih]

/-! ### Putting all entries of a list -/

theorem putAll_concat (entries more : List (Text × β)) (e : Text × β) :
    putAll entries (more ++ [e]) = put (putAll entries more) e.1 e.2 := by
  rw [putAll, List.foldl_append]
  rfl

theorem keys_putAll (entries : List (Text × β)) :
    keys (putAll [] entries) = (keys entries).eraseDups := by
  induction entries using List.reverseRecOn with
  | nil => rfl
  | append_singleton entries e ih =>
    have hkeys : keys [e] = [e.1] := rfl
    rw [putAll_concat, keys_put, ih, keys_append, hkeys, eraseDups_append_singleton]
    simp only [List.mem_eraseDups]

theorem nodup_keys_putAll (entries : List (Text × β)) : (keys (putAll [] entries)).Nodup := by
  induction entries using List.reverseRecOn with
  | nil => exact List.nodup_nil
  | append_singleton entries e ih =>
    rw [putAll_concat]
    exact nodup_keys_put ih _ _

theorem get?_putAll (entries : List (Text × β)) (key : Text) :
    get? (putAll [] entries) key = get? entries.reverse key := by
  induction entries using List.reverseRecOn with
  | nil => rfl
  | append_singleton entries e ih =>
    rw [putAll_concat, List.reverse_append, get?_append, ← ih]
    by_cases h : key = e.1
    · simp [h, get?_put_self, get?]
    · simp [get?_put_of_ne _ _ h, get?, Ne.symm h]

theorem mem_of_get? (h : get? entries key = some value) : (key, value) ∈ entries := by
  induction entries with
  | nil => simp [get?] at h
  | cons e rest ih =>
    obtain ⟨k, v⟩ := e
    by_cases hk : k = key
    · subst hk
      obtain rfl : v = value := by simpa [get?] using h
      exact List.mem_cons_self
    · exact List.mem_cons_of_mem _ (ih (by simpa [get?, hk] using h))

theorem contains_iff : contains entries key ↔ key ∈ keys entries := by
  induction entries with
  | nil => simp [contains, get?, keys]
  | cons e rest ih =>
    by_cases hkey : e.1 = key
    · simp [contains, get?, keys, hkey]
    · have hmem : key ∈ keys (e :: rest) ↔ key ∈ keys rest :=
        List.mem_cons.trans (or_iff_right (Ne.symm hkey))
      rw [contains, get?, if_neg hkey, hmem]
      exact ih

theorem mem_of_mem_putAll {e : Text × β} (h : e ∈ putAll [] entries) : e ∈ entries := by
  have hget : get? entries.reverse e.1 = some e.2 := by
    rw [← get?_putAll]
    exact get?_of_mem (nodup_keys_putAll entries) h
  exact List.mem_reverse.1 (mem_of_get? hget)

/-- Entries with distinct keys are told by their keys and by what these find. -/
theorem eq_filterMap_keys (h : (keys entries).Nodup) :
    entries = (keys entries).filterMap fun key ↦ (get? entries key).map (key, ·) := by
  induction entries with
  | nil => rfl
  | cons e rest ih =>
    obtain ⟨hnot, hrest⟩ := List.nodup_cons.1 h
    have hother : ∀ key ∈ keys rest,
        (get? (e :: rest) key).map (key, ·) = (get? rest key).map (key, ·) := by
      intro key hkey
      have hne : e.1 ≠ key := fun heq ↦ hnot (heq ▸ hkey)
      rw [get?, if_neg hne]
    change e :: rest = (e.1 :: keys rest).filterMap _
    rw [List.filterMap_cons, List.filterMap_congr hother, ← ih hrest]
    simp [get?]

theorem putAll_eq_latest (entries : List (Text × β)) : putAll [] entries = latest entries := by
  calc putAll [] entries
      = (keys (putAll [] entries)).filterMap fun key ↦
          (get? (putAll [] entries) key).map (key, ·) :=
        eq_filterMap_keys (nodup_keys_putAll entries)
    _ = latest entries := by simp only [keys_putAll, get?_putAll, latest]

/-! ### One entry put or taken out -/

theorem put_of_notMem (h : key ∉ keys entries) (value : β) :
    put entries key value = entries ++ [(key, value)] := by
  induction entries with
  | nil => rfl
  | cons e rest ih =>
    obtain ⟨hne, hrest⟩ := List.ne_and_not_mem_of_not_mem_cons h
    rw [put, if_neg (Ne.symm hne), ih hrest, List.cons_append]

theorem put_append_cons (h : key ∉ keys before) (old value : β) (after : List (Text × β)) :
    put (before ++ (key, old) :: after) key value = before ++ (key, value) :: after := by
  induction before with
  | nil => simp [put]
  | cons e before ih =>
    obtain ⟨hne, hrest⟩ := List.ne_and_not_mem_of_not_mem_cons h
    rw [List.cons_append, put, if_neg (Ne.symm hne), ih hrest, List.cons_append]

/-- Where a value is put does not depend on the value. -/
theorem exists_put_eq (entries : List (Text × β)) (key : Text) :
    ∃ before after, ∀ value, put entries key value = before ++ (key, value) :: after := by
  induction entries with
  | nil => exact ⟨[], [], fun value ↦ rfl⟩
  | cons e rest ih =>
    by_cases hkey : e.1 = key
    · refine ⟨[], rest, fun value ↦ ?_⟩
      rw [put, if_pos hkey, hkey, List.nil_append]
    · obtain ⟨before, after, h⟩ := ih
      refine ⟨e :: before, after, fun value ↦ ?_⟩
      rw [put, if_neg hkey, h, List.cons_append]

/-- The value that a key has can be put again. -/
theorem put_of_get? (h : get? entries key = some value) : put entries key value = entries := by
  induction entries with
  | nil => exact absurd h nofun
  | cons e rest ih =>
    by_cases hkey : e.1 = key
    · rw [get?, if_pos hkey] at h
      rw [put, if_pos hkey, ← Option.some.inj h]
    · rw [get?, if_neg hkey] at h
      rw [put, if_neg hkey, ih h]

theorem mem_put {e : Text × β} (h : e ∈ put entries key value) :
    e ∈ entries ∨ e = (key, value) := by
  induction entries with
  | nil => exact Or.inr (List.mem_singleton.1 h)
  | cons e' rest ih =>
    rw [put] at h
    split at h
    · rename_i hk
      rcases List.mem_cons.1 h with rfl | h
      · exact Or.inr (Prod.ext hk rfl)
      · exact Or.inl (List.mem_cons_of_mem _ h)
    · rcases List.mem_cons.1 h with rfl | h
      · exact Or.inl List.mem_cons_self
      · exact (ih h).imp_left (List.mem_cons_of_mem _)

theorem erase_of_notMem (h : key ∉ keys entries) : erase entries key = entries := by
  refine List.filter_eq_self.2 fun e he ↦ ?_
  have hne : e.1 ≠ key := fun heq ↦ h (heq ▸ List.mem_map_of_mem he)
  simpa using hne

theorem erase_append_cons (hbefore : key ∉ keys before) (hafter : key ∉ keys after) (old : β) :
    erase (before ++ (key, old) :: after) key = before ++ after := by
  have htail : erase ((key, old) :: after) key = erase after key := by simp [erase]
  rw [erase, List.filter_append]
  exact congrArg₂ _ (erase_of_notMem hbefore) (htail.trans (erase_of_notMem hafter))

theorem nodup_keys_erase (h : (keys entries).Nodup) (key : Text) :
    (keys (erase entries key)).Nodup :=
  (List.filter_sublist.map Prod.fst).nodup h

/-- Where the entry of a key stands among entries with distinct keys. -/
theorem exists_of_mem_keys (hnodup : (keys entries).Nodup) (h : key ∈ keys entries) :
    ∃ before old after, entries = before ++ (key, old) :: after ∧
      key ∉ keys before ∧ key ∉ keys after := by
  obtain ⟨⟨key, old⟩, hmem, rfl⟩ := List.mem_map.1 h
  obtain ⟨before, after, rfl⟩ := List.append_of_mem hmem
  rw [keys_append] at hnodup
  obtain ⟨-, hafter, hapart⟩ := List.nodup_append.1 hnodup
  exact ⟨before, old, after, rfl, fun hin ↦ hapart _ hin _ List.mem_cons_self rfl,
    (List.nodup_cons.1 hafter).1⟩

end Assoc

end DiagramMacros
