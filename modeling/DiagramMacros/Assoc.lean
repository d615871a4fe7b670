import DiagramMacros.Text
/-!
Lists of keys with values in which a new value for a key takes the place of the old one, and a new
key goes to the end. So the keys stand in the order in which they first occurred, each with its last
value (`get?_put_self`, `get?_put_of_ne`, `keys_put`), and no key occurs twice (`nodup_keys_put`).
-/

set_option autoImplicit false
set_option relaxedAutoImplicit false

namespace DiagramMacros.Assoc

variable {β : Type}

/-- The keys in order. -/
def keys (entries : List (Text × β)) : List Text := entries.map Prod.fst

/-- The value of a key. -/
def get? (entries : List (Text × β)) (key : Text) : Option β :=
  match entries with
  | [] => none
  | (k, v) :: rest => if k = key then some v else get? rest key

/-- Gives a key a value, in its place or else at the end. -/
def put (entries : List (Text × β)) (key : Text) (value : β) : List (Text × β) :=
  match entries with
  | [] => [(key, value)]
  | (k, v) :: rest => if k = key then (k, value) :: rest else (k, v) :: put rest key value

/-- Takes a key out. -/
def erase (entries : List (Text × β)) (key : Text) : List (Text × β) :=
  entries.filter fun e ↦ e.1 ≠ key

/-- Whether a key has a value. -/
def contains (entries : List (Text × β)) (key : Text) : Bool := (get? entries key).isSome

/-- Gives several keys their values, one after the other. -/
def putAll (entries : List (Text × β)) (more : List (Text × β)) : List (Text × β) :=
  more.foldl (fun es e ↦ put es e.1 e.2) entries

theorem get?_put_self (entries : List (Text × β)) (key : Text) (value : β) :
    get? (put entries key value) key = some value := by
  induction entries with
  | nil => simp [put, get?]
  | cons e rest ih =>
    by_cases h : e.1 = key
    · simp [put, get?, h]
    · simp [put, get?, h, ih]

theorem get?_put_of_ne (entries : List (Text × β)) {key other : Text} (value : β)
    (h : other ≠ key) : get? (put entries key value) other = get? entries other := by
  induction entries with
  | nil => simp [put, get?, Ne.symm h]
  | cons e rest ih =>
    by_cases hk : e.1 = key
    · have : e.1 ≠ other := fun eq ↦ h (eq ▸ hk)
      simp [put, get?, hk, Ne.symm h]
    · simp [put, get?, hk, ih]

theorem keys_put (entries : List (Text × β)) (key : Text) (value : β) :
    keys (put entries key value) =
      if key ∈ keys entries then keys entries else keys entries ++ [key] := by
  induction entries with
  | nil => simp [put, keys]
  | cons e rest ih =>
    by_cases h : e.1 = key
    · simp [put, keys, h]
    · have h' : key ≠ e.1 := Ne.symm h
      simp only [keys, put, h, if_false, List.map_cons, List.mem_cons, h', false_or] at ih ⊢
      rw [ih]
      by_cases hmem : key ∈ List.map Prod.fst rest <;> simp [hmem]

theorem nodup_keys_put {entries : List (Text × β)} (h : (keys entries).Nodup) (key : Text)
    (value : β) : (keys (put entries key value)).Nodup := by
  rw [keys_put]
  split
  · exact h
  · rename_i hnot
    rw [List.nodup_append]
    refine ⟨h, by simp, ?_⟩
    intro a ha b hb
    simp only [List.mem_singleton] at hb
    subst hb
    exact fun eq ↦ hnot (eq ▸ ha)

/-- An entry is the value of its key, since no other entry has that key. -/
theorem get?_of_mem {entries : List (Text × β)} (h : (keys entries).Nodup) {key : Text} {value : β}
    (hmem : (key, value) ∈ entries) : get? entries key = some value := by
  induction entries with
  | nil => simp at hmem
  | cons e rest ih =>
    obtain ⟨hnot, hrest⟩ := List.nodup_cons.1 h
    rcases List.mem_cons.1 hmem with rfl | hmem
    · simp [get?]
    · have hne : e.1 ≠ key := by
        rintro rfl
        exact hnot (List.mem_map.2 ⟨_, hmem, rfl⟩)
      rw [get?, if_neg hne, ih hrest hmem]

end DiagramMacros.Assoc
