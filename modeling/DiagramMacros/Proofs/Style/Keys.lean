import DiagramMacros.Proofs.Overriding
import DiagramMacros.Style.Item
/-!
The keys of a style. A recipe amounts to the presets and the properties that its steps ask for
(`ofSteps_eq`), and the style made from it has each key where it first occurs with the value that it
has last. However a style is made, its keys are distinct, and so are those of every style inside it
(`Style.Reachable.keysApart`): a group comes only from a list that has been read, so the depth of
reading carries the induction.
-/

set_option autoImplicit false
set_option relaxedAutoImplicit false

namespace DiagramMacros

/-- No key occurs twice, nor in a group of properties at any depth. -/
inductive KeysApart : List Entry → Prop
  | intro {entries : List Entry} (nodup : (Assoc.keys entries).Nodup)
      (groups : ∀ key inner, (key, Value.group inner) ∈ entries → KeysApart inner) :
      KeysApart entries

namespace KeysApart

variable {entries inner : List Entry} {key : Text} {value : Value}

theorem nodup (h : KeysApart entries) : (Assoc.keys entries).Nodup := by
  cases h with
  | intro nodup groups => exact nodup

theorem group (h : KeysApart entries) (hmem : (key, .group inner) ∈ entries) : KeysApart inner := by
  cases h with
  | intro nodup groups => exact groups key inner hmem

theorem put (h : KeysApart entries) (key : Text)
    (hvalue : ∀ inner, value = .group inner → KeysApart inner) :
    KeysApart (Assoc.put entries key value) := by
  refine .intro (Assoc.nodup_keys_put h.nodup key value) fun key' inner hmem ↦ ?_
  rcases Assoc.mem_put hmem with hmem | heq
  · exact h.group hmem
  · exact hvalue inner (congrArg Prod.snd heq).symm

theorem erase (h : KeysApart entries) (key : Text) : KeysApart (Assoc.erase entries key) :=
  .intro (Assoc.nodup_keys_erase h.nodup key) fun _ _ hmem ↦ h.group (List.mem_of_mem_filter hmem)

end KeysApart

/-! ### What a recipe asks for -/

namespace Recipe

/-- What may be asked of a recipe at a time. -/
inductive Step
  | preset (p : Preset)
  | items (list : Text)
  | set (key : Text) (value : Value)

/-- The recipe after a step. -/
def take (r : Recipe) : Step → Recipe
  | .preset p => r.addPreset p
  | .items list => r.addList list
  | .set key value => r.addEntry (key, value)

/-- The recipe after several steps. -/
def ofSteps (steps : List Step) : Recipe := steps.foldl take {}

/-- The property that an item gives, which it does unless it is the name of a preset. -/
def property? (read : Text → Option Entry) (item : Text) : Option Entry :=
  if (Preset.ofTitle? item).isSome then none else read item

namespace Step

/-- The presets that a step asks for, in order. -/
def presets : Step → List Preset
  | preset p => [p]
  | items list => (Items.split list).filterMap Preset.ofTitle?
  | set _ _ => []

/-- The properties that a step gives, in order. -/
def properties : Step → List Entry
  | preset _ => []
  | items list => (Items.split list).filterMap (property? Item.read?)
  | set key value => [(key, value)]

end Step

/-- The recipe that has been asked for these presets, and for these properties. -/
def asked (presets : List Preset) (properties : List Entry) : Recipe :=
  ⟨presets.eraseDups, properties⟩

variable {presets : List Preset} {properties : List Entry}

theorem addPreset_asked (p : Preset) :
    (asked presets properties).addPreset p = asked (presets ++ [p]) properties := by
  rw [addPreset, asked, asked, eraseDups_append_singleton]
  by_cases hmem : p ∈ presets <;> simp [hmem]

theorem addItem_asked (read : Text → Option Entry) (item : Text) :
    addItem read (asked presets properties) item =
      asked (presets ++ (Preset.ofTitle? item).toList)
        (properties ++ (property? read item).toList) := by
  unfold addItem property?
  cases Preset.ofTitle? item with
  | some p => simp [addPreset_asked]
  | none => cases read item <;> simp [asked, addEntry]

theorem addItems_asked (read : Text → Option Entry) (items : List Text) :
    addItems read (asked presets properties) items =
      asked (presets ++ items.filterMap Preset.ofTitle?)
        (properties ++ items.filterMap (property? read)) := by
  induction items generalizing presets properties with
  | nil => simp [addItems]
  | cons item items ih =>
    have hrest : addItems read (asked presets properties) (item :: items) =
        addItems read (addItem read (asked presets properties) item) items := rfl
    have hcons {α : Type} (f : Text → Option α) :
        (item :: items).filterMap f = (f item).toList ++ items.filterMap f := by
      cases h : f item <;> simp [h]
    rw [hrest, addItem_asked, ih, hcons, hcons, List.append_assoc, List.append_assoc]

theorem take_asked (step : Step) :
    (asked presets properties).take step =
      asked (presets ++ step.presets) (properties ++ step.properties) := by
  cases step with
  | preset p => simpa [take, Step.presets, Step.properties] using addPreset_asked p
  | items list => exact addItems_asked Item.read? (Items.split list)
  | set key value => simp [take, Step.presets, Step.properties, asked, addEntry]

/-- A recipe keeps of its steps the presets, each where it is first asked for, and all
properties. -/
theorem ofSteps_eq (steps : List Step) :
    ofSteps steps = asked (steps.flatMap Step.presets) (steps.flatMap Step.properties) := by
  induction steps using List.reverseRecOn with
  | nil => rfl
  | append_singleton steps step ih =>
    have hlast : ofSteps (steps ++ [step]) = (ofSteps steps).take step := by
      simp [ofSteps, List.foldl_append]
    rw [hlast, ih, take_asked]
    simp

theorem build_asked (presets : List Preset) (properties : List Entry) :
    (asked presets properties).build.entries =
      Assoc.latest (presets.eraseDups.flatMap Preset.bundle ++ properties) :=
  Assoc.putAll_eq_latest _

end Recipe

/-! ### Groups of properties -/

theorem Preset.group_notMem_bundle (p : Preset) (key : Text) (inner : List Entry) :
    (key, Value.group inner) ∉ p.bundle := by
  cases p <;> simp [Preset.bundle]

theorem Recipe.keysApart_build {r : Recipe}
    (h : ∀ key inner, (key, Value.group inner) ∈ r.explicit → KeysApart inner) :
    KeysApart r.build.entries := by
  refine .intro (Assoc.nodup_keys_putAll r.entries) fun key inner hmem ↦ ?_
  rcases List.mem_append.1 (Assoc.mem_of_mem_putAll hmem) with hpreset | hexplicit
  · obtain ⟨p, -, hp⟩ := List.mem_flatMap.1 hpreset
    exact absurd hp (p.group_notMem_bundle key inner)
  · exact h key inner hexplicit

namespace Item

variable {read : Text → Option Entry} {item key : Text} {inner : List Entry} {items : List Text}

theorem mem_of_mem_filterMap_property {e : Entry}
    (h : e ∈ items.filterMap (Recipe.property? read)) : ∃ item, read item = some e := by
  obtain ⟨item, -, hproperty⟩ := List.mem_filterMap.1 h
  unfold Recipe.property? at hproperty
  split at hproperty
  · simp at hproperty
  · exact ⟨item, hproperty⟩

theorem readLength?_ne_group (s : Text) : readLength? s ≠ some (.group inner) := by
  intro h
  unfold readLength? at h
  dsimp only at h
  split at h
  · split at h
    · split at h
      · split at h <;> simp at h
      · simp at h
    · simp at h
  · simp at h

theorem numeric?_ne_group (item : Text) : numeric? item ≠ some (key, .group inner) := by
  intro h
  unfold numeric? at h
  split at h
  · obtain ⟨value, hvalue, heq⟩ := Option.map_eq_some_iff.1 h
    obtain rfl : value = .group inner := congrArg Prod.snd heq
    exact readLength?_ne_group _ hvalue
  · simp at h

theorem arrows?_ne_group (item : Text) : arrows? item ≠ some (key, .group inner) := by
  intro h
  unfold arrows? at h
  dsimp only at h
  split at h
  · simp at h
  · split at h
    · simp at h
    · rw [ite_eq_iff, ite_eq_iff] at h
      simp at h

theorem color?_ne_group (item : Text) : color? item ≠ some (key, .group inner) := by
  intro h
  unfold color? at h
  dsimp only at h
  split at h
  · simp at h
  · rw [ite_eq_iff] at h
    simp at h

/-- Only the first form of an item is a group. -/
theorem group?_of_readWith (h : readWith read item = some (key, .group inner)) :
    group? read item = some (key, .group inner) := by
  obtain ⟨form, hform, hread⟩ := List.exists_of_findSome?_eq_some h
  simp only [List.mem_cons, List.not_mem_nil, or_false] at hform
  rcases hform with rfl | rfl | rfl | rfl | rfl | rfl | rfl | rfl
  · exact hread
  · exact absurd hread (numeric?_ne_group item)
  · exact absurd hread (arrows?_ne_group item)
  · rw [quotes?, ite_eq_iff] at hread
    simp at hread
  · rw [lineStyle?, ite_eq_iff] at hread
    simp at hread
  · exact absurd hread (color?_ne_group item)
  · simp [assign?] at hread
  · rw [flag?, ite_eq_iff] at hread
    simp at hread

/-- The properties in a group have been read one by one. -/
theorem exists_items_of_group? (h : group? read item = some (key, .group inner)) :
    ∃ items, inner = (Recipe.addItems read {} items).build.entries := by
  unfold group? at h
  split at h
  · simp at h
  · split at h
    · simp at h
    · rename_i body _
      dsimp only at h
      rw [ite_eq_iff] at h
      rcases h with ⟨_, h⟩ | ⟨_, h⟩
      · obtain ⟨-, hgroup⟩ := Prod.mk.inj (Option.some.inj h)
        exact ⟨Items.split body, (Value.group.inj hgroup).symm⟩
      · simp at h

/-- Whatever is read as a group has distinct keys at every depth, by induction on the depth to which
items are read. -/
theorem keysApart_of_readWithin {depth : Nat}
    (h : readWithin depth item = some (key, .group inner)) : KeysApart inner := by
  induction depth generalizing item key inner with
  | zero => simp [readWithin] at h
  | succ depth ih =>
    obtain ⟨items, rfl⟩ := exists_items_of_group? (group?_of_readWith h)
    have hempty : ({} : Recipe) = Recipe.asked [] [] := rfl
    rw [hempty, Recipe.addItems_asked]
    refine Recipe.keysApart_build fun key inner hmem ↦ ?_
    obtain ⟨item, hread⟩ := mem_of_mem_filterMap_property hmem
    exact ih hread

end Item

namespace Recipe

theorem Step.keysApart_of_mem_properties {step : Step} {key : Text} {inner : List Entry}
    (hset : ∀ key inner, step = .set key (.group inner) → KeysApart inner)
    (hmem : (key, .group inner) ∈ step.properties) : KeysApart inner := by
  cases step with
  | preset p => simp [properties] at hmem
  | items list =>
    obtain ⟨item, hread⟩ := Item.mem_of_mem_filterMap_property hmem
    exact Item.keysApart_of_readWithin hread
  | set key' value =>
    obtain ⟨rfl, rfl⟩ := Prod.mk.inj (List.mem_singleton.1 hmem)
    exact hset key _ rfl

theorem keysApart_build_ofSteps {steps : List Step}
    (hset : ∀ key inner, .set key (.group inner) ∈ steps → KeysApart inner) :
    KeysApart (ofSteps steps).build.entries := by
  rw [ofSteps_eq]
  refine keysApart_build fun key inner hmem ↦ ?_
  obtain ⟨step, hstep, hproperty⟩ := List.mem_flatMap.1 hmem
  refine step.keysApart_of_mem_properties (fun key inner heq ↦ ?_) hproperty
  exact hset key inner (heq ▸ hstep)

end Recipe

namespace Style

/-- The styles that can be made: read from a list, made from a recipe, or with a property put into a
style or taken out of it. A group that is given as a value has been made so itself. -/
inductive Reachable : Style → Prop
  | empty : Reachable {}
  | read (list : Text) (preset : Option Preset) : Reachable (Style.read list preset)
  | build (steps : List Recipe.Step)
      (groups : ∀ key inner, .set key (.group inner) ∈ steps → Reachable ⟨inner⟩) :
      Reachable (Recipe.ofSteps steps).build
  | put {style : Style} (key : Text) (value : Value) (made : Reachable style)
      (group : ∀ inner, value = .group inner → Reachable ⟨inner⟩) : Reachable (style.put key value)
  | without {style : Style} (key : Text) (made : Reachable style) : Reachable (style.without key)

/-- A style is read by a recipe that starts from the preset and takes the list. -/
theorem read_eq_build_ofSteps (list : Text) (preset : Option Preset) :
    Style.read list preset =
      (Recipe.ofSteps (preset.toList.map .preset ++ [.items list])).build := by
  cases preset <;> rfl

theorem Reachable.keysApart {style : Style} (h : style.Reachable) : KeysApart style.entries := by
  induction h with
  | empty => exact .intro List.nodup_nil (by simp)
  | read list preset =>
    rw [read_eq_build_ofSteps]
    exact Recipe.keysApart_build_ofSteps (by simp)
  | build steps groups ih => exact Recipe.keysApart_build_ofSteps ih
  | put key value made group ih ihgroup => exact ih.put key ihgroup
  | without key made ih => exact ih.erase key

/-- Properties are overridden in place. No key occurs twice in a style that can be made, nor in a
group inside it. The style made from a recipe has the properties of the presets, then the given
ones, each key where it first occurs with the value that it has last. Putting a property into a
style replaces the value of its key or goes to the end, and taking a key out leaves the others as
they are. -/
theorem properties_overridden_in_place :
    (∀ style : Style, style.Reachable → KeysApart style.entries) ∧
    (∀ steps : List Recipe.Step, (Recipe.ofSteps steps).build.entries =
      Assoc.latest ((steps.flatMap Recipe.Step.presets).eraseDups.flatMap Preset.bundle ++
        steps.flatMap Recipe.Step.properties)) ∧
    (∀ style : Style, style.Reachable → ∀ key value,
      (key ∉ Assoc.keys style.entries ∧
        (style.put key value).entries = style.entries ++ [(key, value)] ∧
        (style.without key).entries = style.entries) ∨
      ∃ before old after, style.entries = before ++ (key, old) :: after ∧
        key ∉ Assoc.keys before ∧ key ∉ Assoc.keys after ∧
        (style.put key value).entries = before ++ (key, value) :: after ∧
        (style.without key).entries = before ++ after) := by
  refine ⟨fun style h ↦ h.keysApart, fun steps ↦ ?_, fun style h key value ↦ ?_⟩
  · rw [Recipe.ofSteps_eq, Recipe.build_asked]
  · by_cases hmem : key ∈ Assoc.keys style.entries
    · obtain ⟨before, old, after, heq, hbefore, hafter⟩ :=
        Assoc.exists_of_mem_keys h.keysApart.nodup hmem
      refine Or.inr ⟨before, old, after, heq, hbefore, hafter, ?_, ?_⟩
      · rw [put, heq, Assoc.put_append_cons hbefore]
      · rw [without, heq, Assoc.erase_append_cons hbefore hafter]
    · exact Or.inl ⟨hmem, Assoc.put_of_notMem hmem value, Assoc.erase_of_notMem hmem⟩

/-- A style with a group in a group, where a key occurs twice in each of the three lists. -/
def nested : Style := read "red, box={in={b=x, b=y}, c=u, c=v}, color=z".toList (some .vec)

theorem properties_overridden_in_place_nested :
    nested.Reachable ∧ KeysApart nested.entries ∧
      ∃ before old after, nested.entries = before ++ ("color".toList, old) :: after ∧
        "color".toList ∉ Assoc.keys before ∧ "color".toList ∉ Assoc.keys after ∧
        (nested.put "color".toList .flag).entries = before ++ ("color".toList, .flag) :: after ∧
        (nested.without "color".toList).entries = before ++ after := by
  obtain ⟨hapart, -, hone⟩ := properties_overridden_in_place
  have hmade : nested.Reachable := .read _ _
  have hcolor : "color".toList ∈ Assoc.keys nested.entries := by decide +kernel
  refine ⟨hmade, hapart nested hmade, ?_⟩
  exact (hone nested hmade "color".toList .flag).resolve_left fun h ↦ h.1 hcolor

end Style

end DiagramMacros
