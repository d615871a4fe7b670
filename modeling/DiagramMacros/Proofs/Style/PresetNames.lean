import DiagramMacros.Proofs.Style.Keys
import DiagramMacros.Proofs.Style.Splitting
/-!
Preset names in a style list. What a list reads as depends only on the presets that it names, in
order, and on the properties of its other items, in order (`Style.read_congr`). So it makes no
difference where among the other items the names stand, and a preset to start from may as well be
named in front of the list (`Style.read_preset_names_first`).
-/

set_option autoImplicit false
set_option relaxedAutoImplicit false

namespace DiagramMacros

namespace Items

open Text

variable {s item : Text}

/-! ### Single items -/

/-- A text ends outside braces and quotes, and each of its commas stands in braces or quotes. In a
list it is an item, or nothing if it is blank. -/
structure IsSingle (item : Text) : Prop where
  ends : (Position.after {} item).isOpen
  commas : ∀ before after, item = before ++ ',' :: after → ¬ (Position.after {} before).isOpen

theorem isSingle_iff :
    IsSingle item ↔ (Position.after {} item).isOpen ∧ pieces {} item = [item] := by
  rw [pieces_eq_singleton_iff]
  exact ⟨fun h ↦ ⟨h.ends, h.commas⟩, fun h ↦ ⟨h.1, h.2⟩⟩

instance (item : Text) : Decidable (IsSingle item) := decidable_of_iff _ isSingle_iff.symm

/-- As a list, a single item has no other item than itself. -/
theorem IsSingle.eq_trim (h : IsSingle item) {i : Text} (hi : i ∈ split item) : i = trim item := by
  obtain ⟨-, piece, hpiece, rfl⟩ := mem_split_iff.1 hi
  rw [(isSingle_iff.1 h).2, List.mem_singleton] at hpiece
  rw [hpiece]

end Items

/-! ### Reordering -/

/-- Elements from which nothing comes can be left out. -/
theorem flatMap_filter_of_eq_nil {α β : Type} {keep : α → Bool} {f : α → List β} {l : List α}
    (h : ∀ a ∈ l, keep a = false → f a = []) : (l.filter keep).flatMap f = l.flatMap f := by
  induction l with
  | nil => rfl
  | cons a l ih =>
    obtain ⟨ha, hl⟩ := List.forall_mem_cons.1 h
    cases hkeep : keep a with
    | true => rw [List.filter_cons_of_pos hkeep, List.flatMap_cons, List.flatMap_cons, ih hl]
    | false =>
      rw [List.filter_cons_of_neg (by simp [hkeep]), List.flatMap_cons, ha hkeep, ih hl,
        List.nil_append]

/-- Sorting a list into two kinds keeps what comes from it in order, if all of that comes from
elements of one kind. -/
theorem flatMap_filter_append_filter {α β : Type} {first : α → Bool} {f : α → List β} {l : List α}
    (kind : Bool) (h : ∀ a ∈ l, first a = !kind → f a = []) :
    (l.filter first ++ l.filter fun a ↦ !first a).flatMap f = l.flatMap f := by
  cases kind with
  | true =>
    have hlast : (l.filter fun a ↦ !first a).flatMap f = [] := by
      refine List.flatMap_eq_nil_iff.2 fun a ha ↦ ?_
      obtain ⟨hmem, hfirst⟩ := List.mem_filter.1 ha
      exact h a hmem (by simpa using hfirst)
    rw [List.flatMap_append, hlast, List.append_nil, flatMap_filter_of_eq_nil h]
  | false =>
    have hfront : (l.filter first).flatMap f = [] := by
      refine List.flatMap_eq_nil_iff.2 fun a ha ↦ ?_
      obtain ⟨hmem, hfirst⟩ := List.mem_filter.1 ha
      exact h a hmem hfirst
    rw [List.flatMap_append, hfront, List.nil_append, flatMap_filter_of_eq_nil]
    exact fun a ha hfirst ↦ h a ha (by simpa using hfirst)

namespace Style

open Text

/-- Whether an item of a list, with any blanks around it, is the name of a preset. -/
def namesPreset (item : Text) : Bool := (Preset.ofTitle? (trim item)).isSome

/-- The items of a list, those that name presets before the others. -/
def presetsFirst (items : List Text) : List Text :=
  items.filter namesPreset ++ items.filter fun i ↦ !namesPreset i

/-- A list is read by the presets that it names and the properties of its other items. -/
theorem read_congr {list list' : Text} {preset preset' : Option Preset}
    (hpresets : preset.toList ++ (Items.split list).filterMap Preset.ofTitle? =
      preset'.toList ++ (Items.split list').filterMap Preset.ofTitle?)
    (hproperties : (Items.split list).filterMap (Recipe.property? Item.read?) =
      (Items.split list').filterMap (Recipe.property? Item.read?)) :
    Style.read list preset = Style.read list' preset' := by
  have hread : ∀ (list : Text) (preset : Option Preset), Style.read list preset =
      (Recipe.asked (preset.toList ++ (Items.split list).filterMap Preset.ofTitle?)
        ((Items.split list).filterMap (Recipe.property? Item.read?))).build := by
    intro list preset
    rw [read_eq_build_ofSteps, Recipe.ofSteps_eq]
    cases preset <;> simp [Recipe.Step.presets, Recipe.Step.properties]
  rw [hread, hread, hpresets, hproperties]

/-- Only the names of presets ask for presets. -/
theorem presets_of_not_namesPreset {item : Text} (h : Items.IsSingle item)
    (hname : namesPreset item = false) : (Items.split item).filterMap Preset.ofTitle? = [] := by
  refine List.filterMap_eq_nil_iff.2 fun i hi ↦ ?_
  rw [h.eq_trim hi]
  simpa [namesPreset] using hname

/-- The name of a preset gives no property. -/
theorem properties_of_namesPreset {item : Text} (h : Items.IsSingle item)
    (hname : namesPreset item) :
    (Items.split item).filterMap (Recipe.property? Item.read?) = [] := by
  refine List.filterMap_eq_nil_iff.2 fun i hi ↦ ?_
  rw [h.eq_trim hi, Recipe.property?]
  exact if_pos hname

/-- With the names in front, a list asks for the same presets and gives the same properties. -/
theorem filterMap_split_presetsFirst {items : List Text} (h : ∀ i ∈ items, Items.IsSingle i) :
    (Items.split (join "," (presetsFirst items))).filterMap Preset.ofTitle? =
        (Items.split (join "," items)).filterMap Preset.ofTitle? ∧
      (Items.split (join "," (presetsFirst items))).filterMap (Recipe.property? Item.read?) =
        (Items.split (join "," items)).filterMap (Recipe.property? Item.read?) := by
  have hfirst : ∀ i ∈ presetsFirst items, (Items.Position.after {} i).isOpen := by
    intro i hi
    rcases List.mem_append.1 hi with hi | hi <;> exact (h i (List.mem_of_mem_filter hi)).ends
  rw [Items.split_join_comma hfirst, Items.split_join_comma fun i hi ↦ (h i hi).ends]
  simp only [List.filterMap_flatMap]
  constructor
  · exact flatMap_filter_append_filter true fun i hi ↦ presets_of_not_namesPreset (h i hi)
  · exact flatMap_filter_append_filter false fun i hi ↦ properties_of_namesPreset (h i hi)

/-- A name in front of a list is an item of its own. -/
theorem split_title_append (p : Preset) (list : Text) :
    Items.split (p.title ++ ',' :: list) = p.title :: Items.split list := by
  have htitle : (Items.Position.after {} p.title).isOpen ∧ Items.split p.title = [p.title] := by
    cases p <;> decide
  rw [Items.split_append_comma htitle.1, htitle.2]
  rfl

/-- It makes no difference where the names of presets stand among the other items of a list: single
items joined with commas are read like the same items with all names in front, each kind in its
order. A preset to start from is as good as its name in front of the list. -/
theorem read_preset_names_first :
    (∀ items : List Text, (∀ i ∈ items, Items.IsSingle i) → ∀ preset : Option Preset,
      Style.read (join "," items) preset = Style.read (join "," (presetsFirst items)) preset) ∧
    ∀ (list : Text) (p : Preset),
      Style.read list (some p) = Style.read (p.title ++ ',' :: list) none := by
  refine ⟨fun items h preset ↦ ?_, fun list p ↦ ?_⟩
  · obtain ⟨hpresets, hproperties⟩ := filterMap_split_presetsFirst h
    exact read_congr (by rw [hpresets]) hproperties.symm
  · have hname : Preset.ofTitle? p.title = some p := by cases p <;> decide
    have hproperty : Recipe.property? Item.read? p.title = none := by
      rw [Recipe.property?, hname]
      rfl
    refine read_congr ?_ ?_
    · rw [split_title_append, List.filterMap_cons_some hname]
      rfl
    · rw [split_title_append, List.filterMap_cons_none hproperty]

/-- Names between items that override them, one of them twice, and one inside a group, where it is
no item of the list. -/
theorem read_preset_names_first_between :
    let items := ["fill=red".toList, " mass".toList, "box=\x7bmass, \"a, b\"\x7d".toList,
      "vec ".toList, "line width=2pt".toList, "mass".toList]
    (∀ i ∈ items, Items.IsSingle i) ∧
      presetsFirst items = [" mass".toList, "vec ".toList, "mass".toList, "fill=red".toList,
        "box=\x7bmass, \"a, b\"\x7d".toList, "line width=2pt".toList] ∧
      Style.read (join "," items) none = Style.read (join "," (presetsFirst items)) none := by
  intro items
  have hsingle : ∀ i ∈ items, Items.IsSingle i := by decide
  exact ⟨hsingle, by decide, read_preset_names_first.1 items hsingle none⟩

end Style

end DiagramMacros
