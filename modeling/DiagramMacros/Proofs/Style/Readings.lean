import DiagramMacros.Proofs.Style.Forms
import DiagramMacros.Proofs.Style.Measures
/-!
The readings of an item. An item has at most one of four kinds of reading (`read?_eq_some_iff`):
what it assigns is a group, a number or a length; what it assigns is any other text; it is of a form
that tells its key; or it is a flag. A text whose form tells its key is read as itself wherever it
stands (`read?_of_ownForm?`).
-/

set_option autoImplicit false
set_option relaxedAutoImplicit false

namespace DiagramMacros

namespace Item

open Text Braces

variable {item key value t : Text} {v : Value} {e : Entry}

/-! ### Texts that tell their key -/

theorem arrows?_eq_some (h : arrows? item = some e) :
    e = ("arrows".toList, .text item) ∧ '=' ∉ item := by
  have hunequal : '=' ∉ item := fun hmem ↦ by simp [arrows?_of_mem hmem] at h
  refine ⟨?_, hunequal⟩
  unfold arrows? at h
  dsimp only at h
  split at h
  · simp at h
  · split at h
    · simp at h
    · split at h
      · exact (Option.some.inj h).symm
      · split at h
        · exact (Option.some.inj h).symm
        · simp at h

theorem quotes?_eq_some (h : quotes? item = some e) :
    e = ("quotes".toList, .text item) ∧ endsWith (· == '\"') item := by
  rw [quotes?] at h
  split at h
  · rename_i hquoted
    exact ⟨(Option.some.inj h).symm, hquoted.2.2⟩
  · simp at h

theorem lineStyle?_eq_some (h : lineStyle? item = some e) :
    e = ("line style".toList, .text (collapse item)) ∧ collapse item ∈ lineStyles := by
  rw [lineStyle?] at h
  split at h
  · rename_i hstyle
    exact ⟨(Option.some.inj h).symm, List.contains_iff_mem.1 hstyle⟩
  · simp at h

theorem color?_eq_some (h : color? item = some e) : e = ("color".toList, .text item) := by
  unfold color? at h
  dsimp only at h
  split at h
  · simp at h
  · split at h
    · exact (Option.some.inj h).symm
    · simp at h

/-- The name of a line style is that of no other form. -/
theorem ownForm?_of_mem_lineStyles (h : t ∈ lineStyles) :
    ownForm? t = some ("line style".toList, .text t) := by
  have hstyles : lineStyles.all fun style ↦
      !style.contains '-' && !startsWith (· == '\"') style && collapse style == style := by decide
  have hstyle := List.all_eq_true.1 hstyles t h
  simp only [Bool.and_eq_true, Bool.not_eq_true', beq_iff_eq] at hstyle
  obtain ⟨⟨hdash, hquote⟩, hcollapse⟩ := hstyle
  have harrows : arrows? t = none := by
    rw [arrows?, cut?_of_notMem (by simpa using hdash)]
    simp
  have hquotes : quotes? t = none := by simp [quotes?, hquote]
  have hline : lineStyle? t = some ("line style".toList, .text t) := by
    rw [lineStyle?, hcollapse, if_pos (List.contains_iff_mem.2 h)]
  rw [ownForm?, harrows, hquotes, hline, Option.none_or, Option.none_or, Option.some_or]

/-- What is of such a form is given as a text of that form. -/
theorem ownForm?_eq_some (h : ownForm? item = some e) :
    ∃ key t, e = (key, .text t) ∧ key ∈ Style.bareKeys ∧ ownForm? t = some e ∧
      (t = item ∨ t ∈ lineStyles) := by
  have hform := h
  simp only [ownForm?, Option.or_eq_some_iff] at hform
  rcases hform with harrows | ⟨-, hquotes | ⟨-, hline | ⟨-, hcolor⟩⟩⟩
  · obtain ⟨rfl, -⟩ := arrows?_eq_some harrows
    exact ⟨_, item, rfl, by decide, h, Or.inl rfl⟩
  · obtain ⟨rfl, -⟩ := quotes?_eq_some hquotes
    exact ⟨_, item, rfl, by decide, h, Or.inl rfl⟩
  · obtain ⟨rfl, hstyle⟩ := lineStyle?_eq_some hline
    exact ⟨_, collapse item, rfl, by decide, ownForm?_of_mem_lineStyles hstyle, Or.inr hstyle⟩
  · obtain rfl := color?_eq_some hcolor
    exact ⟨_, item, rfl, by decide, h, Or.inl rfl⟩

/-- A quoted text assigns neither a group nor a number or length, for these end otherwise. -/
theorem assigned?_of_quotes? (h : quotes? item = some e)
    (hassign : assignment? item = some (key, value)) : assigned? value = none := by
  obtain ⟨before, after, rfl, -, -, rfl, -, hne⟩ := assignment?_eq_some hassign
  have hafter : after ≠ [] := by
    rintro rfl
    exact hne rfl
  obtain ⟨-, hend⟩ := quotes?_eq_some h
  rw [List.append_cons, endsWith_append_of_ne_nil _ hafter, endsWith, Option.any_eq_true] at hend
  obtain ⟨c, hlast, hc⟩ := hend
  obtain rfl := beq_iff_eq.1 hc
  have htrimmed : endsWith isBlank after = false := by
    rw [endsWith, hlast]
    rfl
  have hvalue : (trim after).getLast? = some '"' := (getLast?_trim htrimmed).trans hlast
  have hgroup : groupOf? (trim after) = none := by
    refine Option.eq_none_iff_forall_ne_some.2 fun v hv ↦ ?_
    obtain ⟨body, hbody, -⟩ := groupOf?_eq_some_iff.1 hv
    rw [hbody, enclose, List.getLast?_concat] at hvalue
    simp at hvalue
  have hlength : readLength? (trim after) = none := by
    refine Option.eq_none_iff_forall_ne_some.2 fun v hv ↦ ?_
    exact notMem_of_readLength? hv (c := '"') rfl rfl (List.mem_of_mem_getLast? hvalue)
  rw [assigned?, hgroup, hlength, Option.none_or]

/-- A form that tells its key comes before every other reading. -/
theorem read?_of_ownForm? (h : ownForm? item = some e) : read? item = some e := by
  cases hassign : assignment? item with
  | none => rw [read?_of_unassigned hassign, h, Option.some_or]
  | some parts =>
    obtain ⟨key, value⟩ := parts
    rw [ownForm?_of_mem (mem_of_assignment? hassign)] at h
    rw [read?_of_assignment? hassign, assigned?_of_quotes? h hassign, h, Option.map_none,
      Option.none_or, Option.some_or]

/-! ### All readings -/

/-- How an item is read as a property. -/
inductive Reading (item : Text) : Entry → Prop
  | assigned {key value : Text} {v : Value} (assignment : assignment? item = some (key, value))
      (read : assigned? value = some v) : Reading item (key, v)
  | text {key value : Text} (assignment : assignment? item = some (key, value))
      (unread : assigned? value = none) (notOwn : ownForm? item = none) :
      Reading item (collapse key, .text value)
  | own {e : Entry} (form : ownForm? item = some e) : Reading item e
  | flag {e : Entry} (unassigned : assignment? item = none) (notOwn : ownForm? item = none)
      (words : flag? item = some e) : Reading item e

theorem read?_eq_some_iff : read? item = some e ↔ Reading item e := by
  constructor
  · intro h
    cases hassign : assignment? item with
    | none =>
      rw [read?_of_unassigned hassign, Option.or_eq_some_iff] at h
      rcases h with hown | ⟨hnone, hflag⟩
      · exact .own hown
      · exact .flag hassign hnone hflag
    | some parts =>
      obtain ⟨key, value⟩ := parts
      rw [read?_of_assignment? hassign, Option.or_eq_some_iff, Option.or_eq_some_iff,
        ← ownForm?_of_mem (mem_of_assignment? hassign)] at h
      rcases h with hassigned | ⟨hunread, hown | ⟨hnone, htext⟩⟩
      · obtain ⟨v, hv, rfl⟩ := Option.map_eq_some_iff.1 hassigned
        exact .assigned hassign hv
      · exact .own hown
      · obtain rfl := Option.some.inj htext
        exact .text hassign (Option.map_eq_none_iff.1 hunread) hnone
  · intro h
    cases h with
    | assigned assignment read =>
      rw [read?_of_assignment? assignment, read, Option.map_some, Option.some_or]
    | text assignment unread notOwn =>
      rw [read?_of_assignment? assignment, unread,
        ← ownForm?_of_mem (mem_of_assignment? assignment), notOwn, Option.map_none, Option.none_or,
        Option.none_or]
    | own form => exact read?_of_ownForm? form
    | flag unassigned notOwn words =>
      rw [read?_of_unassigned unassigned, notOwn, words, Option.none_or]

theorem flag?_eq_some (h : flag? item = some e) :
    e = (collapse item, .flag) ∧ startsWith isLetter item ∧
      item.all fun c ↦ isLetter c || c == ' ' := by
  rw [flag?] at h
  split at h
  · rename_i hwords
    exact ⟨(Option.some.inj h).symm, hwords⟩
  · simp at h

/-- What is assigned is a group, a number or a length. -/
theorem assigned?_eq_some (h : assigned? value = some v) :
    (∃ body, value = enclose body ∧ IsGroupBody body ∧ v = .group (Style.read body none).entries) ∨
      (readLength? value = some v ∧ v.IsMeasure) := by
  rw [assigned?, Option.or_eq_some_iff] at h
  rcases h with hgroup | ⟨-, hlength⟩
  · exact Or.inl (groupOf?_eq_some_iff.1 hgroup)
  · exact Or.inr ⟨hlength, (readLength?_eq_some hlength).2⟩

theorem exists_body_of_read_group {inner : List Entry} (h : read? item = some (key, .group inner)) :
    ∃ body, assignment? item = some (key, enclose body) ∧ IsGroupBody body ∧
      inner = (Style.read body none).entries := by
  cases read?_eq_some_iff.1 h with
  | assigned assignment reads =>
    rcases assigned?_eq_some reads with ⟨body, rfl, hbody, hgroup⟩ | ⟨-, hmeasure⟩
    · exact ⟨body, assignment, hbody, Value.group.inj hgroup⟩
    · rcases hmeasure with ⟨_, hx⟩ | ⟨_, hx⟩ <;> simp at hx
  | own form =>
    obtain ⟨_, _, heq, -⟩ := ownForm?_eq_some form
    simp at heq
  | flag unassigned notOwn words =>
    obtain ⟨heq, -⟩ := flag?_eq_some words
    simp at heq

end Item

/-! ### What a list gives -/

/-- What has been checked of every preset holds of a property that one gives. -/
theorem Preset.of_mem_bundle {p : Preset} {e : Entry} {accepts : Entry → Bool}
    (hall : Preset.all.all fun p ↦ p.bundle.all accepts) (h : e ∈ p.bundle) : accepts e := by
  have hp := List.all_eq_true.1 hall p (by cases p <;> decide)
  exact List.all_eq_true.1 hp e h

namespace Style

open Text

variable {list key t : Text} {preset : Option Preset} {e : Entry}

theorem collapse_bareKey (hbare : key ∈ bareKeys) : collapse key = key := by
  have heven : bareKeys.all fun key ↦ collapse key == key := by decide
  exact beq_iff_eq.1 (List.all_eq_true.1 heven key hbare)

theorem printEntry_bare (hbare : key ∈ bareKeys) : printEntry (key, .text t) = t := by
  rw [printEntry, printValue, if_pos (List.contains_iff_mem.2 hbare)]

/-- The properties that a list and a preset give, in the order in which they count. -/
def given (list : Text) (preset : Option Preset) : List Entry :=
  (preset.toList ++ (Items.split list).filterMap Preset.ofTitle?).eraseDups.flatMap Preset.bundle ++
    (Items.split list).filterMap (Recipe.property? Item.read?)

theorem entries_read (list : Text) (preset : Option Preset) :
    (read list preset).entries = Assoc.putAll [] (given list preset) := by
  rw [read_eq_build_ofSteps, Recipe.ofSteps_eq, Recipe.build_asked, ← Assoc.putAll_eq_latest, given]
  cases preset <;>
    simp [Recipe.Step.presets, Recipe.Step.properties]

theorem mem_given (h : e ∈ given list preset) : (∃ p : Preset, e ∈ p.bundle) ∨
    ∃ item ∈ Items.split list, Preset.ofTitle? item = none ∧ Item.read? item = some e := by
  rcases List.mem_append.1 h with hpreset | hproperty
  · obtain ⟨p, -, hp⟩ := List.mem_flatMap.1 hpreset
    exact Or.inl ⟨p, hp⟩
  · obtain ⟨item, hitem, hread⟩ := List.mem_filterMap.1 hproperty
    rw [Recipe.property?] at hread
    split at hread
    · simp at hread
    · rename_i htitle
      exact Or.inr ⟨item, hitem, by simpa using htitle, hread⟩

/-- Where a property of a style comes from. -/
theorem mem_read (h : e ∈ (read list preset).entries) : (∃ p : Preset, e ∈ p.bundle) ∨
    ∃ item ∈ Items.split list, Preset.ofTitle? item = none ∧ Item.read? item = some e := by
  rw [entries_read] at h
  exact mem_given (Assoc.mem_of_mem_putAll h)

end Style

end DiagramMacros
