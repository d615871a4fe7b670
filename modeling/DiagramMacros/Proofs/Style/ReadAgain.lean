import DiagramMacros.Proofs.Style.Printing
/-!
Printing a style and reading it again loses nothing (`Style.read_print`). The list that it was read
from has no quotes and balanced braces, and assigns nothing to the keys that are not printed; then
every property of it is read again (`rereads_of_read?`), in groups at any depth as well, as long as
its numbers are printed again as they were.
-/

set_option autoImplicit false
set_option relaxedAutoImplicit false

namespace DiagramMacros

open Text Braces Items

/-- The items of a list, and the items in its groups at any depth. -/
inductive Items.Within (list : Text) : Text → Prop
  | here {item : Text} (mem : item ∈ split list) : Within list item
  | group {outer key body item : Text} (outside : Within list outer)
      (assignment : Item.assignment? outer = some (key, enclose body))
      (isGroup : Item.IsGroupBody body) (mem : item ∈ split body) : Within list item

/-- Whether some items have among them those in the braces that one of them assigns. -/
def Items.isClosed (items : List Text) : Bool :=
  items.all fun outer ↦ (Item.assignment? outer).all fun parts ↦
    (Item.braced? parts.2).all fun body ↦ (split body).all items.contains

theorem Items.Within.mem_of_isClosed {list item : Text} {items : List Text}
    (hitems : ∀ i ∈ split list, i ∈ items) (hclosed : isClosed items) (h : Within list item) :
    item ∈ items := by
  induction h with
  | here mem => exact hitems _ mem
  | group outside assignment isGroup mem ih =>
    have houter := List.all_eq_true.1 hclosed _ ih
    rw [assignment, Option.all_some, Item.braced?_eq_some_iff.2 rfl, Option.all_some] at houter
    exact List.contains_iff_mem.1 (List.all_eq_true.1 houter _ mem)

mutual

/-- The numbers and the lengths in a value. -/
def Value.measures : Value → List Float
  | .number x => [x]
  | .length x => [x]
  | .group entries => Style.measuresIn entries
  | .flag => []
  | .text _ => []

/-- The numbers and the lengths in the value of a property. -/
def Style.measuresOf : Text × Value → List Float
  | (_, value) => value.measures

/-- The numbers and the lengths in properties, at any depth. -/
def Style.measuresIn : List (Text × Value) → List Float
  | [] => []
  | e :: entries => Style.measuresOf e ++ Style.measuresIn entries

end

namespace Style

variable {list : Text} {preset : Option Preset} {entries : List Entry} {e : Entry} {x : Float}

theorem mem_measuresIn (he : e ∈ entries) (hx : x ∈ e.2.measures) : x ∈ measuresIn entries := by
  induction entries with
  | nil => simp at he
  | cons e' entries ih =>
    rw [measuresIn, List.mem_append, measuresOf]
    rcases List.mem_cons.1 he with rfl | he
    · exact Or.inl hx
    · exact Or.inr (ih he)

theorem nodup_keys_read (list : Text) (preset : Option Preset) :
    (Assoc.keys (read list preset).entries).Nodup := by
  rw [entries_read]
  exact Assoc.nodup_keys_putAll _

theorem mem_given_of_title {i : Text} {p : Preset} (hi : i ∈ split list)
    (htitle : Preset.ofTitle? i = some p) (he : e ∈ p.bundle) : e ∈ given list preset := by
  have hp : p ∈ (preset.toList ++ (split list).filterMap Preset.ofTitle?).eraseDups :=
    List.mem_eraseDups.2 (List.mem_append_right _ (List.mem_filterMap.2 ⟨i, hi, htitle⟩))
  exact List.mem_append_left _ (List.mem_flatMap.2 ⟨p, hp, he⟩)

theorem mem_given_of_read {i : Text} (hi : i ∈ split list) (htitle : Preset.ofTitle? i = none)
    (he : Item.read? i = some e) : e ∈ given list preset := by
  have hproperty : Recipe.property? Item.read? i = some e := by
    rw [Recipe.property?, htitle, Option.isSome_none, if_neg Bool.false_ne_true, he]
  exact List.mem_append_right _ (List.mem_filterMap.2 ⟨i, hi, hproperty⟩)

/-- Each item of a group asks for a preset or gives a property, so the group is not empty. -/
theorem read_ne_nil {body : Text} (h : Item.IsGroupBody body) : (read body none).entries ≠ [] := by
  obtain ⟨i, items, hitems⟩ := List.exists_cons_of_ne_nil h.ne_nil
  have hi : i ∈ split body := hitems ▸ List.mem_cons_self
  have hgiven : ∃ e, e ∈ given body none := by
    cases htitle : Preset.ofTitle? i with
    | some p =>
      have hbundle : ∃ e, e ∈ p.bundle := by cases p <;> exact ⟨_, List.mem_cons_self⟩
      obtain ⟨e, he⟩ := hbundle
      exact ⟨e, mem_given_of_title hi htitle he⟩
    | none =>
      obtain ⟨e, he⟩ := Option.isSome_iff_exists.1 (h.readable i hi)
      exact ⟨e, mem_given_of_read hi htitle he⟩
  obtain ⟨e, he⟩ := hgiven
  intro hnil
  have hkey : e.1 ∈ Assoc.keys (read body none).entries := by
    rw [entries_read, Assoc.keys_putAll, List.mem_eraseDups]
    exact List.mem_map_of_mem he
  rw [hnil] at hkey
  exact List.not_mem_nil hkey

theorem rereads_bundle {p : Preset} (h : e ∈ p.bundle) : Rereads e := by
  have hall : Preset.all.all fun p ↦ p.bundle.all fun e ↦ decide (IsItem (printEntry e)) := by
    decide +kernel
  exact ⟨of_decide_eq_true (Preset.of_mem_bundle hall h), Preset.alike_of_mem_bundle h⟩

theorem isItem_of_mem_split {item : Text} (hquote : '"' ∉ list) (hbalanced : isBalanced list)
    (hitem : item ∈ split list) (htitle : Preset.ofTitle? item = none) : IsItem item :=
  ⟨isSealed_of_mem_split hquote hbalanced hitem, isTrimmed_of_mem_split hitem,
    ne_nil_of_mem_split hitem, htitle⟩

/-- Whatever an item of the list is read as is read again, in a group after what is inside it. -/
theorem rereads_of_read? {item : Text}
    (hkeys : ∀ item key value, Within list item → Item.assignment? item = some (key, value) →
      collapse key ∉ bareKeys)
    (hwithin : Within list item) (hitem : IsItem item) (hread : Item.read? item = some e)
    (hstable : ∀ x ∈ e.2.measures, Numeral.isStable x) : Rereads e := by
  -- What stands in a group is shorter than the group, at every depth.
  induction hn : item.length using Nat.strongRecOn generalizing item e with | _ n ih
  subst hn
  cases Item.read?_eq_some_iff.1 hread with
  | assigned assignment reads =>
    have hkey := Item.isKey_of_assignment? assignment
    have hsealedkey := Item.isSealed_key assignment hitem.isSealed reads
    rcases Item.assigned?_eq_some reads with
      ⟨body, rfl, hbody, rfl⟩ | ⟨-, ⟨x, rfl⟩ | ⟨x, rfl⟩⟩
    · have hquote : '\"' ∉ body := by
        have hvalue := Item.notMem_value assignment (notMem_of_sealFrom hitem.isSealed)
        exact fun hmem ↦ hvalue (by simp [enclose, hmem])
      have hinside : ∀ e ∈ (read body none).entries, Rereads e := by
        intro e he
        rcases mem_read he with ⟨p, hp⟩ | ⟨i, hi, htitle, hread⟩
        · exact rereads_bundle hp
        · have hlength := Item.length_lt_of_mem_body assignment hi
          exact ih _ hlength (.group hwithin assignment hbody hi)
            (isItem_of_mem_split hquote hbody.balanced hi htitle) hread
            (fun x hx ↦ hstable x (mem_measuresIn he hx)) rfl
      exact Item.rereads_group hkey hsealedkey hinside (read_ne_nil hbody)
        (nodup_keys_read body none)
    · exact (Item.rereads_measure hkey hsealedkey (hstable x (List.mem_singleton.2 rfl))).1
    · exact (Item.rereads_measure hkey hsealedkey (hstable x (List.mem_singleton.2 rfl))).2
  | text assignment unread notOwn =>
    exact Item.rereads_text assignment unread hitem.isSealed (hkeys _ _ _ hwithin assignment)
  | own form => exact Item.rereads_own form hitem
  | flag unassigned notOwn words => exact Item.rereads_flag words notOwn hitem

/-- Printing a style and reading it again loses nothing. The list that the style was read from has
no quotes and balanced braces, none of its items, in groups at any depth as well, assigns anything
to a key that is not printed, and the numbers of the style are printed as decimal numerals and again
so when these have been read. Then the style that is read again has the same keys in the same order
with values that are alike, and is printed as the same text. -/
theorem read_print (hquote : '\"' ∉ list) (hbalanced : isBalanced list)
    (hkeys : ∀ item key value, Within list item → Item.assignment? item = some (key, value) →
      collapse key ∉ bareKeys)
    (hstable : ∀ x ∈ measuresIn (read list preset).entries, Numeral.isStable x) :
    Assoc.keys (read (read list preset).print none).entries =
        Assoc.keys (read list preset).entries ∧
      alikeEntries (read list preset).entries (read (read list preset).print none).entries ∧
      (read (read list preset).print none).print = (read list preset).print := by
  have hrereads : ∀ e ∈ (read list preset).entries, Rereads e := by
    intro e he
    rcases mem_read he with ⟨p, hp⟩ | ⟨i, hi, htitle, hread⟩
    · exact rereads_bundle hp
    · exact rereads_of_read? hkeys (.here hi) (isItem_of_mem_split hquote hbalanced hi htitle) hread
        fun x hx ↦ hstable x (mem_measuresIn he hx)
  have halike := alike_read_print hrereads (nodup_keys_read list preset)
  exact ⟨(keys_eq_of_alike halike).symm, halike,
    congrArg (join ", ") (printEntries_eq_of_alike halike).symm⟩

/-- A list with a group in a group, uneven spaces, and each kind of value. -/
def listing : Text :=
  "very  thick, dash  dot, -latex, MyBlue!40, vec, decoration = {mark  length=2mm, in={x=0.5,y=z}}".toList

theorem read_print_listing :
    Assoc.keys (read (read listing (some .mass)).print none).entries =
        Assoc.keys (read listing (some .mass)).entries ∧
      alikeEntries (read listing (some .mass)).entries
        (read (read listing (some .mass)).print none).entries ∧
      (read (read listing (some .mass)).print none).print = (read listing (some .mass)).print := by
  let items : List Text := split listing ++
    ["mark  length=2mm".toList, "in={x=0.5,y=z}".toList, "x=0.5".toList, "y=z".toList]
  have hwithin : ∀ item, Within listing item → item ∈ items := fun item h ↦
    h.mem_of_isClosed (fun i hi ↦ List.mem_append_left _ hi) (by decide +kernel)
  have hkeys : items.all fun item ↦ (Item.assignment? item).all fun parts ↦
      !bareKeys.contains (collapse parts.1) := by decide +kernel
  have hnumbers : (measuresIn (read listing (some .mass)).entries).all Numeral.isStable := by
    decide +kernel
  refine read_print (by decide) (by decide) (fun item key value h hassign ↦ ?_)
    (List.all_eq_true.1 hnumbers)
  have hkey := List.all_eq_true.1 hkeys item (hwithin item h)
  rw [hassign, Option.all_some] at hkey
  simpa using hkey

end Style

end DiagramMacros
