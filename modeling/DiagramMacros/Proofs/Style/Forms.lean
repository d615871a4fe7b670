import DiagramMacros.Proofs.Numerals
import DiagramMacros.Proofs.Style.Keys
import DiagramMacros.Proofs.Style.Splitting
/-!
The forms of an item. An assignment gives its key a group, a number or a length if what it assigns
can be read so (`assigned?`), and else a text. The forms that are told by a text alone, with no key
in front, come before that last one and before flags (`read?_eq`). They have no equals sign, quoted
texts apart, so they compete with assignments only there.

How deep groups may be nested makes no difference to what is read (`readWithin_eq`): the items in a
group are shorter than the group.
-/

set_option autoImplicit false
set_option relaxedAutoImplicit false

namespace DiagramMacros

namespace Text

variable {c : Char} {s before after : Text}

theorem cut?_append (h : c ∉ before) : cut? c (before ++ c :: after) = some (before, after) := by
  induction before with
  | nil => simp [cut?]
  | cons d before ih =>
    obtain ⟨hne, hbefore⟩ := List.ne_and_not_mem_of_not_mem_cons h
    rw [List.cons_append, cut?, if_neg (Ne.symm hne), ih hbefore, Option.map_some]

theorem cut?_of_notMem (h : c ∉ s) : cut? c s = none := by
  cases hcut : cut? c s with
  | none => rfl
  | some parts =>
    obtain ⟨before, after⟩ := parts
    obtain ⟨rfl, -⟩ := cut?_eq_some hcut
    exact absurd (by simp) h

theorem splitOn_ne_nil (c : Char) (s : Text) : splitOn c s ≠ [] := by
  cases s with
  | nil => simp [splitOn]
  | cons d s =>
    rw [splitOn]
    split
    · simp
    · split <;> simp

/-- Nothing but the separators is lost when a text is split. -/
theorem join_splitOn (c : Char) (s : Text) : join [c] (splitOn c s) = s := by
  induction s with
  | nil => rfl
  | cons d s ih =>
    obtain ⟨part, parts, hparts⟩ := List.exists_cons_of_ne_nil (splitOn_ne_nil c s)
    rw [hparts] at ih
    rw [splitOn, hparts]
    split
    · rename_i hd
      rw [join_cons_cons, ih, hd]
      rfl
    · rw [← ih]
      cases parts <;> simp [join]

end Text

/-! ### Assignments -/

namespace Item

open Text Braces

variable {item key value body : Text} {v : Value} {e : Entry}

theorem assignment?_eq_some (h : assignment? item = some (key, value)) :
    ∃ before after, item = before ++ '=' :: after ∧ '=' ∉ before ∧ key = trim before ∧
      value = trim after ∧ key ≠ [] ∧ value ≠ [] := by
  unfold assignment? at h
  split at h
  · rename_i before after hcut
    obtain ⟨rfl, hbefore⟩ := cut?_eq_some hcut
    dsimp only at h
    split at h
    · simp at h
    · rename_i hne
      obtain ⟨rfl, rfl⟩ := Prod.mk.inj (Option.some.inj h)
      exact ⟨before, after, rfl, hbefore, rfl, rfl, not_or.1 hne⟩
  · simp at h

/-- What can stand before the equals sign of an assignment. -/
structure IsKey (key : Text) : Prop where
  trimmed : IsTrimmed key
  ne_nil : key ≠ []
  unequal : '=' ∉ key

theorem isKey_of_assignment? (h : assignment? item = some (key, value)) : IsKey key := by
  obtain ⟨before, after, -, hbefore, rfl, -, hne, -⟩ := assignment?_eq_some h
  exact ⟨isTrimmed_trim before, hne, fun hmem ↦ hbefore ((mem_trim_iff rfl).1 hmem)⟩

theorem IsKey.collapse (h : IsKey key) : IsKey (collapse key) :=
  ⟨isTrimmed_collapse key, collapse_ne_nil h.trimmed h.ne_nil,
    fun hmem ↦ h.unequal ((mem_collapse_iff rfl).1 hmem)⟩

theorem assigned_of_assignment? (h : assignment? item = some (key, value)) :
    IsTrimmed value ∧ value ≠ [] := by
  obtain ⟨before, after, -, -, -, rfl, -, hne⟩ := assignment?_eq_some h
  exact ⟨isTrimmed_trim after, hne⟩

/-- An assignment that has been written out is taken apart again. -/
theorem assignment?_written (hkey : IsKey key) (hvalue : IsTrimmed value) (hne : value ≠ []) :
    assignment? (key ++ '=' :: value) = some (key, value) := by
  rw [assignment?, cut?_append hkey.unequal]
  simp only [hkey.trimmed.trim_eq, hvalue.trim_eq, hkey.ne_nil, hne, or_self, if_false]

theorem assignment?_of_notMem (h : '=' ∉ item) : assignment? item = none := by
  rw [assignment?, cut?_of_notMem h]

theorem mem_of_assignment? (h : assignment? item = some (key, value)) : '=' ∈ item := by
  obtain ⟨before, after, rfl, -⟩ := assignment?_eq_some h
  simp

theorem braced?_eq_some_iff : braced? value = some body ↔ value = enclose body := by
  rw [braced?, Option.bind_eq_some_iff]
  simp only [after?_eq_some_iff, before?_eq_some_iff]
  constructor
  · rintro ⟨inner, rfl, rfl⟩
    rfl
  · rintro rfl
    exact ⟨body ++ ['}'], rfl, rfl⟩

/-! ### Groups in groups -/

theorem group?_eq_some_iff {read : Text → Option Entry} : group? read item = some (key, v) ↔
    ∃ body, assignment? item = some (key, enclose body) ∧ isBalanced body ∧ Items.split body ≠ [] ∧
      (∀ i ∈ Items.split body, (read i).isSome) ∧
      v = .group (Recipe.addItems read {} (Items.split body)).build.entries := by
  constructor
  · intro h
    unfold group? at h
    split at h
    · simp at h
    · rename_i key' value hassign
      split at h
      · simp at h
      · rename_i body hbody
        dsimp only at h
        split at h
        · rename_i hall
          obtain ⟨rfl, rfl⟩ := Prod.mk.inj (Option.some.inj h)
          rw [braced?_eq_some_iff.1 hbody] at hassign
          exact ⟨body, hassign, hall.1, hall.2.1, List.all_eq_true.1 hall.2.2, rfl⟩
        · simp at h
  · rintro ⟨body, hassign, hbalanced, hne, hall, rfl⟩
    rw [group?, hassign]
    simp only [braced?_eq_some_iff.2 rfl]
    rw [if_pos ⟨hbalanced, hne, List.all_eq_true.2 hall⟩]

theorem addItems_congr {read read' : Text → Option Entry} {items : List Text}
    (h : ∀ i ∈ items, read i = read' i) (r : Recipe) :
    Recipe.addItems read r items = Recipe.addItems read' r items := by
  refine List.foldl_ext _ _ _ fun r i hi ↦ ?_
  rw [Recipe.addItem, Recipe.addItem, h i hi]

theorem length_lt_of_mem_body {i : Text} (h : assignment? item = some (key, enclose body))
    (hi : i ∈ Items.split body) : i.length < item.length := by
  obtain ⟨before, after, rfl, -, -, hvalue, -⟩ := assignment?_eq_some h
  obtain ⟨blanks, blanks', hafter, -⟩ := exists_trim after
  have hle := Items.length_le_of_mem_split hi
  rw [hafter, ← hvalue]
  simp only [enclose, List.length_append, List.length_cons]
  omega

theorem group?_of_group? {read read' : Text → Option Entry}
    (hread : ∀ i, i.length < item.length → read i = read' i) (h : group? read item = some e) :
    group? read' item = some e := by
  obtain ⟨key, v⟩ := e
  obtain ⟨body, hassign, hbalanced, hne, hall, rfl⟩ := group?_eq_some_iff.1 h
  have hitems : ∀ i ∈ Items.split body, read i = read' i := fun i hi ↦
    hread i (length_lt_of_mem_body hassign hi)
  refine group?_eq_some_iff.2 ⟨body, hassign, hbalanced, hne, fun i hi ↦ ?_, ?_⟩
  · rw [← hitems i hi]
    exact hall i hi
  · rw [addItems_congr hitems]

/-- A group is read by reading shorter items. -/
theorem group?_congr {read read' : Text → Option Entry}
    (h : ∀ i, i.length < item.length → read i = read' i) : group? read item = group? read' item :=
  Option.ext fun _ ↦ ⟨group?_of_group? h, group?_of_group? fun i hi ↦ (h i hi).symm⟩

theorem findSome?_cons_eq_or {α β : Type} (f : α → Option β) (a : α) (l : List α) :
    (a :: l).findSome? f = (f a).or (l.findSome? f) := by
  rw [List.findSome?_cons]
  cases f a <;> rfl

theorem readWith_congr {read read' : Text → Option Entry}
    (h : ∀ i, i.length < item.length → read i = read' i) :
    readWith read item = readWith read' item := by
  simp only [readWith, findSome?_cons_eq_or, group?_congr h]

theorem readWithin_eq {depth depth' : Nat} (h : item.length < depth) (h' : item.length < depth') :
    readWithin depth item = readWithin depth' item := by
  induction depth generalizing depth' item with
  | zero => omega
  | succ depth ih =>
    obtain ⟨depth', rfl⟩ := Nat.exists_eq_add_one_of_ne_zero (Nat.ne_zero_of_lt h')
    rw [readWithin, readWithin]
    refine readWith_congr fun i hi ↦ ?_
    exact ih (by omega) (by omega)

theorem read?_eq_readWith (item : Text) : read? item = readWith read? item := by
  rw [read?, readWithin]
  refine readWith_congr fun i hi ↦ ?_
  exact readWithin_eq hi (Nat.lt_succ_self _)

/-! ### The order of the forms -/

/-- The forms of an item in which a text tells its key. -/
def ownForm? (item : Text) : Option Entry :=
  (arrows? item).or ((quotes? item).or ((lineStyle? item).or (color? item)))

theorem read?_eq (item : Text) :
    read? item = (group? read? item).or ((numeric? item).or
      ((ownForm? item).or ((assign? item).or (flag? item)))) := by
  rw [read?_eq_readWith, readWith, ownForm?]
  simp only [findSome?_cons_eq_or, List.findSome?_nil, Option.or_none, Option.or_assoc]

/-- The body of a group has items, and each of them can be read. -/
structure IsGroupBody (body : Text) : Prop where
  balanced : isBalanced body
  ne_nil : Items.split body ≠ []
  readable : ∀ i ∈ Items.split body, (read? i).isSome

instance (body : Text) : Decidable (IsGroupBody body) :=
  decidable_of_iff
    (isBalanced body ∧ Items.split body ≠ [] ∧ ∀ i ∈ Items.split body, (read? i).isSome)
    ⟨fun ⟨balanced, ne_nil, readable⟩ ↦ ⟨balanced, ne_nil, readable⟩,
      fun h ↦ ⟨h.balanced, h.ne_nil, h.readable⟩⟩

/-- The group that an assigned text is. -/
def groupOf? (value : Text) : Option Value :=
  (braced? value).bind fun body ↦
    if IsGroupBody body then some (.group (Style.read body none).entries) else none

/-- The group, number or length that an assigned text is. -/
def assigned? (value : Text) : Option Value := (groupOf? value).or (readLength? value)

theorem groupOf?_eq_some_iff : groupOf? value = some v ↔
    ∃ body, value = enclose body ∧ IsGroupBody body ∧
      v = .group (Style.read body none).entries := by
  simp only [groupOf?, Option.bind_eq_some_iff, braced?_eq_some_iff, Option.ite_none_right_eq_some,
    Option.some.injEq, @eq_comm _ v]

theorem group?_of_assignment? (h : assignment? item = some (key, value)) :
    group? read? item = (groupOf? value).map (key, ·) := by
  refine Option.ext fun ⟨key', v⟩ ↦ ?_
  rw [group?_eq_some_iff, Option.map_eq_some_iff, h]
  constructor
  · rintro ⟨body, heq, hbalanced, hne, hall, rfl⟩
    obtain ⟨rfl, rfl⟩ := Prod.mk.inj (Option.some.inj heq)
    exact ⟨_, groupOf?_eq_some_iff.2 ⟨body, rfl, ⟨hbalanced, hne, hall⟩, rfl⟩, rfl⟩
  · rintro ⟨v', hgroup, heq⟩
    obtain ⟨rfl, rfl⟩ := Prod.mk.inj heq
    obtain ⟨body, rfl, hbody, rfl⟩ := groupOf?_eq_some_iff.1 hgroup
    exact ⟨body, rfl, hbody.balanced, hbody.ne_nil, hbody.readable, rfl⟩

theorem group?_of_unassigned (h : assignment? item = none) : group? read? item = none := by
  rw [group?, h]

/-! ### Forms without an equals sign -/

theorem arrows?_of_mem (h : '=' ∈ item) : arrows? item = none := by
  rw [arrows?, if_pos (Or.inl (List.contains_iff_mem.2 h))]

theorem lineStyle?_of_mem (h : '=' ∈ item) : lineStyle? item = none := by
  have hstyles : lineStyles.all fun style ↦ !style.contains '=' := by decide
  rw [lineStyle?]
  refine if_neg fun hstyle ↦ ?_
  have hunequal := List.all_eq_true.1 hstyles _ (List.contains_iff_mem.1 hstyle)
  simp [(mem_collapse_iff rfl).2 h] at hunequal

theorem notMem_of_isPercentage {c : Char} (h : isPercentage item) (hc : Numeral.isMark c = false) :
    c ∉ item := by
  unfold isPercentage at h
  split at h
  · rename_i hread
    obtain ⟨n, hn, -⟩ := Option.map_eq_some_iff.1 hread
    exact Numeral.notMem_of_read? hn hc
  · simp at h

theorem isPercentage_or_of_isMix {isColor : Text → Bool} {parts : List Text} {part : Text}
    (h : isMix isColor parts) (hpart : part ∈ parts) : isPercentage part ∨ isColor part := by
  induction parts using isMix.induct with
  | case1 => simp at hpart
  | case2 share =>
    obtain rfl := List.mem_singleton.1 hpart
    exact Or.inl h
  | case3 share color others ih =>
    simp only [isMix, Bool.and_eq_true] at h
    rcases List.mem_cons.1 hpart with rfl | hpart
    · exact Or.inl h.1.1
    · rcases List.mem_cons.1 hpart with rfl | hpart
      · exact Or.inr h.1.2
      · exact ih h.2 hpart

/-- A colour has no character that neither a name nor a percentage has. -/
theorem color?_of_mem {c : Char} (hmark : Numeral.isMark c = false) (hbang : c ≠ '!')
    (h : c ∈ item) : color? item = none := by
  have hcolors : colors.all fun name ↦ name.all isLetter := by decide
  have hname {name : Text} (hcolor : colors.contains name ∨ name.all isLetter) : c ∉ name := by
    intro hmem
    have hletters : name.all isLetter := by
      rcases hcolor with hcolor | hletters
      · exact List.all_eq_true.1 hcolors _ (List.contains_iff_mem.1 hcolor)
      · exact hletters
    rw [Numeral.isMark, List.all_eq_true.1 hletters c hmem] at hmark
    exact Bool.noConfusion hmark
  unfold color?
  dsimp only
  split
  · rfl
  · rename_i base others hsplit
    refine if_neg fun hcolor ↦ ?_
    simp only [Bool.or_eq_true, Bool.and_eq_true] at hcolor
    obtain ⟨hbase, hmix⟩ := hcolor
    rw [← join_splitOn '!' item, hsplit] at h
    rcases mem_join h with hseparator | ⟨part, hpart, hmem⟩
    · exact hbang (List.mem_singleton.1 hseparator)
    · rcases List.mem_cons.1 hpart with rfl | hpart
      · exact hname (hbase.imp_right And.right) hmem
      · rcases isPercentage_or_of_isMix hmix hpart with hshare | hcolor
        · exact notMem_of_isPercentage hshare hmark hmem
        · simp only [Bool.or_eq_true, Bool.and_eq_true] at hcolor
          exact hname (hcolor.imp_right And.right) hmem

theorem ownForm?_of_mem (h : '=' ∈ item) : ownForm? item = quotes? item := by
  rw [ownForm?, arrows?_of_mem h, lineStyle?_of_mem h, color?_of_mem rfl (by decide) h,
    Option.none_or, Option.or_none, Option.or_none]

/-- How an assignment is read. -/
theorem read?_of_assignment? (h : assignment? item = some (key, value)) :
    read? item = ((assigned? value).map (key, ·)).or
      ((quotes? item).or (some (collapse key, .text value))) := by
  have hnumeric : numeric? item = (readLength? value).map (key, ·) := by simp [numeric?, h]
  have hassign : assign? item = some (collapse key, .text value) := by simp [assign?, h]
  rw [read?_eq, group?_of_assignment? h, hnumeric, ownForm?_of_mem (mem_of_assignment? h), hassign,
    ← Option.or_assoc, ← Option.map_or, Option.some_or, assigned?]

/-- How an item that is no assignment is read. -/
theorem read?_of_unassigned (h : assignment? item = none) :
    read? item = (ownForm? item).or (flag? item) := by
  have hnumeric : numeric? item = none := by simp [numeric?, h]
  have hassign : assign? item = none := by simp [assign?, h]
  rw [read?_eq, group?_of_unassigned h, hnumeric, hassign, Option.none_or, Option.none_or,
    Option.none_or]

end Item

end DiagramMacros
