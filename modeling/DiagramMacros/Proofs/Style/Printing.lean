import DiagramMacros.Proofs.Style.Alike
import DiagramMacros.Proofs.Style.PrintedNumbers
import DiagramMacros.Proofs.Style.Splitting
/-!
Reading a style that has been printed. A property is read again (`Rereads`) if its printed text
stands as one item in a list (`IsItem`) and is read as a property like it. A style of such
properties is read again as a style like it (`alike_read_print`), in which no property moves because
the keys are distinct. Each form of an item gives such properties: numbers and lengths that are
stable, groups of such properties, texts under keys that are printed, texts whose form tells their
key, and flags.
-/

set_option autoImplicit false
set_option relaxedAutoImplicit false

namespace DiagramMacros

open Text Braces Style Items

theorem Assoc.putAll_of_nodup {β : Type} {entries : List (Text × β)}
    (h : (Assoc.keys entries).Nodup) : Assoc.putAll [] entries = entries := by
  induction entries using List.reverseRecOn with
  | nil => rfl
  | append_singleton entries e ih =>
    rw [Assoc.keys_append, List.nodup_append] at h
    obtain ⟨hentries, -, hapart⟩ := h
    have hnew : e.1 ∉ Assoc.keys entries := fun hmem ↦
      hapart _ hmem e.1 (List.mem_singleton.2 rfl) rfl
    rw [Assoc.putAll_concat, ih hentries, Assoc.put_of_notMem hnew]

theorem Preset.ofTitle?_eq_none {s : Text} {c : Char} (hc : isLetter c = false) (h : c ∈ s) :
    ofTitle? s = none := by
  have hletters : all.all fun p ↦ p.title.all isLetter := by decide
  refine List.find?_eq_none.2 fun p hp htitle ↦ ?_
  rw [← beq_iff_eq.1 htitle] at h
  have hletter := List.all_eq_true.1 (List.all_eq_true.1 hletters p hp) c h
  rw [hletter] at hc
  exact Bool.noConfusion hc

/-- A text is one item of any list that it is joined to, and does not ask for a preset. -/
structure IsItem (t : Text) : Prop where
  isSealed : IsSealed t
  isTrimmed : IsTrimmed t
  ne_nil : t ≠ []
  untitled : Preset.ofTitle? t = none

instance (t : Text) : Decidable (IsItem t) :=
  decidable_of_iff (IsSealed t ∧ IsTrimmed t ∧ t ≠ [] ∧ Preset.ofTitle? t = none)
    ⟨fun ⟨isSealed, isTrimmed, ne_nil, untitled⟩ ↦ ⟨isSealed, isTrimmed, ne_nil, untitled⟩,
      fun h ↦ ⟨h.isSealed, h.isTrimmed, h.ne_nil, h.untitled⟩⟩

/-- A property is an item when it is printed, and that item is read as a property like it. -/
structure Rereads (e : Entry) : Prop where
  isItem : IsItem (printEntry e)
  again : ∃ e', Item.read? (printEntry e) = some e' ∧ alikeEntry e e'

/-! ### A whole style -/

section Lists

variable {entries : List Entry}

theorem alike_properties (h : ∀ e ∈ entries, Rereads e) :
    alikeEntries entries ((printEntries entries).filterMap (Recipe.property? Item.read?)) := by
  induction entries with
  | nil => rfl
  | cons e entries ih =>
    obtain ⟨he, hentries⟩ := List.forall_mem_cons.1 h
    obtain ⟨e', hread, halike⟩ := he.again
    have hproperty : Recipe.property? Item.read? (printEntry e) = some e' := by
      rw [Recipe.property?, he.isItem.untitled, Option.isSome_none, if_neg Bool.false_ne_true,
        hread]
    rw [printEntries, List.filterMap_cons, hproperty]
    dsimp only
    rw [alikeEntries, halike, ih hentries, Bool.and_self]

theorem isSealed_of_rereads (h : ∀ e ∈ entries, Rereads e) :
    ∀ i ∈ printEntries entries, IsSealed i := by
  rw [printEntries_eq_map]
  exact List.forall_mem_map.2 fun e he ↦ (h e he).isItem.isSealed

theorem split_print (h : ∀ e ∈ entries, Rereads e) :
    split (join ", " (printEntries entries)) = printEntries entries := by
  refine split_join (isSealed_of_rereads h) ?_ ?_ <;> rw [printEntries_eq_map]
  · exact List.forall_mem_map.2 fun e he ↦ (h e he).isItem.isTrimmed
  · exact List.forall_mem_map.2 fun e he ↦ (h e he).isItem.ne_nil

/-- A style whose properties are read again is read again as a style like it. -/
theorem alike_read_print (h : ∀ e ∈ entries, Rereads e) (hnodup : (Assoc.keys entries).Nodup) :
    alikeEntries entries (read (join ", " (printEntries entries)) none).entries := by
  have halike := alike_properties h
  have htitles : (printEntries entries).filterMap Preset.ofTitle? = [] := by
    rw [printEntries_eq_map]
    exact List.filterMap_eq_nil_iff.2 (List.forall_mem_map.2 fun e he ↦ (h e he).isItem.untitled)
  have hpresets : ((none : Option Preset).toList ++ []).eraseDups.flatMap Preset.bundle = [] := rfl
  rw [entries_read, given, split_print h, htitles, hpresets, List.nil_append,
    Assoc.putAll_of_nodup (keys_eq_of_alike halike ▸ hnodup)]
  exact halike

end Lists

/-! ### The properties of an item -/

namespace Item

variable {item key value t : Text} {v v' : Value} {e : Entry}

theorem quotes?_of_notMem (h : '\"' ∉ item) : quotes? item = none := by
  cases hquotes : quotes? item with
  | none => rfl
  | some e =>
    obtain ⟨-, hend⟩ := quotes?_eq_some hquotes
    obtain ⟨c, hlast, hc⟩ := (Option.any_eq_true _ _).1 hend
    obtain rfl := beq_iff_eq.1 hc
    exact absurd (List.mem_of_mem_getLast? hlast) h

/-- What is assigned as a group, a number or a length may stand at any depth. -/
theorem sealFrom_of_assigned? (h : assigned? value = some v) (hquote : '\"' ∉ value)
    (depth : Nat) : sealFrom depth value = some depth := by
  rcases assigned?_eq_some h with ⟨body, rfl, hbody, -⟩ | ⟨hlength, -⟩
  · refine sealFrom_enclose (fun hmem ↦ hquote ?_) hbody.balanced depth
    simp [enclose, hmem]
  · refine sealFrom_of_not_special fun c hc ↦ ?_
    rcases isMark_or_isBlank_of_readLength? hlength hc with hmark | hblank
    · exact isSpecial_eq_false (by decide) hmark
    · exact isSpecial_of_isBlank hblank

theorem notMem_value (hassign : assignment? item = some (key, value)) (hquote : '\"' ∉ item) :
    '\"' ∉ value := by
  obtain ⟨before, after, rfl, -, -, rfl, -⟩ := assignment?_eq_some hassign
  rw [mem_trim_iff rfl]
  exact fun hmem ↦ hquote (by simp [hmem])

/-- The key of a sealed item is sealed if what is assigned is. -/
theorem isSealed_key (hassign : assignment? item = some (key, value)) (hsealed : IsSealed item)
    (hread : assigned? value = some v) : IsSealed key := by
  have hquote := notMem_value hassign (notMem_of_sealFrom hsealed)
  obtain ⟨before, after, rfl, -, rfl, rfl, -⟩ := assignment?_eq_some hassign
  rw [IsSealed, sealFrom_append] at hsealed
  obtain ⟨depth, hbefore, hafter⟩ := Option.bind_eq_some_iff.1 hsealed
  have hdepth : depth = 0 := by
    rw [sealFrom, sealStep_of_not_special rfl, Option.bind_some, ← sealFrom_inked, ← inked_trim,
      sealFrom_inked, sealFrom_of_assigned? hread hquote] at hafter
    exact Option.some.inj hafter
  rw [isSealed_congr (inked_trim before), IsSealed, hbefore, hdepth]

theorem isItem_written (hkey : IsKey key) (htrimmed : IsTrimmed value) (hne : value ≠ [])
    (hsealed : IsSealed (key ++ '=' :: value)) : IsItem (key ++ '=' :: value) := by
  have hassign := assignment?_written hkey htrimmed hne
  exact ⟨hsealed, hkey.trimmed.append_cons htrimmed hkey.ne_nil hne '=', by simp,
    Preset.ofTitle?_eq_none rfl (mem_of_assignment? hassign)⟩

/-- A property that is assigned as a group, a number or a length is read again if what is printed
after its key can be read so. -/
theorem rereads_assigned (hkey : IsKey key) (hsealed : IsSealed key)
    (hprint : printEntry (key, v) = key ++ '=' :: value) (htrimmed : IsTrimmed value)
    (hne : value ≠ []) (hquote : '\"' ∉ value) (hread : assigned? value = some v')
    (halike : v.alike v') : Rereads (key, v) := by
  have hvalue : IsSealed value := sealFrom_of_assigned? hread hquote 0
  have hassign := assignment?_written hkey htrimmed hne
  constructor
  · rw [hprint]
    exact isItem_written hkey htrimmed hne (hsealed.append hvalue)
  · rw [hprint]
    exact ⟨_, read?_eq_some_iff.2 (.assigned hassign hread), alikeEntry_of_alike key halike⟩

theorem assigned?_of_readLength? (h : readLength? value = some v) : assigned? value = some v := by
  have hgroup : groupOf? value = none := by
    refine Option.eq_none_iff_forall_ne_some.2 fun v' hv' ↦ ?_
    obtain ⟨body, hbody, -⟩ := groupOf?_eq_some_iff.1 hv'
    exact notMem_of_readLength? h (c := '{') rfl rfl (by simp [hbody, enclose])
  rw [assigned?, hgroup, h, Option.none_or]

/-- A number or a length is read again if its number is printed again as it was. -/
theorem rereads_measure {x : Float} (hkey : IsKey key) (hsealed : IsSealed key)
    (hstable : Numeral.isStable x) : Rereads (key, .number x) ∧ Rereads (key, .length x) := by
  have hquote {s : Text} {v : Value} (h : readLength? s = some v) : '\"' ∉ s :=
    notMem_of_readLength? h rfl rfl
  constructor
  · obtain ⟨y, hread, hsame⟩ := readLength?_print hstable
    exact rereads_assigned hkey hsealed rfl (isTrimmed_print hstable) (print_ne_nil hstable)
      (hquote hread) (assigned?_of_readLength? hread) (beq_iff_eq.2 hsame.symm)
  · obtain ⟨y, hread, hsame⟩ := readLength?_print_points hstable
    have hprint : printEntry (key, .length x) = key ++ '=' :: (Numeral.print x ++ "pt".toList) := by
      simp [printEntry, printValue]
    exact rereads_assigned hkey hsealed hprint (isTrimmed_print_points hstable) (by simp)
      (hquote hread) (assigned?_of_readLength? hread) (beq_iff_eq.2 hsame.symm)

/-- A group is read again if its properties are. -/
theorem rereads_group {entries : List Entry} (hkey : IsKey key) (hsealed : IsSealed key)
    (h : ∀ e ∈ entries, Rereads e) (hne : entries ≠ []) (hnodup : (Assoc.keys entries).Nodup) :
    Rereads (key, .group entries) := by
  have hquote := notMem_join (isSealed_of_rereads h)
  have hbody : IsGroupBody (join ", " (printEntries entries)) := by
    refine ⟨isBalanced_join rfl fun i hi ↦ (isSealed_of_rereads h i hi).isBalanced, ?_, ?_⟩
    · rw [split_print h, printEntries_eq_map]
      simpa using hne
    · rw [split_print h, printEntries_eq_map]
      refine List.forall_mem_map.2 fun e he ↦ ?_
      obtain ⟨e', hread, -⟩ := (h e he).again
      rw [hread, Option.isSome_some]
  have hread : assigned? (enclose (join ", " (printEntries entries))) =
      some (.group (read (join ", " (printEntries entries)) none).entries) := by
    rw [assigned?, groupOf?_eq_some_iff.2 ⟨_, rfl, hbody, rfl⟩, Option.some_or]
  have htrimmed : IsTrimmed (enclose (join ", " (printEntries entries))) :=
    ⟨rfl, endsWith_append_of_ne_nil isBlank (by simp)⟩
  refine rereads_assigned hkey hsealed rfl htrimmed (by simp [enclose]) ?_ hread ?_
  · simpa [enclose] using hquote
  · exact alike_read_print h hnodup

/-- A text that was assigned to a key that is printed is read again. -/
theorem rereads_text (hassign : assignment? item = some (key, value))
    (hunread : assigned? value = none) (hsealed : IsSealed item) (hbare : collapse key ∉ bareKeys) :
    Rereads (collapse key, .text value) := by
  have hkey := (isKey_of_assignment? hassign).collapse
  obtain ⟨htrimmed, hne⟩ := assigned_of_assignment? hassign
  have hwritten := assignment?_written hkey htrimmed hne
  have hprint : printEntry (collapse key, .text value) = collapse key ++ '=' :: value := by
    rw [printEntry, printValue, if_neg fun h ↦ hbare (List.contains_iff_mem.1 h)]
  have hprinted : IsSealed (collapse key ++ '=' :: value) := by
    obtain ⟨before, after, rfl, -, rfl, rfl, -⟩ := assignment?_eq_some hassign
    refine (isSealed_congr ?_).2 hsealed
    have hequals (s : Text) : inked ('=' :: s) = '=' :: inked s := rfl
    rw [inked_append, inked_append, hequals, hequals, inked_collapse, inked_trim, inked_trim]
  constructor
  · rw [hprint]
    exact isItem_written hkey htrimmed hne hprinted
  · have hown : ownForm? (collapse key ++ '=' :: value) = none := by
      rw [ownForm?_of_mem (mem_of_assignment? hwritten),
        quotes?_of_notMem (notMem_of_sealFrom hprinted)]
    have hread := read?_eq_some_iff.2 (.text hwritten hunread hown)
    rw [collapse_collapse] at hread
    rw [hprint]
    exact ⟨_, hread, alikeEntry_of_alike _ (beq_self_eq_true value)⟩

/-- A text whose form tells its key is read again. -/
theorem rereads_own (hown : ownForm? item = some e) (hitem : IsItem item) : Rereads e := by
  obtain ⟨key, t, rfl, hbare, hagain, ht⟩ := ownForm?_eq_some hown
  have hlines : ∀ t ∈ lineStyles, IsItem t := by decide
  have ht : IsItem t := by
    rcases ht with rfl | ht
    · exact hitem
    · exact hlines t ht
  rw [← printEntry_bare hbare (t := t)] at ht
  have halike : alikeEntry (key, .text t) (key, .text t) :=
    alikeEntry_of_alike key (beq_self_eq_true t)
  refine ⟨ht, _, ?_, halike⟩
  rw [printEntry_bare hbare]
  exact read?_of_ownForm? hagain

/-- A flag is read again. If it has several words, their spaces rule out every form of a text, and
if it has one, the item was that word. -/
theorem rereads_flag (hflag : flag? item = some e) (hown : ownForm? item = none)
    (hitem : IsItem item) : Rereads e := by
  obtain ⟨rfl, hstart, hall⟩ := flag?_eq_some hflag
  have hunassigned : assignment? (collapse item) = none := by
    refine assignment?_of_notMem fun hmem ↦ ?_
    have hequals := List.all_eq_true.1 hall '=' ((mem_collapse_iff rfl).1 hmem)
    exact absurd hequals (by decide)
  have hsealed : IsSealed (collapse item) :=
    (isSealed_congr (inked_collapse item)).2 hitem.isSealed
  have hflag' : flag? (collapse item) = some (collapse item, .flag) := by
    have hstart' : startsWith isLetter (collapse item) := by
      rwa [startsWith, head?_collapse hitem.isTrimmed.1]
    have hall' : (collapse item).all fun c ↦ isLetter c || c == ' ' := by
      refine List.all_eq_true.2 fun c hc ↦ ?_
      cases hblank : isBlank c with
      | true => rw [eq_space_of_mem_collapse hc hblank]; rfl
      | false => exact List.all_eq_true.1 hall c ((mem_collapse_iff hblank).1 hc)
    rw [flag?, if_pos ⟨hstart', hall'⟩, collapse_collapse]
  have hone : ownForm? (collapse item) = none ∧ Preset.ofTitle? (collapse item) = none := by
    by_cases hspace : ' ' ∈ collapse item
    · have harrows : arrows? (collapse item) = none := by
        rw [arrows?, if_pos (Or.inr (List.contains_iff_mem.2 hspace))]
      have hline : lineStyle? (collapse item) = none := by
        simp only [ownForm?, Option.or_eq_none_iff, lineStyle?] at hown
        simpa only [lineStyle?, collapse_collapse] using hown.2.2.1
      refine ⟨?_, Preset.ofTitle?_eq_none rfl hspace⟩
      rw [ownForm?, harrows, quotes?_of_notMem (notMem_of_sealFrom hsealed), hline,
        color?_of_mem rfl (by decide) hspace, Option.none_or, Option.none_or, Option.none_or]
    · rw [collapse_eq_self hitem.isTrimmed hspace]
      exact ⟨hown, hitem.untitled⟩
  have hcollapsed : IsItem (collapse item) :=
    ⟨hsealed, isTrimmed_collapse item, collapse_ne_nil hitem.isTrimmed hitem.ne_nil, hone.2⟩
  exact ⟨hcollapsed, _, read?_eq_some_iff.2 (.flag hunassigned hone.1 hflag'),
    alikeEntry_of_alike _ rfl⟩

end Item

end DiagramMacros
