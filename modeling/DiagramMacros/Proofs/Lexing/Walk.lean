import DiagramMacros.Proofs.Lexing.Partition
/-!
The search for calls against a walk along the source. The walk stands at the first byte at first,
and goes on after the call that matches what is left, or where none does, after the next unit. So it
takes no notice of where the search halts. The calls among the lexemes are those that match where
the walk stands, and the search is refused where the walk first stands at a reserved keyword that
begins no call (`lexPlaced_follows_walk`).
-/

set_option autoImplicit false
set_option relaxedAutoImplicit false

namespace DiagramMacros

open Text

/-- One step of the walk: the text that it passes, and the text after it. -/
inductive Step : Text → Text → Text → Prop
  /-- after the call that matches -/
  | call {k : Keyword} {s rest : Text} {tree : Forest Rule} (h : IsCall k s tree rest) :
      Step s tree.flatten rest
  /-- where no call matches, after a unit -/
  | unit {u rest : Text} (hunit : IsUnit u rest) (hcall : NoCall (u ++ rest)) :
      Step (u ++ rest) u rest

/-- The walk along a text stands at a byte, with this text left. -/
inductive Walk : Text → Nat → Text → Prop
  | here {s : Text} : Walk s 0 s
  | step {s u rest s' : Text} {o : Nat} (h : Step s u rest) (more : Walk rest o s') :
      Walk s (size u + o) s'

/-- A reserved keyword is the whole control word at the start of a text, but no call matches it. -/
structure Refused (k : Keyword) (s : Text) : Prop where
  noCall : NoCall s
  reserved : k = .coor ∨ k = .draw
  word : ∃ t, s = '\\' :: t ∧ t.takeWhile isLetter = k.word

/-- The walk along a text first stands at a refused keyword at this byte. -/
structure FirstRefused (k : Keyword) (s : Text) (o : Nat) : Prop where
  stands : ∃ s', Walk s o s' ∧ Refused k s'
  first : ∀ o' s' k', Walk s o' s' → Refused k' s' → o ≤ o'

/-- The lexemes of a source agree with the walk along it: the calls are those that match where the
walk stands, none of them begins inside a unit, and no raw lexeme has a call in it that the walk
meets. -/
structure FollowsWalk (source : Text) (ls : List PlacedLexeme) : Prop where
  calls : ∀ k tree span, ⟨.call k tree, span⟩ ∈ ls ↔ ∃ o s rest, Walk source o s ∧
    IsCall k s tree rest ∧ span = ⟨o, o + size tree.flatten⟩
  units : ∀ k tree span, ⟨.call k tree, span⟩ ∈ ls → ∀ o u rest, Walk source o (u ++ rest) →
    IsUnit u rest → ¬ (o < span.start ∧ span.start < o + size u)
  raws : ∀ text span, ⟨.raw text, span⟩ ∈ ls → ∀ o s, Walk source o s →
    span.start ≤ o → o < span.stop → NoCall s

/-! ### Steps -/

/-- The unit at the start of a text. -/
def firstUnit : Text → Text
  | [] => []
  | c :: s =>
    if c = '%' then c :: s.takeWhile (· != '\n') ++ (s.dropWhile (· != '\n')).take 1
    else if c = '\\' ∧ startsWith (fun d ↦ !isLetter d) s then c :: s.take 1
    else [c]

theorem all_ne_of_not_mem {c : Char} {s : Text} (h : c ∉ s) : s.all (· != c) := by
  rw [List.all_eq_true]
  intro d hd
  have hne : d ≠ c := fun heq ↦ h (heq ▸ hd)
  simpa using hne

/-- A text determines the unit at its start. -/
theorem IsUnit.eq_firstUnit {u rest : Text} (h : IsUnit u rest) : u = firstUnit (u ++ rest) := by
  cases h with
  | @comment line rest hline =>
    have hall := all_ne_of_not_mem hline
    have hend : startsWith (· != '\n') ('\n' :: rest) = false := rfl
    have htext : '%' :: line ++ ['\n'] ++ rest = '%' :: (line ++ '\n' :: rest) := by simp
    rw [htext, firstUnit, if_pos rfl, takeWhile_append_of_all hall hend,
      dropWhile_append_of_all hall hend]
    rfl
  | @lastComment line hline =>
    have hall := all_ne_of_not_mem hline
    have hend : startsWith (· != '\n') [] = false := rfl
    have htake := takeWhile_append_of_all hall hend
    have hdrop := dropWhile_append_of_all hall hend
    rw [List.append_nil] at htake hdrop
    rw [List.append_nil, firstUnit, if_pos rfl, htake, hdrop]
    simp
  | @symbol c rest hc =>
    have hletter : startsWith (fun d ↦ !isLetter d) (c :: rest) := by simp [hc]
    show _ = firstUnit ('\\' :: c :: rest)
    rw [firstUnit, if_neg (by decide), if_pos ⟨rfl, hletter⟩]
    rfl
  | @backslash rest hrest =>
    have hletter : ¬ startsWith (fun d ↦ !isLetter d) rest := by
      rcases hrest with rfl | hrest
      · exact Bool.noConfusion
      · cases rest with
        | nil => exact Bool.noConfusion
        | cons d rest =>
          rw [startsWith_cons] at hrest ⊢
          simp [hrest]
    show _ = firstUnit ('\\' :: rest)
    rw [firstUnit, if_neg (by decide), if_neg fun h ↦ hletter h.2]
  | @other c rest hc =>
    rw [isStop, Bool.or_eq_false_iff, beq_eq_false_iff_ne, beq_eq_false_iff_ne] at hc
    show _ = firstUnit (c :: rest)
    rw [firstUnit, if_neg hc.2, if_neg fun h ↦ hc.1 h.1]

theorem Step.append {s u rest : Text} (h : Step s u rest) : s = u ++ rest := by
  cases h with
  | call h => exact h.flatten
  | unit _ _ => rfl

/-- The walk has no choice. -/
theorem Step.unique {s u u' rest rest' : Text} (h : Step s u rest) (h' : Step s u' rest') :
    u = u' ∧ rest = rest' := by
  have hu : u = u' := by
    cases h with
    | call hcall =>
      cases h' with
      | call hcall' => rw [(hcall.unique hcall').2.1]
      | unit _ hnone => exact absurd hcall hnone.not_isCall
    | unit hunit hnone =>
      generalize htext : u ++ rest = s at h' hnone
      cases h' with
      | call hcall => exact absurd hcall hnone.not_isCall
      | unit hunit' _ => rw [hunit.eq_firstUnit, htext, ← hunit'.eq_firstUnit]
  subst hu
  exact ⟨rfl, List.append_cancel_left (h.append.symm.trans h'.append)⟩

/-- Only at a backslash that is a unit of its own can a call match. -/
theorem IsUnit.noCall {u rest : Text} (h : IsUnit u rest) (hu : u ≠ ['\\']) :
    NoCall (u ++ rest) := by
  cases h with
  | comment _ => exact noCall_of_ne (by decide)
  | lastComment _ => exact noCall_of_ne (by decide)
  | @symbol c rest hc =>
    by_contra hcall
    obtain ⟨k, tree, _, hcall⟩ := exists_isCall hcall
    obtain ⟨after, htext, _⟩ := hcall.exists_after
    have hword : c :: rest = k.word ++ after := (List.cons.inj htext).2
    have hletter : startsWith isLetter (k.word ++ after) := by cases k <;> rfl
    rw [← hword, startsWith_cons, hc] at hletter
    exact Bool.noConfusion hletter
  | backslash _ => exact absurd rfl hu
  | other hc =>
    apply noCall_of_ne
    rintro rfl
    exact Bool.noConfusion hc

theorem IsUnit.ne_nil {u rest : Text} (h : IsUnit u rest) : u ≠ [] := by
  cases h <;> simp

/-- Each step passes at least one character. -/
theorem Step.length_lt {s u rest : Text} (h : Step s u rest) : rest.length < s.length := by
  cases h with
  | call hcall => exact hcall.size_pos
  | unit hunit _ =>
    have hpos := List.length_pos_of_ne_nil hunit.ne_nil
    rw [List.length_append]
    omega

/-- A unit stands at the start of every text. -/
theorem exists_isUnit (c : Char) (s : Text) : ∃ u rest, c :: s = u ++ rest ∧ IsUnit u rest := by
  by_cases hpercent : c = '%'
  · subst hpercent
    cases hcut : cut? '\n' ('%' :: s) with
    | none => exact ⟨_, [], (List.append_nil _).symm, isUnit_of_cut_eq_none hcut⟩
    | some cut => exact ⟨_, _, isUnit_of_cut hcut⟩
  · by_cases hbackslash : c = '\\'
    · subst hbackslash
      obtain ⟨u, rest, htext, hunit, _⟩ := exists_unit_of_backslash s
      exact ⟨u, rest, htext, hunit⟩
    · exact ⟨[c], s, rfl, IsUnit.other (by simp [isStop, hpercent, hbackslash])⟩

/-- The walk can go on unless it stands at the end. -/
theorem exists_step (c : Char) (s : Text) : ∃ u rest, Step (c :: s) u rest := by
  by_cases hcall : NoCall (c :: s)
  · obtain ⟨u, rest, htext, hunit⟩ := exists_isUnit c s
    rw [htext] at hcall ⊢
    exact ⟨u, rest, Step.unit hunit hcall⟩
  · obtain ⟨k, tree, rest, hcall⟩ := exists_isCall hcall
    exact ⟨tree.flatten, rest, Step.call hcall⟩

/-! ### Walks -/

theorem walk_nil_iff {s : Text} {o : Nat} : Walk [] o s ↔ o = 0 ∧ s = [] := by
  constructor
  · intro h
    cases h with
    | here => exact ⟨rfl, rfl⟩
    | step h _ => exact absurd h.length_lt (Nat.not_lt_zero _)
  · rintro ⟨rfl, rfl⟩
    exact Walk.here

/-- After its first step the walk is the one along what is left. -/
theorem walk_step_iff {s u rest s' : Text} {o : Nat} (h : Step s u rest) :
    Walk s o s' ↔ (o = 0 ∧ s' = s) ∨ ∃ o', o = size u + o' ∧ Walk rest o' s' := by
  constructor
  · intro hwalk
    cases hwalk with
    | here => exact Or.inl ⟨rfl, rfl⟩
    | step h' more =>
      obtain ⟨rfl, rfl⟩ := h.unique h'
      exact Or.inr ⟨_, rfl, more⟩
  · rintro (⟨rfl, rfl⟩ | ⟨o', rfl, more⟩)
    · exact Walk.here
    · exact Walk.step h more

/-- What the walk has passed and what is left are the text. -/
theorem Walk.exists_passed {s s' : Text} {o : Nat} (h : Walk s o s') :
    ∃ passed, s = passed ++ s' ∧ size passed = o := by
  induction h with
  | here => exact ⟨[], rfl, size_nil⟩
  | @step s u rest s' o h _ ih =>
    obtain ⟨passed, hrest, hsize⟩ := ih
    refine ⟨u ++ passed, ?_, ?_⟩
    · rw [h.append, hrest, List.append_assoc]
    · rw [size_append, hsize]

/-- The walk goes on to the end of the text. -/
theorem walk_end (s : Text) : Walk s (size s) [] := by
  induction hn : s.length using Nat.strong_induction_on generalizing s with
  | _ n ih =>
    subst hn
    cases s with
    | nil => exact Walk.here
    | cons c s =>
      obtain ⟨u, rest, hstep⟩ := exists_step c s
      have hsize : size (c :: s) = size u + size rest := by rw [hstep.append, size_append]
      rw [hsize]
      exact Walk.step hstep (ih rest.length hstep.length_lt rest rfl)

/-- The walk does not stand inside what one step passes. -/
theorem Walk.le_of_lt {s s₁ s₂ u rest : Text} {o₁ o₂ : Nat} (h : Walk s o₁ s₁)
    (hstep : Step s₁ u rest) (h' : Walk s o₂ s₂) (hlt : o₁ < o₂) : o₁ + size u ≤ o₂ := by
  induction h generalizing o₂ with
  | here =>
    rcases (walk_step_iff hstep).1 h' with ⟨rfl, _⟩ | ⟨o', rfl, _⟩
    · omega
    · omega
  | step hfirst _ ih =>
    rcases (walk_step_iff hfirst).1 h' with ⟨rfl, _⟩ | ⟨o', rfl, hmore⟩
    · omega
    · have hrest := ih hstep hmore (by omega)
      omega

/-! ### The search and the walk -/

theorem reserved?_eq_some_iff {s : Text} {k : Keyword} : reserved? s = some k ↔
    (k = .coor ∨ k = .draw) ∧ ∃ t, s = '\\' :: t ∧ t.takeWhile isLetter = k.word := by
  have hreserved : k.isReserved ↔ k = .coor ∨ k = .draw := by cases k <;> simp [Keyword.isReserved]
  rw [reserved?, reservedIn, Option.filter_eq_some_iff, hreserved,
    Keyword.atStartIn_eq_some_iff Keyword.mem_all, and_comm]

theorem refused_iff {s : Text} {k : Keyword} : Refused k s ↔ NoCall s ∧ reserved? s = some k := by
  rw [reserved?_eq_some_iff]
  exact ⟨fun h ↦ ⟨h.noCall, h.reserved, h.word⟩, fun ⟨hnone, hreserved, hword⟩ ↦
    ⟨hnone, hreserved, hword⟩⟩

/-- The walk along a text that begins at some byte stands where this holds. -/
def Reaches (base : Nat) (s : Text) (holds : Nat → Text → Prop) : Prop :=
  ∃ o s', Walk s o s' ∧ holds (base + o) s'

theorem reaches_step_iff {base : Nat} {s u rest : Text} {holds : Nat → Text → Prop}
    (h : Step s u rest) :
    Reaches base s holds ↔ holds base s ∨ Reaches (base + size u) rest holds := by
  constructor
  · rintro ⟨o, s', hwalk, hs'⟩
    rcases (walk_step_iff h).1 hwalk with ⟨rfl, rfl⟩ | ⟨o', rfl, hmore⟩
    · exact Or.inl hs'
    · rw [← Nat.add_assoc] at hs'
      exact Or.inr ⟨o', s', hmore, hs'⟩
  · rintro (hs | ⟨o', s', hmore, hs'⟩)
    · exact ⟨0, s, Walk.here, hs⟩
    · rw [Nat.add_assoc] at hs'
      exact ⟨size u + o', s', Walk.step h hmore, hs'⟩

theorem FirstRefused.step {k : Keyword} {s u rest : Text} {o : Nat} (h : Step s u rest)
    (hs : ∀ k', ¬ Refused k' s) (hrest : FirstRefused k rest o) :
    FirstRefused k s (size u + o) := by
  obtain ⟨s', hmore, hrefused⟩ := hrest.stands
  refine ⟨⟨s', Walk.step h hmore, hrefused⟩, fun o' s'' k' hwalk hrefused' ↦ ?_⟩
  rcases (walk_step_iff h).1 hwalk with ⟨_, rfl⟩ | ⟨o'', rfl, hmore'⟩
  · exact absurd hrefused' (hs k')
  · exact Nat.add_le_add_left (hrest.first o'' s'' k' hmore' hrefused') _

theorem IsCall.not_refused {k k' : Keyword} {s rest : Text} {tree : Forest Rule}
    (h : IsCall k s tree rest) : ¬ Refused k' s :=
  fun hrefused ↦ hrefused.noCall.not_isCall h

theorem not_refused_of_reserved? {k : Keyword} {s : Text} (h : reserved? s = none) :
    ¬ Refused k s := by
  intro hrefused
  have heq := h.symm.trans (refused_iff.1 hrefused).2
  simp at heq

theorem not_mem_rawOf {start : Nat} {text : Text} {k : Keyword} {tree : Forest Rule}
    {span : Span} : ⟨.call k tree, span⟩ ∉ rawOf start text := by
  unfold rawOf
  split <;> simp

/-- The calls that the search finds are those that match where the walk stands. -/
theorem Lexing.mem_call_iff {start : Nat} {pending s : Text}
    {r : Except LexFailure (List PlacedLexeme)} (h : Lexing start pending s r) {k : Keyword}
    {tree : Forest Rule} {span : Span} :
    ∀ ls, r = .ok ls → (⟨.call k tree, span⟩ ∈ ls ↔ Reaches (start + size pending) s
      fun o s' ↦ (∃ rest, IsCall k s' tree rest) ∧ span = ⟨o, o + size tree.flatten⟩) := by
  induction h with
  | finish =>
    rintro ls ⟨⟩
    apply iff_of_false not_mem_rawOf
    rintro ⟨o, s', hwalk, ⟨rest, hcall⟩, _⟩
    obtain ⟨_, rfl⟩ := walk_nil_iff.1 hwalk
    obtain ⟨t, ht⟩ := hcall.exists_backslash
    simp at ht
  | @unit start pending u rest r hunit hnone _ _ ih =>
    intro ls hr
    have hmore := ih ls hr
    rw [size_append, ← Nat.add_assoc] at hmore
    rw [hmore, reaches_step_iff (Step.unit hunit hnone), or_iff_right]
    rintro ⟨⟨rest', hcall⟩, _⟩
    exact hnone.not_isCall hcall
  | @call start pending s rest k' tree' r hcall _ ih =>
    intro ls hr
    obtain ⟨ls', hls', rfl⟩ := map_eq_ok_iff.1 hr
    have hmore := ih ls' hls'
    rw [size_nil, Nat.add_zero] at hmore
    rw [List.mem_append, or_iff_right not_mem_rawOf, List.mem_cons, hmore,
      reaches_step_iff (Step.call hcall)]
    refine or_congr_left ⟨fun heq ↦ ?_, fun ⟨⟨rest', hcall'⟩, hspan⟩ ↦ ?_⟩
    · simp only [PlacedLexeme.mk.injEq, Lexeme.call.injEq] at heq
      obtain ⟨⟨rfl, rfl⟩, rfl⟩ := heq
      exact ⟨⟨rest, hcall⟩, rfl⟩
    · obtain ⟨rfl, rfl, _⟩ := hcall.unique hcall'
      rw [hspan]
  | refused _ _ =>
    intro ls hr
    simp at hr

/-- Where the search succeeds, the walk stands at no refused keyword. -/
theorem Lexing.not_refused {start : Nat} {pending s : Text}
    {r : Except LexFailure (List PlacedLexeme)} (h : Lexing start pending s r) {k : Keyword} :
    ∀ ls, r = .ok ls → ∀ o s', Walk s o s' → ¬ Refused k s' := by
  induction h with
  | finish =>
    intro _ _ o s' hwalk hrefused
    obtain ⟨_, rfl⟩ := walk_nil_iff.1 hwalk
    obtain ⟨t, ht, _⟩ := hrefused.word
    simp at ht
  | unit hunit hnone hreserved _ ih =>
    intro ls hr o s' hwalk
    rcases (walk_step_iff (Step.unit hunit hnone)).1 hwalk with ⟨_, rfl⟩ | ⟨o', _, hmore⟩
    · exact not_refused_of_reserved? hreserved
    · exact ih ls hr o' s' hmore
  | call hcall _ ih =>
    intro ls hr o s' hwalk
    obtain ⟨ls', hls', _⟩ := map_eq_ok_iff.1 hr
    rcases (walk_step_iff (Step.call hcall)).1 hwalk with ⟨_, rfl⟩ | ⟨o', _, hmore⟩
    · exact hcall.not_refused
    · exact ih ls' hls' o' s' hmore
  | refused _ _ =>
    intro ls hr
    simp at hr

/-- Where the search fails, it is at the first refused keyword at which the walk stands. -/
theorem Lexing.firstRefused {start : Nat} {pending s : Text}
    {r : Except LexFailure (List PlacedLexeme)} (h : Lexing start pending s r) :
    ∀ e, r = .error e → ∃ o, FirstRefused e.keyword s o ∧
      e.span = ⟨start + size pending + o, start + size pending + o + 1 + size e.keyword.word⟩ := by
  induction h with
  | finish =>
    intro e hr
    simp at hr
  | @unit start pending u rest r hunit hnone hreserved _ ih =>
    intro e hr
    obtain ⟨o, hfirst, hspan⟩ := ih e hr
    rw [size_append, ← Nat.add_assoc, Nat.add_assoc _ (size u)] at hspan
    exact ⟨size u + o, hfirst.step (Step.unit hunit hnone)
      (fun _ ↦ not_refused_of_reserved? hreserved), hspan⟩
  | @call start pending s rest k tree r hcall _ ih =>
    intro e hr
    obtain ⟨o, hfirst, hspan⟩ := ih e (map_eq_error_iff.1 hr)
    rw [size_nil, Nat.add_zero, Nat.add_assoc _ (size tree.flatten)] at hspan
    exact ⟨size tree.flatten + o, hfirst.step (Step.call hcall) (fun _ ↦ hcall.not_refused), hspan⟩
  | @refused start pending s k hnone hreserved =>
    rintro e ⟨⟩
    exact ⟨0, ⟨⟨s, Walk.here, refused_iff.2 ⟨hnone, hreserved⟩⟩, fun _ _ _ _ _ ↦ Nat.zero_le _⟩,
      rfl⟩

theorem followsWalk_lexPlaced {source : Text} {ls : List PlacedLexeme}
    (h : lexPlaced source = .ok ls) : FollowsWalk source ls := by
  have hcalls : ∀ k tree span, ⟨.call k tree, span⟩ ∈ ls ↔ ∃ o s rest, Walk source o s ∧
      IsCall k s tree rest ∧ span = ⟨o, o + size tree.flatten⟩ := by
    intro k tree span
    rw [(lexing_lexPlaced source).mem_call_iff ls h, size_nil, Nat.add_zero]
    constructor
    · rintro ⟨o, s, hwalk, ⟨rest, hcall⟩, hspan⟩
      rw [Nat.zero_add] at hspan
      exact ⟨o, s, rest, hwalk, hcall, hspan⟩
    · rintro ⟨o, s, rest, hwalk, hcall, hspan⟩
      rw [← Nat.zero_add o] at hspan
      exact ⟨o, s, hwalk, ⟨rest, hcall⟩, hspan⟩
  refine ⟨hcalls, ?_, ?_⟩
  · rintro k tree span hmem o u rest hwalk hunit ⟨hlt, hstop⟩
    obtain ⟨o', s', _, hwalk', _, rfl⟩ := (hcalls k tree span).1 hmem
    have hu : u ≠ ['\\'] := by
      rintro rfl
      exact absurd hstop (Nat.not_lt_of_le hlt)
    have hle := hwalk.le_of_lt (Step.unit hunit (hunit.noCall hu)) hwalk' hlt
    exact absurd hstop (Nat.not_lt_of_le hle)
  · intro text span hmem o s hwalk hle hlt
    by_contra hnone
    obtain ⟨k, tree, rest, hcall⟩ := exists_isCall hnone
    have hmem' := (hcalls k tree _).2 ⟨o, s, rest, hwalk, hcall, rfl⟩
    have heq := (placed_lexPlaced h).1.eq_of_overlap hmem hmem' hle hlt
    simp at heq

/-- A refused keyword stands in the text where the walk does. -/
theorem FirstRefused.slice? {k : Keyword} {s : Text} {o : Nat} (h : FirstRefused k s o) :
    s.slice? o (o + 1 + size k.word) = some ('\\' :: k.word) := by
  obtain ⟨s', hwalk, hrefused⟩ := h.stands
  obtain ⟨passed, rfl, rfl⟩ := hwalk.exists_passed
  obtain ⟨t, rfl, hword⟩ := hrefused.word
  have htext : passed ++ '\\' :: t = passed ++ ('\\' :: k.word) ++ t.dropWhile isLetter := by
    rw [← hword, List.append_assoc, List.cons_append, List.takeWhile_append_dropWhile]
  have hsize : size passed + 1 + size k.word = size passed + size ('\\' :: k.word) := by
    rw [Nat.add_assoc]
    rfl
  rw [htext, hsize]
  exact slice?_append _ _ _

/-- The search agrees with the walk. The walk goes on to the end of every source. Where the search
succeeds, the lexemes follow it. The search fails just where the walk stands at a refused keyword,
and it names the first such keyword and the stretch of it with its backslash. -/
theorem lexPlaced_follows_walk (source : Text) :
    Walk source (size source) [] ∧
    (∀ ls, lexPlaced source = .ok ls → FollowsWalk source ls) ∧
    ((∃ e, lexPlaced source = .error e) ↔ ∃ o s k, Walk source o s ∧ Refused k s) ∧
    (∀ e, lexPlaced source = .error e →
      FirstRefused e.keyword source e.span.start ∧
      e.span.stop = e.span.start + 1 + size e.keyword.word ∧
      source.slice? e.span.start e.span.stop = some ('\\' :: e.keyword.word)) := by
  have hlexing := lexing_lexPlaced source
  have herror : ∀ e, lexPlaced source = .error e → ∃ o, FirstRefused e.keyword source o ∧
      e.span = ⟨o, o + 1 + size e.keyword.word⟩ := by
    intro e he
    obtain ⟨o, hfirst, hspan⟩ := hlexing.firstRefused e he
    rw [size_nil, Nat.add_zero, Nat.zero_add] at hspan
    exact ⟨o, hfirst, hspan⟩
  refine ⟨walk_end source, fun ls h ↦ followsWalk_lexPlaced h, ⟨?_, ?_⟩, ?_⟩
  · rintro ⟨e, he⟩
    obtain ⟨o, hfirst, _⟩ := herror e he
    obtain ⟨s, hwalk, hrefused⟩ := hfirst.stands
    exact ⟨o, s, e.keyword, hwalk, hrefused⟩
  · rintro ⟨o, s, k, hwalk, hrefused⟩
    cases hr : lexPlaced source with
    | ok ls => exact absurd hrefused (hlexing.not_refused ls hr o s hwalk)
    | error e => exact ⟨e, rfl⟩
  · intro e he
    obtain ⟨o, hfirst, hspan⟩ := herror e he
    rw [hspan]
    exact ⟨hfirst, rfl, hfirst.slice?⟩

/-- Two places where the walk meets no call, a comment and a control symbol, and one where it does.
-/
def hiddenSource : Text := "%\\grid\x7b\x7d\n\\%\\grid\x7b\x7dé".toList

/-- A line break before a reserved word, a call that is none, and a refused keyword. -/
def refusedSource : Text := "\\\\draw\\node\\coor é".toList

theorem lexPlaced_follows_walk_hidden_refused :
    (∃ ls, lexPlaced hiddenSource = .ok ls ∧
      ls.map PlacedLexeme.span = [⟨0, 11⟩, ⟨11, 18⟩, ⟨18, 20⟩] ∧ FollowsWalk hiddenSource ls) ∧
    lexPlaced refusedSource = .error ⟨.coor, 11, 16⟩ ∧ FirstRefused .coor refusedSource 11 := by
  constructor
  · have hspans : ((lexPlaced hiddenSource).map fun ls ↦ ls.map PlacedLexeme.span) =
        .ok [⟨0, 11⟩, ⟨11, 18⟩, ⟨18, 20⟩] := by decide +kernel
    obtain ⟨ls, hlex, hmap⟩ := map_eq_ok_iff.1 hspans
    exact ⟨ls, hlex, hmap, (lexPlaced_follows_walk hiddenSource).2.1 ls hlex⟩
  · have herror : lexPlaced refusedSource = .error ⟨.coor, 11, 16⟩ := by decide +kernel
    exact ⟨herror, ((lexPlaced_follows_walk refusedSource).2.2.2 _ herror).1⟩

end DiagramMacros
