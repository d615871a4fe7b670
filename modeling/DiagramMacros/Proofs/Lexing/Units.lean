import DiagramMacros.Proofs.Lexing.Calls
import DiagramMacros.Proofs.Outcome
/-!
The search for calls, unit by unit. Outside calls a source consists of units: a comment with the end
of its line, a backslash with the character after it unless that is a letter, or one other
character. `Lexing` says what the lexemes of a text are in these terms, with the text that is in no
lexeme yet in place of the two bytes of the search.

The search agrees with it (`lexing_lexPlaced`). The invariant is about the two bytes: the source is
the text that is in lexemes, the text that is in no lexeme yet and the text to be searched, the
first byte stands at the end of the first of these, and the second at the end of the second.
-/

set_option autoImplicit false
set_option relaxedAutoImplicit false

namespace DiagramMacros

open Text

/-- The first text is a unit where the second one follows it. -/
inductive IsUnit : Text → Text → Prop
  /-- a comment and the end of its line -/
  | comment {line rest : Text} (h : '\n' ∉ line) : IsUnit ('%' :: line ++ ['\n']) rest
  /-- a comment at the end of the source -/
  | lastComment {line : Text} (h : '\n' ∉ line) : IsUnit ('%' :: line) []
  /-- a backslash and a character that is no letter -/
  | symbol {c : Char} {rest : Text} (h : isLetter c = false) : IsUnit ['\\', c] rest
  /-- a backslash before a letter or at the end of the source -/
  | backslash {rest : Text} (h : rest = [] ∨ startsWith isLetter rest) : IsUnit ['\\'] rest
  /-- any other character -/
  | other {c : Char} {rest : Text} (h : isStop c = false) : IsUnit [c] rest

/-- The raw lexeme of a text, if it is not empty. -/
def rawOf (start : Nat) (text : Text) : List PlacedLexeme :=
  if text = [] then [] else [⟨.raw text, start, start + size text⟩]

/-- The lexemes of two texts after each other, the first of which begins at some byte and is in no
lexeme yet, while the second is to be searched. -/
inductive Lexing : Nat → Text → Text → Except LexFailure (List PlacedLexeme) → Prop
  | finish {start : Nat} {pending : Text} : Lexing start pending [] (.ok (rawOf start pending))
  | unit {start : Nat} {pending u rest : Text} {r : Except LexFailure (List PlacedLexeme)}
      (hunit : IsUnit u rest) (hcall : NoCall (u ++ rest))
      (hreserved : reserved? (u ++ rest) = none)
      (more : Lexing start (pending ++ u) rest r) : Lexing start pending (u ++ rest) r
  | call {start : Nat} {pending s rest : Text} {k : Keyword} {tree : Forest Rule}
      {r : Except LexFailure (List PlacedLexeme)} (hcall : IsCall k s tree rest)
      (more : Lexing (start + size pending + size tree.flatten) [] rest r) :
      Lexing start pending s (r.map fun ls ↦ rawOf start pending ++
        ⟨.call k tree, start + size pending, start + size pending + size tree.flatten⟩ :: ls)
  | refused {start : Nat} {pending s : Text} {k : Keyword} (hcall : NoCall s)
      (hreserved : reserved? s = some k) :
      Lexing start pending s
        (.error ⟨k, start + size pending, start + size pending + 1 + size k.word⟩)

/-- The text between the two bytes of the search is the text that is in no lexeme yet. -/
theorem rawBetween_append (done pending rest : Text) :
    rawBetween (done ++ pending ++ rest) (size done) (size done + size pending) =
      rawOf (size done) pending := by
  rw [rawBetween, rawOf, slice_append]
  by_cases hpending : pending = []
  · rw [if_pos hpending, hpending, if_neg (by simp)]
  · have hpos : 0 < size pending := Nat.pos_of_ne_zero fun h ↦ hpending (size_eq_zero_iff.1 h)
    rw [if_neg hpending, if_pos (by omega)]

/-! ### Units where the search goes on -/

theorem noCall_of_ne {c : Char} {s : Text} (h : c ≠ '\\') : NoCall (c :: s) := by
  intro k
  cases hparse : (Rule.invocation k).parse (c :: s) with
  | none => rfl
  | some r =>
    have hcall : IsCall k (c :: s) r.1 r.2 := hparse
    obtain ⟨t, ht⟩ := hcall.exists_backslash
    exact absurd (List.cons.inj ht).1 h

theorem reserved?_of_ne {c : Char} {s : Text} (h : c ≠ '\\') : reserved? (c :: s) = none := by
  have hword : Keyword.atStartIn Keyword.all (c :: s) = none := by
    unfold Keyword.atStartIn
    split
    · rename_i heq
      exact absurd (List.cons.inj heq).1 h
    · rfl
  rw [reserved?, reservedIn, hword]
  rfl

/-- The search passes over characters at which it does not halt. -/
theorem Lexing.passed {start : Nat} {t rest : Text} {r : Except LexFailure (List PlacedLexeme)}
    (ht : t.all fun c ↦ !isStop c) : ∀ {pending : Text}, Lexing start (pending ++ t) rest r →
      Lexing start pending (t ++ rest) r := by
  induction t with
  | nil =>
    intro pending h
    rwa [List.append_nil] at h
  | cons c t ih =>
    intro pending h
    rw [List.all_cons, Bool.and_eq_true, Bool.not_eq_true'] at ht
    have hc : c ≠ '\\' := by
      rintro rfl
      exact absurd ht.1 (by decide)
    have hmore : Lexing start (pending ++ [c]) (t ++ rest) r :=
      ih ht.2 (by rwa [List.append_assoc, List.singleton_append])
    exact @Lexing.unit start pending [c] (t ++ rest) r (IsUnit.other ht.1) (noCall_of_ne hc)
      (reserved?_of_ne hc) hmore

/-- The unit at a backslash. -/
theorem exists_unit_of_backslash (s : Text) :
    ∃ u rest, '\\' :: s = u ++ rest ∧ IsUnit u rest ∧ size u = 1 + controlSymbolSize s ∧
      rest.length ≤ s.length := by
  cases s with
  | nil => exact ⟨['\\'], [], rfl, IsUnit.backslash (Or.inl rfl), rfl, Nat.le_refl _⟩
  | cons c s =>
    by_cases hc : isLetter c
    · refine ⟨['\\'], c :: s, rfl, IsUnit.backslash (Or.inr hc), ?_, Nat.le_refl _⟩
      rw [controlSymbolSize, if_pos hc]
      rfl
    · refine ⟨['\\', c], s, rfl, IsUnit.symbol (by simpa using hc), ?_, by simp⟩
      rw [controlSymbolSize, if_neg hc, size_cons, size_cons, size_nil]
      rfl

theorem cut?_eq_none {c : Char} {s : Text} (h : cut? c s = none) : c ∉ s := by
  induction s with
  | nil => simp
  | cons d s ih =>
    by_cases hd : d = c
    · simp [cut?, hd] at h
    · simp only [cut?, hd, if_false, Option.map_eq_none_iff] at h
      simp [ih h, Ne.symm hd]

/-- The unit at a percent sign that is not in the last line. -/
theorem isUnit_of_cut {s line rest : Text} (h : cut? '\n' ('%' :: s) = some (line, rest)) :
    '%' :: s = line ++ ['\n'] ++ rest ∧ IsUnit (line ++ ['\n']) rest := by
  obtain ⟨hs, hline⟩ := cut?_eq_some h
  refine ⟨by rw [hs]; simp, ?_⟩
  cases line with
  | nil => exact absurd (List.cons.inj hs).1 (by decide)
  | cons c line =>
    obtain rfl : '%' = c := (List.cons.inj hs).1
    exact IsUnit.comment fun h ↦ hline (List.mem_cons_of_mem _ h)

/-- The unit at a percent sign in the last line. -/
theorem isUnit_of_cut_eq_none {s : Text} (h : cut? '\n' ('%' :: s) = none) :
    IsUnit ('%' :: s) [] :=
  IsUnit.lastComment fun hmem ↦ cut?_eq_none h (List.mem_cons_of_mem _ hmem)

/-! ### The two bytes of the search -/

/-- The search with at most so many halts finds the lexemes of what is left of a source. -/
def Searches (source : Text) (n : Nat) : Prop :=
  ∀ done pending s : Text, source = done ++ pending ++ s → s.length < n →
    Lexing (size done) pending s (searchIn Keyword.all source n (size done) (size done + size pending))

section Halts

variable {source : Text} {n : Nat} (ih : Searches source n) {done pending : Text}

include ih

/-- After a unit the search goes on. -/
theorem lexing_of_unit {s u rest : Text} (hsource : source = done ++ pending ++ s)
    (htext : s = u ++ rest) (hn : rest.length < n) (hunit : IsUnit u rest) (hcall : NoCall s)
    (hreserved : reserved? s = none) :
    Lexing (size done) pending s
      (searchIn Keyword.all source n (size done) (size done + size pending + size u)) := by
  subst htext
  have hmore := ih done (pending ++ u) rest (by rw [hsource]; simp) hn
  rw [size_append, ← Nat.add_assoc] at hmore
  exact Lexing.unit hunit hcall hreserved hmore

/-- A halt at a percent sign. -/
theorem lexing_at_percent {s : Text} (hsource : source = done ++ pending ++ '%' :: s)
    (hn : s.length < n) :
    Lexing (size done) pending ('%' :: s)
      (match cut? '\n' ('%' :: s) with
        | some (line, _) =>
          searchIn Keyword.all source n (size done) (size done + size pending + size line + 1)
        | none => searchIn Keyword.all source n (size done) (size source)) := by
  have hpercent : '%' ≠ '\\' := by decide
  cases hcut : cut? '\n' ('%' :: s) with
  | none =>
    have hend : size source = size done + size pending + size ('%' :: s) := by
      rw [hsource, size_append, size_append]
    dsimp only
    rw [hend]
    exact lexing_of_unit ih hsource (List.append_nil _).symm (Nat.zero_lt_of_lt hn)
      (isUnit_of_cut_eq_none hcut) (noCall_of_ne hpercent) (reserved?_of_ne hpercent)
  | some cut =>
    obtain ⟨line, rest⟩ := cut
    obtain ⟨htext, hunit⟩ := isUnit_of_cut hcut
    have hlength : rest.length < n := by
      have hsize := congrArg List.length htext
      rw [List.length_append, List.length_append, List.length_cons, List.length_singleton] at hsize
      omega
    have hsize : size line + 1 = size (line ++ ['\n']) := by
      rw [size_append]
      rfl
    dsimp only
    rw [Nat.add_assoc, hsize]
    exact lexing_of_unit ih hsource htext hlength hunit (noCall_of_ne hpercent)
      (reserved?_of_ne hpercent)

/-- A halt at a backslash. -/
theorem lexing_at_backslash {s : Text} (hsource : source = done ++ pending ++ '\\' :: s)
    (hn : s.length < n) :
    Lexing (size done) pending ('\\' :: s)
      (match matchCall? ('\\' :: s) with
        | some (k, tree, _) =>
          (searchIn Keyword.all source n (size done + size pending + size tree.flatten)
            (size done + size pending + size tree.flatten)).map fun ls ↦
              rawBetween source (size done) (size done + size pending) ++
                ⟨.call k tree, size done + size pending,
                  size done + size pending + size tree.flatten⟩ :: ls
        | none =>
          match reserved? ('\\' :: s) with
          | some k =>
            .error ⟨k, size done + size pending, size done + size pending + 1 + size k.word⟩
          | none =>
            searchIn Keyword.all source n (size done) (size done + size pending + 1 + controlSymbolSize s)) := by
  cases hmatch : matchCall? ('\\' :: s) with
  | some found =>
    obtain ⟨k, tree, rest⟩ := found
    have hcall := matchCall?_eq_some_iff.1 hmatch
    have hlength := hcall.size_pos
    have hmore := ih (done ++ pending ++ tree.flatten) [] rest
      (by rw [hsource, hcall.flatten]; simp) (by rw [List.length_cons] at hlength; omega)
    rw [size_nil, Nat.add_zero, size_append, size_append] at hmore
    dsimp only
    rw [hsource, rawBetween_append, ← hsource]
    exact Lexing.call hcall hmore
  | none =>
    have hcall := matchCall?_eq_none_iff.1 hmatch
    dsimp only
    cases hreserved : reserved? ('\\' :: s) with
    | some k => exact Lexing.refused hcall hreserved
    | none =>
      obtain ⟨u, rest, htext, hunit, hsize, hlength⟩ := exists_unit_of_backslash s
      dsimp only
      rw [Nat.add_assoc _ 1, ← hsize]
      exact lexing_of_unit ih hsource htext (Nat.lt_of_le_of_lt hlength hn) hunit hcall hreserved

end Halts

/-- The invariant of the search: whatever the two bytes have passed, they find the lexemes of the
text after them. -/
theorem searches_searchIn (source : Text) (n : Nat) : Searches source n := by
  induction n with
  | zero =>
    intro done pending s _ hn
    omega
  | succ n ih =>
    intro done pending s hsource hn
    have hdrop : source.dropBytes (size done + size pending) = s := by
      rw [hsource, ← size_append]
      exact dropBytes_append _ _
    obtain ⟨t, s', hcut, hs, ht, hstop⟩ : ∃ t s' : Text, cutWhile (fun c ↦ !isStop c) s = (t, s') ∧
        s = t ++ s' ∧ (t.all fun c ↦ !isStop c) ∧ startsWith (fun c ↦ !isStop c) s' = false :=
      ⟨_, _, rfl, (cutWhile_append _ s).symm, List.all_takeWhile, startsWith_dropWhile _ s⟩
    subst hs
    rw [searchIn]
    simp only [hdrop, hcut]
    have hfound : size done + size pending + size t = size done + size (pending ++ t) := by
      rw [size_append, Nat.add_assoc]
    have hsource' : source = done ++ (pending ++ t) ++ s' := by rw [hsource]; simp
    rw [hfound]
    apply Lexing.passed ht
    cases s' with
    | nil =>
      have hend : size source = size done + size (pending ++ t) := by
        rw [hsource', size_append, size_append, size_nil, Nat.add_zero]
      dsimp only
      rw [hend, hsource', rawBetween_append]
      exact Lexing.finish
    | cons c s' =>
      have hlength : s'.length < n := by
        rw [List.length_append, List.length_cons] at hn
        omega
      dsimp only
      by_cases hc : c = '%'
      · subst hc
        rw [if_pos rfl]
        exact lexing_at_percent ih hsource' hlength
      · have hbackslash : c = '\\' := by
          rw [startsWith_cons, Bool.not_eq_false', isStop, Bool.or_eq_true, beq_iff_eq,
            beq_iff_eq] at hstop
          exact hstop.resolve_right hc
        subst hbackslash
        rw [if_neg hc]
        exact lexing_at_backslash ih hsource' hlength

/-- The lexemes of a source are those of its text, none of which is in a lexeme at first. -/
theorem lexing_lexPlaced (source : Text) : Lexing 0 [] source (lexPlaced source) :=
  searches_searchIn source (source.length + 1) [] [] source rfl (Nat.lt_succ_self _)

end DiagramMacros
