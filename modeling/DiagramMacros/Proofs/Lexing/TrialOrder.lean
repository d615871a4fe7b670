import DiagramMacros.Proofs.Lexing.Calls
/-!
The order in which keywords are tried. The search for calls asks two things at a backslash: which
call matches there, and whether a reserved keyword stands there. Since a call is told by the whole
control word at its start, and no two keywords are the same word, at most one keyword answers either
question. So every order gives the same lexemes (`calls_told_apart_by_keyword`).
-/

set_option autoImplicit false
set_option relaxedAutoImplicit false

namespace DiagramMacros

open Text

section Order

variable {order : List Keyword} (horder : ∀ k, k ∈ order)

include horder

theorem matchCallIn_eq (s : Text) : matchCallIn order s = matchCall? s := by
  ext ⟨k, tree, rest⟩
  exact (matchCallIn_eq_some_iff horder).trans matchCall?_eq_some_iff.symm

theorem reservedIn_eq (s : Text) : reservedIn order s = reserved? s := by
  have hword : Keyword.atStartIn order s = Keyword.atStart? s := by
    ext k
    exact (Keyword.atStartIn_eq_some_iff horder).trans Keyword.atStart?_eq_some_iff.symm
  rw [reservedIn, hword]
  rfl

/-- The search finds the same at every halt. -/
theorem searchIn_eq (source : Text) (n start pos : Nat) :
    searchIn order source n start pos = searchIn Keyword.all source n start pos := by
  induction n generalizing start pos with
  | zero => rfl
  | succ n ih =>
    simp only [searchIn, matchCallIn_eq horder, matchCallIn_eq Keyword.mem_all,
      reservedIn_eq horder, reservedIn_eq Keyword.mem_all, ih]

theorem lexPlacedIn_eq (source : Text) : lexPlacedIn order source = lexPlaced source :=
  searchIn_eq horder source _ 0 0

end Order

/-- Calls are told apart by their keywords. At most one of the rules for calls matches a text, the
keyword of the call that is found is the whole control word at the start of the text, and whatever
the order in which the keywords are tried, every source has the same lexemes or the same failure. -/
theorem calls_told_apart_by_keyword :
    (∀ s k k' m m', (Rule.invocation k).parse s = some m → (Rule.invocation k').parse s = some m' →
      k = k' ∧ m = m') ∧
    (∀ s k tree rest, matchCall? s = some (k, tree, rest) → Keyword.atStart? s = some k) ∧
    (∀ order, order.Perm Keyword.all → ∀ source, lexPlacedIn order source = lexPlaced source) := by
  refine ⟨fun s k k' m m' h h' ↦ ?_, fun s k tree rest h ↦ ?_, fun order horder source ↦ ?_⟩
  · have hcall : IsCall k s m.1 m.2 := h
    have hcall' : IsCall k' s m'.1 m'.2 := h'
    obtain ⟨hkeyword, htree, hrest⟩ := hcall.unique hcall'
    exact ⟨hkeyword, Prod.ext htree hrest⟩
  · exact (matchCall?_eq_some_iff.1 h).atStart?_eq
  · exact lexPlacedIn_eq (fun k ↦ horder.mem_iff.2 (Keyword.mem_all k)) source

/-- A call whose keyword begins with another keyword, and a longer control word. -/
def coordinateSource : Text := "\\coordinate (A) at (1,2);\\coordinates".toList

theorem calls_told_apart_by_keyword_coordinate :
    (∃ tree rest, matchCall? coordinateSource = some (.coordinate, tree, rest) ∧
      Keyword.atStart? coordinateSource = some .coordinate ∧
      ∀ k m, (Rule.invocation k).parse coordinateSource = some m → .coordinate = k) ∧
    Keyword.all.reverse.Perm Keyword.all ∧
      lexPlacedIn Keyword.all.reverse coordinateSource = lexPlaced coordinateSource := by
  obtain ⟨hunique, hkeyword, horder⟩ := calls_told_apart_by_keyword
  have hfound : (matchCall? coordinateSource).map Prod.fst = some .coordinate := by decide +kernel
  obtain ⟨⟨k, tree, rest⟩, hmatch, rfl⟩ := Option.map_eq_some_iff.1 hfound
  refine ⟨⟨tree, rest, hmatch, hkeyword _ _ _ _ hmatch, fun k m hm ↦ ?_⟩,
    List.reverse_perm Keyword.all, horder _ (List.reverse_perm Keyword.all) coordinateSource⟩
  exact (hunique _ _ _ _ _ (matchCall?_eq_some_iff.1 hmatch) hm).1

end DiagramMacros
