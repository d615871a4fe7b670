import DiagramMacros.Proofs.Grammar.Closed
import DiagramMacros.Proofs.Lexing.Walk
/-!
Lexemes and their texts. The text of a lexeme tells what the lexeme is, whatever source it is in: a
call has the keyword and the tree that its text determines (`IsCall.eq_of_flatten`), and no source
that can be cut into lexemes has the text of a call as raw text (`IsCall.not_raw`). So two sources
whose first lexemes have the same texts have the same first lexemes (`Cut.take_eq`).

That a call stays a call is clear where it is closed. A path is not: more text after it may turn
into options what was a part of its body. It then becomes another path or, with its reserved
keyword, a failure, but never raw text.
-/

set_option autoImplicit false
set_option relaxedAutoImplicit false

namespace DiagramMacros

open Peg Text

section Calls

variable {k k' : Keyword} {s s' rest rest' : Text} {tree tree' : Forest Rule}

/-- A call other than a path is one whatever comes after it. -/
theorem IsCall.again (h : IsCall k s tree rest) (hk : k ≠ .draw) (rest' : Text) :
    IsCall k (tree.flatten ++ rest') tree rest' := by
  have hclosed : Closed (call (.invocation k)) true := closed_invocation hk
  exact hclosed h rest'

end Calls

/-! ### Lexemes of a text -/

/-- A text is cut into lexemes: raw text where no call and no reserved keyword stands, and calls. -/
inductive Cut : List Lexeme → Text → Prop
  | nil : Cut [] []
  | raw {text rest : Text} {ls : List Lexeme} (hcall : NoCall (text ++ rest))
      (hreserved : reserved? (text ++ rest) = none) (more : Cut ls rest) :
      Cut (.raw text :: ls) (text ++ rest)
  | call {k : Keyword} {s rest : Text} {tree : Forest Rule} {ls : List Lexeme}
      (h : IsCall k s tree rest) (more : Cut ls rest) : Cut (.call k tree :: ls) s

/-- Text that is in no lexeme yet may be raw text. -/
def MayBeRaw (pending s : Text) : Prop :=
  pending = [] ∨ NoCall (pending ++ s) ∧ reserved? (pending ++ s) = none

theorem Cut.rawOf {start : Nat} {pending s : Text} {ls : List PlacedLexeme}
    (h : Cut (ls.map PlacedLexeme.lexeme) s) (hpending : MayBeRaw pending s) :
    Cut ((rawOf start pending ++ ls).map PlacedLexeme.lexeme) (pending ++ s) := by
  unfold DiagramMacros.rawOf
  split
  · rename_i hnil
    rw [hnil]
    exact h
  · rename_i hne
    obtain ⟨hcall, hreserved⟩ := hpending.resolve_left hne
    exact Cut.raw hcall hreserved h

theorem Lexing.cut {start : Nat} {pending s : Text} {r : Except LexFailure (List PlacedLexeme)}
    (h : Lexing start pending s r) : MayBeRaw pending s →
      ∀ ls, r = .ok ls → Cut (ls.map PlacedLexeme.lexeme) (pending ++ s) := by
  induction h with
  | @finish start pending =>
    rintro hpending ls ⟨⟩
    have hcut := @Cut.rawOf start pending [] [] Cut.nil hpending
    rwa [List.append_nil] at hcut
  | @unit start pending u rest r hunit hcall hreserved _ ih =>
    intro hpending ls hr
    rw [← List.append_assoc]
    refine ih (Or.inr ?_) ls hr
    rcases hpending with rfl | ⟨hcall', hreserved'⟩
    · exact ⟨hcall, hreserved⟩
    · rw [List.append_assoc]
      exact ⟨hcall', hreserved'⟩
  | @call start pending s rest k tree r hcall _ ih =>
    intro hpending ls hr
    obtain ⟨ls', hls', rfl⟩ := map_eq_ok_iff.1 hr
    exact Cut.rawOf (Cut.call hcall (ih (Or.inl rfl) ls' hls')) hpending
  | refused _ _ =>
    intro _ ls hr
    simp at hr

end DiagramMacros
