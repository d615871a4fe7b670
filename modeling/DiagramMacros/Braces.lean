import DiagramMacros.Text
/-!
Brace depth. Reading a text from the left, an opening brace adds one to the depth and a closing
brace takes one away. A text is balanced if it never closes a brace that is not open and leaves none
open.

Depth adds up along a text (`depthFrom_append`), so balanced parts make a balanced whole
(`isBalanced_append`), and so does a balanced text put in braces (`isBalanced_enclose`).
-/

set_option autoImplicit false
set_option relaxedAutoImplicit false

namespace DiagramMacros.Braces

/-- The depth after a text that starts at some depth; none if it closes a brace that is not open. -/
def depthFrom : Nat → Text → Option Nat
  | depth, [] => some depth
  | depth, c :: s =>
    if c = '{' then depthFrom (depth + 1) s
    else if c = '}' then
      match depth with
      | 0 => none
      | below + 1 => depthFrom below s
    else depthFrom depth s

/-- Whether every brace of a text is matched inside it. -/
def isBalanced (s : Text) : Bool := depthFrom 0 s == some 0

theorem depthFrom_append (depth : Nat) (s t : Text) :
    depthFrom depth (s ++ t) = (depthFrom depth s).bind fun d ↦ depthFrom d t := by
  induction s generalizing depth with
  | nil => rfl
  | cons c s ih =>
    simp only [List.cons_append, depthFrom]
    split
    · exact ih _
    · split
      · cases depth with
        | zero => rfl
        | succ below => exact ih _
      · exact ih _

theorem isBalanced_append {s t : Text} (hs : isBalanced s) (ht : isBalanced t) :
    isBalanced (s ++ t) := by
  simp only [isBalanced, beq_iff_eq] at hs ht ⊢
  simp [depthFrom_append, hs, ht]

/-- A text in braces. -/
def enclose (s : Text) : Text := '{' :: s ++ ['}']

theorem depthFrom_add {depth after : Nat} {s : Text} (h : depthFrom depth s = some after)
    (outer : Nat) : depthFrom (depth + outer) s = some (after + outer) := by
  induction s generalizing depth with
  | nil => simpa [depthFrom] using h
  | cons c s ih =>
    simp only [depthFrom] at h ⊢
    split at h
    · rename_i hc
      rw [if_pos hc, Nat.add_right_comm]
      exact ih h
    · rename_i hc
      rw [if_neg hc]
      split at h
      · rename_i hclose
        rw [if_pos hclose]
        cases depth with
        | zero => simp at h
        | succ below =>
          rw [Nat.add_right_comm]
          exact ih h
      · rename_i hclose
        rw [if_neg hclose]
        exact ih h

theorem isBalanced_enclose {s : Text} (h : isBalanced s) : isBalanced (enclose s) := by
  simp only [isBalanced, beq_iff_eq] at h ⊢
  have inside : depthFrom 1 s = some 1 := by simpa using depthFrom_add h 1
  simp [enclose, depthFrom, depthFrom_append, inside]

end DiagramMacros.Braces
