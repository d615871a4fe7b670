import DiagramMacros.Text
import Mathlib.Tactic.Push
/-!
Depth in the groups of a pair of delimiters. Reading a text from the left, an opening delimiter adds
one to the depth and a closing one takes one away; a closing delimiter where no group is open is a
character like any other.

A text avoids a character if it ends at depth zero and has that character at greater depths only. So
the text before the first such character at depth zero avoids it (`Delimiters.exists_avoids`), and
what stands between the delimiters of a shortest group avoids the closing one
(`Delimiters.isShortestGroup_iff`). `Delimiters.reach?` counts the depth and stops at such a
character, which makes both of them a matter of one recursion.
-/

set_option autoImplicit false
set_option relaxedAutoImplicit false

namespace DiagramMacros

/-- A pair of different delimiters. -/
structure Delimiters where
  opening : Char
  closing : Char
  closing_ne : closing ≠ opening

namespace Delimiters

def braces : Delimiters := ⟨'{', '}', by decide⟩

def parentheses : Delimiters := ⟨'(', ')', by decide⟩

variable (d : Delimiters)

/-- The depth after a character. -/
def step (depth : Nat) (c : Char) : Nat :=
  if c = d.opening then depth + 1 else if c = d.closing then depth - 1 else depth

/-- The depth after a text that starts at some depth. -/
def depthFrom (depth : Nat) (s : Text) : Nat := s.foldl d.step depth

/-- The depth after a text. -/
def depth (s : Text) : Nat := d.depthFrom 0 s

/-- A text ends at depth zero, and none of its characters at depth zero is this one. -/
structure Avoids (stop : Char) (body : Text) : Prop where
  depth_eq : d.depth body = 0
  depth_ne : ∀ before after, body = before ++ stop :: after → d.depth before ≠ 0

/-- A text opens a group and is the shortest part from its start, besides nothing at all, after
which the depth is zero again. -/
structure IsShortestGroup (t : Text) : Prop where
  opens : t.head? = some d.opening
  depth_eq : d.depth t = 0
  shortest : ∀ u, u <+: t → u ≠ [] → d.depth u = 0 → u = t

/-- The depth after a text that starts at some depth; none if a stop stands at depth zero in it. -/
def reach? (stops : Char → Bool) : Nat → Text → Option Nat
  | depth, [] => some depth
  | depth, c :: s => if stops c ∧ depth = 0 then none else reach? stops (d.step depth c) s

variable {d} {stops : Char → Bool} {stop c : Char} {depth after : Nat} {s t body : Text}

/-! ### Steps -/

theorem step_opening : d.step depth d.opening = depth + 1 := if_pos rfl

theorem step_closing : d.step depth d.closing = depth - 1 := by
  rw [step, if_neg d.closing_ne, if_pos rfl]

/-- At depth zero, only an opening delimiter changes the depth. -/
theorem step_zero (hc : c ≠ d.opening) : d.step 0 c = 0 := by
  rw [step, if_neg hc]
  split <;> rfl

/-- One level deeper, a character does the same, unless it closes the outermost group. -/
theorem step_succ (h : ¬(c = d.closing ∧ depth = 0)) :
    d.step (depth + 1) c = d.step depth c + 1 := by
  unfold step
  split
  · rfl
  · split
    · have hpos : depth ≠ 0 := fun hzero ↦ h ⟨‹c = d.closing›, hzero⟩
      omega
    · rfl

theorem depthFrom_append (depth : Nat) (s t : Text) :
    d.depthFrom depth (s ++ t) = d.depthFrom (d.depthFrom depth s) t := List.foldl_append

/-! ### Counting up to a stop -/

theorem reach?_cons (h : ¬(stops c ∧ depth = 0)) :
    d.reach? stops depth (c :: s) = d.reach? stops (d.step depth c) s := if_neg h

theorem reach?_append (stops : Char → Bool) (depth : Nat) (s t : Text) :
    d.reach? stops depth (s ++ t) =
      (d.reach? stops depth s).bind fun after ↦ d.reach? stops after t := by
  induction s generalizing depth with
  | nil => rfl
  | cons c s ih =>
    rw [List.cons_append, reach?, reach?, ih]
    split <;> rfl

/-- The count goes through if no stop stands at depth zero, and then it is the depth. -/
theorem reach?_eq_some_iff : d.reach? stops depth s = some after ↔ d.depthFrom depth s = after ∧
    ∀ u c v, s = u ++ c :: v → stops c → d.depthFrom depth u ≠ 0 := by
  induction s generalizing depth with
  | nil => simp [reach?, depthFrom]
  | cons c s ih =>
    rw [reach?, Option.ite_none_left_eq_some, ih]
    constructor
    · rintro ⟨hstop, hdepth, hbefore⟩
      refine ⟨hdepth, fun u x v heq hx ↦ ?_⟩
      cases u with
      | nil =>
        obtain ⟨rfl, -⟩ := List.cons.inj heq
        exact fun hzero ↦ hstop ⟨hx, hzero⟩
      | cons y u =>
        obtain ⟨rfl, hs⟩ := List.cons.inj heq
        exact hbefore u x v hs hx
    · rintro ⟨hdepth, hbefore⟩
      refine ⟨fun hstop ↦ hbefore [] c s rfl hstop.1 hstop.2, hdepth, fun u x v heq hx ↦ ?_⟩
      exact hbefore (c :: u) x v (by rw [heq, List.cons_append]) hx

theorem reach?_zero_iff_avoids : d.reach? (· == stop) 0 body = some 0 ↔ d.Avoids stop body := by
  rw [reach?_eq_some_iff]
  constructor
  · rintro ⟨hdepth, hbefore⟩
    exact ⟨hdepth, fun u v heq ↦ hbefore u stop v heq (beq_self_eq_true stop)⟩
  · rintro ⟨hdepth, hbefore⟩
    refine ⟨hdepth, fun u c v heq hc ↦ hbefore u v ?_⟩
    rwa [← beq_iff_eq.1 hc]

/-- Inside a group nothing stops the count but the end of the group. -/
theorem reach?_succ (stops : Char → Bool) (h : d.reach? (· == d.closing) depth s = some after) :
    d.reach? stops (depth + 1) s = some (after + 1) := by
  induction s generalizing depth with
  | nil =>
    obtain rfl := Option.some.inj h
    rfl
  | cons c s ih =>
    rw [reach?, Option.ite_none_left_eq_some] at h
    have hclosing : ¬(c = d.closing ∧ depth = 0) := by simpa using h.1
    rw [reach?_cons (fun hstop ↦ Nat.succ_ne_zero _ hstop.2), step_succ hclosing]
    exact ih h.2

/-- A count that comes back to zero from inside a group goes through the end of the group. -/
theorem exists_closing (h : d.reach? stops (depth + 1) s = some 0) : ∃ inside rest,
    s = inside ++ d.closing :: rest ∧ d.reach? (· == d.closing) depth inside = some 0 ∧
      d.reach? stops 0 rest = some 0 := by
  induction s generalizing depth with
  | nil => simp [reach?] at h
  | cons c s ih =>
    rw [reach?_cons (fun hstop ↦ Nat.succ_ne_zero _ hstop.2)] at h
    by_cases hclosing : c = d.closing ∧ depth = 0
    · obtain ⟨rfl, rfl⟩ := hclosing
      rw [step_closing] at h
      exact ⟨[], s, rfl, rfl, h⟩
    · rw [step_succ hclosing] at h
      obtain ⟨inside, rest, rfl, hinside, hrest⟩ := ih h
      refine ⟨c :: inside, rest, rfl, ?_, hrest⟩
      rwa [reach?_cons (by simpa using hclosing)]

/-! ### The first stop, and the shortest group -/

/-- Where a character stands at depth zero, there is a first place where it does. -/
theorem exists_avoids (h : d.depth body = 0) (t : Text) : ∃ before after,
    body ++ stop :: t = before ++ stop :: after ∧ d.Avoids stop before := by
  induction hn : body.length using Nat.strongRecOn generalizing body t with
  | ind n ih =>
    subst hn
    by_cases hbefore : ∀ u v, body = u ++ stop :: v → d.depth u ≠ 0
    · exact ⟨body, t, rfl, h, hbefore⟩
    · push Not at hbefore
      obtain ⟨u, v, rfl, hu⟩ := hbefore
      obtain ⟨before, after, heq, havoids⟩ := ih u.length (by simp) hu (v ++ stop :: t) rfl
      exact ⟨before, after, by rw [← heq, List.append_assoc, List.cons_append], havoids⟩

/-- A text that opens a group and comes back to depth zero has a group at its start. -/
theorem exists_group (h : d.depth (d.opening :: t) = 0) : ∃ inside rest,
    t = inside ++ d.closing :: rest ∧ d.Avoids d.closing inside := by
  have hreach : d.reach? (fun _ ↦ false) (0 + 1) t = some 0 := by
    refine reach?_eq_some_iff.2 ⟨?_, by simp⟩
    rw [← step_opening]
    exact h
  obtain ⟨inside, rest, heq, hinside, -⟩ := exists_closing hreach
  exact ⟨inside, rest, heq, reach?_zero_iff_avoids.1 hinside⟩

/-- Inside a group the depth is not zero, at its end it is. -/
theorem depth_group (h : d.Avoids d.closing body) :
    d.depth (d.opening :: (body ++ [d.closing])) = 0 ∧
      ∀ u, u <+: body → d.depth (d.opening :: u) ≠ 0 := by
  have hstart (u : Text) : d.depth (d.opening :: u) = d.depthFrom (0 + 1) u := by
    rw [← step_opening]
    rfl
  have hreach := reach?_zero_iff_avoids.2 h
  constructor
  · have hbody := (reach?_eq_some_iff.1 (reach?_succ (fun _ ↦ false) hreach)).1
    rw [hstart, depthFrom_append, hbody]
    exact step_closing
  · rintro u ⟨v, rfl⟩
    rw [reach?_append] at hreach
    obtain ⟨depth, hu, -⟩ := Option.bind_eq_some_iff.1 hreach
    rw [hstart, (reach?_eq_some_iff.1 (reach?_succ (fun _ ↦ false) hu)).1]
    exact Nat.succ_ne_zero depth

theorem isShortestGroup_iff : d.IsShortestGroup t ↔
    ∃ body, t = d.opening :: (body ++ [d.closing]) ∧ d.Avoids d.closing body := by
  constructor
  · rintro ⟨hopens, hdepth, hshortest⟩
    obtain ⟨t, rfl⟩ := List.head?_eq_some_iff.1 hopens
    obtain ⟨body, rest, rfl, hbody⟩ := exists_group hdepth
    have hprefix : d.opening :: (body ++ [d.closing]) <+:
        d.opening :: (body ++ d.closing :: rest) := ⟨rest, by simp⟩
    exact ⟨body, (hshortest _ hprefix (List.cons_ne_nil _ _) (depth_group hbody).1).symm, hbody⟩
  · rintro ⟨body, rfl, hbody⟩
    refine ⟨rfl, (depth_group hbody).1, fun u hu hne hdepth ↦ ?_⟩
    obtain ⟨x, u, rfl⟩ := List.exists_cons_of_ne_nil hne
    obtain ⟨rfl, hinside⟩ := List.cons_prefix_cons.1 hu
    rcases List.prefix_concat_iff.1 hinside with rfl | hprefix
    · rfl
    · exact absurd hdepth ((depth_group hbody).2 u hprefix)

end Delimiters

end DiagramMacros
