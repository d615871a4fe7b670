import DiagramMacros.Grammar.Lossless
/-!
Matching a rule is matching its body, with rule calls that match their own bodies in turn
(`Grammar.parseAt_eq`). The number of nested calls that `Grammar.parse` allows does not show in this
equation, because it is large enough.

That is so for a grammar whose rules can be ranked: where a rule calls another before any character
is consumed, the other has a lower rank. Ranks stay below the nesting that the grammar states. So
along nested calls the number `length · nesting + rank` of a call goes down, and the calls nested in
a match are fewer than the number of the match itself (`Grammar.parseWithin_eq`).
-/

set_option autoImplicit false
set_option relaxedAutoImplicit false

namespace DiagramMacros

variable {ρ : Type}

namespace Peg

/-- Whether a match takes at least one character, given of which rules that is known. -/
def consumes (takes : ρ → Bool) : Peg ρ → Bool
  | lit t => !t.isEmpty
  | anyCase t => !t.isEmpty
  | one _ => true
  | seq a b => consumes takes a || consumes takes b
  | alt a b => consumes takes a && consumes takes b
  | star _ | absent _ => false
  | call rule => takes rule

/-- Whether every rule called before a character is consumed has a rank below a bound. -/
def guarded (takes : ρ → Bool) (rank : ρ → Nat) (bound : Nat) : Peg ρ → Bool
  | lit _ | anyCase _ | one _ => true
  | seq a b =>
    guarded takes rank bound a && (consumes takes a || guarded takes rank bound b)
  | alt a b => guarded takes rank bound a && guarded takes rank bound b
  | star e | absent e => guarded takes rank bound e
  | call rule => decide (rank rule < bound)

theorem guarded_of_forall_lt {rank : ρ → Nat} {bound : Nat} (h : ∀ rule, rank rule < bound)
    (takes : ρ → Bool) (e : Peg ρ) : guarded takes rank bound e := by
  induction e <;> simp_all [guarded]

theorem length_skip_le (blank : Char → Bool) (spaced : Bool) (s : Text) :
    (skip blank spaced s).2.length ≤ s.length := by
  have h := congrArg List.length (skip_append blank spaced s)
  rw [List.length_append] at h
  omega

theorem Lossless.length_le {m : Text → Match ρ} (h : Lossless m) {s rest : Text} {f : Forest ρ}
    (hm : m s = some (f, rest)) : rest.length ≤ s.length := by
  rw [← h _ _ _ hm, List.length_append]
  omega

section Consumption

variable {blank : Char → Bool} {enter : ρ → Bool → Text → Match ρ} {takes : ρ → Bool}

theorem length_lt_of_consumes
    (henter : ∀ rule spaced, Lossless (enter rule spaced))
    (htakes : ∀ rule spaced s f rest, takes rule → enter rule spaced s = some (f, rest) →
      rest.length < s.length)
    {e : Peg ρ} (he : consumes takes e) {spaced : Bool} {s rest : Text} {f : Forest ρ}
    (h : read blank enter e spaced s = some (f, rest)) : rest.length < s.length := by
  induction e generalizing spaced s f rest with
  | lit t =>
    have hkeep : Lossless (read blank enter (lit t) spaced) := flatten_of_read henter _ _
    have happ := hkeep _ _ _ h
    obtain ⟨r, _, heq⟩ := Option.map_eq_some_iff.1 h
    simp only [Prod.mk.injEq] at heq
    obtain ⟨rfl, rfl⟩ := heq
    have ht : 0 < t.length := List.length_pos_iff.2 (by simpa [consumes] using he)
    simp only [Forest.flatten, List.append_nil] at happ
    rw [← happ, List.length_append]
    omega
  | anyCase t =>
    obtain ⟨⟨cut, rest'⟩, hr, heq⟩ := Option.map_eq_some_iff.1 h
    simp only [Prod.mk.injEq] at heq
    obtain ⟨rfl, rfl⟩ := heq
    have ht : t ≠ [] := by simpa [consumes] using he
    have happ := flatten_of_dropAnyCase hr
    have hcut : cut ≠ [] := by
      cases t with
      | nil => exact absurd rfl ht
      | cons p ps =>
        cases s with
        | nil => simp [dropAnyCase] at hr
        | cons c s =>
          simp only [dropAnyCase] at hr
          split at hr
          · obtain ⟨r', _, heq⟩ := Option.map_eq_some_iff.1 hr
            simp only [Prod.mk.injEq] at heq
            simp [← heq.1]
          · simp at hr
    have := List.length_pos_iff.2 hcut
    rw [← happ, List.length_append]
    omega
  | one accepts =>
    cases s with
    | nil => simp [read] at h
    | cons c s =>
      simp only [read] at h
      split at h
      · simp only [Option.some.injEq, Prod.mk.injEq] at h
        simp [← h.2]
      · simp at h
  | seq a b iha ihb =>
    simp only [read] at h
    split at h
    · simp at h
    · rename_i g rest' hg
      obtain ⟨⟨g', rest''⟩, hg', heq⟩ := Option.map_eq_some_iff.1 h
      simp only [Prod.mk.injEq] at heq
      obtain ⟨rfl, rfl⟩ := heq
      have hle := (flatten_of_read henter a spaced).length_le hg
      have hle' := (flatten_of_read henter b spaced).length_le hg'
      have hskip := length_skip_le blank spaced rest'
      rcases Bool.or_eq_true_iff.1 he with ha | hb
      · have := iha ha hg
        omega
      · have := ihb hb hg'
        omega
  | alt a b iha ihb =>
    obtain ⟨ha, hb⟩ := Bool.and_eq_true_iff.1 he
    simp only [read] at h
    split at h
    · exact ihb hb h
    · rename_i r hr
      exact iha ha (hr.trans h)
  | star e _ => simp [consumes] at he
  | absent e _ => simp [consumes] at he
  | call rule => exact htakes _ _ _ _ _ he h

end Consumption

theorem rounds_congr {first second : Text → Match ρ} (hfirst : Lossless first) {bound : Nat}
    (h : ∀ s, s.length ≤ bound → first s = second s) (allowed s : Text)
    (hs : s.length ≤ bound) : rounds first allowed s = rounds second allowed s := by
  induction allowed generalizing s with
  | nil => rfl
  | cons _ allowed ih =>
    rw [rounds, rounds, ← h s hs]
    split
    · rfl
    · rename_i f rest hround
      have := hfirst.length_le hround
      simp only [ih rest (by omega)]

theorem read_congr {blank : Char → Bool} {first second : ρ → Bool → Text → Match ρ}
    {takes : ρ → Bool} {rank : ρ → Nat} {nesting limit : Nat}
    (hfirst : ∀ rule spaced, Lossless (first rule spaced))
    (htakes : ∀ rule spaced s f rest, takes rule → first rule spaced s = some (f, rest) →
      rest.length < s.length)
    (hrank : ∀ rule, rank rule < nesting)
    (hagree : ∀ rule spaced s, s.length * nesting + rank rule < limit →
      first rule spaced s = second rule spaced s)
    {e : Peg ρ} {bound : Nat} (hguard : guarded takes rank bound e) {spaced : Bool} {s : Text}
    (hs : s.length * nesting + bound ≤ limit) :
    read blank first e spaced s = read blank second e spaced s := by
  induction e generalizing bound spaced s with
  | lit t => rfl
  | anyCase t => rfl
  | one accepts => cases s <;> rfl
  | seq a b iha ihb =>
    obtain ⟨ha, hb⟩ := Bool.and_eq_true_iff.1 hguard
    simp only [read, ← iha ha hs]
    split
    · rfl
    · rename_i f rest hread
      have hskip := length_skip_le blank spaced rest
      have hle := (flatten_of_read hfirst a spaced).length_le hread
      rcases Bool.or_eq_true_iff.1 hb with hconsumes | hguardb
      · have hlt := length_lt_of_consumes hfirst htakes hconsumes hread
        have hmul : ((skip blank spaced rest).2.length + 1) * nesting ≤ s.length * nesting :=
          Nat.mul_le_mul_right _ (by omega)
        rw [Nat.add_mul] at hmul
        rw [ihb (guarded_of_forall_lt hrank takes b) (by omega)]
      · have hmul : (skip blank spaced rest).2.length * nesting ≤ s.length * nesting :=
          Nat.mul_le_mul_right _ (by omega)
        rw [ihb hguardb (by omega)]
  | alt a b iha ihb =>
    obtain ⟨ha, hb⟩ := Bool.and_eq_true_iff.1 hguard
    simp only [read, ← iha ha hs, ihb hb hs]
  | star e ih =>
    simp only [read, ← ih hguard hs]
    split
    · rfl
    · rename_i f rest hread
      have hle := (flatten_of_read hfirst e spaced).length_le hread
      rw [rounds_congr (lossless_after_skip (flatten_of_read hfirst e spaced) blank spaced)
        _ _ _ hle]
      intro t ht
      have hskip := length_skip_le blank spaced t
      have hmul : (skip blank spaced t).2.length * nesting ≤ s.length * nesting :=
        Nat.mul_le_mul_right _ (by omega)
      rw [ih hguard (by omega)]
  | absent e ih => simp only [read, ← ih hguard hs]
  | call rule =>
    apply hagree rule spaced s
    have : rank rule < bound := of_decide_eq_true hguard
    omega

end Peg

/-- A ranking of the rules of a grammar: of which rules it is known that they take a character, and
ranks that go down where a rule calls another before it has taken one. -/
structure Ranking (g : Grammar ρ) where
  takes : ρ → Bool
  rank : ρ → Nat
  rank_lt : ∀ rule, rank rule < g.nesting
  consumes_body : ∀ rule, takes rule → (g.body rule).consumes takes
  guarded_body : ∀ rule, (g.body rule).guarded takes rank (rank rule)

namespace Grammar

variable {g : Grammar ρ}

theorem length_lt_of_parseWithin (r : Ranking g) (n : Nat) (rule : ρ) (spaced : Bool)
    (s : Text) (f : Forest ρ) (rest : Text) (htakes : r.takes rule)
    (h : g.parseWithin n rule spaced s = some (f, rest)) : rest.length < s.length := by
  induction n generalizing rule spaced s f rest with
  | zero => simp [parseWithin] at h
  | succ n ih =>
    obtain ⟨⟨f', rest'⟩, hread, heq⟩ := Option.map_eq_some_iff.1 h
    simp only [Prod.mk.injEq] at heq
    obtain ⟨rfl, rfl⟩ := heq
    exact Peg.length_lt_of_consumes (g.lossless_parseWithin n)
      (fun rule spaced s f rest ↦ ih rule spaced s f rest) (r.consumes_body rule htakes) hread

theorem parseWithin_eq (r : Ranking g) {m n : Nat} {rule : ρ} {spaced : Bool} {s : Text}
    (hm : s.length * g.nesting + r.rank rule < m) (hn : s.length * g.nesting + r.rank rule < n) :
    g.parseWithin m rule spaced s = g.parseWithin n rule spaced s := by
  induction m generalizing n rule spaced s with
  | zero => omega
  | succ m ih =>
    cases n with
    | zero => omega
    | succ n =>
      simp only [parseWithin]
      rw [Peg.read_congr (g.lossless_parseWithin m) (length_lt_of_parseWithin r m) r.rank_lt
        _ (r.guarded_body rule) (Nat.le_refl (s.length * g.nesting + r.rank rule))]
      intro rule' spaced' s' hlt
      exact ih (by omega) (by omega)

theorem parseAt_eq (r : Ranking g) (rule : ρ) (spaced : Bool) (s : Text) :
    g.parseAt rule spaced s =
      ((g.body rule).read g.blank g.parseAt (g.spacing rule spaced) s).map fun m ↦
        (g.wrap rule m.1, m.2) := by
  have hrank := r.rank_lt rule
  have hbound : s.length * g.nesting + r.rank rule < (s.length + 1) * g.nesting := by
    rw [Nat.add_mul]
    omega
  obtain ⟨n, hn⟩ : ∃ n, (s.length + 1) * g.nesting = n + 1 :=
    ⟨(s.length + 1) * g.nesting - 1, by omega⟩
  rw [parseAt, hn, parseWithin]
  rw [Peg.read_congr (g.lossless_parseWithin n) (length_lt_of_parseWithin r n) r.rank_lt
    _ (r.guarded_body rule) (Nat.le_refl (s.length * g.nesting + r.rank rule))]
  intro rule' spaced' s' hlt
  have hrank' := r.rank_lt rule'
  have hmul : (s'.length + 1) * g.nesting = s'.length * g.nesting + g.nesting := by
    rw [Nat.add_mul, Nat.one_mul]
  exact parseWithin_eq r (by omega) (by omega)

end Grammar

end DiagramMacros
