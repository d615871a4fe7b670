import DiagramMacros.Proofs.Style.Readings
/-!
Values that are alike: of the same kind, with equal texts, with numbers that are printed alike, and
with groups whose properties are alike one by one. Alike properties have the same keys and are
printed alike (`printEntries_eq_of_alike`). Whatever a preset gives is read again as a property like
it (`Preset.alike_of_mem_bundle`).
-/

set_option autoImplicit false
set_option relaxedAutoImplicit false

namespace DiagramMacros

mutual

/-- Whether two values are of the same kind and agree in what is printed of them. -/
def Value.alike : Value → Value → Bool
  | .flag, .flag => true
  | .number x, .number y => Numeral.print x == Numeral.print y
  | .length x, .length y => Numeral.print x == Numeral.print y
  | .text s, .text t => s == t
  | .group entries, .group entries' => alikeEntries entries entries'
  | _, _ => false

/-- Whether two properties have the same key and alike values. -/
def alikeEntry : Text × Value → Text × Value → Bool
  | (key, value), (key', value') => key == key' && value.alike value'

/-- Whether properties are alike one by one. -/
def alikeEntries : List (Text × Value) → List (Text × Value) → Bool
  | [], [] => true
  | e :: entries, e' :: entries' => alikeEntry e e' && alikeEntries entries entries'
  | _, _ => false

end

open Style

mutual

theorem printValue_eq_of_alike (key : Text) :
    ∀ {v v' : Value}, v.alike v' → printValue key v = printValue key v'
  | .flag, v', h => by cases v' <;> simp_all [Value.alike]
  | .number x, v', h => by cases v' <;> simp_all [Value.alike, printValue]
  | .length x, v', h => by cases v' <;> simp_all [Value.alike, printValue]
  | .text t, v', h => by cases v' <;> simp_all [Value.alike]
  | .group entries, v', h => by
    cases v' with
    | group entries' =>
      rw [Value.alike] at h
      rw [printValue, printValue, printEntries_eq_of_alike h]
    | _ => simp [Value.alike] at h

theorem printEntry_eq_of_alike :
    ∀ {e e' : Text × Value}, alikeEntry e e' → printEntry e = printEntry e'
  | (key, v), (key', v'), h => by
    rw [alikeEntry, Bool.and_eq_true, beq_iff_eq] at h
    obtain ⟨rfl, hvalue⟩ := h
    rw [printEntry, printEntry, printValue_eq_of_alike key hvalue]

theorem printEntries_eq_of_alike :
    ∀ {entries entries' : List (Text × Value)}, alikeEntries entries entries' →
      printEntries entries = printEntries entries'
  | [], [], _ => rfl
  | [], _ :: _, h => by simp [alikeEntries] at h
  | _ :: _, [], h => by simp [alikeEntries] at h
  | e :: entries, e' :: entries', h => by
    rw [alikeEntries, Bool.and_eq_true] at h
    rw [printEntries, printEntries, printEntry_eq_of_alike h.1, printEntries_eq_of_alike h.2]

end

theorem alikeEntry_of_alike {v v' : Value} (key : Text) (h : v.alike v') :
    alikeEntry (key, v) (key, v') := by
  rw [alikeEntry, h, beq_self_eq_true, Bool.and_self]

theorem keys_eq_of_alike {entries entries' : List Entry} (h : alikeEntries entries entries') :
    Assoc.keys entries = Assoc.keys entries' := by
  induction entries generalizing entries' with
  | nil =>
    cases entries' with
    | nil => rfl
    | cons e' entries' => simp [alikeEntries] at h
  | cons e entries ih =>
    cases entries' with
    | nil => simp [alikeEntries] at h
    | cons e' entries' =>
      rw [alikeEntries, alikeEntry, Bool.and_eq_true, Bool.and_eq_true, beq_iff_eq] at h
      exact congrArg₂ List.cons h.1.1 (ih h.2)

/-- What a preset gives is read again, when it has been printed, as a property like it. -/
theorem Preset.alike_of_mem_bundle {p : Preset} {e : Entry} (h : e ∈ p.bundle) :
    ∃ e', Item.read? (printEntry e) = some e' ∧ alikeEntry e e' := by
  have hall : Preset.all.all fun p ↦ p.bundle.all fun e ↦
      (Item.read? (printEntry e)).any (alikeEntry e) := by decide +kernel
  exact (Option.any_eq_true _ _).1 (of_mem_bundle hall h)

end DiagramMacros
