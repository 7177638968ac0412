import Mathlib.Tactic.Common

/-!
# Chains of checks

A function that checks its input step by step and stops at the first check that fails. What the
result says about the checks is read off one step at a time.
-/

namespace Afs

variable {α β ε : Type*} {c : Prop} [Decidable c]

theorem ite_some_eq_none {a : α} {x : Option α} :
    (if c then some a else x) = none ↔ ¬ c ∧ x = none := by
  by_cases hc : c <;> simp [hc]

theorem of_ite_eq_some {a : α} {x : Option α} (h : (if c then none else x) = some a) :
    ¬ c ∧ x = some a := by
  split at h
  · cases h
  · next hc => exact ⟨hc, h⟩

theorem of_ite_eq_ok {e : ε} {a : α} {x : Except ε α} (h : (if c then .error e else x) = .ok a) :
    ¬ c ∧ x = .ok a := by
  split at h
  · cases h
  · next hc => exact ⟨hc, h⟩

theorem ok_bind {ε α β : Type} (a : α) (f : α → Except ε β) : (Except.ok a >>= f) = f a := rfl

theorem bind_eq_ok {ε α β : Type} {x : Except ε α} {f : α → Except ε β} {b : β}
    (h : (x >>= f) = .ok b) : ∃ a, x = .ok a ∧ f a = .ok b := by
  cases x with
  | error e => cases h
  | ok a => exact ⟨a, rfl, h⟩

end Afs
