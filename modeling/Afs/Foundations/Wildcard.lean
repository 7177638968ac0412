import Mathlib.Data.List.Basic

/-!
# Patterns with wildcards

A matcher that carries the positions reached decides what a pattern means.
-/

namespace Afs.Wildcard

variable {α : Type*}

/-- An item of a pattern: any number of letters, or one that passes a test. -/
inductive Item (α : Type*)
  | any
  | one (test : α → Bool)

/-- The pattern describes the whole list. -/
def Matches : List (Item α) → List α → Prop
  | [], l => l = []
  | .any :: items, l => ∃ k ≤ l.length, Matches items (l.drop k)
  | .one test :: items, l => ∃ a rest, l = a :: rest ∧ test a ∧ Matches items rest

/-- The positions reached after one more item. -/
def step (value : List α) (positions : List ℕ) : Item α → List ℕ
  | .any => (List.range (value.length + 1)).filter fun j => positions.any (· ≤ j)
  | .one test => positions.filterMap fun j =>
    value[j]?.bind fun a => if test a then some (j + 1) else none

variable {value : List α} {positions : List ℕ} {j : ℕ}

theorem mem_step_any :
    j ∈ step value positions .any ↔ j ≤ value.length ∧ ∃ i ∈ positions, i ≤ j := by
  simp [step, Nat.lt_succ_iff]

theorem mem_step_one {test : α → Bool} : j ∈ step value positions (.one test) ↔
    ∃ i ∈ positions, ∃ a, value[i]? = some a ∧ test a ∧ i + 1 = j := by
  simp [step, Option.bind_eq_some_iff]

/-- The end is reached from the positions at which the pattern describes the rest. -/
theorem length_mem_foldl (items : List (Item α)) :
    value.length ∈ items.foldl (step value) positions ↔
      ∃ i ∈ positions, i ≤ value.length ∧ Matches items (value.drop i) := by
  induction items generalizing positions with
  | nil => simp [Matches, ← Nat.le_antisymm_iff]
  | cons item items ih =>
    rw [List.foldl_cons, ih]
    cases item with
    | any =>
      simp only [mem_step_any, Matches, List.drop_drop, List.length_drop]
      constructor
      · rintro ⟨j, ⟨hj, i, hi, hij⟩, -, hm⟩
        exact ⟨i, hi, by omega, j - i, by omega, by rwa [Nat.add_sub_cancel' hij]⟩
      · rintro ⟨i, hi, hle, k, hk, hm⟩
        exact ⟨i + k, ⟨by omega, i, hi, by omega⟩, by omega, hm⟩
    | one test =>
      simp only [mem_step_one, Matches]
      constructor
      · rintro ⟨_, ⟨i, hi, a, ha, ht, rfl⟩, hle, hm⟩
        obtain ⟨hlt, rfl⟩ := List.getElem?_eq_some_iff.mp ha
        exact ⟨i, hi, by omega, _, _, List.drop_eq_getElem_cons hlt, ht, hm⟩
      · rintro ⟨i, hi, -, a, rest, hd, ht, hm⟩
        obtain ⟨ha, rfl⟩ : value[i]? = some a ∧ value.drop (i + 1) = rest := by
          rw [← List.head?_drop, ← List.tail_drop, hd]
          exact ⟨rfl, rfl⟩
        exact ⟨_, ⟨i, hi, a, ha, ht, rfl⟩, (List.getElem?_eq_some_iff.mp ha).1, hm⟩

theorem contains_foldl (items : List (Item α)) :
    (items.foldl (step value) [0]).contains value.length = true ↔ Matches items value := by
  simp [length_mem_foldl]

end Afs.Wildcard
