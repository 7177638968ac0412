import Mathlib.Data.List.Nodup
import Mathlib.Tactic.Common

/-!
# Tables with a primary key

The rows of a database table, no two of which have the same primary key. A row is inserted only if
its key is free; an update goes to the row with a given key and leaves the key alone. Each operation
is said by the rows it leaves.
-/

namespace Afs

open List

variable {α κ : Type} {key : α → κ}

/-- The rows of a table, in the order in which they were inserted. -/
structure Rows (key : α → κ) where
  list : List α
  unique : (list.map key).Nodup

namespace Rows

variable {t t' : Rows key} {a b : α} {i : κ}

instance : Membership α (Rows key) := ⟨fun t a => a ∈ t.list⟩

instance : EmptyCollection (Rows key) := ⟨⟨[], nodup_nil⟩⟩

@[simp] theorem not_mem_empty : ¬ a ∈ (∅ : Rows key) := not_mem_nil

/-- `SELECT … WHERE`, of a row that is unique if there is one. -/
def select (t : Rows key) (p : α → Bool) : Option α := t.list.find? p

/-- `DELETE … WHERE NOT`. -/
def keep (t : Rows key) (p : α → Bool) : Rows key :=
  ⟨t.list.filter p, t.unique.sublist (filter_sublist.map key)⟩

/-- `UPDATE … WHERE key = i`, of columns that are not the key. -/
def modify [DecidableEq κ] (t : Rows key) (i : κ) (f : α → α) (hf : ∀ a, key (f a) = key a) :
    Rows key where
  list := t.list.map fun a => if key a = i then f a else a
  unique := by
    have hkeys : ∀ a, key (if key a = i then f a else a) = key a := fun a => by
      split
      · exact hf a
      · rfl
    rw [map_map, show key ∘ (fun a => if key a = i then f a else a) = key from funext hkeys]
    exact t.unique

/-- `INSERT`, which fails if the key is taken. -/
def insert [DecidableEq κ] (t : Rows key) (a : α) : Option (Rows key) :=
  if h : key a ∈ t.list.map key then none
  else some ⟨t.list ++ [a], by
    rw [map_append, nodup_append]
    refine ⟨t.unique, nodup_singleton _, fun x hx y hy => ?_⟩
    rintro rfl
    exact h (mem_singleton.mp hy ▸ hx)⟩

theorem eq_of_key (ha : a ∈ t) (hb : b ∈ t) (h : key a = key b) : a = b :=
  inj_on_of_nodup_map t.unique ha hb h

theorem select_eq_some {p : α → Bool} (h : t.select p = some a) : a ∈ t ∧ p a = true :=
  ⟨mem_of_find?_eq_some h, List.find?_some h⟩

theorem mem_keep {p : α → Bool} : a ∈ t.keep p ↔ a ∈ t ∧ p a = true := mem_filter

section Writes

variable [DecidableEq κ]

theorem mem_modify {f : α → α} (hf : ∀ a, key (f a) = key a) :
    b ∈ t.modify i f hf ↔ ∃ a ∈ t, (if key a = i then f a else a) = b := mem_map

theorem mem_modify_of_mem {f : α → α} (hf : ∀ a, key (f a) = key a) (ha : a ∈ t) :
    (if key a = i then f a else a) ∈ t.modify i f hf := (mem_modify hf).mpr ⟨a, ha, rfl⟩

theorem insert_eq_some (h : t.insert a = some t') :
    (∀ b ∈ t, key b ≠ key a) ∧ ∀ b, b ∈ t' ↔ b ∈ t ∨ b = a := by
  unfold insert at h
  split at h
  · cases h
  · next hnew =>
    cases h
    refine ⟨fun b hb he => hnew (he ▸ mem_map_of_mem hb), fun b => ?_⟩
    exact mem_append.trans (or_congr_right mem_singleton)

end Writes

end Rows

end Afs
