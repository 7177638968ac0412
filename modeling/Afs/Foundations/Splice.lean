import Mathlib.Algebra.Ring.Nat
import Mathlib.Data.List.GetD
import Mathlib.Tactic.SplitIfs

/-!
# Lists with a filler

A list read as a function on all positions, with a filler `d` past its end. `splice` lays one list
over another from a position on, `resize` cuts or fills up to a length, and `cell` reads a sparse
list of chunks as one long list. Two lists are equal if they have the same length and read the
same (`ext_getD`), so what the operations do is said once, position by position.
-/

namespace Afs

open List

variable {α : Type} {d : α} {l v : List α} {i j n : ℕ}

theorem ext_getD {l' : List α} (d : α) (hlen : l.length = l'.length)
    (h : ∀ j, l.getD j d = l'.getD j d) : l = l' := by
  refine ext_getElem hlen fun j hj hj' => ?_
  have hj := h j
  rwa [getD_eq_getElem _ _ ‹_›, getD_eq_getElem _ _ hj'] at hj

theorem getD_take (l : List α) (n j : ℕ) (d : α) :
    (l.take n).getD j d = if j < n then l.getD j d else d := by
  by_cases hj : j < n
  · rw [if_pos hj, getD_eq_getElem?_getD, List.getElem?_take_of_lt hj,
      ← getD_eq_getElem?_getD]
  · rw [if_neg hj]
    exact getD_eq_default _ _ (by rw [length_take]; omega)

theorem getD_drop (l : List α) (n j : ℕ) (d : α) : (l.drop n).getD j d = l.getD (n + j) d := by
  rw [getD_eq_getElem?_getD, List.getElem?_drop, ← getD_eq_getElem?_getD]

theorem getD_append (l l' : List α) (j : ℕ) (d : α) :
    (l ++ l').getD j d = if j < l.length then l.getD j d else l'.getD (j - l.length) d := by
  by_cases hj : j < l.length
  · rw [if_pos hj, List.getD_append _ _ _ _ hj]
  · rw [if_neg hj, getD_append_right _ _ _ _ (Nat.not_lt.mp hj)]

/-- Filling up shows nothing. -/
theorem getD_append_replicate (l : List α) (n j : ℕ) (d : α) :
    (l ++ List.replicate n d).getD j d = l.getD j d := by
  rw [getD_append]
  split_ifs with hj
  · rfl
  · rw [getD_eq_default _ _ (Nat.not_lt.mp hj)]
    by_cases hn : j - l.length < n
    · exact getD_replicate d hn
    · exact getD_eq_default _ _ (by simpa using hn)

/-! ## Laying over -/

/-- Lay `v` over `l` from position `i` on; a gap before it is filled with `d`. -/
def splice (d : α) (l : List α) (i : ℕ) (v : List α) : List α :=
  let padded := l ++ List.replicate (i - l.length) d
  padded.take i ++ v ++ padded.drop (i + v.length)

theorem length_splice : (splice d l i v).length = max l.length (i + v.length) := by
  simp only [splice, length_append, length_take, length_drop,
    length_replicate]
  omega

theorem getD_splice : (splice d l i v).getD j d =
    if i ≤ j ∧ j < i + v.length then v.getD (j - i) d else l.getD j d := by
  have hlen : ((l ++ List.replicate (i - l.length) d).take i).length = i := by
    simp only [length_take, length_append, length_replicate]
    omega
  unfold splice
  dsimp only
  rw [getD_append, getD_append, length_append, hlen, getD_take, getD_drop,
    getD_append_replicate, getD_append_replicate]
  by_cases hji : j < i
  · rw [if_pos (by omega), if_pos hji, if_pos hji, if_neg (by omega)]
  · by_cases hjv : j < i + v.length
    · rw [if_pos hjv, if_neg hji, if_pos (by omega)]
    · rw [if_neg hjv, if_neg (by omega), show i + v.length + (j - (i + v.length)) = j by omega]

/-- Laying over at the end is appending. -/
theorem splice_end (hi : l.length = i) : splice d l i v = l ++ v := by
  subst hi
  rw [splice, Nat.sub_self, replicate_zero, append_nil, take_length,
    drop_of_length_le (Nat.le_add_right _ _), append_nil]

/-! ## Cutting and filling up -/

/-- Cut `l` to length `n`, or fill it up. -/
def resize (d : α) (l : List α) (n : ℕ) : List α := l.take n ++ List.replicate (n - l.length) d

@[simp] theorem length_resize : (resize d l n).length = n := by
  simp only [resize, length_append, length_take, length_replicate]
  omega

theorem getD_resize : (resize d l n).getD j d = if j < n then l.getD j d else d := by
  rw [resize, getD_append_replicate, getD_take]

@[simp] theorem resize_length : resize d l l.length = l := by
  rw [resize, take_length, Nat.sub_self, replicate_zero, append_nil]

theorem resize_of_le (h : n ≤ l.length) : resize d l n = l.take n := by
  rw [resize, Nat.sub_eq_zero_of_le h, replicate_zero, append_nil]

/-! ## Chunks -/

/-- Position `k` of a sparse list of chunks of `width` positions each. -/
def cell (d : α) (width : ℕ) (chunks : List (Option (List α))) (k : ℕ) : α :=
  ((chunks.getD (k / width) none).getD []).getD (k % width) d

variable {width : ℕ} {chunks : List (Option (List α))}

/-- The chunks decide the cells. -/
theorem cell_congr {chunks' : List (Option (List α))} {k : ℕ}
    (h : chunks.getD (k / width) none = chunks'.getD (k / width) none) :
    cell d width chunks k = cell d width chunks' k := by
  unfold cell
  rw [h]

/-- A range of positions of a sparse list of chunks. -/
def window (d : α) (width : ℕ) (chunks : List (Option (List α))) (i n : ℕ) : List α :=
  (List.range n).map fun j => cell d width chunks (i + j)

@[simp] theorem length_window : (window d width chunks i n).length = n := by
  rw [window, length_map, length_range]

theorem getD_window :
    (window d width chunks i n).getD j d = if j < n then cell d width chunks (i + j) else d := by
  by_cases hj : j < n
  · rw [if_pos hj, getD_eq_getElem _ _ (by simpa using hj)]
    simp [window]
  · rw [if_neg hj]
    exact getD_eq_default _ _ (by simpa using hj)

theorem drop_window (m : ℕ) :
    (window d width chunks i n).drop m = window d width chunks (i + m) (n - m) := by
  refine ext_getD d (by simp) fun j => ?_
  rw [getD_drop, getD_window, getD_window]
  by_cases hj : j < n - m
  · rw [if_pos (by omega), if_pos hj, Nat.add_assoc]
  · rw [if_neg (by omega), if_neg hj]

theorem take_window (m : ℕ) :
    (window d width chunks i n).take m = window d width chunks i (min m n) := by
  refine ext_getD d (by simp) fun j => ?_
  rw [getD_take, getD_window, getD_window]
  by_cases hj : j < min m n
  · rw [if_pos (by omega), if_pos (by omega), if_pos hj]
  · rw [if_neg hj]
    split_ifs <;> first | rfl | omega

end Afs
