import Mathlib.Data.List.Range
import Afs.Foundations.Splice

/-!
# Cutting a list into chunks

`chunk c l i` is the `i`th piece of `l` when it is cut every `c` positions; only the last piece may
be shorter. `overlay` lays numbered pieces over a list. What is laid over and what shows through is
said position by position (`getD_overlay`), so whether a list is rebuilt from some of its pieces is
a question about the pieces left out.
-/

namespace Afs

open List Nat

variable {α : Type} {d : α} {l l' : List α} {c i j k n : ℕ}

/-! ## Chunks -/

/-- Chunk `i` of width `c`. -/
def chunk (c : ℕ) (l : List α) (i : ℕ) : List α := (l.drop (i * c)).take c

/-- The number of chunks of width `c` of a list of length `n`. -/
def chunkCount (c n : ℕ) : ℕ := (n + c - 1) / c

/-- All chunks of width `c`, in order. -/
def chunks (c : ℕ) (l : List α) : List (List α) :=
  (List.range (chunkCount c l.length)).map (chunk c l)

theorem length_chunk : (chunk c l i).length = min c (l.length - i * c) := by
  rw [chunk, length_take, length_drop]

theorem getD_chunk : (chunk c l i).getD j d = if j < c then l.getD (i * c + j) d else d := by
  rw [chunk, getD_take, getD_drop]

theorem lt_chunkCount (hc : 0 < c) : i < chunkCount c n ↔ i * c < n := by
  rw [chunkCount, Nat.lt_iff_add_one_le, Nat.le_div_iff_mul_le hc, Nat.add_mul, Nat.one_mul]
  omega

theorem chunk_eq_nil (h : l.length ≤ i * c) : chunk c l i = [] := by
  rw [chunk, drop_of_length_le h, take_nil]

/-- The chunks have as many entries as the list. -/
theorem sum_length_chunk (k : ℕ) :
    ((List.range k).map fun i => (chunk c l i).length).sum = min (k * c) l.length := by
  induction k with
  | zero => simp
  | succ k ih =>
    rw [range_succ, map_append, List.sum_append, ih, map_singleton,
      sum_singleton, length_chunk, Nat.add_mul, Nat.one_mul]
    omega

theorem sum_length_chunks (hc : 0 < c) : ((chunks c l).map List.length).sum = l.length := by
  rw [chunks, map_map]
  have hcover : l.length ≤ chunkCount c l.length * c := by
    by_contra hlt
    have := (lt_chunkCount (c := c) (i := chunkCount c l.length) (n := l.length) hc).mpr (by omega)
    omega
  exact (sum_length_chunk _).trans (min_eq_right hcover)

@[simp] theorem length_chunks : (chunks c l).length = chunkCount c l.length := by
  rw [chunks, length_map, length_range]

theorem getElem?_chunks :
    (chunks c l)[i]? = if i < chunkCount c l.length then some (chunk c l i) else none := by
  rw [chunks, List.getElem?_map]
  by_cases hi : i < chunkCount c l.length
  · rw [if_pos hi, List.getElem?_range hi, Option.map_some]
  · rw [if_neg hi, List.getElem?_eq_none (by simpa using hi), Option.map_none]

section

variable (hc : 0 < c)

include hc

/-- Lists with the same chunks in the first `m` places agree as far as these reach. -/
theorem getD_eq_of_chunk_eq (h : chunk c l (k / c) = chunk c l' (k / c)) :
    l.getD k d = l'.getD k d := by
  have hk : k / c * c + k % c = k := by rw [Nat.mul_comm]; exact Nat.div_add_mod k c
  have hget := congrArg (fun x : List α => x.getD (k % c) d) h
  simp only [getD_chunk, if_pos (mod_lt k hc), hk] at hget
  exact hget

/-- The chunks make up the list. -/
theorem chunks_injective (h : chunks c l = chunks c l') : l = l' := by
  have hcount : chunkCount c l.length = chunkCount c l'.length := by
    rw [← length_chunks, ← length_chunks, h]
  have hchunk : ∀ i, chunk c l i = chunk c l' i := by
    intro i
    by_cases hi : i < chunkCount c l.length
    · have hat := congrArg (fun x => x[i]?) h
      simp only [getElem?_chunks, if_pos hi, if_pos (hcount ▸ hi)] at hat
      exact Option.some.inj hat
    · have hi' : ¬ i < chunkCount c l'.length := hcount ▸ hi
      rw [lt_chunkCount hc] at hi hi'
      rw [chunk_eq_nil (by omega), chunk_eq_nil (by omega)]
  rcases l with _ | ⟨a, t⟩
  · rcases l' with _ | ⟨a', t'⟩
    · rfl
    · exact absurd (hchunk 0) (by simp [chunk]; omega)
  · refine ext_getD a ?_ fun k => getD_eq_of_chunk_eq hc (hchunk _)
    -- the last chunk of the longer list tells the lengths apart
    by_contra hne
    have hlen : ∀ i, min c ((a :: t).length - i * c) = min c (l'.length - i * c) := fun i => by
      rw [← length_chunk, ← length_chunk, hchunk i]
    generalize (a :: t).length = m at hne hlen
    generalize l'.length = m' at hne hlen
    have hm := hlen (min m m' / c)
    have hdiv := div_add_mod (min m m') c
    have hmod := mod_lt (min m m') hc
    rw [Nat.mul_comm] at hdiv
    omega

/-- Chunks of lists of one length agree if the lists do there. -/
theorem chunk_eq_iff (hlen : l.length = l'.length) :
    chunk c l i = chunk c l' i ↔ ∀ k, k / c = i → l.getD k d = l'.getD k d := by
  constructor
  · rintro h k rfl
    exact getD_eq_of_chunk_eq hc h
  · intro h
    refine ext_getD d ?_ fun j => ?_
    · rw [length_chunk, length_chunk, hlen]
    · rw [getD_chunk, getD_chunk]
      split_ifs with hj
      · refine h _ ?_
        rw [Nat.mul_comm, Nat.mul_add_div hc, Nat.div_eq_of_lt hj, Nat.add_zero]
      · rfl

/-! ## Laying chunks over a list -/

/-- Lay numbered pieces of width `c` over a list, one after the other. -/
def overlay (d : α) (c : ℕ) (l : List α) (pieces : List (ℕ × List α)) : List α :=
  pieces.foldl (fun l piece => splice d l (piece.1 * c) piece.2) l

/-- The chunks of a list at some places, with their numbers. -/
def chunksAt (c : ℕ) (l : List α) (places : List ℕ) : List (ℕ × List α) :=
  places.map fun i => (i, chunk c l i)

omit hc in
theorem chunksAt_cons : chunksAt c l (i :: s) = (i, chunk c l i) :: chunksAt c l s := rfl

variable {s : List ℕ}

/-- Position `k` lies in chunk `i` of the list. -/
theorem mem_chunk_iff :
    i * c ≤ k ∧ k < i * c + (chunk c l i).length ↔ k / c = i ∧ k < l.length := by
  rw [length_chunk]
  have hdiv := Nat.div_add_mod k c
  have hmod := mod_lt k hc
  rw [Nat.mul_comm] at hdiv
  constructor
  · rintro ⟨h1, h2⟩
    refine ⟨?_, by omega⟩
    exact Nat.div_eq_of_lt_le h1 (by rw [Nat.succ_mul]; omega)
  · rintro ⟨rfl, h⟩
    omega

/-- **What shows.** At the places laid over it is the new list, elsewhere the old one. -/
theorem getD_overlay : (overlay d c l (chunksAt c l' s)).getD k d =
    if k / c ∈ s ∧ k < l'.length then l'.getD k d else l.getD k d := by
  induction s generalizing l with
  | nil => simp [overlay, chunksAt]
  | cons i s ih =>
    rw [chunksAt_cons]
    unfold overlay at ih ⊢
    rw [foldl_cons, ih]
    by_cases hs : k / c ∈ s ∧ k < l'.length
    · rw [if_pos hs, if_pos ⟨mem_cons_of_mem _ hs.1, hs.2⟩]
    · rw [if_neg hs, getD_splice]
      dsimp only
      by_cases hi : k / c = i ∧ k < l'.length
      · have hin := (mem_chunk_iff hc).mpr hi
        rw [if_pos hin, if_pos ⟨hi.1 ▸ mem_cons_self, hi.2⟩, getD_chunk,
          if_pos (by rw [length_chunk] at hin; omega)]
        congr 1
        omega
      · rw [if_neg fun hin => hi ((mem_chunk_iff hc).mp hin), if_neg]
        rintro ⟨hmem, hlt⟩
        rcases mem_cons.mp hmem with he | he
        · exact hi ⟨he, hlt⟩
        · exact hs ⟨he, hlt⟩

omit hc in
theorem le_length_overlay : l.length ≤ (overlay d c l (chunksAt c l' s)).length := by
  induction s generalizing l with
  | nil => exact le_rfl
  | cons i s ih =>
    rw [chunksAt_cons, overlay, foldl_cons]
    dsimp only
    refine le_trans ?_ ih
    rw [length_splice]
    exact le_max_left ..

/-- A list laid over with chunks of another reaches no farther than the longer of the two, if only
chunks the other has are laid over it. -/
theorem length_overlay_le (hs : ∀ i ∈ s, i < chunkCount c l'.length) :
    (overlay d c l (chunksAt c l' s)).length ≤ max l.length l'.length := by
  induction s generalizing l with
  | nil => exact le_max_left ..
  | cons i s ih =>
    rw [chunksAt_cons, overlay, foldl_cons]
    dsimp only
    refine le_trans (ih fun i hi => hs i (mem_cons_of_mem _ hi)) ?_
    rw [length_splice, length_chunk]
    have hi := (lt_chunkCount hc).mp (hs i mem_cons_self)
    omega

/-- The last chunk, laid over, brings the whole length. -/
theorem le_length_overlay_of_last (hlast : (l'.length - 1) / c ∈ s) :
    l'.length ≤ (overlay d c l (chunksAt c l' s)).length := by
  induction s generalizing l with
  | nil => cases hlast
  | cons i s ih =>
    rw [chunksAt_cons, overlay, foldl_cons]
    dsimp only
    rcases mem_cons.mp hlast with rfl | hlast
    · refine le_trans ?_ le_length_overlay
      rw [length_splice, length_chunk]
      have hdiv := div_add_mod (l'.length - 1) c
      have hmod := mod_lt (l'.length - 1) hc
      rw [Nat.mul_comm] at hdiv
      omega
    · exact ih hlast

/-- Without the last chunk, nothing longer than the old list reaches the new length. -/
theorem length_overlay_lt (hs : ∀ i ∈ s, i < chunkCount c l'.length)
    (hlast : (l'.length - 1) / c ∉ s) (hlen : l.length < l'.length) :
    (overlay d c l (chunksAt c l' s)).length < l'.length := by
  induction s generalizing l with
  | nil => exact hlen
  | cons i s ih =>
    rw [chunksAt_cons, overlay, foldl_cons]
    dsimp only
    refine ih (fun i hi => hs i (mem_cons_of_mem _ hi))
      (fun h => hlast (mem_cons_of_mem _ h)) ?_
    have hne : (l'.length - 1) / c ≠ i := fun h => hlast (h ▸ mem_cons_self)
    have hi := (lt_chunkCount hc).mp (hs i mem_cons_self)
    have hle : i ≤ (l'.length - 1) / c := (le_div_iff_mul_le hc).mpr (by omega)
    have hfull : (i + 1) * c ≤ l'.length - 1 :=
      (le_div_iff_mul_le hc).mp (by omega)
    rw [length_splice, length_chunk]
    rw [succ_mul] at hfull
    omega

/-- **Rebuilding a list.** Some chunks of `l'` laid over `l` give `l'`, cut or filled up to its length,
exactly if `l` already has the chunks left out. -/
theorem resize_overlay_eq_iff : resize d (overlay d c l (chunksAt c l' s)) l'.length = l' ↔
      ∀ i < chunkCount c l'.length, i ∉ s → chunk c (resize d l l'.length) i = chunk c l' i := by
  have hat : ∀ k, (resize d (overlay d c l (chunksAt c l' s)) l'.length).getD k d =
      if k < l'.length ∧ k / c ∉ s then l.getD k d else l'.getD k d := by
    intro k
    rw [getD_resize, getD_overlay hc]
    by_cases hk : k < l'.length
    · by_cases hs : k / c ∈ s
      · simp [hk, hs]
      · simp [hk, hs]
    · rw [if_neg hk, if_neg fun h => hk h.1, getD_eq_default _ _ (by omega)]
  constructor
  · intro h i hi hs
    refine (chunk_eq_iff (d := d) hc length_resize).mpr fun k hk => ?_
    subst hk
    rw [getD_resize]
    split_ifs with hlt
    · have hk := hat k
      rw [h, if_pos ⟨hlt, hs⟩] at hk
      exact hk.symm
    · exact (getD_eq_default _ _ (by omega)).symm
  · intro h
    refine ext_getD d length_resize fun k => ?_
    rw [hat]
    split_ifs with hk
    · have hi : k / c < chunkCount c l'.length :=
        (lt_chunkCount hc).mpr (lt_of_le_of_lt (div_mul_le_self k c) hk.1)
      have heq := getD_eq_of_chunk_eq (d := d) hc (h _ hi hk.2)
      rwa [getD_resize, if_pos hk.1] at heq
    · rfl

end

end Afs
