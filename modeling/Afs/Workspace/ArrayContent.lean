import Mathlib.Order.MinMax
import Afs.Foundations.Splice
import Afs.Workspace.Content

/-!
# Arrays as byte strings

`internal/rediscontent` keeps the bytes of a file in an Array of chunks: the first and the last
chunk of a range are patched, chunks that were never written are missing, and chunks may be short.
The length of the file is recorded outside the Array. A file kept so (`ArrayFile`) behaves like a
plain string of bytes, operation by operation (`Represents`): a byte the Array does not store is a
zero, and nothing is stored past the recorded length, so what a truncation cuts off cannot come
back.
-/

namespace Afs

open List Option
open Nat (div_add_mod le_div_iff_mul_le lt_mul_div_succ mod_lt succ_lt_succ succ_mul zero_le zero_lt_succ)

theorem arrayChunkBytes_pos : 0 < arrayChunkBytes := by decide

/-- The byte at a position of an Array. -/
abbrev byteAt (chunks : List (Option Bytes)) (k : ℕ) : UInt8 := cell 0 arrayChunkBytes chunks k

/-- No chunk is longer than a chunk may be. -/
def Fitting (chunks : List (Option Bytes)) : Prop :=
  ∀ i raw, chunks.getD i none = some raw → raw.length ≤ arrayChunkBytes

/-! ## The commands -/

theorem arset_eq (chunks : List (Option Bytes)) (i : ℕ) (values : List Bytes) :
    arset chunks i values = splice none chunks i (values.map some) := by
  simp only [arset, splice, length_map]

theorem getD_arset (chunks : List (Option Bytes)) (i : ℕ) (values : List Bytes) (j : ℕ) :
    (arset chunks i values).getD j none =
      if i ≤ j ∧ j < i + values.length then (values.map some).getD (j - i) none
      else chunks.getD j none := by
  rw [arset_eq, getD_splice, length_map]

theorem getD_ardelrange (chunks : List (Option Bytes)) (first last j : ℕ) :
    (ardelrange chunks first last).getD j none =
      if first ≤ j ∧ j ≤ last then none else chunks.getD j none := by
  rw [getD_eq_getElem?_getD, ardelrange, List.getElem?_mapIdx, getD_eq_getElem?_getD]
  cases chunks[j]? with
  | none => simp
  | some c =>
    simp only [map_some, getD_some]

theorem length_argetrange (chunks : List (Option Bytes)) (first last : ℕ) :
    (argetrange chunks first last).length = last + 1 - first := by
  rw [argetrange, length_map, length_range]

theorem getD_argetrange (chunks : List (Option Bytes)) {first last i : ℕ}
    (hi : i < last + 1 - first) :
    (argetrange chunks first last).getD i none = chunks.getD (first + i) none := by
  rw [getD_eq_getElem _ _ (by rwa [length_argetrange])]
  simp [argetrange]

theorem copyInto_eq_splice {buf : Bytes} {off : ℕ} (data : Bytes) (hoff : off ≤ buf.length) :
    copyInto buf off data = splice 0 buf off data := by
  rw [splice, Nat.sub_eq_zero_of_le hoff]
  simp only [replicate_zero, append_nil]
  rfl

/-! ## Reading -/

section Reading

variable {chunks : List (Option Bytes)} {s n m : ℕ} {buf : Bytes}

/-- The buffer of a read that starts at byte `s`, after the chunks before `m`. -/
structure Filled (chunks : List (Option Bytes)) (s n m : ℕ) (buf : Bytes) : Prop where
  length : buf.length = n
  bytes : ∀ j, buf.getD j 0 =
    if j < n ∧ (s + j) / arrayChunkBytes < m then byteAt chunks (s + j) else 0

theorem Filled.start (hm : m ≤ s / arrayChunkBytes) : Filled chunks s n m (List.replicate n 0) := by
  refine ⟨length_replicate, fun j => ?_⟩
  have hle : s / arrayChunkBytes ≤ (s + j) / arrayChunkBytes :=
    Nat.div_le_div_right (Nat.le_add_right s j)
  rw [if_neg (by omega)]
  exact (getD_append_replicate [] n j 0).trans rfl

/-- When all chunks have been read, the buffer is the window of the Array. -/
theorem Filled.finish (h : Filled chunks s n m buf)
    (hm : ∀ j, j < n → (s + j) / arrayChunkBytes < m) :
    buf = window 0 arrayChunkBytes chunks s n := by
  refine ext_getD 0 (h.length.trans length_window.symm) fun j => ?_
  rw [h.bytes, getD_window]
  by_cases hj : j < n
  · rw [if_pos ⟨hj, hm j hj⟩, if_pos hj]
  · rw [if_neg (fun h => hj h.1), if_neg hj]

variable {f : ℕ → Bytes → Option Bytes → Bytes}

/-- The loop over the values of a batch. -/
theorem Filled.eachValue (hf : ∀ m buf, Filled chunks s n m buf →
      Filled chunks s n (m + 1) (f m buf (chunks.getD m none)))
    {values : List (Option Bytes)} (hbuf : Filled chunks s n m buf)
    (hv : ∀ i, i < values.length → values.getD i none = chunks.getD (m + i) none) :
    Filled chunks s n (m + values.length) (eachValue f m buf values) := by
  induction values generalizing m buf with
  | nil => exact hbuf
  | cons value values ih =>
    have hvalue : value = chunks.getD m none := hv 0 (zero_lt_succ _)
    rw [Afs.eachValue, length_cons, Nat.add_comm values.length 1, ← Nat.add_assoc]
    refine ih (hvalue ▸ hf m buf hbuf) fun i hi => ?_
    rw [Nat.add_assoc, Nat.add_comm 1 i]
    exact hv (i + 1) (succ_lt_succ hi)

theorem Filled.range (last : ℕ) (hf : ∀ m buf, Filled chunks s n m buf →
      Filled chunks s n (m + 1) (f m buf (chunks.getD m none)))
    (hbuf : Filled chunks s n m buf) (hm : m ≤ last + 1) :
    Filled chunks s n (last + 1) (Afs.eachValue f m buf (argetrange chunks m last)) := by
  have hv : ∀ i, i < (argetrange chunks m last).length →
      (argetrange chunks m last).getD i none = chunks.getD (m + i) none := by
    intro i hi
    exact getD_argetrange chunks (by rwa [length_argetrange] at hi)
  have h := hbuf.eachValue hf hv
  rwa [length_argetrange, Nat.add_sub_cancel' hm] at h

/-- A part of one chunk copied to its place in the buffer. -/
theorem Filled.copy {raw : Bytes} (hbuf : Filled chunks s n m buf)
    (hraw : chunks.getD m none = some raw) {a b : ℕ} (hab : a < b) (hb : b ≤ raw.length)
    (hs : s ≤ m * arrayChunkBytes + a) (hn : m * arrayChunkBytes + b ≤ s + n)
    (hfit : b ≤ arrayChunkBytes)
    (hleft : ∀ j, j < n → (s + j) / arrayChunkBytes = m → m * arrayChunkBytes + a ≤ s + j)
    (hright : ∀ j, j < n → (s + j) / arrayChunkBytes = m → m * arrayChunkBytes + b ≤ s + j →
      raw.length ≤ (s + j) % arrayChunkBytes) : Filled chunks s n (m + 1)
      (copyInto buf (m * arrayChunkBytes + a - s) ((raw.take b).drop a)) := by
  have hpos := arrayChunkBytes_pos
  have hlen : ((raw.take b).drop a).length = b - a := by
    rw [length_drop, length_take, min_eq_left hb]
  rw [copyInto_eq_splice _ (by rw [hbuf.length]; omega)]
  refine ⟨by rw [length_splice, hlen, hbuf.length]; omega, fun j => ?_⟩
  have hcell : ∀ r, (s + j) / arrayChunkBytes = m → (s + j) % arrayChunkBytes = r →
      byteAt chunks (s + j) = raw.getD r 0 := by
    intro r hdiv hmod
    rw [byteAt, cell, hdiv, hmod, hraw]
    rfl
  have hdm : arrayChunkBytes * ((s + j) / arrayChunkBytes) + (s + j) % arrayChunkBytes = s + j :=
    div_add_mod _ _
  have hmod : (s + j) % arrayChunkBytes < arrayChunkBytes := mod_lt _ hpos
  rw [getD_splice, hlen, hbuf.bytes]
  by_cases hin : m * arrayChunkBytes + a - s ≤ j ∧ j < m * arrayChunkBytes + a - s + (b - a)
  · -- inside the copied part
    have hdiv : (s + j) / arrayChunkBytes = m := by
      refine Nat.div_eq_of_lt_le (by omega) ?_
      rw [Nat.succ_mul]
      omega
    rw [if_pos hin, if_pos ⟨by omega, by omega⟩, getD_drop, getD_take]
    have hr : (s + j) % arrayChunkBytes = a + (j - (m * arrayChunkBytes + a - s)) := by
      rw [hdiv, Nat.mul_comm] at hdm
      omega
    rw [if_pos (by omega), hcell _ hdiv hr]
  · rw [if_neg hin]
    by_cases hj : j < n
    · by_cases hdiv : (s + j) / arrayChunkBytes = m
      · -- in the chunk, past what it stores
        have hl := hleft j hj hdiv
        have hr := hright j hj hdiv (by omega)
        rw [if_neg (by omega), if_pos ⟨hj, by omega⟩, hcell _ hdiv rfl, getD_eq_default _ _ hr]
      · by_cases hlt : (s + j) / arrayChunkBytes < m
        · rw [if_pos ⟨hj, hlt⟩, if_pos ⟨hj, by omega⟩]
        · rw [if_neg (by omega), if_neg (by omega)]
    · rw [if_neg (by omega), if_neg (by omega)]

/-- A chunk that adds nothing. -/
theorem Filled.skip (hbuf : Filled chunks s n m buf)
    (hzero : ∀ j, j < n → (s + j) / arrayChunkBytes = m → byteAt chunks (s + j) = 0) :
    Filled chunks s n (m + 1) buf := by
  refine ⟨hbuf.length, fun j => ?_⟩
  rw [hbuf.bytes]
  by_cases hj : j < n ∧ (s + j) / arrayChunkBytes = m
  · rw [if_neg (by omega), if_pos ⟨hj.1, by omega⟩, hzero j hj.1 hj.2]
  · by_cases hlt : j < n ∧ (s + j) / arrayChunkBytes < m
    · rw [if_pos hlt, if_pos ⟨hlt.1, by omega⟩]
    · rw [if_neg hlt, if_neg (by omega)]

/-- A position past the end of what the chunk stores holds no byte. -/
theorem byteAt_of_short {k : ℕ} {raw : Bytes} (hraw : chunks.getD m none = some raw)
    (hk : k / arrayChunkBytes = m) (hshort : raw.length ≤ k % arrayChunkBytes) :
    byteAt chunks k = 0 := by
  rw [byteAt, cell, hk, hraw]
  exact getD_eq_default _ _ hshort

theorem byteAt_of_missing {k : ℕ} (hnone : chunks.getD m none = none)
    (hk : k / arrayChunkBytes = m) : byteAt chunks k = 0 := by
  rw [byteAt, cell, hk, hnone]
  rfl

/-- Where a position lies in its chunk. -/
theorem mod_of_div {k : ℕ} (hk : k / arrayChunkBytes = m) :
    m * arrayChunkBytes + k % arrayChunkBytes = k := by
  rw [← hk, Nat.mul_comm]
  exact Nat.div_add_mod k arrayChunkBytes

theorem loadChunk_filled (hfit : Fitting chunks) (hbuf : Filled chunks 0 n m buf) :
    Filled chunks 0 n (m + 1) (loadChunk n m buf (chunks.getD m none)) := by
  cases hraw : chunks.getD m none with
  | none => exact hbuf.skip fun j _ hj => byteAt_of_missing hraw hj
  | some raw =>
    have hlen := hfit m raw hraw
    simp only [loadChunk]
    split_ifs with hlimit
    · refine hbuf.skip fun j hj hdiv => byteAt_of_short hraw hdiv ?_
      have hmod := mod_of_div hdiv
      omega
    · have h := hbuf.copy hraw (a := 0) (b := min raw.length (n - m * arrayChunkBytes)) (by omega)
        (by omega) (zero_le _) (by omega) (by omega) (fun j _ hdiv => ?_) fun j hj hdiv hb => ?_
      · simpa using h
      · have hmod := mod_of_div hdiv
        omega
      · have hmod := mod_of_div hdiv
        omega

theorem readChunk_filled {e : ℕ} (hfit : Fitting chunks) (hbuf : Filled chunks s (e - s) m buf) :
    Filled chunks s (e - s) (m + 1) (readChunk s e m buf (chunks.getD m none)) := by
  cases hraw : chunks.getD m none with
  | none => exact hbuf.skip fun j _ hj => byteAt_of_missing hraw hj
  | some raw =>
    have hlen := hfit m raw hraw
    simp only [readChunk]
    split_ifs with hempty
    · refine hbuf.skip fun j hj hdiv => byteAt_of_short hraw hdiv ?_
      have hmod := mod_of_div hdiv
      have hlt := mod_lt (s + j) arrayChunkBytes_pos
      omega
    · have h := hbuf.copy hraw (a := max s (m * arrayChunkBytes) - m * arrayChunkBytes)
        (b := min raw.length (min e (m * arrayChunkBytes + arrayChunkBytes) - m * arrayChunkBytes))
        (by omega) (by omega) (by omega) (by omega) (by omega) (fun j _ hdiv => ?_)
        fun j hj hdiv hb => ?_
      · rwa [Nat.add_sub_cancel' (le_max_right s (m * arrayChunkBytes))] at h
      · have hmod := mod_of_div hdiv
        omega
      · have hmod := mod_of_div hdiv
        have hlt := mod_lt (s + j) arrayChunkBytes_pos
        omega

/-- **A range read returns the window of the Array.** -/
theorem readArrayRange_eq (hfit : Fitting chunks) (e : ℕ) :
    readArrayRange chunks s e = window 0 arrayChunkBytes chunks s (e - s) := by
  unfold readArrayRange
  split_ifs with he
  · rw [Nat.sub_eq_zero_of_le he]
    rfl
  · have hle : s / arrayChunkBytes ≤ (e - 1) / arrayChunkBytes := Nat.div_le_div_right (by omega)
    refine ((Filled.start le_rfl).range _ (fun m buf h => readChunk_filled hfit h)
      (by omega)).finish fun j hj => ?_
    exact Nat.lt_succ_of_le (Nat.div_le_div_right (by omega))

theorem div_lt_chunkCount {k size : ℕ} (hk : k < size) :
    k / arrayChunkBytes < chunkCountForSize size := by
  have hpos := arrayChunkBytes_pos
  rw [chunkCountForSize, Nat.div_lt_iff_lt_mul hpos]
  have h := lt_mul_div_succ (size + arrayChunkBytes - 1) hpos
  rw [Nat.mul_add_one, Nat.mul_comm] at h
  omega

/-- **A full read returns the window of the Array from the start.** -/
theorem loadArray_eq (hfit : Fitting chunks) (size : ℕ) :
    loadArray chunks size = window 0 arrayChunkBytes chunks 0 size := by
  have hbatch : 0 < arrayCommandBatchChunks := by decide
  -- after `b` batches the chunks before the next batch have been read
  have hinv : ∀ b, b ≤ (chunkCountForSize size + arrayCommandBatchChunks - 1) /
        arrayCommandBatchChunks →
      Filled chunks 0 size (min (b * arrayCommandBatchChunks) (chunkCountForSize size))
        (((List.range b).map (batchBounds (chunkCountForSize size))).foldl
          (fun buf batch => loadBatch size buf batch (argetrange chunks batch.1 batch.2))
          (List.replicate size 0)) := by
    intro b hb
    induction b with
    | zero => exact .start (by simp)
    | succ b ih =>
      have hlt : b * arrayCommandBatchChunks < chunkCountForSize size := by
        have h := (le_div_iff_mul_le hbatch).mp hb
        rw [succ_mul] at h
        omega
      have h := ih (by omega)
      rw [min_eq_left hlt.le] at h
      rw [range_succ, map_append, foldl_append, succ_mul]
      have hnext := h.range (batchBounds (chunkCountForSize size) b).2
        (fun m buf h => loadChunk_filled hfit h) (by simp only [batchBounds]; omega)
      have hlast : (batchBounds (chunkCountForSize size) b).2 + 1 =
          min (b * arrayCommandBatchChunks + arrayCommandBatchChunks) (chunkCountForSize size) := by
        simp only [batchBounds]
        omega
      rwa [hlast] at hnext
  have hend := hinv _ le_rfl
  refine hend.finish fun j hj => ?_
  rw [Nat.zero_add]
  have hcount := div_lt_chunkCount hj
  have hall := lt_mul_div_succ (chunkCountForSize size + arrayCommandBatchChunks - 1) hbatch
  rw [Nat.mul_add_one, Nat.mul_comm] at hall
  omega

end Reading

/-! ## Writing -/

section Writing

variable {chunks : List (Option Bytes)}

theorem getD_fullChunk (value : Option Bytes) (j : ℕ) :
    (fullChunk value).getD j 0 = if j < arrayChunkBytes then (value.getD []).getD j 0 else 0 := by
  rw [fullChunk, getD_append_replicate, getD_take]

theorem length_fullChunk (value : Option Bytes) : (fullChunk value).length = arrayChunkBytes := by
  simp only [fullChunk, length_append, length_replicate, length_take]
  omega

/-- A patched chunk has the payload where it falls into it, and its old bytes elsewhere. -/
theorem getD_patchChunk {off index : ℕ} {payload : Bytes} {value : Option Bytes} {j : ℕ}
    (hvalue : ∀ raw, value = some raw → raw.length ≤ arrayChunkBytes) (hj : j < arrayChunkBytes)
    (hindex : index * arrayChunkBytes < off + payload.length) :
    (patchChunk off payload index value).getD j 0 =
      if off ≤ index * arrayChunkBytes + j ∧ index * arrayChunkBytes + j < off + payload.length then
        payload.getD (index * arrayChunkBytes + j - off) 0
      else (value.getD []).getD j 0 := by
  have hraw : (value.getD []).length ≤ arrayChunkBytes := by
    cases value with
    | none => exact zero_le _
    | some raw => exact hvalue raw rfl
  have hpos := arrayChunkBytes_pos
  unfold patchChunk
  extract_lets raw chunkStart writeStart writeEnd chunk patched storeLen
  have hchunk : chunk.length = arrayChunkBytes := length_fullChunk value
  have hold : chunk.getD j 0 = raw.getD j 0 := (getD_fullChunk value j).trans (if_pos hj)
  have hend : chunkStart < writeEnd := lt_min hindex (by omega)
  have hws : (off ≤ writeStart ∧ chunkStart ≤ writeStart) ∧
      (writeStart = off ∨ writeStart = chunkStart) :=
    ⟨⟨le_max_left _ _, le_max_right _ _⟩, max_choice _ _⟩
  have hwe : (writeEnd ≤ off + payload.length ∧ writeEnd ≤ chunkStart + arrayChunkBytes) ∧
      (writeEnd = off + payload.length ∨ writeEnd = chunkStart + arrayChunkBytes) :=
    ⟨⟨min_le_left _ _, min_le_right _ _⟩, min_choice _ _⟩
  have hstore : storeLen = max raw.length (writeEnd - chunkStart) := if_pos hend
  have hpatch : patched = if writeStart < writeEnd then
      chunk.take (writeStart - chunkStart) ++
        ((payload.drop (writeStart - off)).take (writeEnd - writeStart)) ++
          chunk.drop (writeEnd - chunkStart)
    else chunk := rfl
  have hrawlen : raw.length ≤ arrayChunkBytes := hraw
  change _ = if off ≤ chunkStart + j ∧ chunkStart + j < off + payload.length then
      payload.getD (chunkStart + j - off) 0 else raw.getD j 0
  clear_value storeLen patched writeStart writeEnd chunk chunkStart raw
  -- the part of the payload, laid over the chunk
  have hpatched : patched.getD j 0 =
      if off ≤ chunkStart + j ∧ chunkStart + j < off + payload.length then
        payload.getD (chunkStart + j - off) 0
      else raw.getD j 0 := by
    by_cases hw : writeStart < writeEnd
    · have hlen : ((payload.drop (writeStart - off)).take (writeEnd - writeStart)).length =
          writeEnd - writeStart := by
        rw [length_take, length_drop]
        omega
      have hover : patched = splice 0 chunk (writeStart - chunkStart)
          ((payload.drop (writeStart - off)).take (writeEnd - writeStart)) := by
        rw [splice, hlen, Nat.sub_eq_zero_of_le (m := chunk.length) (by omega), hpatch, if_pos hw,
          show writeStart - chunkStart + (writeEnd - writeStart) = writeEnd - chunkStart by omega]
        simp only [replicate_zero, append_nil]
      rw [hover, getD_splice, hlen, getD_take, getD_drop, hold]
      by_cases hin : off ≤ chunkStart + j ∧ chunkStart + j < off + payload.length
      · rw [if_pos (by omega), if_pos (by omega), if_pos hin]
        congr 1
        omega
      · rw [if_neg (by omega), if_neg hin]
    · rw [hpatch, if_neg hw, hold, if_neg (by omega)]
  rw [getD_take, hpatched, hstore]
  split_ifs with hstored hin
  · rfl
  · rfl
  · omega
  · exact (getD_eq_default _ _ (by omega)).symm

/-- `writeArrayRange`. -/
def ArrayFile.writeArrayRange (chunks : List (Option Bytes)) (off : ℕ) (payload : Bytes) :
    List (Option Bytes) :=
  if payload = [] then chunks
  else
    let startChunk := off / arrayChunkBytes
    let endChunk := (off + payload.length - 1) / arrayChunkBytes
    arset chunks startChunk ((argetrange chunks startChunk endChunk).mapIdx fun i value =>
      patchChunk off payload (startChunk + i) value)

open ArrayFile

/-- The chunks after a range write. -/
theorem getD_writeArrayRange (chunks : List (Option Bytes)) (off : ℕ) {payload : Bytes}
    (hp : payload ≠ []) (i : ℕ) : (writeArrayRange chunks off payload).getD i none =
      if off / arrayChunkBytes ≤ i ∧ i ≤ (off + payload.length - 1) / arrayChunkBytes then
        some (patchChunk off payload i (chunks.getD i none))
      else chunks.getD i none := by
  have hlen := length_pos_iff.mpr hp
  have hle : off / arrayChunkBytes ≤ (off + payload.length - 1) / arrayChunkBytes :=
    Nat.div_le_div_right (by omega)
  rw [writeArrayRange, if_neg hp]
  dsimp only
  rw [getD_arset, length_mapIdx, length_argetrange]
  by_cases hin : off / arrayChunkBytes ≤ i ∧ i ≤ (off + payload.length - 1) / arrayChunkBytes
  · rw [if_pos (by omega), if_pos hin, getD_eq_getElem _ _ (by
      rw [length_map, length_mapIdx, length_argetrange]; omega)]
    simp only [getElem_map, getElem_mapIdx, argetrange, getElem_range,
      Nat.add_sub_cancel' hin.1]
  · rw [if_neg (by omega), if_neg hin]

theorem length_patchChunk_le (off : ℕ) (payload : Bytes) (index : ℕ) (value : Option Bytes) :
    (patchChunk off payload index value).length ≤ arrayChunkBytes := by
  unfold patchChunk
  dsimp only
  rw [length_take]
  omega

theorem fitting_writeArrayRange (hfit : Fitting chunks) (off : ℕ) (payload : Bytes) :
    Fitting (writeArrayRange chunks off payload) := by
  intro i raw hraw
  by_cases hp : payload = []
  · rw [writeArrayRange, if_pos hp] at hraw
    exact hfit i raw hraw
  · rw [getD_writeArrayRange _ _ hp] at hraw
    split_ifs at hraw
    · cases hraw
      exact length_patchChunk_le off payload i _
    · exact hfit i raw hraw

/-- **A range write lays the payload over the bytes.** -/
theorem byteAt_writeArrayRange (hfit : Fitting chunks) (off : ℕ) (payload : Bytes) (k : ℕ) :
    byteAt (writeArrayRange chunks off payload) k =
      if off ≤ k ∧ k < off + payload.length then payload.getD (k - off) 0 else byteAt chunks k := by
  by_cases hp : payload = []
  · rw [writeArrayRange, if_pos hp, if_neg (by simp [hp])]
  have hlen := length_pos_iff.mpr hp
  have hk := mod_of_div (k := k) rfl
  have hmod := mod_lt k arrayChunkBytes_pos
  have hcell := getD_writeArrayRange chunks off hp (k / arrayChunkBytes)
  by_cases hin : off / arrayChunkBytes ≤ k / arrayChunkBytes ∧
      k / arrayChunkBytes ≤ (off + payload.length - 1) / arrayChunkBytes
  · rw [if_pos hin] at hcell
    have hstart : k / arrayChunkBytes * arrayChunkBytes < off + payload.length := by
      have h := (le_div_iff_mul_le arrayChunkBytes_pos).mp hin.2
      omega
    rw [byteAt, cell, hcell, getD_some, getD_patchChunk (hfit _) hmod hstart, hk]
    rfl
  · rw [if_neg hin] at hcell
    rw [byteAt, cell_congr hcell, if_neg]
    rintro ⟨hle, hlt⟩
    exact hin ⟨Nat.div_le_div_right hle, Nat.div_le_div_right (by omega)⟩

/-- Cut the chunk at `index` down to its first `tail` bytes. -/
def ArrayFile.trimChunk (chunks : List (Option Bytes)) (index tail : ℕ) : List (Option Bytes) :=
  match argetrange chunks index index with
  | [some raw] => arset chunks index [raw.take tail]
  | _ => chunks

/-- `truncateArray`. -/
def ArrayFile.truncateArray (chunks : List (Option Bytes)) (oldSize newSize : ℕ) :
    List (Option Bytes) :=
  if newSize = oldSize then chunks
  else if newSize = 0 then []
  else if oldSize < newSize then chunks
  else
    let oldChunks := chunkCountForSize oldSize
    let newChunks := chunkCountForSize newSize
    let lastChunkSize := newSize % arrayChunkBytes
    let trimmed :=
      if lastChunkSize = 0 then chunks else ArrayFile.trimChunk chunks (newChunks - 1) lastChunkSize
    if newChunks < oldChunks then ardelrange trimmed newChunks (oldChunks - 1) else trimmed

theorem getD_trimChunk (chunks : List (Option Bytes)) (index tail i : ℕ) :
    (trimChunk chunks index tail).getD i none =
      if i = index then (chunks.getD i none).map (·.take tail) else chunks.getD i none := by
  have hone : argetrange chunks index index = [chunks.getD index none] := by
    simp [argetrange]
  unfold trimChunk
  rw [hone]
  cases hraw : chunks.getD index none with
  | none =>
    dsimp only
    split_ifs with hi
    · rw [hi, hraw]
      rfl
    · rfl
  | some raw =>
    dsimp only
    rw [getD_arset]
    by_cases hi : i = index
    · subst hi
      rw [if_pos (by simp), if_pos rfl, hraw]
      simp
    · rw [if_neg (by simp; omega), if_neg hi]

theorem chunkCountForSize_eq (size : ℕ) : chunkCountForSize size =
    if size % arrayChunkBytes = 0 then size / arrayChunkBytes else size / arrayChunkBytes + 1 := by
  have hpos := arrayChunkBytes_pos
  have hsize := mod_of_div (k := size) rfl
  have hmod := mod_lt size hpos
  rw [chunkCountForSize]
  split_ifs with hr
  · exact Nat.div_eq_of_lt_le (by omega) (by rw [Nat.succ_mul]; omega)
  · exact Nat.div_eq_of_lt_le (by rw [Nat.succ_mul]; omega)
      (by rw [succ_mul, succ_mul]; omega)

/-- Past the chunks of a file of `size` bytes there is no byte of it. -/
theorem le_of_chunkCount_le {size k : ℕ} (h : chunkCountForSize size ≤ k / arrayChunkBytes) :
    size ≤ k := by
  by_contra hk
  have hlt := div_lt_chunkCount (not_le.mp hk)
  omega

/-- A byte of an Array some of whose chunks were deleted. -/
theorem byteAt_ardelrange (chunks : List (Option Bytes)) (first last k : ℕ) :
    byteAt (ardelrange chunks first last) k =
      if first ≤ k / arrayChunkBytes ∧ k / arrayChunkBytes ≤ last then 0 else byteAt chunks k := by
  have hcell := getD_ardelrange chunks first last (k / arrayChunkBytes)
  by_cases hin : first ≤ k / arrayChunkBytes ∧ k / arrayChunkBytes ≤ last
  · rw [if_pos hin] at hcell ⊢
    exact byteAt_of_missing hcell rfl
  · rw [if_neg hin] at hcell ⊢
    exact cell_congr hcell

theorem byteAt_trimChunk (chunks : List (Option Bytes)) (index tail k : ℕ) :
    byteAt (trimChunk chunks index tail) k =
      if k / arrayChunkBytes = index ∧ tail ≤ k % arrayChunkBytes then 0 else byteAt chunks k := by
  have hcell := getD_trimChunk chunks index tail (k / arrayChunkBytes)
  by_cases hi : k / arrayChunkBytes = index
  · rw [if_pos hi] at hcell
    have hbyte : byteAt (trimChunk chunks index tail) k =
        if k % arrayChunkBytes < tail then byteAt chunks k else 0 := by
      rw [byteAt, cell, hcell, byteAt, cell]
      cases chunks.getD (k / arrayChunkBytes) none with
      | none => simp
      | some raw => exact getD_take raw tail _ 0
    rw [hbyte]
    by_cases ht : k % arrayChunkBytes < tail
    · rw [if_pos ht, if_neg (by omega)]
    · rw [if_neg ht, if_pos ⟨hi, by omega⟩]
  · rw [if_neg hi] at hcell
    rw [if_neg (fun h => hi h.1)]
    exact cell_congr hcell

/-- **A truncation keeps the bytes before the new end and no others**, if nothing is stored past
the old end. -/
theorem byteAt_truncateArray {oldSize newSize : ℕ} (hend : ∀ k, oldSize ≤ k → byteAt chunks k = 0)
    (k : ℕ) : byteAt (truncateArray chunks oldSize newSize) k =
      if k < newSize then byteAt chunks k else 0 := by
  unfold truncateArray
  by_cases hlong : oldSize ≤ newSize
  · -- nothing is cut off, and there is nothing past the end
    have hkeep : byteAt chunks k = if k < newSize then byteAt chunks k else 0 := by
      split_ifs with hk
      · rfl
      · exact hend k (by omega)
    by_cases heq : newSize = oldSize
    · rwa [if_pos heq]
    · rwa [if_neg heq, if_neg (by omega), if_pos (by omega)]
  rw [if_neg (by omega)]
  by_cases hzero : newSize = 0
  · rw [if_pos hzero, if_neg (by omega)]
    rfl
  rw [if_neg hzero, if_neg (by omega)]
  extract_lets oldChunks newChunks tail trimmed
  have hk := mod_of_div (k := k) rfl
  have hn := mod_of_div (k := newSize) rfl
  have hcount : newChunks = if tail = 0 then newSize / arrayChunkBytes
      else newSize / arrayChunkBytes + 1 := chunkCountForSize_eq newSize
  have htrim : byteAt trimmed k =
      if k / arrayChunkBytes = newSize / arrayChunkBytes ∧ tail ≤ k % arrayChunkBytes ∧ tail ≠ 0
      then 0 else byteAt chunks k := by
    by_cases ht : tail = 0
    · rw [show trimmed = chunks from if_pos ht, if_neg (by omega)]
    · have hlast : newChunks - 1 = newSize / arrayChunkBytes := by rw [hcount, if_neg ht]; rfl
      rw [show trimmed = trimChunk chunks (newChunks - 1) tail from if_neg ht, hlast,
        byteAt_trimChunk]
      simp only [ht, not_false_eq_true, ne_eq, and_true]
  have hfinal : byteAt (if newChunks < oldChunks then ardelrange trimmed newChunks (oldChunks - 1)
      else trimmed) k =
        if newChunks ≤ k / arrayChunkBytes ∧ k / arrayChunkBytes < oldChunks then 0
        else byteAt trimmed k := by
    by_cases hlt : newChunks < oldChunks
    · rw [if_pos hlt, byteAt_ardelrange]
      by_cases hin : newChunks ≤ k / arrayChunkBytes ∧ k / arrayChunkBytes < oldChunks
      · rw [if_pos (by omega), if_pos hin]
      · rw [if_neg (by omega), if_neg hin]
    · rw [if_neg hlt, if_neg (by omega)]
  rw [hfinal, htrim]
  by_cases hlt : k < newSize
  · have hdiv := div_lt_chunkCount hlt
    have hle : k / arrayChunkBytes ≤ newSize / arrayChunkBytes := Nat.div_le_div_right hlt.le
    rw [if_pos hlt, if_neg (by omega), if_neg]
    rintro ⟨hq, hr, -⟩
    rw [hq] at hk
    omega
  · rw [if_neg hlt]
    have hle : newSize / arrayChunkBytes ≤ k / arrayChunkBytes := Nat.div_le_div_right (by omega)
    by_cases hold : oldChunks ≤ k / arrayChunkBytes
    · rw [if_neg (by omega), hend k (le_of_chunkCount_le hold), ite_self]
    · by_cases hnew : newChunks ≤ k / arrayChunkBytes
      · rw [if_pos ⟨hnew, by omega⟩]
      · -- the last chunk that is kept
        have ht : tail ≠ 0 := by
          intro ht
          rw [hcount, if_pos ht] at hnew
          omega
        have hq : k / arrayChunkBytes = newSize / arrayChunkBytes := by
          rw [hcount, if_neg ht] at hnew
          omega
        rw [if_neg (by omega), if_pos]
        refine ⟨hq, ?_, ht⟩
        rw [hq] at hk
        omega

theorem fitting_truncateArray (hfit : Fitting chunks) (oldSize newSize : ℕ) :
    Fitting (truncateArray chunks oldSize newSize) := by
  have hnil : Fitting [] := nofun
  have htrim : ∀ index tail, Fitting (trimChunk chunks index tail) := by
    intro index tail i raw hraw
    rw [getD_trimChunk] at hraw
    split_ifs at hraw
    · obtain ⟨raw', hraw', rfl⟩ := map_eq_some_iff.mp hraw
      exact (length_take_le' _ _).trans (hfit i raw' hraw')
    · exact hfit i raw hraw
  have hdel : ∀ l first last, Fitting l → Fitting (ardelrange l first last) := by
    intro l first last hl i raw hraw
    rw [getD_ardelrange] at hraw
    split_ifs at hraw
    exact hl i raw hraw
  unfold truncateArray
  dsimp only
  split_ifs
  · exact hfit
  · exact hnil
  · exact hfit
  · exact hdel _ _ _ hfit
  · exact hdel _ _ _ (htrim _ _)
  · exact hfit
  · exact htrim _ _

/-- `queueArrayWriteFull`: the chunks of `data`, set in batches. -/
def ArrayFile.queueArrayWriteFull (data : Bytes) : List (Option Bytes) :=
  let chunks := splitArrayChunks data
  (List.range ((chunks.length + arrayCommandBatchChunks - 1) / arrayCommandBatchChunks)).foldl
    (fun l b => arset l (b * arrayCommandBatchChunks)
      ((chunks.drop (b * arrayCommandBatchChunks)).take arrayCommandBatchChunks)) []

theorem getD_splitChunks (fuel : ℕ) (data : Bytes) (hfuel : data.length ≤ fuel) (i : ℕ) :
    ((splitChunks fuel data).map some).getD i none =
      if i * arrayChunkBytes < data.length then
        some ((data.drop (i * arrayChunkBytes)).take arrayChunkBytes)
      else none := by
  induction fuel generalizing data i with
  | zero =>
    rw [if_neg (by omega)]
    rfl
  | succ fuel ih =>
    cases data with
    | nil => simp [splitChunks]
    | cons x data =>
      cases i with
      | zero => simp [splitChunks]
      | succ i =>
        have hpos := arrayChunkBytes_pos
        rw [splitChunks, map_cons, getD_cons_succ, ih _ (by
          rw [length_drop]; simp only [length_cons] at hfuel ⊢; omega),
          length_drop, drop_drop, Nat.succ_mul, Nat.add_comm arrayChunkBytes]
        by_cases hlt : i * arrayChunkBytes + arrayChunkBytes < (x :: data).length
        · rw [if_pos (by omega), if_pos hlt]
        · rw [if_neg (by omega), if_neg hlt]
        · intro h
          cases h

/-- The batches set all chunks. -/
theorem queueArrayWriteFull_eq (data : Bytes) :
    queueArrayWriteFull data = (splitArrayChunks data).map some := by
  unfold queueArrayWriteFull
  extract_lets chunks
  -- after `n` batches, the first `n * 512` chunks are there
  have hbatches : ∀ n ≤ (chunks.length + arrayCommandBatchChunks - 1) / arrayCommandBatchChunks,
      (List.range n).foldl (fun l b => arset l (b * arrayCommandBatchChunks)
        ((chunks.drop (b * arrayCommandBatchChunks)).take arrayCommandBatchChunks)) [] =
      (chunks.take (n * arrayCommandBatchChunks)).map some := by
    intro n
    induction n with
    | zero => intro _; rw [Nat.zero_mul]; rfl
    | succ n ih =>
      intro hn
      have hlt : n * arrayCommandBatchChunks < chunks.length := by
        have h := (le_div_iff_mul_le (by decide)).mp hn
        rw [succ_mul] at h
        have hpos : 0 < arrayCommandBatchChunks := by decide
        omega
      have hlen : ((chunks.take (n * arrayCommandBatchChunks)).map some).length =
          n * arrayCommandBatchChunks := by
        rw [length_map, length_take]
        omega
      rw [range_succ, foldl_append, ih (by omega), foldl_cons, foldl_nil,
        arset_eq, splice_end hlen, ← map_append, succ_mul, take_add]
  rw [hbatches _ le_rfl]
  congr 1
  refine take_of_length_le ?_
  have hmod := div_add_mod (chunks.length + arrayCommandBatchChunks - 1) arrayCommandBatchChunks
  have hlt := mod_lt (chunks.length + arrayCommandBatchChunks - 1)
    (show 0 < arrayCommandBatchChunks by decide)
  rw [Nat.mul_comm] at hmod
  omega

theorem fitting_writeFull (data : Bytes) : Fitting (queueArrayWriteFull data) := by
  intro i raw hraw
  rw [queueArrayWriteFull_eq, splitArrayChunks, getD_splitChunks _ _ le_rfl] at hraw
  split_ifs at hraw
  cases hraw
  exact length_take_le _ _

/-- **A full write stores the bytes.** -/
theorem byteAt_writeFull (data : Bytes) (k : ℕ) :
    byteAt (queueArrayWriteFull data) k = data.getD k 0 := by
  have hk := mod_of_div (k := k) rfl
  have hmod := mod_lt k arrayChunkBytes_pos
  rw [byteAt, cell, queueArrayWriteFull_eq, splitArrayChunks, getD_splitChunks _ _ le_rfl]
  split_ifs with hlt
  · rw [getD_some, getD_take, if_pos hmod, getD_drop, hk]
  · exact (getD_eq_default _ _ (by omega)).symm

end Writing

/-! ## Files -/

/-- A content key of the Array layout and the size the inode records for it. -/
structure ArrayFile where
  chunks : List (Option Bytes) := []
  size : ℕ := 0
  deriving DecidableEq, Repr

/-- The operations of `internal/rediscontent` on one content key. -/
inductive ContentOp
  /-- `QueueWriteFull`. -/
  | writeFull (data : Bytes)
  /-- `WriteRange`. -/
  | writeRange (off : ℤ) (payload : Bytes)
  /-- `Truncate`. -/
  | truncate (newSize : ℤ)
  /-- `ReadRange`. -/
  | readRange (off count : ℤ)
  /-- `Load`. -/
  | load
  deriving DecidableEq, Repr

/-- What an operation answers: bytes, or the text of an error. -/
abbrev ContentReply := Except String Bytes

/-- An operation on an Array. Its caller records the new size: that of the data, the end of a range
that was written past the old one, the size that was asked for. -/
def ArrayFile.step (f : ArrayFile) : ContentOp → ContentReply × ArrayFile
  | .writeFull data => (.ok [], ⟨ArrayFile.queueArrayWriteFull data, data.length⟩)
  | .writeRange off payload =>
    if off < 0 then (.error "invalid offset", f)
    else if payload = [] then (.ok [], f)
    else (.ok [], ⟨ArrayFile.writeArrayRange f.chunks off.toNat payload,
      max f.size (off.toNat + payload.length)⟩)
  | .truncate newSize =>
    if newSize < 0 then (.error "invalid size", f)
    else (.ok [], ⟨ArrayFile.truncateArray f.chunks f.size newSize.toNat, newSize.toNat⟩)
  | .readRange off count =>
    if count ≤ 0 ∨ (f.size : ℤ) ≤ off then (.ok [], f)
    else if off < 0 then (.error "invalid offset", f)
    else (.ok (readArrayRange f.chunks off.toNat (min (off + count) f.size).toNat), f)
  | .load => (.ok (loadArray f.chunks f.size), f)

/-- The same operation on a plain string of bytes: a write goes over the bytes, with zeros in a gap
before it; a truncation cuts, or fills up with zeros; a read stops at the end. -/
def stringStep (b : Bytes) : ContentOp → ContentReply × Bytes
  | .writeFull data => (.ok [], data)
  | .writeRange off payload =>
    if off < 0 then (.error "invalid offset", b)
    else if payload = [] then (.ok [], b)
    else (.ok [], splice 0 b off.toNat payload)
  | .truncate newSize =>
    if newSize < 0 then (.error "invalid size", b) else (.ok [], resize 0 b newSize.toNat)
  | .readRange off count =>
    if count ≤ 0 ∨ (b.length : ℤ) ≤ off then (.ok [], b)
    else if off < 0 then (.error "invalid offset", b)
    else (.ok ((b.drop off.toNat).take count.toNat), b)
  | .load => (.ok b, b)

/-- A sequence of operations, with what they answer. -/
def runOps {σ : Type} (step : σ → ContentOp → ContentReply × σ) :
    σ → List ContentOp → List ContentReply × σ
  | s, [] => ([], s)
  | s, op :: ops =>
    let rest := runOps step (step s op).2 ops
    ((step s op).1 :: rest.1, rest.2)

/-- The Array holds the bytes of the string, and nothing past its end. -/
structure ArrayFile.Represents (f : ArrayFile) (b : Bytes) : Prop where
  size : f.size = b.length
  fitting : Fitting f.chunks
  bytes : ∀ k, byteAt f.chunks k = b.getD k 0

namespace ArrayFile.Represents

variable {f : ArrayFile} {b : Bytes}

theorem empty : ArrayFile.Represents {} [] :=
  ⟨rfl, nofun, fun _ => rfl⟩

/-- A read of the first bytes or of a range. -/
theorem window_eq (h : f.Represents b) (i : ℕ) {n : ℕ} (hn : i + n ≤ b.length) :
    window 0 arrayChunkBytes f.chunks i n = (b.drop i).take n := by
  refine ext_getD 0 ?_ fun j => ?_
  · rw [length_window, length_take, length_drop]
    omega
  · rw [getD_window, getD_take, getD_drop]
    by_cases hj : j < n
    · rw [if_pos hj, if_pos hj]
      exact h.bytes (i + j)
    · rw [if_neg hj, if_neg hj]

theorem writeFull (data : Bytes) :
    ArrayFile.Represents ⟨queueArrayWriteFull data, data.length⟩ data :=
  ⟨rfl, fitting_writeFull data, byteAt_writeFull data⟩

theorem writeRange (h : f.Represents b) (off : ℕ) (payload : Bytes) :
    ArrayFile.Represents ⟨writeArrayRange f.chunks off payload,
      max f.size (off + payload.length)⟩ (splice 0 b off payload) := by
  refine ⟨?_, fitting_writeArrayRange h.fitting off payload, fun k => ?_⟩
  · rw [length_splice, ← h.size]
  · rw [byteAt_writeArrayRange h.fitting, getD_splice, h.bytes]

theorem truncate (h : f.Represents b) (newSize : ℕ) :
    ArrayFile.Represents ⟨truncateArray f.chunks f.size newSize, newSize⟩
      (resize 0 b newSize) := by
  refine ⟨length_resize.symm, fitting_truncateArray h.fitting _ _, fun k => ?_⟩
  have hend : ∀ k, f.size ≤ k → byteAt f.chunks k = 0 := by
    intro k hk
    rw [h.bytes]
    exact getD_eq_default _ _ (h.size ▸ hk)
  rw [byteAt_truncateArray hend, getD_resize, h.bytes]

/-- **One operation** answers the same on both, and leaves the Array holding the string. -/
theorem step (h : f.Represents b) (op : ContentOp) :
    (f.step op).1 = (stringStep b op).1 ∧ (f.step op).2.Represents (stringStep b op).2 := by
  cases op with
  | writeFull data => exact ⟨rfl, writeFull data⟩
  | writeRange off payload =>
    unfold ArrayFile.step stringStep
    dsimp only
    split_ifs
    · exact ⟨rfl, h⟩
    · exact ⟨rfl, h⟩
    · exact ⟨rfl, h.writeRange off.toNat payload⟩
  | truncate newSize =>
    unfold ArrayFile.step stringStep
    dsimp only
    split_ifs
    · exact ⟨rfl, h⟩
    · exact ⟨rfl, h.truncate newSize.toNat⟩
  | readRange off count =>
    unfold ArrayFile.step stringStep
    dsimp only
    rw [h.size]
    split_ifs with hnone hneg
    · exact ⟨rfl, h⟩
    · exact ⟨rfl, h⟩
    · refine ⟨?_, h⟩
      have hread := h.window_eq off.toNat (n := (min (off + count) b.length).toNat - off.toNat)
        (by omega)
      rw [readArrayRange_eq h.fitting, hread]
      dsimp only
      rw [show (b.drop off.toNat).take ((min (off + count) b.length).toNat - off.toNat) =
        (b.drop off.toNat).take count.toNat from
          take_eq_take_iff.mpr (by rw [length_drop]; omega)]
  | load =>
    refine ⟨?_, h⟩
    unfold ArrayFile.step stringStep
    dsimp only
    rw [loadArray_eq h.fitting, h.window_eq 0 (by rw [h.size]; omega), h.size, drop_zero,
      take_length]

/-- A sequence of operations. -/
theorem run (h : f.Represents b) (ops : List ContentOp) :
    (runOps ArrayFile.step f ops).1 = (runOps stringStep b ops).1 ∧
      (runOps ArrayFile.step f ops).2.Represents (runOps stringStep b ops).2 := by
  induction ops generalizing f b with
  | nil => exact ⟨rfl, h⟩
  | cons op ops ih =>
    obtain ⟨hreply, hnext⟩ := h.step op
    obtain ⟨hreplies, hfinal⟩ := ih hnext
    exact ⟨by rw [runOps, runOps, hreply, hreplies], hfinal⟩

end ArrayFile.Represents

end Afs
