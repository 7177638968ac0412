import Afs.Foundations.Chunked
import Afs.Workspace.Path

/-!
# Hashes and chunk manifests

`sync_chunk.go` and `uploadChunkHashes`. A large file is described by the list of the hashes of its
chunks, and that list by one composite hash of its text.

SHA-256 is ideal: a digest spells out the bytes it was computed from, so two digests are equal only
if these are. It is a text all the same, not empty and without commas, as the composite hash takes
digests apart and together as texts.
-/

namespace Afs.Sync

open List

/-! ## Digests -/

/-- A digit of a digest. -/
def digit (n : ℕ) : UInt8 := UInt8.ofNat (97 + n)

/-- `sha256Hex`. -/
def sha256Hex (data : Bytes) : Bytes :=
  35 :: data.flatMap fun b => [digit (b.toNat / 16), digit (b.toNat % 16)]

/-- The byte `,`. -/
def comma : UInt8 := 44

/-- `strings.Join(hashes, ",")`. -/
def joinComma : List Bytes → Bytes
  | [] => []
  | [h] => h
  | h :: hs => h ++ comma :: joinComma hs

/-- `compositeHash`. -/
def compositeHash (chunkHashes : List Bytes) : Bytes :=
  if chunkHashes = [] then sha256Hex [] else sha256Hex (joinComma chunkHashes)

theorem digit_injective {m n : ℕ} (hm : m < 16) (hn : n < 16) (h : digit m = digit n) : m = n := by
  have h := congrArg UInt8.toNat h
  simp only [digit, UInt8.toNat_ofNat'] at h
  omega

theorem digit_ne_comma {n : ℕ} (hn : n < 16) : digit n ≠ comma := by
  intro h
  have h := congrArg UInt8.toNat h
  have hcomma : comma.toNat = 44 := rfl
  rw [hcomma, digit, UInt8.toNat_ofNat'] at h
  omega

theorem sha256Hex_injective : Function.Injective sha256Hex := by
  intro a b h
  replace h := (List.cons.inj h).2
  induction a generalizing b with
  | nil =>
    cases b with
    | nil => rfl
    | cons y b => simp at h
  | cons x a ih =>
    cases b with
    | nil => simp at h
    | cons y b =>
      simp only [flatMap_cons, cons_append, nil_append, List.cons.injEq] at h
      obtain ⟨hhigh, hlow, hrest⟩ := h
      have hx := x.toNat_lt
      have hy := y.toNat_lt
      have hdiv := digit_injective (by omega) (by omega) hhigh
      have hmod := digit_injective (by omega) (by omega) hlow
      have hxy : x = y := UInt8.toNat_inj.mp (by omega)
      rw [hxy, ih hrest]

theorem sha256Hex_ne_nil (data : Bytes) : sha256Hex data ≠ [] :=
  cons_ne_nil _ _

theorem comma_notMem_sha256Hex (data : Bytes) : comma ∉ sha256Hex data := by
  intro h
  rcases mem_cons.mp h with h | h
  · exact absurd h (by decide)
  · obtain ⟨b, -, hb⟩ := mem_flatMap.mp h
    have hlt := b.toNat_lt
    simp only [mem_cons, not_mem_nil, or_false] at hb
    rcases hb with hb | hb
    · exact digit_ne_comma (by omega) hb.symm
    · exact digit_ne_comma (by omega) hb.symm

/-- A list of digests: texts that are not empty and have no comma. -/
def AreDigests (hashes : List Bytes) : Prop := ∀ h ∈ hashes, h ≠ [] ∧ comma ∉ h

theorem AreDigests.map_sha256Hex (l : List Bytes) : AreDigests (l.map sha256Hex) := by
  intro h hh
  obtain ⟨data, -, rfl⟩ := mem_map.mp hh
  exact ⟨sha256Hex_ne_nil data, comma_notMem_sha256Hex data⟩

/-- Texts without commas can be told apart before a comma. -/
theorem append_comma_inj {a b s t : Bytes} (ha : comma ∉ a) (hb : comma ∉ b)
    (h : a ++ comma :: s = b ++ comma :: t) : a = b ∧ s = t := by
  induction a generalizing b with
  | nil =>
    cases b with
    | nil => exact ⟨rfl, (List.cons.inj h).2⟩
    | cons y b => exact absurd ((List.cons.inj h).1 ▸ mem_cons_self) hb
  | cons x a ih =>
    cases b with
    | nil => exact absurd ((List.cons.inj h).1 ▸ mem_cons_self) ha
    | cons y b =>
      obtain ⟨rfl, hrest⟩ := List.cons.inj h
      obtain ⟨rfl, rfl⟩ := ih (fun hm => ha (mem_cons_of_mem _ hm))
        (fun hm => hb (mem_cons_of_mem _ hm)) hrest
      exact ⟨rfl, rfl⟩

theorem joinComma_ne_nil {hs : List Bytes} (hd : AreDigests hs) (hne : hs ≠ []) :
    joinComma hs ≠ [] := by
  match hs, hne with
  | [h], _ => exact (hd h mem_cons_self).1
  | h :: h' :: hs, _ => simp [joinComma]

theorem joinComma_injective {a b : List Bytes} (ha : AreDigests a) (hb : AreDigests b)
    (hane : a ≠ []) (hbne : b ≠ []) (h : joinComma a = joinComma b) : a = b := by
  induction a generalizing b with
  | nil => exact absurd rfl hane
  | cons x a ih =>
    cases b with
    | nil => exact absurd rfl hbne
    | cons y b =>
      have hx := (ha x mem_cons_self).2
      have hy := (hb y mem_cons_self).2
      match a, b with
      | [], [] => exact congrArg (· :: []) h
      | [], y' :: b =>
        refine absurd ?_ hx
        rw [show x = y ++ comma :: joinComma (y' :: b) from h]
        exact mem_append_right _ mem_cons_self
      | x' :: a, [] =>
        refine absurd ?_ hy
        rw [show y = x ++ comma :: joinComma (x' :: a) from h.symm]
        exact mem_append_right _ mem_cons_self
      | x' :: a, y' :: b =>
        obtain ⟨rfl, hrest⟩ := append_comma_inj hx hy h
        rw [ih (fun h hm => ha h (mem_cons_of_mem _ hm))
          (fun h hm => hb h (mem_cons_of_mem _ hm)) (cons_ne_nil _ _)
          (cons_ne_nil _ _) hrest]

theorem compositeHash_injective {a b : List Bytes} (ha : AreDigests a) (hb : AreDigests b)
    (h : compositeHash a = compositeHash b) : a = b := by
  unfold compositeHash at h
  by_cases ha₀ : a = []
  · by_cases hb₀ : b = []
    · rw [ha₀, hb₀]
    · rw [if_pos ha₀, if_neg hb₀] at h
      exact absurd (sha256Hex_injective h).symm (joinComma_ne_nil hb hb₀)
  · by_cases hb₀ : b = []
    · rw [if_neg ha₀, if_pos hb₀] at h
      exact absurd (sha256Hex_injective h) (joinComma_ne_nil ha ha₀)
    · rw [if_neg ha₀, if_neg hb₀] at h
      exact joinComma_injective ha hb ha₀ hb₀ (sha256Hex_injective h)

/-! ## Manifests -/

/-- `defaultChunkSize`. -/
def defaultChunkSize : ℕ := 256 * 1024

/-- `defaultChunkThreshold`. -/
def defaultChunkThreshold : ℕ := 1024 * 1024

/-- The chunk size a function uses when it is given none. -/
def orDefault (chunkSize : ℕ) : ℕ := if chunkSize = 0 then defaultChunkSize else chunkSize

/-- `uploadChunkHashes`, and `streamChunkHashes` of a file with these bytes. -/
def uploadChunkHashes (data : Bytes) (chunkSize : ℕ) : List Bytes :=
  (chunks (orDefault chunkSize) data).map sha256Hex

/-- `diffChunkManifests`: the chunks that changed or are new, and whether there are fewer now. -/
def diffChunkManifests (oldHashes newHashes : List Bytes) : List ℕ × Bool :=
  ((List.range newHashes.length).filter fun i =>
      oldHashes.length ≤ i || oldHashes.getD i [] ≠ newHashes.getD i [],
    newHashes.length < oldHashes.length)

/-- `readChunkFromDisk` of a file with these bytes. -/
def readChunk (data : Bytes) (index chunkSize : ℕ) : Bytes := chunk (orDefault chunkSize) data index

theorem orDefault_pos (chunkSize : ℕ) : 0 < orDefault chunkSize := by
  unfold orDefault
  split_ifs with h
  · decide
  · omega

theorem orDefault_of_pos {chunkSize : ℕ} (h : 0 < chunkSize) : orDefault chunkSize = chunkSize :=
  if_neg (by omega)

variable {a b : Bytes} {c i : ℕ}

theorem areDigests_uploadChunkHashes (data : Bytes) (c : ℕ) :
    AreDigests (uploadChunkHashes data c) := .map_sha256Hex _

@[simp] theorem length_uploadChunkHashes :
    (uploadChunkHashes a c).length = chunkCount (orDefault c) a.length := by
  rw [uploadChunkHashes, length_map, length_chunks]

theorem getElem?_uploadChunkHashes : (uploadChunkHashes a c)[i]? =
    if i < chunkCount (orDefault c) a.length then some (sha256Hex (chunk (orDefault c) a i))
    else none := by
  rw [uploadChunkHashes, List.getElem?_map, getElem?_chunks]
  split_ifs <;> rfl

theorem uploadChunkHashes_injective (h : uploadChunkHashes a c = uploadChunkHashes b c) : a = b :=
  chunks_injective (orDefault_pos c)
    (map_injective_iff.mpr sha256Hex_injective h)

/-- The composite hash under one chunk size tells files apart. -/
theorem compositeHash_uploadChunkHashes_injective
    (h : compositeHash (uploadChunkHashes a c) = compositeHash (uploadChunkHashes b c)) : a = b :=
  uploadChunkHashes_injective (compositeHash_injective (areDigests_uploadChunkHashes a c)
    (areDigests_uploadChunkHashes b c) h)

theorem length_sha256Hex : (sha256Hex a).length = 2 * a.length + 1 := by
  rw [sha256Hex, length_cons, length_flatMap]
  simp [Nat.mul_comm]

theorem sum_length_digests (l : List Bytes) :
    ((l.map sha256Hex).map List.length).sum = 2 * (l.map List.length).sum + l.length := by
  induction l with
  | nil => rfl
  | cons a l ih =>
    simp only [map_cons, sum_cons, length_cons, length_sha256Hex, ih]
    omega

theorem sum_length_le_joinComma (hs : List Bytes) :
    (hs.map List.length).sum ≤ (joinComma hs).length := by
  induction hs with
  | nil => simp
  | cons h hs ih =>
    cases hs with
    | nil => simp [joinComma]
    | cons h' hs =>
      rw [map_cons, sum_cons, joinComma, length_append, length_cons]
      · omega
      · exact cons_ne_nil _ _

/-- The two hashes of a file differ, unless it is empty: the text of the chunk hashes is longer than
the file. -/
theorem compositeHash_ne_sha256Hex (ha : a ≠ []) :
    compositeHash (uploadChunkHashes a c) ≠ sha256Hex a := by
  have hpos := length_pos_iff.mpr ha
  have hlong : a.length < (joinComma (uploadChunkHashes a c)).length := by
    refine lt_of_lt_of_le ?_ (sum_length_le_joinComma _)
    rw [uploadChunkHashes, sum_length_digests, sum_length_chunks (orDefault_pos c)]
    omega
  unfold compositeHash
  split_ifs with hnil
  · exact fun h => ha (sha256Hex_injective h).symm
  · intro h
    rw [sha256Hex_injective h] at hlong
    exact lt_irrefl _ hlong

theorem mem_diffChunkManifests {old new : List Bytes} :
    i ∈ (diffChunkManifests old new).1 ↔ i < new.length ∧ old[i]? ≠ new[i]? := by
  rw [diffChunkManifests, mem_filter, mem_range]
  refine and_congr_right fun hi => ?_
  rw [Bool.or_eq_true, decide_eq_true_iff, decide_eq_true_iff]
  rw [List.getElem?_eq_getElem hi, getD_eq_getElem _ _ hi]
  by_cases hold : i < old.length
  · rw [List.getElem?_eq_getElem hold, getD_eq_getElem _ _ hold, ne_eq, ne_eq,
      Option.some.injEq]
    exact ⟨fun h => h.resolve_left (by omega), .inr⟩
  · rw [List.getElem?_eq_none (by omega)]
    exact ⟨fun _ => by simp, fun _ => .inl (by omega)⟩

end Afs.Sync
