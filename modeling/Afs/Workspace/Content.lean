import Afs.Workspace.Store

/-!
# File bytes

How `internal/rediscontent` lays the bytes of a file out in a Redis value: one string, or an Array
of chunks of at most `arrayChunkBytes` bytes in which missing chunks and the ends of short ones
read as zeros. The inode, not the value, knows the size.
-/

namespace Afs

/-- `ArrayChunkBytes`. -/
def arrayChunkBytes : ℕ := 4096

/-- `splitArrayChunks`; `fuel` is the number of bytes. -/
def splitChunks : ℕ → Bytes → List Bytes
  | 0, _ => []
  | _ + 1, [] => []
  | fuel + 1, data => data.take arrayChunkBytes :: splitChunks fuel (data.drop arrayChunkBytes)

@[inherit_doc splitChunks]
def splitArrayChunks (data : Bytes) : List Bytes := splitChunks data.length data

/-- `chunkCountForSize`. -/
def chunkCountForSize (size : ℕ) : ℕ := (size + arrayChunkBytes - 1) / arrayChunkBytes

/-- A chunk as a reader sees it: cut or filled up with zeros to the chunk size. -/
def fullChunk (c : Option Bytes) : Bytes :=
  let b := (c.getD []).take arrayChunkBytes
  b ++ List.replicate (arrayChunkBytes - b.length) 0

/-- `ARSET`: store values from index `i` on. -/
def arset (chunks : List (Option Bytes)) (i : ℕ) (values : List Bytes) : List (Option Bytes) :=
  let padded := chunks ++ List.replicate (i - chunks.length) none
  padded.take i ++ values.map some ++ padded.drop (i + values.length)

/-- `ARGETRANGE`, both ends included. -/
def argetrange (chunks : List (Option Bytes)) (first last : ℕ) : List (Option Bytes) :=
  (List.range (last + 1 - first)).map fun i => chunks.getD (first + i) none

/-- `ARDELRANGE`, both ends included. -/
def ardelrange (chunks : List (Option Bytes)) (first last : ℕ) : List (Option Bytes) :=
  chunks.mapIdx fun i c => if first ≤ i ∧ i ≤ last then none else c

/-- `arrayCommandBatchChunks`. -/
def arrayCommandBatchChunks : ℕ := 512

/-- Go's `copy` into the part of a buffer from `off` on. -/
def copyInto (buf : Bytes) (off : ℕ) (data : Bytes) : Bytes :=
  buf.take off ++ data ++ buf.drop (off + data.length)

/-- A loop over the values read from an Array, the first of them at `index`. -/
def eachValue (f : ℕ → Bytes → Option Bytes → Bytes) : ℕ → Bytes → List (Option Bytes) → Bytes
  | _, buf, [] => buf
  | index, buf, value :: values => eachValue f (index + 1) (f index buf value) values

/-- One value of `loadArray`. -/
def loadChunk (size index : ℕ) (buf : Bytes) : Option Bytes → Bytes
  | none => buf
  | some raw =>
    let offset := index * arrayChunkBytes
    let limit := min raw.length (size - offset)
    if limit = 0 then buf else copyInto buf offset (raw.take limit)

/-- The first and the last index of a batch. -/
def batchBounds (total b : ℕ) : ℕ × ℕ :=
  (b * arrayCommandBatchChunks, min (b * arrayCommandBatchChunks + arrayCommandBatchChunks) total - 1)

/-- The batches `loadArray` reads. -/
def loadBatches (size : ℕ) : List (ℕ × ℕ) :=
  let total := chunkCountForSize size
  (List.range ((total + arrayCommandBatchChunks - 1) / arrayCommandBatchChunks)).map
    (batchBounds total)

/-- One batch of `loadArray`. -/
def loadBatch (size : ℕ) (buf : Bytes) (batch : ℕ × ℕ) (values : List (Option Bytes)) : Bytes :=
  eachValue (loadChunk size) batch.1 buf values

/-- `loadArray`: the first `size` bytes of an Array. -/
def loadArray (chunks : List (Option Bytes)) (size : ℕ) : Bytes :=
  (loadBatches size).foldl
    (fun buf batch => loadBatch size buf batch (argetrange chunks batch.1 batch.2))
    (List.replicate size 0)

/-- One value of `readArrayRange`. -/
def readChunk (startByte endByte index : ℕ) (buf : Bytes) : Option Bytes → Bytes
  | none => buf
  | some raw =>
    let chunkStart := index * arrayChunkBytes
    let chunkEnd := chunkStart + arrayChunkBytes
    let segmentStart := max startByte chunkStart
    let segmentEnd := min endByte chunkEnd
    let srcStart := segmentStart - chunkStart
    let srcEnd := min raw.length (segmentEnd - chunkStart)
    if segmentEnd ≤ segmentStart ∨ srcEnd ≤ srcStart then buf
    else copyInto buf (segmentStart - startByte) ((raw.take srcEnd).drop srcStart)

/-- `readArrayRange`: the bytes from `startByte` to `endByte`. -/
def readArrayRange (chunks : List (Option Bytes)) (startByte endByte : ℕ) : Bytes :=
  if endByte ≤ startByte then []
  else
    let startChunk := startByte / arrayChunkBytes
    let endChunk := (endByte - 1) / arrayChunkBytes
    eachValue (readChunk startByte endByte) startChunk (List.replicate (endByte - startByte) 0)
      (argetrange chunks startChunk endChunk)

/-- One chunk of `writeArrayRange`: the old chunk with the part of the payload that falls into
it, cut to what is stored. -/
def patchChunk (off : ℕ) (payload : Bytes) (index : ℕ) (value : Option Bytes) : Bytes :=
  let raw := value.getD []
  let chunkStart := index * arrayChunkBytes
  let writeStart := max off chunkStart
  let writeEnd := min (off + payload.length) (chunkStart + arrayChunkBytes)
  let chunk := fullChunk value
  let chunk :=
    if writeStart < writeEnd then
      chunk.take (writeStart - chunkStart) ++
        ((payload.drop (writeStart - off)).take (writeEnd - writeStart)) ++
          chunk.drop (writeEnd - chunkStart)
    else chunk
  let storeLen := if chunkStart < writeEnd then max raw.length (writeEnd - chunkStart) else raw.length
  chunk.take (min storeLen arrayChunkBytes)

/-- `SETRANGE`: the gap before the offset is filled with zeros. -/
def setrange (b : Bytes) (off : ℕ) (data : Bytes) : Bytes :=
  if data = [] then b
  else
    let padded := b ++ List.replicate (off - b.length) 0
    padded.take off ++ data ++ padded.drop (off + data.length)

/-- `QueueWriteFull`: an empty Array has no key. -/
def writeFull (ref : ContentRef) (data : Bytes) : Option Body :=
  match ref with
  | .ext => some (.str data)
  | .array => if data = [] then none else some (.array ((splitArrayChunks data).map some))

end Afs
