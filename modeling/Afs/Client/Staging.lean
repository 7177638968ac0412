import Afs.Client.Publish

/-!
# Staging bytes

How an operation builds the value it will publish in a private key: whole files, byte ranges of
an open file (`native_range.go`) and chunk uploads (`publishChunks`). None of these commands
touches a live key.
-/

namespace Afs.Client

/-- A command on a stage whose reply is not looked at. -/
def stageDo (t : Token) (op : StageOp) : Op Unit := do
  let _ ← call (.stage t op)

/-- `writeArrayRange` on a stage. -/
def writeArrayRange (t : Token) (off : ℕ) (payload : Bytes) : Op Unit :=
  if payload = [] then pure ()
  else do
    let first := off / arrayChunkBytes
    let last := (off + payload.length - 1) / arrayChunkBytes
    let existing ← call (.stage t (.argetrange first last))
    stageDo t (.arset first
      (existing.chunks.mapIdx fun i value => patchChunk off payload (first + i) value))

/-- Cut the chunk at `index` down to its first `tail` bytes. -/
def trimChunk (t : Token) (index tail : ℕ) : Op Unit := do
  let r ← call (.stage t (.argetrange index index))
  match r.chunks with
  | [some raw] => stageDo t (.arset index [raw.take tail])
  | _ => pure ()

/-- `truncateArray` on a stage. -/
def truncateArray (t : Token) (oldSize newSize : ℕ) : Op Unit :=
  let oldChunks := chunkCountForSize oldSize
  let newChunks := chunkCountForSize newSize
  let tail := newSize % arrayChunkBytes
  if oldSize ≤ newSize then pure ()
  else if newSize = 0 then stageDo t .del
  else do
    onlyIf (tail ≠ 0) (trimChunk t (newChunks - 1) tail)
    onlyIf (newChunks < oldChunks) (stageDo t (.ardelrange newChunks (oldChunks - 1)))

/-! ## Ranges of an open file -/

/-- `rangeStageError`: a value of another type is a conflict if the inode has changed. -/
def rangeStageError {α : Type} (i : InodeData) (x : Op α) : Op α := do
  match ← attempt x with
  | .error (.message "WRONGTYPE") => do
    match ← attempt (call (.loadInode i.id)) with
    | .ok none => throw .writeConflict
    | .ok (some cur) =>
      if cur.revision ≠ i.revision then throw .writeConflict else throw (.message "WRONGTYPE")
    | .error _ => throw (.message "WRONGTYPE")
  | r => lift r

/-- The first half of `stageInodeRange`: the unchanged bytes. -/
def stageOldBytes (t : Token) (i : InodeData) (ref : ContentRef) : Op Unit := do
  if i.contentRef = some ref ∧ 0 < i.size then do
    let r ← call (.stage t (.copy i.id))
    if r.copied then pure () else throw .writeConflict
  else do
    let content ← (if 0 < i.size then rangeStageError i (loadContentExternal i.id i.contentRef)
      else pure [] : Op Bytes)
    stageDo t (if ref = .array ∧ content = [] then .arset 0 [[]] else .writeFull ref content)

/-- The second half of `stageInodeRange`: the payload, and the new end of the file. -/
def stageNewBytes (t : Token) (i : InodeData) (ref : ContentRef) (payload : Bytes)
    (off newSize : ℕ) : Op Unit :=
  let size := i.size.toNat
  if ref = .array then do
    rangeStageError i (writeArrayRange t off payload)
    onlyIf (newSize < size) (truncateArray t size newSize)
  else do
    onlyIf (payload ≠ []) (rangeStageError i (stageDo t (.setrange off payload)))
    if newSize < size then stageDo t (.shrink newSize)
    else onlyIf (size < newSize ∧ payload = []) (stageDo t (.setrange (newSize - 1) [0]))

/-- `stageInodeRange`: the inode with the form its staged value has. -/
def stageInodeRange (t : Token) (i : InodeData) (payload : Bytes) (off newSize : ℕ) :
    Op InodeData := do
  let next ← selectContentRef i
  stageOldBytes t i (next.contentRef.getD .ext)
  stageNewBytes t i (next.contentRef.getD .ext) payload off newSize
  onlyIf (newSize = 0) (stageDo t (.set []))
  pure next

/-- Where a range operation writes and the size the file has after it. -/
def rangeTarget (size : ℤ) (payload : Bytes) (off truncate : ℤ) : ℤ × ℤ :=
  let writeOffset := if off = -1 then size else off
  let newSize :=
    if 0 ≤ truncate then truncate
    else if payload ≠ [] then max size (writeOffset + payload.length)
    else size
  (writeOffset, newSize)

/-- The attempts of `changeInodeRange`: a rejected range is applied again to fresh bytes, unless
the caller bound an observation. `truncate` is `-1` for a write. -/
def changeInodeRange (ctx : Ctx) (id : Id) (payload : Bytes) (off truncate : ℤ) : ℕ → Op Unit
  | 0 => throw .writeConflict
  | attempts + 1 => do
    checkGeneration ctx
    match ← call (.loadInode id) with
    | none => throw .notFound
    | some i =>
      if i.type ≠ .file then throw .notFile
      else do
        lift (checkWriteCondition ctx i false)
        let p ← call (.inodePath id)
        let (writeOffset, newSize) := rangeTarget i.size payload off truncate
        if maxInt64 - writeOffset < payload.length then throw (.message "invalid range")
        else if (0 ≤ truncate ∧ newSize = i.size) ∨ (truncate < 0 ∧ payload = []) then pure ()
        else do
          let t ← call .newOriginID
          let r ← attempt <| withStage t do
            let next ← stageInodeRange t i payload writeOffset.toNat newSize.toNat
            let now ← call .nowMs
            let next := { next with size := newSize, mtimeMs := now, atimeMs := now, ctimeMs := now }
            let _ ← publishStagedFile { ctx with ranged := true } p next t false
              { chunkSize := some 0, chunkHashes := some [] }
            pure ()
          match r with
          | .error .writeConflict =>
            if ctx.expectedStat.isSome then throw .writeConflict
            else changeInodeRange ctx id payload off truncate attempts
          | r => lift r

/-- `WriteInodeAtPath`. -/
def writeInodeAt (ctx : Ctx) (id : Id) (payload : Bytes) (off : ℤ) : Op Unit :=
  if off < -1 ∨ (0 ≤ off ∧ maxInt64 - off < payload.length) then throw (.message "invalid range")
  else changeInodeRange ctx id payload off (-1) 32

/-- `TruncateInodeAtPath`. -/
def truncateInode (ctx : Ctx) (id : Id) (size : ℤ) : Op Unit :=
  if size < 0 then throw (.message "invalid size") else changeInodeRange ctx id [] 0 size 32

end Afs.Client
