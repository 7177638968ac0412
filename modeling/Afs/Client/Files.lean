import Afs.Client.Staging
import Afs.Client.Tree

/-!
# File operations

Creating and writing files, attributes, chunk uploads, restoring a version, locks, and the type
`Request` of everything a client can be asked to do to a workspace.
-/

namespace Afs.Client

open History

/-! ## Creating and writing -/

/-- The file a concurrent creation has put at the path. -/
def existingFile (parent : Id) (p : Path) : Op InodeData := do
  match ← call (.lookupChild parent (baseName p)) with
  | none => throw .redisNil
  | some existing =>
    match ← call (.loadInode existing) with
    | none => throw .notFound
    | some i =>
      if i.type ≠ .file then throw .notFile
      else do
        call (.cachePath p i)
        pure i

/-- `createFileIfMissing`: the inode at the path and whether it was created. -/
def createFileIfMissing (ctx : Ctx) (p : Path) (content : Bytes) (mode : ℕ) (exclusive : Bool) :
    Op (InodeData × Bool) := do
  if p = [] then throw .cannotWriteRoot
  else do
    let (_, parent) ← resolvePath ctx (parentOf p) true
    if parent.type ≠ .dir then throw .parentConflict
    else do
      lift (checkExpectedParent ctx p parent.id)
      let id ← allocInodeID ctx
      let now ← call .nowMs
      let i ← selectContentRef
        { id := id, parent := parent.id, name := baseName p, type := .file, mode := mode
          size := content.length, ctimeMs := now, mtimeMs := now, atimeMs := now
          content := content }
      lift (checkWriteCondition ctx i true)
      let t ← stageFullFile i
      withStage t do
        match ← attempt (publishStagedFile ctx p i t true {}) with
        | .ok i => do
          call (.cachePath (parentOf p) { parent with mtimeMs := now, ctimeMs := now })
          publishInvalidate ctx .dir [parentOf p]
          publishInvalidate ctx .inode [p]
          pure (i, true)
        | .error .writeConflict =>
          if ctx.expectedStat.isSome ∨ ctx.expectedParents ≠ [] then throw .writeConflict
          else if exclusive then throw .alreadyExists
          else do
            let i ← existingFile parent.id p
            pure (i, false)
        | .error e => throw e

/-- `createFile`: a concurrent creation with other bytes is a conflict. -/
def createFile (ctx : Ctx) (p : Path) (content : Bytes) (mode : ℕ) : Op Unit := do
  let (i, created) ← createFileIfMissing ctx p content mode false
  if !created ∧ content ≠ [] then do
    let published ← loadContentExternal i.id i.contentRef
    if published ≠ content then throw .writeConflict else markRootDirty
  else markRootDirty

/-- `CreateFile`. -/
def createFileOp (ctx : Ctx) (path : Bytes) (mode : ℕ) (exclusive : Bool) : Op Unit := do
  let p := normalizePath path
  if p = [] then throw .cannotWriteRoot
  else do
    ensureParents ctx p
    let (i, created) ← createFileIfMissing ctx p [] mode exclusive
    call (.cachePath p i)
    onlyIf (created = true) markRootDirty

/-- Publish new bytes for a resolved file and notify. -/
def rewriteFile (ctx : Ctx) (resolved : Path) (i : InodeData) (content : Bytes) : Op Unit := do
  let now ← call .nowMs
  saveInode ctx resolved
    { i with content := content, size := content.length, mtimeMs := now, atimeMs := now }
  publishInvalidate ctx .content [resolved]
  markRootDirty

/-- `writeFileWithMode`. -/
def writeFileWithMode (ctx : Ctx) (path : Bytes) (data : Bytes) (mode : ℕ) : Op Unit := do
  let p := normalizePath path
  if p = [] then throw .cannotWriteRoot
  else do
    ensureParents ctx p
    match ← attempt (resolvePath ctx p true) with
    | .error .redisNil => createFile ctx p data mode
    | .error e => throw e
    | .ok (resolved, i) =>
      if i.type ≠ .file then throw .notFile
      else rewriteFile ctx resolved { i with mode := mode } data

/-- `writeFile`, which also appends. -/
def writeFile (ctx : Ctx) (path : Bytes) (data : Bytes) (append : Bool) : Op Unit := do
  let p := normalizePath path
  if p = [] then throw .cannotWriteRoot
  else
    match ← attempt (resolvePath ctx p true) with
    | .error .redisNil => do
      ensureParents ctx p
      createFile ctx p data 0o644
    | .error e => throw e
    | .ok (resolved, i) =>
      if i.type ≠ .file then throw .notFile
      else do
        let existing ← (if append then loadContentExternal i.id i.contentRef else pure [] : Op Bytes)
        rewriteFile ctx resolved i (existing ++ data)

/-- `Truncate`. -/
def truncate (ctx : Ctx) (path : Bytes) (size : ℤ) : Op Unit := do
  if size < 0 then throw (.message "invalid size")
  else do
    let (resolved, i) ← resolvePath ctx (normalizePath path) true
    if i.type ≠ .file then throw .notFile
    else do
      let content ← (if 0 < size then loadContentExternal i.id i.contentRef else pure [] : Op Bytes)
      rewriteFile ctx resolved i
        (content.take size.toNat ++ List.replicate (size.toNat - content.length) 0)

/-! ## Attributes -/

/-- Save changed attributes of a resolved inode and notify. -/
def saveAttributes (ctx : Ctx) (resolved : Path) (i : InodeData) : Op Unit := do
  saveInodeMeta ctx resolved i
  publishInvalidate ctx .inode [resolved]
  markRootDirty

/-- `Touch`. -/
def touch (ctx : Ctx) (path : Bytes) : Op Unit := do
  let p := normalizePath path
  if p = [] then throw .cannotWriteRoot
  else do
    ensureParents ctx p
    match ← attempt (resolvePath ctx p true) with
    | .error .redisNil => createFileOp ctx path 0o644 false
    | .error e => throw e
    | .ok (resolved, i) =>
      if i.type ≠ .file then throw .notFile
      else do
        let now ← call .nowMs
        saveAttributes ctx resolved { i with mtimeMs := now, atimeMs := now }

/-- `Chmod`. -/
def chmod (ctx : Ctx) (path : Bytes) (mode : ℕ) : Op Unit := do
  let (resolved, i) ← resolvePath ctx (normalizePath path) false
  saveAttributes ctx resolved { i with mode := mode }

/-- `Chown`. -/
def chown (ctx : Ctx) (path : Bytes) (uid gid : ℕ) : Op Unit := do
  let (resolved, i) ← resolvePath ctx (normalizePath path) false
  saveAttributes ctx resolved { i with uid := uid, gid := gid }

/-- `Utimens`: a negative time is left alone. -/
def utimens (ctx : Ctx) (path : Bytes) (atimeMs mtimeMs : ℤ) : Op Unit := do
  let (resolved, i) ← resolvePath ctx (normalizePath path) false
  saveAttributes ctx resolved
    { i with
      atimeMs := if 0 ≤ atimeMs then atimeMs else i.atimeMs
      mtimeMs := if 0 ≤ mtimeMs then mtimeMs else i.mtimeMs }

/-- `AttrUpdate`. -/
structure AttrUpdate where
  mode : Option ℕ := none
  uid : Option ℕ := none
  gid : Option ℕ := none
  atimeMs : Option ℤ := none
  mtimeMs : Option ℤ := none
  deriving DecidableEq

/-- `SetAttrs` writes only the fields that are given. -/
def setAttrs (ctx : Ctx) (path : Bytes) (u : AttrUpdate) : Op Unit := do
  if u = {} then pure ()
  else do
    let (resolved, i) ← resolvePath ctx (normalizePath path) false
    let next := { i with
      mode := u.mode.getD i.mode, uid := u.uid.getD i.uid, gid := u.gid.getD i.gid
      atimeMs := u.atimeMs.getD i.atimeMs, mtimeMs := u.mtimeMs.getD i.mtimeMs }
    let next ← updatePublishedInode ctx resolved next
      { mode := u.mode, uid := u.uid, gid := u.gid, atimeMs := u.atimeMs, mtimeMs := u.mtimeMs }
    call (.cachePath resolved next)
    publishInvalidate ctx .inode [resolved]
    markRootDirty

/-! ## Chunk uploads -/

/-- The chunks of an upload, by index. -/
abbrev Chunks := List (ℤ × Bytes)

/-- A new file has no unchanged chunks to copy, so every chunk must be there and complete. -/
def chunksComplete (chunks : Chunks) (chunkSize newSize : ℕ) : Bool :=
  (List.range ((newSize + chunkSize - 1) / chunkSize)).all fun i =>
    match chunks.lookup (i : ℤ) with
    | some data => data.length == min chunkSize (newSize - i * chunkSize)
    | none => false

/-- Write one chunk of an upload into a stage. -/
def writeChunk (t : Token) (ref : ContentRef) (off : ℕ) (data : Bytes) : Op Unit :=
  if ref = .array then writeArrayRange t off data else stageDo t (.setrange off data)

/-- Write the chunks of an upload into a stage, in order. -/
def writeChunksTo (t : Token) (ref : ContentRef) (chunkSize : ℕ) : Chunks → Op Unit
  | [] => pure ()
  | (idx, data) :: rest =>
    if idx < 0 then throw (.message "negative chunk index")
    else do
      writeChunk t ref (idx.toNat * chunkSize) data
      writeChunksTo t ref chunkSize rest

/-- The inode a chunk upload creates at a missing path. -/
def newChunkFile (ctx : Ctx) (p : Path) (chunks : Chunks) (chunkSize newSize : ℕ) :
    Op InodeData := do
  if chunkSize = 0 ∧ 0 < newSize then throw (.message "missing complete chunks for new file")
  else do
    ensureParents ctx p
    let (_, parent) ← resolvePath ctx (parentOf p) true
    let id ← allocInodeID ctx
    let now ← call .nowMs
    if chunksComplete chunks chunkSize newSize then
      pure { id := id, parent := parent.id, name := baseName p, type := .file, mode := 0o644
             ctimeMs := now, mtimeMs := now, atimeMs := now }
    else throw (.message "missing complete chunk for new file")

/-- The bytes a chunk upload starts from. -/
def stageChunkBase (t : Token) (creating : Bool) (original : InodeData) (ref : ContentRef) :
    Op Unit :=
  if !creating ∧ original.contentRef = some ref then stageDo t (.copy original.id)
  else do
    let content ← (if creating then pure []
      else loadContentExternal original.id original.contentRef : Op Bytes)
    stageDo t (.writeFull ref content)

/-- The staged value of a chunk upload. -/
def stageChunks (t : Token) (creating : Bool) (original : InodeData) (ref : ContentRef)
    (chunks : Chunks) (chunkSize newSize : ℕ) : Op Unit := do
  let size := original.size.toNat
  stageChunkBase t creating original ref
  onlyIf (ref = .array ∧ size = 0) (stageDo t (.arset 0 [[]]))
  writeChunksTo t ref chunkSize chunks
  onlyIf (newSize < size)
    (if ref = .array then truncateArray t size newSize else stageDo t (.shrink newSize))
  stageDo t (if newSize = 0 then .set [] else .expire)

/-- The file an upload goes to: its path, its inode, and whether it is to be created. -/
def chunkFile (ctx : Ctx) (p : Path) (chunks : Chunks) (chunkSize newSize : ℕ) :
    Op (Path × InodeData × Bool) := do
  match ← attempt (resolvePath ctx p true) with
  | .error .redisNil => do
    let i ← newChunkFile ctx p chunks chunkSize newSize
    pure (p, i, true)
  | .error e => throw e
  | .ok (resolved, i) => pure (resolved, i, false)

/-- `publishChunks`. -/
def publishChunks (ctx : Ctx) (path : Bytes) (chunks : Chunks) (chunkSize newSize : ℤ)
    (hashes : List Bytes) : Op Unit := do
  if chunkSize < 0 ∨ newSize < 0 ∨ (chunkSize = 0 ∧ chunks ≠ []) then
    throw (.message "invalid chunk size or file size")
  else do
    let p := normalizePath path
    let (resolved, i, creating) ← chunkFile ctx p chunks chunkSize.toNat newSize.toNat
    if i.type ≠ .file then throw .notFile
    else do
      lift (checkWriteCondition ctx i creating)
      let next ← selectContentRef i
      let t ← call .newOriginID
      withStage t do
        stageChunks t creating i (next.contentRef.getD .ext) chunks chunkSize.toNat newSize.toNat
        let now ← call .nowMs
        let _ ← publishStagedFile ctx resolved
          { next with size := newSize, mtimeMs := now, atimeMs := now } t creating
          { chunkSize := some chunkSize.toNat, chunkHashes := some hashes }
        publishInvalidate ctx .inode [resolved]
        onlyIf (creating = true) (publishInvalidate ctx .dir [parentOf resolved])

end Afs.Client
