import Afs.Client.Command

/-!
# Looking paths up

`checkGeneration`, `ensureRoot` and `resolvePath` of the client. Operations are programs that may
fail; `attempt` catches a failure, `ignore` drops one.
-/

namespace Afs.Client

/-- A client operation. -/
abbrev Op (α : Type) := ExceptT Err (Prog sig) α

/-- Issue one command. -/
def call (c : Cmd) : Op (Val c) := ExceptT.mk (Prog.call (S := sig) c)

/-- Run an operation and return how it ended. -/
def attempt {α : Type} (x : Op α) : Op (Except Err α) := ExceptT.mk (x.run >>= fun r => pure (.ok r))

/-- Run an operation whose failure is only logged. -/
def ignore {α : Type} (x : Op α) : Op Unit := do
  let _ ← attempt x
  pure ()

/-- A step taken only under a condition. -/
def onlyIf (b : Prop) [Decidable b] (x : Op Unit) : Op Unit := if b then x else pure ()

/-- A check that issues no command. -/
def lift {α : Type} (x : Except Err α) : Op α := ExceptT.mk (pure x)

section Rules

variable {α β τ : Type} {M : Prog.Monitor sig τ} {t : τ} {F : τ → Except Err β → Prop}

/-- The rule of `attempt`. -/
theorem track_caught {x : Op α} {E : τ → Except Err α → Prop} {k : Except Err α → Op β}
    (hx : Prog.Track M E t x.run) (hk : ∀ t r, E t r → Prog.Track M F t (k r).run) :
    Prog.Track M F t (attempt x >>= k).run := by
  refine Prog.Track.exceptBind (E := fun t r => ∃ r', r = .ok r' ∧ E t r') ?_ ?_ ?_
  · exact Prog.Track.bind hx fun _ r hr => ⟨r, rfl, hr⟩
  · rintro t r ⟨r', hr, hE⟩
    cases hr
    exact hk t r hE
  · rintro t e ⟨r', hr, -⟩
    cases hr

/-- The rule of a step that does not fail. -/
theorem track_then {x : Op Unit} {I : τ → Prop} {k : Unit → Op β}
    (hx : Prog.Track M (fun t r => I t ∧ r = .ok ()) t x.run)
    (hk : ∀ t, I t → Prog.Track M F t (k ()).run) : Prog.Track M F t (x >>= k).run := by
  refine Prog.Track.exceptBind hx (fun t a h => hk t h.1) ?_
  rintro t e ⟨-, he⟩
  cases he

theorem track_onlyIf {b : Prop} [Decidable b] {x : Op Unit} {F : τ → Except Err Unit → Prop}
    (hx : Prog.Track M F t x.run) (h : F t (.ok ())) : Prog.Track M F t (onlyIf b x).run := by
  unfold onlyIf
  split
  · exact hx
  · exact h

end Rules

/-- `checkGeneration`. -/
def checkGeneration (ctx : Ctx) : Op Unit :=
  if ctx.requestChecked then pure ()
  else
    match ctx.generation, ctx.lease with
    | none, _ => pure ()
    | some g, some lease => do
      let (actual, alive) ← call (.getGenerationAndLease lease)
      if actual ≠ some g ∨ g = .deleted then throw .workspaceChanged
      else if alive then pure ()
      else throw .nativeSessionLost
    | some g, none => do
      let actual ← call .getGeneration
      if actual ≠ some g ∨ actual = some .deleted then throw .workspaceChanged else pure ()

/-- `loadRootInode`. -/
def loadRootInode : Op (Option InodeData) := do
  match ← call (.cacheGet []) with
  | some root => pure (some root)
  | none =>
    match ← call (.loadInode rootInodeID) with
    | some root => do
      call (.cachePath [] root)
      pure (some root)
    | none => pure none

/-- The root `ensureRoot` creates, as the client caches it. -/
def freshRoot (now : ℤ) : InodeData :=
  { id := rootInodeID, type := .dir, mode := 0o755, ctimeMs := now, mtimeMs := now, atimeMs := now }

/-- `ensureRoot`: only an unmanaged client creates a missing root. -/
def ensureRoot (ctx : Ctx) : Op Unit := do
  checkGeneration ctx
  match ← loadRootInode with
  | some _ => pure ()
  | none => do
    let now ← call .nowMs
    call (.createRoot now)
    call (.cachePath [] (freshRoot now))

/-- `maxSymlinkDepth`. -/
def maxSymlinkDepth : ℕ := 40

/-- One component of a walk: from the cache, or through the directory entry. -/
def loadComponent (cur : InodeData) (nextPath : Path) (n : Name) : Op InodeData := do
  match ← call (.cacheGet nextPath) with
  | some inode => pure inode
  | none =>
    match ← call (.lookupChild cur.id n) with
    | none => throw .redisNil
    | some id =>
      match ← call (.loadInode id) with
      | none => throw .redisNil
      | some inode => do
        call (.cachePath nextPath inode)
        pure inode

/-- The loop of `resolvePath` over the components of one path. A symbolic link to follow hands
the directory it is in, its target and the components after it to `restart`. -/
def resolveLoop (followFinal : Bool)
    (restart : Path → Bytes → List Name → Op (Path × InodeData)) :
    Path → InodeData → List Name → Op (Path × InodeData)
  | curPath, cur, [] => pure (curPath, cur)
  | curPath, cur, n :: rest => do
    let nextPath := joinPath curPath n
    let inode ← loadComponent cur nextPath n
    if inode.type = .symlink ∧ (followFinal ∨ rest ≠ []) then restart curPath inode.target rest
    else if rest = [] then pure (nextPath, inode)
    else if inode.type ≠ .dir then throw .notDir
    else resolveLoop followFinal restart nextPath inode rest

/-- The path a symbolic link in directory `dir` leads to, with the components after it. -/
def linkPath (dir : Path) (target : Bytes) (rest : List Name) : Path :=
  cleanFrom (if target.head? = some slash then [] else dir) (splitSlash target ++ rest)

/-- `resolvePath` after `ensureRoot`, with the number of links it may still follow. -/
def resolveDepth (followFinal : Bool) : ℕ → Path → Op (Path × InodeData)
  | 0, p => do
    match ← loadRootInode with
    | none => throw .redisNil
    | some root =>
      resolveLoop followFinal
        (fun _ _ _ => throw (.message "too many levels of symbolic links")) [] root p
  | depth + 1, p => do
    match ← loadRootInode with
    | none => throw .redisNil
    | some root =>
      resolveLoop followFinal
        (fun dir target rest =>
          if target = [] then throw (.message "invalid symlink target")
          else resolveDepth followFinal depth (linkPath dir target rest)) [] root p

/-- `resolvePath`: the resolved path and its inode. -/
def resolvePath (ctx : Ctx) (p : Path) (followFinal : Bool) : Op (Path × InodeData) := do
  ensureRoot ctx
  resolveDepth followFinal maxSymlinkDepth p

/-- `loadInode`: a missing path is `none`. -/
def loadInode (ctx : Ctx) (p : Path) : Op (Option InodeData) := do
  match ← call (.cacheGet p) with
  | some inode => pure (some inode)
  | none =>
    match ← attempt (resolvePath ctx p false) with
    | .error .redisNil => pure none
    | .error e => throw e
    | .ok (resolved, inode) => do
      call (.cachePath resolved inode)
      onlyIf (resolved ≠ p) (call (.cachePath p inode))
      pure (some inode)

/-- `publishInvalidate`: a failed notification is only logged. -/
def publishInvalidate (ctx : Ctx) (op : InvalidateOp) (paths : List Path) : Op Unit :=
  if ctx.publishDisabled then pure () else ignore (call (.publishInvalidation op paths))

/-- `pruneHistory`: retention runs after a publication that wrote history. -/
def pruneHistory (code : ℤ) : Op Unit := if code = 3 then ignore (call .prune) else pure ()

/-- `markRootDirty`. -/
def markRootDirty : Op Unit := do
  if ← call .markThrottled then pure () else call .markRootDirty

/-- `allocInodeID`. -/
def allocInodeID (ctx : Ctx) : Op Id := do
  ensureRoot ctx
  call .incrNextInode

/-- `retryWatch`: up to `attempts` times while a watched key changes. -/
def retryWatch {α : Type} (block : Op α) : ℕ → Op α
  | 0 => throw .txFailed
  | attempts + 1 => do
    match ← attempt block with
    | .error .txFailed => retryWatch block attempts
    | r => lift r

/-- The number of attempts of `retryWatch`. -/
def watchAttempts : ℕ := 16

/-! ## Content -/

/-- The batches of `loadArray`. -/
def loadArrayBatches (id : Id) (size : ℕ) : List (ℕ × ℕ) → Bytes → Op Bytes
  | [], buf => pure buf
  | batch :: rest, buf => do
    let values ← call (.getChunks id batch.1 batch.2)
    loadArrayBatches id size rest (loadBatch size buf batch values)

/-- `loadContentExternal`: a string or an inline field is one read, an Array is read in batches. -/
def loadContentExternal (id : Id) : Option ContentRef → Op Bytes
  | some .ext => call (.getContent id)
  | some .array => do
    let size ← call (.loadInodeSize id)
    loadArrayBatches id size.toNat (loadBatches size.toNat) (List.replicate size.toNat 0)
  | none => call (.getInline id)

/-- `rediscontent.ReadRange` of the content of an inode. -/
def readRange (id : Id) (ref : ContentRef) (size off count : ℤ) : Op Bytes :=
  if count ≤ 0 ∨ size ≤ off then pure []
  else if off < 0 then throw (.message "invalid offset")
  else
    let startByte := off.toNat
    let endByte := (min (off + count) size).toNat
    match ref with
    | .ext => call (.getRange id startByte (endByte - 1))
    | .array => do
      let startChunk := startByte / arrayChunkBytes
      let values ← call (.getChunks id startChunk ((endByte - 1) / arrayChunkBytes))
      pure (eachValue (readChunk startByte endByte) startChunk
        (List.replicate (endByte - startByte) 0) values)

/-- The bytes `HashContent` reads at a time. -/
def hashBatch : ℕ := 1048576

/-- The loop of `HashContent`. -/
def hashBatches (id : Id) (ref : ContentRef) (size : ℕ) : List ℕ → Bytes → Op Bytes
  | [], acc => pure acc
  | k :: rest, acc => do
    let n := min hashBatch (size - k * hashBatch)
    let data ← readRange id ref size (k * hashBatch : ℕ) n
    if data.length ≠ n then throw (.message "history content has inconsistent size")
    else hashBatches id ref size rest (acc ++ data)

/-- `EXISTS` around the loop of `HashContent`. -/
def contentPresent (id : Id) (size : ℤ) (failure : String) : Op Unit :=
  onlyIf (0 < size) do
    let found ← call (.contentExists id)
    if found then pure () else throw (.message failure)

/-- `HashContent` of the content of an inode. -/
def hashLive (id : Id) (ref : ContentRef) (size : ℤ) : Op History.Hash :=
  if size < 0 then throw (.message "invalid history content size")
  else do
    contentPresent id size "history content is missing"
    let data ← hashBatches id ref size.toNat
      (List.range ((size.toNat + hashBatch - 1) / hashBatch)) []
    contentPresent id size "history content expired while hashing"
    pure (.sha data)

/-! ## Reads -/

/-- `Readlink`. -/
def readlink (ctx : Ctx) (p : Bytes) : Op Bytes := do
  let (_, inode) ← resolvePath ctx (normalizePath p) false
  if inode.type ≠ .symlink then throw .notSymlink else pure inode.target

/-- The attempts of `Cat`. Only an Array is checked against the inode it belongs to. -/
def catAttempts (ctx : Ctx) (p : Path) : ℕ → Op Bytes
  | 0 => throw .writeConflict
  | attempts + 1 => do
    let (_, inode) ← resolvePath ctx p true
    if inode.type ≠ .file then throw .notFile
    else do
      let content ← attempt (loadContentExternal inode.id inode.contentRef)
      if inode.contentRef = some .array then do
        let revision ← call (.getRevision inode.id)
        if revision.getD 0 ≠ inode.revision then catAttempts ctx p attempts else lift content
      else lift content

/-- `Cat`. -/
def cat (ctx : Ctx) (p : Bytes) : Op Bytes := catAttempts ctx (normalizePath p) 4

/-- The bytes of a range of an inode, as its metadata describes them. -/
def readInodeRange (i : InodeData) (off size : ℤ) : Op Bytes :=
  if off < i.size ∧ size ≠ 0 then
    match i.contentRef with
    | some ref => readRange i.id ref i.size off size
    | none => do
      let raw ← loadContentExternal i.id none
      pure (if off < raw.length then (raw.drop off.toNat).take size.toNat else [])
  else pure []

/-- The attempts of `ReadInodeAt`: the metadata is read again after the bytes. -/
def readInodeAttempts (ctx : Ctx) (id : Id) (off size : ℤ) : ℕ → Op Bytes
  | 0 => throw .writeConflict
  | attempts + 1 => do
    checkGeneration ctx
    match ← call (.loadInode id) with
    | none => throw .notFound
    | some i =>
      if i.type ≠ .file then throw .notFile
      else do
        let result ← attempt (readInodeRange i off size)
        match ← call (.loadInode id) with
        | none => throw .notFound
        | some current =>
          if current.revision ≠ i.revision then readInodeAttempts ctx id off size attempts
          else do
            let result ← lift result
            checkGeneration ctx
            pure result

/-- `math.MaxInt64`. -/
def maxInt64 : ℤ := 9223372036854775807

/-- `ReadInodeAt`. -/
def readInodeAt (ctx : Ctx) (inode : Id) (off size : ℤ) : Op Bytes :=
  if off < 0 ∨ size < 0 ∨ maxInt64 - off < size then throw (.message "invalid range")
  else readInodeAttempts ctx inode off size 16

end Afs.Client
