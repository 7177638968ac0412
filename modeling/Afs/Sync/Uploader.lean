import Afs.Sync.Chunk
import Afs.Sync.Command

/-!
# The uploader

`sync_uploader.go`: the operations that bring a local change to the live tree. Each is a program
that ends with the result it sends to the reconciler. The check of the root folder before every
operation is left out.
-/

namespace Afs.Sync

/-- The settings of a daemon. `newReconciler` puts defaults for sizes that are not positive. -/
structure Config where
  chunkSize : ℕ
  chunkThreshold : ℕ
  maxFileBytes : ℕ
  readonly : Bool := false
  /-- `shouldIgnore`. -/
  ignored : Path → Bool := fun _ => false
  chunkSize_pos : 0 < chunkSize
  chunkThreshold_pos : 0 < chunkThreshold

/-- `uploadOpKind`. -/
inductive UploadKind
  | file
  | symlink
  | mkdir
  | delete
  | chmod
  | rename
  deriving DecidableEq, Repr

/-- `uploadOp`. -/
structure UploadOp where
  kind : UploadKind
  path : Path
  prevPath : Path := []
  content : Bytes := []
  mode : ℕ := 0
  symlink : Bytes := []
  localHash : Bytes := []
  localIdentity : ℕ := 0
  localMtimeMs : ℕ := 0
  stored : Option SyncEntry := none
  tracked : Bool := false
  renameVersion : ℕ := 0
  deleteVersion : ℕ := 0
  chunked : Bool := false
  fileSize : ℕ := 0
  chunkSize : ℕ := 0
  chunkHashes : List Bytes := []
  dirtyChunks : List ℕ := []

/-- Why an operation failed. -/
inductive SyncErr
  | client (e : ClientErr)
  | os (e : OsErr)
  | tooLarge
  | notDir
  | readonly
  | missing
  | localChanged
  deriving DecidableEq, Repr

/-- How an upload landed. -/
inductive Outcome
  | done
  | conflict
  | skipped
  | failed (e : SyncErr)
  deriving DecidableEq, Repr

/-- `uploadResult`. -/
structure UploadResult where
  op : UploadOp
  outcome : Outcome
  remoteStat : Option StatResult := none

/-- The size the local file had when it was staged. -/
def UploadOp.stagedSize (op : UploadOp) : ℕ := if op.chunked then op.fileSize else op.content.length

/-- The mode an upload publishes. -/
def defaultMode (mode : ℕ) : ℕ := if mode = 0 then 0o644 else mode

/-- Whether a file on disk still has the metadata it was staged with. -/
def UploadOp.staged (op : UploadOp) (info : FileInfo) : Bool :=
  info.kind = .file ∧ info.mtimeMs = op.localMtimeMs ∧ info.size = op.stagedSize ∧
    info.mode = op.mode ∧ (op.localIdentity ≠ 0 → info.ident = op.localIdentity)

/-- `queuedFileCurrent`: the result to send if the file is not what was staged. -/
def queuedFileCurrent (op : UploadOp) : Act (Option Outcome) :=
  if op.localMtimeMs = 0 then pure none
  else do
    let info ← (Cmd.lstat op.path).issue
    match info with
    | .error .other => pure (some (.failed (.os .other)))
    | .error .notExist => pure (some .skipped)
    | .ok info =>
      if ¬ op.staged info then pure (some .skipped)
      else if op.chunked then pure none
      else do
        let data ← (Cmd.readFile op.path).issue
        match data with
        | .error .other => pure (some (.failed (.os .other)))
        | .error .notExist => pure (some .skipped)
        | .ok data => pure (if data = op.content then none else some .skipped)

/-- Go on if the file is still what was staged. -/
def ifCurrent (op : UploadOp) (rest : Act UploadResult) : Act UploadResult := do
  match ← queuedFileCurrent op with
  | some outcome => pure ⟨op, outcome, none⟩
  | none => rest

/-- `Stat`, where a path that is not found is not an error. -/
def statOrNone (p : Path) : Act (Except ClientErr (Option StatResult)) := do
  match ← (Cmd.stat p).issue with
  | .ok stat => pure (.ok stat)
  | .error e => pure (if e.isNotFound then .ok none else .error e)

/-- Go on with what `Stat` shows. -/
def withStat (op : UploadOp) (rest : Option StatResult → Act UploadResult) : Act UploadResult := do
  match ← statOrNone op.path with
  | .ok stat => rest stat
  | .error e => pure ⟨op, .failed (.client e), none⟩

/-- `finishFileUpload`: the mode is published on its own, and its failure is ignored. -/
def finishFileUpload (op : UploadOp) (mode : ℕ) : Act UploadResult := do
  let _ ← (Cmd.chmodRemote {} op.path mode).issue
  match ← (Cmd.stat op.path).issue with
  | .ok stat => pure ⟨op, .done, stat⟩
  | .error e => pure ⟨op, .failed (.client e), none⟩

/-- The end of `finishMatchingFileUpload`, on the inode found. -/
def finishMatching (op : UploadOp) (mode : ℕ) (stat : StatResult) : Act UploadResult :=
  let differs := op.stored.any fun s => s.mode ≠ 0 ∧ stat.mode ≠ s.mode ∧ stat.mode ≠ mode
  if stat.type ≠ .file then pure ⟨op, .skipped, none⟩
  else if differs then
    if op.stored.any fun s => s.mode = mode then pure ⟨op, .skipped, none⟩
    else pure ⟨op, .conflict, stat⟩
  else finishFileUpload op mode

/-- `finishMatchingFileUpload`: the bytes are there already. -/
def finishMatchingFileUpload (op : UploadOp) (mode : ℕ) : Act UploadResult := do
  match ← (Cmd.stat op.path).issue with
  | .error e => pure ⟨op, .failed (.client e), none⟩
  | .ok stat => ifCurrent op (
    match stat with
    | none => pure ⟨op, .skipped, none⟩
    | some stat => finishMatching op mode stat)

/-! ## Parents -/

/-- Programs that may fail. -/
abbrev Try (α : Type) := ExceptT SyncErr (Prog sig) α

/-- A client call whose error ends the program. -/
def ofClient {α : Type} (p : Act (Except ClientErr α)) : Try α :=
  ExceptT.mk do
    match ← p with
    | .ok a => pure (.ok a)
    | .error e => pure (.error (.client e))

/-- A system call whose error ends the program. -/
def ofOs {α : Type} (p : Act (Except OsErr α)) : Try α :=
  ExceptT.mk do
    match ← p with
    | .ok a => pure (.ok a)
    | .error e => pure (.error (.os e))

/-- Make a directory with its local mode in the directory found before it, and look at it. -/
def publishParent (parent : StatResult) (next : Path) : Try (Option StatResult) := do
  let info ← ofOs (Cmd.lstat next).issue
  if info.kind ≠ .dir then throw .notDir
  let made ← liftM (Cmd.mkdirMode { parent := some (parentOf next, parent.inode) } next
    info.mode).issue
  match made with
  | .error e => if ¬ e.isAlreadyExists then throw (.client e)
  | .ok () => pure ()
  ofClient (Cmd.stat next).issue

/-- The directories from `cur` on, made as far as they are missing. -/
def publishParents : Path → StatResult → List Name → Try StatResult
  | _, parent, [] => pure parent
  | cur, parent, c :: rest => do
    let found ← ofClient (statOrNone (cur ++ [c]))
    let next ← if found.isNone then publishParent parent (cur ++ [c]) else pure found
    match next with
    | none => throw .notDir
    | some stat => if stat.type = .dir then publishParents (cur ++ [c]) stat rest else throw .notDir

/-- `prepareRemoteParent`: the directory an upload is bound to. -/
def prepareRemoteParent (p : Path) : Try Condition :=
  if parentOf p = [] then pure {}
  else do
    let found ← ofClient (statOrNone (parentOf p))
    match found with
    | some parent =>
      if parent.type = .dir then pure { parent := some (parentOf p, parent.inode) }
      else throw .notDir
    | none => do
      let root ← ofClient (Cmd.stat []).issue
      match root with
      | none => throw .notDir
      | some root => do
        if root.type ≠ .dir then throw .notDir
        let parent ← publishParents [] root (parentOf p)
        pure { parent := some (parentOf p, parent.inode) }

/-- Go on in the directory of an upload. -/
def inRemoteParent (op : UploadOp) (rest : Condition → Act UploadResult) : Act UploadResult := do
  match ← (prepareRemoteParent op.path).run with
  | .ok c => rest c
  | .error e => pure ⟨op, .failed e, none⟩

/-- An upload of a path that is missing goes into the directory made for it. -/
def inParentIfMissing (op : UploadOp) (stat : Option StatResult)
    (rest : Condition → Act UploadResult) : Act UploadResult :=
  match stat with
  | some _ => rest {}
  | none => inRemoteParent op fun c => ifCurrent op (rest c)

/-- The result of a publication that may have met another one. -/
def published (op : UploadOp) (r : Except ClientErr Unit) (rest : Act UploadResult) :
    Act UploadResult :=
  match r with
  | .ok () => rest
  | .error .writeConflict => pure ⟨op, .conflict, none⟩
  | .error e => pure ⟨op, .failed (.client e), none⟩

/-! ## Files -/

/-- Whether bytes are those of a baseline, by either of its hashes. -/
def matchesBaseline (s : SyncEntry) (data : Bytes) : Bool :=
  sha256Hex data = s.remoteHash ∨
    (0 < s.chunkSize ∧ compositeHash (uploadChunkHashes data s.chunkSize) = s.remoteHash)

/-- Whether the remote side has left a baseline, or there is none. -/
def leftBaseline (stored : Option SyncEntry) (isBaseline : SyncEntry → Bool) : Bool :=
  stored.all fun s => s.remoteHash ≠ [] ∧ ¬ isBaseline s

/-- The end of `processFile`: the bytes are published in place of what `Stat` has shown. -/
def publishFile (op : UploadOp) (stat : Option StatResult) : Act UploadResult :=
  ifCurrent op <| inParentIfMissing op stat fun c => do
    let r ← (Cmd.echo { c with stat := some stat } op.path op.content).issue
    published op r (finishFileUpload op (defaultMode op.mode))

/-- `processFile` of a file that is not chunked. -/
def processWholeFile (cfg : Config) (op : UploadOp) : Act UploadResult :=
  ifCurrent op <|
    if cfg.maxFileBytes < op.content.length then pure ⟨op, .failed .tooLarge, none⟩
    else withStat op fun stat =>
      match stat with
      | none => publishFile op none
      | some s => do
        match ← (Cmd.cat op.path).issue with
        | .error e => pure ⟨op, .failed (.client e), none⟩
        | .ok data =>
          ifCurrent op <|
            if sha256Hex data = op.localHash then finishMatchingFileUpload op (defaultMode op.mode)
            else if leftBaseline op.stored (matchesBaseline · data) then
              pure ⟨op, .conflict, some s⟩
            else publishFile op stat

/-- The dirty chunks of a file, read from disk as they are needed; the result to send if one of
them is not the one that was hashed. -/
def readDirtyChunks (op : UploadOp) : List ℕ → Act (Except Outcome (List (ℕ × Bytes)))
  | [] => pure (.ok [])
  | i :: rest => do
    match ← (Cmd.readFile op.path).issue with
    | .error e => pure (.error (.failed (.os e)))
    | .ok file =>
      let data := readChunk file i op.chunkSize
      if op.chunkHashes.length ≤ i ∨ op.chunkHashes.getD i [] ≠ sha256Hex data then
        pure (.error .skipped)
      else do
        match ← readDirtyChunks op rest with
        | .error o => pure (.error o)
        | .ok l => pure (.ok ((i, data) :: l))

/-- The end of `processChunkedFile`: the chunks that changed are published in place of what `Stat`
has shown. -/
def publishDirtyChunks (op : UploadOp) (stat : Option StatResult) (dirty : List ℕ) :
    Act UploadResult := do
  match ← readDirtyChunks op dirty with
  | .error o => pure ⟨op, o, none⟩
  | .ok pieces => ifCurrent op <| inParentIfMissing op stat fun c => do
    let r ← (Cmd.writeChunks { c with stat := some stat } op.path pieces op.chunkSize op.fileSize
      op.chunkHashes).issue
    published op r (finishFileUpload op op.mode)

/-- Whether bytes are those of a baseline, as `processChunkedFile` compares them. -/
def matchesChunkedBaseline (op : UploadOp) (s : SyncEntry) (data : Bytes) : Bool :=
  let chunkSize := if 0 < s.chunkSize then s.chunkSize else op.chunkSize
  sha256Hex data = s.remoteHash ∨
    compositeHash (uploadChunkHashes data chunkSize) = s.remoteHash

/-- `processChunkedFile`. -/
def processChunkedFile (op : UploadOp) : Act UploadResult :=
  ifCurrent op <| withStat op fun stat => do
    match ← (Cmd.chunkMeta op.path).issue with
    | .error e =>
      -- a missing file has no chunks to keep
      if e.isMissing then publishDirtyChunks op stat (List.range op.chunkHashes.length)
      else pure ⟨op, .failed (.client e), none⟩
    | .ok _ =>
      match ← (Cmd.cat op.path).issue with
      | .error e => pure ⟨op, .failed (.client e), none⟩
      | .ok data =>
        ifCurrent op <|
          if compositeHash (uploadChunkHashes data op.chunkSize) = op.localHash then
            finishMatchingFileUpload op op.mode
          else if leftBaseline op.stored (matchesChunkedBaseline op · data) then
            pure ⟨op, .conflict, stat⟩
          else publishDirtyChunks op stat op.dirtyChunks

/-- `processFile`. -/
def processFile (cfg : Config) (op : UploadOp) : Act UploadResult :=
  if op.chunked then processChunkedFile op else processWholeFile cfg op

/-! ## Links, directories, deletions and moves -/

/-- `syncRemoteMatchesStored`: whether an inode that `Stat` has shown is the baseline, by its type,
its permissions and what is read of it now. -/
def syncRemoteMatchesStored (p : Path) (stat : StatResult) (stored : Option SyncEntry) : Try Bool :=
  match stored with
  | none => pure false
  | some s =>
    if stat.type ≠ s.type ∨ (s.mode ≠ 0 ∧ stat.mode % 0o1000 ≠ s.mode % 0o1000) then pure false
    else
      match stat.type with
      | .file => do
        let data ← ofClient (Cmd.cat p).issue
        pure (matchesBaseline s data)
      | .symlink => do
        let target ← ofClient (Cmd.readlinkRemote p).issue
        pure (target = s.target)
      | .dir => pure true

/-- `syncUploadSymlink`: a link takes the place of the baseline. -/
def syncUploadSymlink (c : Condition) (p : Path) (target : Bytes) (stored : Option SyncEntry) :
    Try (Option StatResult) := do
  let existing ← ofClient (statOrNone p)
  match existing with
  | none => link
  | some stat => do
    let same ← isLink stat
    if same then pure (some stat)
    else do
      let isBaseline ← syncRemoteMatchesStored p stat stored
      if ¬ isBaseline then throw (.client .writeConflict)
      ofClient (Cmd.rm { c with stat := some (some stat) } p).issue
      link
where
  /-- Whether the link is there already. -/
  isLink (stat : StatResult) : Try Bool :=
    if stat.type = .symlink then do
      let remote ← ofClient (Cmd.readlinkRemote p).issue
      pure (remote = target)
    else pure false
  /-- Make the link at a name nobody has taken. -/
  link : Try (Option StatResult) := do
    let r ← liftM (Cmd.ln c target p).issue
    match r with
    | .error e => throw (.client (if e.isAlreadyExists then .writeConflict else e))
    | .ok () => ofClient (Cmd.stat p).issue

/-- `processSymlink`. -/
def processSymlink (op : UploadOp) : Act UploadResult := do
  match ← (Cmd.readlink op.path).issue with
  | .error _ => pure ⟨op, .skipped, none⟩
  | .ok target =>
    if target ≠ op.symlink then pure ⟨op, .skipped, none⟩
    else inRemoteParent op fun c => do
      match ← (syncUploadSymlink c op.path op.symlink op.stored).run with
      | .ok stat => pure ⟨op, .done, stat⟩
      | .error (.client .writeConflict) => pure ⟨op, .conflict, none⟩
      | .error e => pure ⟨op, .failed e, none⟩

/-- `processMkdir`. -/
def processMkdir (op : UploadOp) : Act UploadResult :=
  inRemoteParent op fun c => do
    let r ← (Cmd.mkdirMode c op.path op.mode).issue
    match r with
    | .error e => if e.isAlreadyExists then look else pure ⟨op, .failed (.client e), none⟩
    | .ok () => look
where
  /-- The directory as it is now; an error is ignored. -/
  look : Act UploadResult := do
    match ← (Cmd.stat op.path).issue with
    | .ok stat => pure ⟨op, .done, stat⟩
    | .error _ => pure ⟨op, .done, none⟩

/-- The end of `processDelete`: the inode that `Stat` has shown is removed. -/
def removeRemote (op : UploadOp) (stat : Option StatResult) : Act UploadResult := do
  match ← (Cmd.rm { stat := some stat } op.path).issue with
  | .ok () => pure ⟨op, .done, none⟩
  | .error .writeConflict => pure ⟨op, .conflict, none⟩
  | .error e => pure ⟨op, if e.isMissing then .done else .failed (.client e), none⟩

/-- `processDelete`: not if the path is there again, and only the baseline. -/
def processDelete (op : UploadOp) : Act UploadResult := do
  match ← (Cmd.lstat op.path).issue with
  | .ok _ => pure ⟨op, .skipped, none⟩
  | .error .other => pure ⟨op, .failed (.os .other), none⟩
  | .error .notExist =>
    match ← (Cmd.stat op.path).issue with
    | .error e => if e.isMissing then removeRemote op none else pure ⟨op, .failed (.client e), none⟩
    | .ok none => removeRemote op none
    | .ok (some stat) =>
      match ← (syncRemoteMatchesStored op.path stat op.stored).run with
      | .error e => pure ⟨op, .failed e, none⟩
      | .ok false => pure ⟨op, .conflict, some stat⟩
      | .ok true => removeRemote op (some stat)

/-- The end of `processRename`: the inode that `Stat` has shown moves to a free name. -/
def moveRemote (op : UploadOp) (before : Option StatResult) : Act UploadResult := do
  match ← (Cmd.renameRemote { stat := some before } op.prevPath op.path true).issue with
  | .error e =>
    if e = .writeConflict ∨ e.isAlreadyExists ∨ e.isMissing then pure ⟨op, .skipped, none⟩
    else pure ⟨op, .failed (.client e), none⟩
  | .ok () =>
    match ← (Cmd.stat op.path).issue with
    | .error e => pure ⟨op, .failed (.client e), none⟩
    | .ok stat => pure ⟨op, .done, stat⟩

/-- `processRename`. -/
def processRename (op : UploadOp) : Act UploadResult := do
  match ← statOrNone op.prevPath with
  | .error e => pure ⟨op, .failed (.client e), none⟩
  | .ok none => moveRemote op none
  | .ok (some before) =>
    match ← (syncRemoteMatchesStored op.prevPath before op.stored).run with
    | .error e => pure ⟨op, .failed e, none⟩
    | .ok false => pure ⟨op, .skipped, none⟩
    | .ok true => moveRemote op (some before)

/-- `queuedDirectoryModeCurrent`; directories opened for a moment are left out. -/
def queuedDirectoryModeCurrent (op : UploadOp) : Act Bool := do
  match ← (Cmd.lstat op.path).issue with
  | .error _ => pure false
  | .ok info => pure (info.kind = .dir ∧ info.mode = op.mode)

/-- The end of `processChmod`, on the inode found. -/
def chmodRemote (op : UploadOp) (stat : StatResult) : Act UploadResult := do
  let current ← queuedDirectoryModeCurrent op
  if ¬ current then pure ⟨op, .skipped, none⟩
  else if stat.mode = op.mode then pure ⟨op, .done, some stat⟩
  else do
    let r ← (Cmd.chmodRemote { stat := some (some stat) } op.path op.mode).issue
    published op r (pure ⟨op, .done, some { stat with mode := op.mode }⟩)

/-- `processChmod`. -/
def processChmod (op : UploadOp) : Act UploadResult := do
  let current ← queuedDirectoryModeCurrent op
  if ¬ current then pure ⟨op, .skipped, none⟩
  else do
    match ← (Cmd.stat op.path).issue with
    | .error e => pure ⟨op, .failed (.client e), none⟩
    | .ok none => pure ⟨op, .conflict, none⟩
    | .ok (some stat) =>
      match op.stored with
      | none => pure ⟨op, .conflict, some stat⟩
      | some s =>
        if stat.type ≠ .dir ∨ s.type ≠ .dir ∨ (stat.mode ≠ op.mode ∧ stat.mode ≠ s.mode) then
          pure ⟨op, .conflict, some stat⟩
        else chmodRemote op stat

/-- `process`. -/
def process (cfg : Config) (op : UploadOp) : Act UploadResult :=
  if cfg.readonly then pure ⟨op, .failed .readonly, none⟩
  else
    match op.kind with
    | .file => processFile cfg op
    | .symlink => processSymlink op
    | .mkdir => processMkdir op
    | .delete => processDelete op
    | .chmod => processChmod op
    | .rename => processRename op

end Afs.Sync
