import Afs.Sync.Uploader

/-!
# The reconciler: local events and upload results

`sync_event_reconciler.go`, the half that looks at the local folder. A handler returns the uploads
it queues; whether there is room for them in the queue is not its business. The echoes of the
daemon's own writes are left out: a handler here is run for an event that is not one.
-/

namespace Afs.Sync

/-- A critical section that only looks. -/
def readState : Act SyncState := (Cmd.update id).issue

/-- A critical section. -/
def modifyState (f : SyncState → SyncState) : Act Unit := do
  let _ ← (Cmd.update f).issue
  pure ()

/-! ## Queueing -/

/-- `enqueueTrackedUpload`. -/
def enqueueTrackedUpload (op : UploadOp) : Act (List UploadOp) := do
  modifyState fun s =>
    if op.kind = .rename then (s.startUpload op.path).startUpload op.prevPath
    else s.startUpload op.path
  pure [{ op with tracked := true }]

/-- What `discardPendingRename` does to the state: a destination staged for a rename that did not
happen is forgotten. -/
def SyncState.discardPendingRename (s : SyncState) (op : UploadOp) : SyncState :=
  if op.kind ≠ .rename ∨ op.renameVersion = 0 then s
  else
    match s.entry op.path with
    | none => s
    | some e => if ¬ e.deleted ∧ e.version = op.renameVersion then s.remove op.path else s

/-- `deferScanForPendingUpload`: whether the path is being uploaded. -/
def deferScanForPendingUpload (p : Path) : Act Bool := do
  let s ← (Cmd.update (·.deferScan p)).issue
  pure (s.pending.lookup p).isSome

/-- `stageSyncEntry`: the version of the entry. -/
def stageSyncEntry (p : Path) (e : SyncEntry) : Act ℕ := do
  let now ← Cmd.now.issue
  let s ← (Cmd.update (·.put p { e with lastSyncedAt := now })).issue
  pure s.nextVersion

/-- `installPendingRename`. -/
def installPendingRename (p : Path) (localIdentity : ℕ) (e : SyncEntry) : Act ℕ :=
  stageSyncEntry p { e with
    deleted := false
    localIdentity := if localIdentity ≠ 0 then localIdentity else e.localIdentity }

/-! ## Renames -/

/-- `takeRenameCandidateForLocalFile` and `takeRenameCandidateForLocalSymlink`: the file that came
back as `p`, found by its key or as the only one that left the directory. -/
def takeRenameCandidate (p : Path) (type : Kind) (k : CandidateKey) (hasStored : Bool) :
    Act (Option RenameCandidate) :=
  if hasStored then pure none
  else do
    let now ← Cmd.now.issue
    let s ← (Cmd.update (·.forget k)).issue
    match s.candidate now k with
    | some c => pure (some c)
    | none => do
      let s ← (Cmd.update fun s => (s.fallback now p type).elim (s.fresh now) fun c =>
        (s.fresh now).forget c.key).issue
      pure (s.fallback now p type)

/-! ## Files -/

section Files

variable (cfg : Config)

/-- The upload of a file whose bytes are read in one piece, staged against a baseline. -/
def wholeUpload (p : Path) (info : FileInfo) (data : Bytes) (stored : Option SyncEntry) :
    UploadOp where
  kind := .file
  path := p
  content := data
  mode := info.mode
  localHash := sha256Hex data
  localIdentity := info.ident
  localMtimeMs := info.mtimeMs
  stored := stored

/-- The upload of the chunks of a file that differ from those of a baseline. -/
def chunkedUpload (p : Path) (info : FileInfo) (data : Bytes) (stored : Option SyncEntry) :
    UploadOp where
  kind := .file
  path := p
  mode := info.mode
  localHash := compositeHash (uploadChunkHashes data cfg.chunkSize)
  localIdentity := info.ident
  localMtimeMs := info.mtimeMs
  stored := stored
  chunked := true
  fileSize := data.length
  chunkSize := cfg.chunkSize
  chunkHashes := uploadChunkHashes data cfg.chunkSize
  dirtyChunks := (diffChunkManifests ((stored.map (·.chunkHashes)).getD [])
    (uploadChunkHashes data cfg.chunkSize)).1

/-- The upload of a file, whole or by its chunks. -/
def fileUpload (p : Path) (info : FileInfo) (data : Bytes) (stored : Option SyncEntry) : UploadOp :=
  if cfg.chunkThreshold < info.size then chunkedUpload cfg p info data stored
  else wholeUpload p info data stored

/-- The entry staged for a file that was renamed and changed in one go. -/
def renamedEntry (p : Path) (info : FileInfo) (data : Bytes) (c : SyncEntry) : SyncEntry :=
  let op := fileUpload cfg p info data none
  { type := .file
    mode := info.mode
    size := if op.chunked then data.length else info.size
    localHash := op.localHash
    localIdentity := info.ident
    localMtimeMs := info.mtimeMs
    remoteHash := c.remoteHash
    remoteMtimeMs := c.remoteMtimeMs
    chunkSize := op.chunkSize
    chunkHashes := op.chunkHashes }

/-- A file that came back under another name: its entry is staged at the new path before the remote
rename, and an edit follows as an upload of its own. -/
def renameFile (p : Path) (info : FileInfo) (data : Bytes) (c : RenameCandidate) :
    Act (List UploadOp) := do
  let op := fileUpload cfg p info data (some c.entry)
  let changed := op.localHash ≠ c.entry.localHash ∨ info.mode ≠ c.entry.mode
  let staged ← installPendingRename p info.ident c.entry
  let version ← if changed then stageSyncEntry p (renamedEntry cfg p info data c.entry)
    else pure staged
  let moved ← enqueueTrackedUpload
    { kind := .rename, path := p, prevPath := c.path, renameVersion := version, mode := info.mode
      localHash := c.entry.localHash, localIdentity := info.ident, localMtimeMs := info.mtimeMs
      stored := some c.entry }
  let written ← if changed then enqueueTrackedUpload op else pure []
  pure (moved ++ written)

/-- The key a file on disk is looked up by. -/
def fileKey (info : FileInfo) (hash : Bytes) (size : ℕ) : CandidateKey :=
  if info.ident ≠ 0 then .ident .file info.ident else .hash hash size

/-- `handleLocalFile`. -/
def handleLocalFile (p : Path) (info : FileInfo) : Act (List UploadOp) := do
  let pending ← deferScanForPendingUpload p
  if pending then pure []
  else if cfg.maxFileBytes < info.size then pure []
  else do
    let s ← readState
    let stored := s.entry p
    match ← (Cmd.readFile p).issue with
    | .error _ => pure []
    | .ok data =>
      let op := fileUpload cfg p info data stored
      let size := if op.chunked then data.length else info.size
      match ← takeRenameCandidate p .file (fileKey info op.localHash size) stored.isSome with
      | some c => renameFile cfg p info data c
      | none =>
        if stored.any fun e => e.localHash = op.localHash ∧ e.type = .file ∧ e.mode = info.mode then
          pure []
        else enqueueTrackedUpload op

end Files

/-! ## Upload results -/

/-- Whether a file on disk still has the metadata an entry recorded. -/
def SyncEntry.describes (e : SyncEntry) (info : FileInfo) : Bool :=
  info.kind = .file ∧ info.size = e.size ∧ info.mtimeMs = e.localMtimeMs ∧ info.mode = e.mode

/-- The hash an entry would record of the bytes. -/
def SyncEntry.hashOf (e : SyncEntry) (data : Bytes) : Bytes :=
  if 0 < e.chunkSize then compositeHash (uploadChunkHashes data e.chunkSize) else sha256Hex data

/-- `uploadResultObsolete`: whether a newer baseline was recorded while the result was queued, and
the local file still agrees with it. -/
def uploadResultObsolete (res : UploadResult) : Act Bool := do
  let s ← readState
  match s.entry res.op.path with
  | none => pure false
  | some e =>
    if e.deleted then pure true
    else if res.remoteStat.any fun stat => stat.mtime < e.remoteMtimeMs then pure true
    else if e.version = (res.op.stored.map (·.version)).getD 0 ∨ e.remoteHash = [] ∨
        e.remoteHash = res.op.localHash ∨ e.localHash ≠ e.remoteHash then pure false
    else do
      match ← (Cmd.lstat res.op.path).issue with
      | .error _ => pure false
      | .ok info =>
        if ¬ e.describes info then pure false
        else do
          match ← (Cmd.readFile res.op.path).issue with
          | .error _ => pure false
          | .ok data => pure (e.hashOf data = e.localHash)

/-- The first of two identities that is there. -/
def defaultIdentity (a b : ℕ) : ℕ := if a ≠ 0 then a else b

/-- The entry an upload leaves, whose result arrives at `now`. -/
def uploadedEntry (res : UploadResult) (now : ℕ) : SyncEntry :=
  let op := res.op
  let identity := defaultIdentity op.localIdentity ((op.stored.map (·.localIdentity)).getD 0)
  match op.kind with
  | .file =>
    { type := .file, mode := op.mode, size := op.stagedSize, localHash := op.localHash
      localIdentity := identity, remoteHash := op.localHash, lastSyncedAt := now
      chunkSize := op.chunkSize, chunkHashes := op.chunkHashes
      remoteMtimeMs := (res.remoteStat.map (·.mtime)).getD 0
      localMtimeMs := if res.remoteStat.isSome then op.localMtimeMs else 0 }
  | .symlink =>
    { type := .symlink, target := op.symlink, localIdentity := identity, lastSyncedAt := now
      remoteMtimeMs := (res.remoteStat.map (·.mtime)).getD 0
      localMtimeMs := (res.remoteStat.map (·.mtime)).getD 0 }
  | .mkdir => { type := .dir, mode := op.mode, lastSyncedAt := now }
  | _ =>
    let e := op.stored.getD { type := .file }
    { e with
      deleted := false, lastSyncedAt := now
      localIdentity := defaultIdentity op.localIdentity e.localIdentity
      remoteMtimeMs := (res.remoteStat.map (·.mtime)).getD e.remoteMtimeMs
      localMtimeMs := (res.remoteStat.map (·.mtime)).getD e.localMtimeMs }

/-- What a successful upload does to the state. -/
def SyncState.applyUpload (s : SyncState) (res : UploadResult) (now : ℕ) : SyncState :=
  let p := res.op.path
  match res.op.kind with
  | .file | .symlink | .mkdir => s.put p (uploadedEntry res now)
  | .delete =>
    let s := (res.op.stored.bind renameCandidateKey).elim s s.forget
    match s.entry p with
    | none => s.requestFullSweep
    | some e =>
      if e.deleted ∧ res.op.deleteVersion ≠ 0 ∧ e.version = res.op.deleteVersion then
        (s.remove p).requestFullSweep
      else s.requestFullSweep
  | .rename => (s.remove res.op.prevPath).put p (uploadedEntry res now)
  | .chmod =>
    match s.entry p, res.op.stored with
    | some e, some stored =>
      if e.deleted ∨ e.type ≠ .dir ∨ e.version ≠ stored.version then s.requestFullSweep
      else s.put p { e with mode := res.op.mode, lastSyncedAt := now }
    | _, _ => s.requestFullSweep

/-- The uploads a result was counted under are over. -/
def SyncState.settle (s : SyncState) (op : UploadOp) : SyncState :=
  if ¬ op.tracked then s
  else if op.kind = .rename then (s.finishUpload op.path).finishUpload op.prevPath
  else s.finishUpload op.path

@[simp] theorem SyncState.entry_settle (s : SyncState) (op : UploadOp) (q : Path) :
    (s.settle op).entry q = s.entry q := by
  unfold SyncState.settle
  split_ifs <;> simp

end Afs.Sync
