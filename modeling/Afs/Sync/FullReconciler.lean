import Mathlib.Data.List.Sort
import Afs.Sync.Downloader
import Afs.Sync.Plan

/-!
# Full reconciliation

`sync_full_reconciler.go` from `executePlan` on, with `sync_recovery_plan.go` and
`sync_directory_modes.go`: the actions of a plan, each looked at again before it is carried out, and
the passes made of them. The workers of the last phase are taken one after the other here; what one
of them may meet of the others is what it may meet of anybody.
-/

namespace Afs.Sync

/-! ## Whether a plan still applies -/

/-- A check that asks for a full sweep if it fails. -/
def orSweep (ok : Bool) : Act Bool :=
  if ok then pure true
  else do
    modifyState (·.requestFullSweep)
    pure false

/-- Whether a local path still is what the scan has seen. -/
def stillObserved (p : Path) (seen : Option ObservedMeta) : Act Bool := do
  match seen, ← (Cmd.lstat p).issue with
  | none, .error .notExist => pure true
  | some l, .ok info =>
    match l.kind with
    | .file => pure (info.kind = .file ∧ info.size = l.size ∧ info.mode = l.mode ∧
        info.mtimeMs = l.mtimeMs ∧ (l.mtimeNs ≠ 0 → info.mtime = l.mtimeNs))
    | .dir => pure (info.kind = .dir ∧ info.mode = l.mode)
    | .symlink => do
      let target ← (Cmd.readlink p).issue
      pure (info.kind = .symlink ∧ target.toOption = some l.target)
  | _, _ => pure false

/-- `actionStillCurrent`. -/
def actionStillCurrent (a : SyncAction) : Act Bool :=
  if ¬ a.checkState then pure true
  else do
    let pending ← deferScanForPendingUpload a.path
    if pending then pure false
    else do
      let s ← readState
      let same ← if s.isCurrent a.path a.stored then stillObserved a.path a.localMeta
        else pure false
      orSweep same

/-- Whether an inode is what the remote scan has seen. -/
def ObservedMeta.isStat (m : ObservedMeta) (stat : StatResult) : Bool :=
  stat.type = m.kind ∧ stat.size = m.size ∧ stat.mtime = m.mtimeMs ∧ stat.mode = m.mode

/-- Whether the remote side, as `Stat` shows it, still is what the scan has seen. -/
def SyncAction.stillRemote (a : SyncAction) (stat : Option StatResult) : Bool :=
  match stat, a.remoteMeta with
  | none, none => true
  | some stat, some m => m.isStat stat
  | _, _ => false

/-- `remoteStatStillCurrent`. -/
def remoteStatStillCurrent (a : SyncAction) : Try (Option StatResult × Bool) := do
  let stat ← ofClient (statOrNone a.path)
  let current ← liftM (orSweep (¬ a.checkState ∨ a.stillRemote stat))
  pure (stat, current)

/-- What `updateActionState` does to the state. -/
def SyncState.record (s : SyncState) (a : SyncAction) (e : SyncEntry) : SyncState :=
  if a.checkState ∧ ¬ s.isCurrent a.path a.stored then s.requestFullSweep else s.put a.path e

/-- `updateActionState`, with the time it is called. -/
def updateActionState (a : SyncAction) (e : SyncEntry) : Try Unit := do
  let now ← liftM Cmd.now.issue
  liftM (modifyState (·.record a { e with lastSyncedAt := now }))

/-- A client call that asks for a full sweep if it meets another publication. -/
def publishAction (c : Act (Except ClientErr Unit)) : Try Unit := do
  let r ← liftM c
  match r with
  | .ok () => pure ()
  | .error e => do
    let _ ← liftM (orSweep (e ≠ .writeConflict))
    throw (.client e)

/-! ## Actions on the local folder -/

/-- `execMkdirLocal`. -/
def execMkdirLocal (a : SyncAction) : Try Unit := do
  ofOs (Cmd.mkdirAll a.path).issue
  if a.mode ≠ 0 then ofOs (Cmd.chmod a.path a.mode).issue
  let _ ← ofOs (Cmd.lstat a.path).issue
  updateActionState a { type := .dir, mode := a.mode }

/-- The mode `execDownload` gives a file. -/
def SyncAction.fileMode (cfg : Config) (a : SyncAction) : ℕ :=
  if cfg.readonly then a.mode &&& 0o37777777555 else defaultMode a.mode

/-- The last check of `stageDownload`. -/
def downloadStillCurrent (a : SyncAction) : Try Unit := do
  let current ← liftM (actionStillCurrent a)
  if current then pure () else throw .localChanged

/-- The end of `execDownload`. -/
def recordFile (cfg : Config) (a : SyncAction) (data : Bytes) : Try Unit := do
  let info ← liftM (Cmd.lstat a.path).issue
  updateActionState a
    { type := .file, mode := a.fileMode cfg, size := data.length, localHash := sha256Hex data
      remoteHash := sha256Hex data, localMtimeMs := (info.toOption.map (·.mtimeMs)).getD 0
      remoteMtimeMs := (a.remoteMeta.map (·.mtimeMs)).getD 0 }

/-- The middle of `execDownload`: the bytes read replace the local file. -/
def stageDownload (cfg : Config) (a : SyncAction) (conflict : Bool) (data : Bytes) : Try Unit := do
  let written ← liftM (writeLocalFile a.path conflict (a.fileMode cfg) (pure data)
    (downloadStillCurrent a))
  let _ ← liftM (orSweep (written.1.isNone ∧ written.2 ≠ some .localChanged))
  match written.2 with
  | some .localChanged => pure ()
  | some e => throw e
  | none => recordFile cfg a data

/-- Whether the local file has the bytes already, and its permissions. -/
def localBytes (p : Path) (data : Bytes) : Act (Option ℕ) := do
  let bytes ← (Cmd.readFile p).issue
  let info ← (Cmd.lstat p).issue
  match bytes, info with
  | .ok bytes, .ok info =>
    pure (if info.kind = .file ∧ sha256Hex bytes = sha256Hex data then some info.mode else none)
  | _, _ => pure none

/-- `execDownload` with the bytes read. -/
def downloadBytes (cfg : Config) (a : SyncAction) (data : Bytes) : Try Unit := do
  let current ← liftM (actionStillCurrent a)
  if ¬ current then pure ()
  else do
    let mode ← liftM (localBytes a.path data)
    if mode = some (a.fileMode cfg) then recordFile cfg a data
    else stageDownload cfg a (a.conflict ∧ ¬ (cfg.readonly ∧ mode = some a.mode)) data

/-- `execDownload`. -/
def execDownload (cfg : Config) (a : SyncAction) : Try Unit := do
  let s ← liftM readState
  if (s.entry a.path).any (·.deleted) then pure ()
  else do
    let data ← liftM (Cmd.cat a.path).issue
    match data with
    | .error e => if e.isNotFound then pure () else throw (.client e)
    | .ok data => downloadBytes cfg a data

/-- The operation of the downloader that `execSymlinkDownload` borrows; a path that is known to be
missing is compared with no baseline. -/
def SyncAction.linkDownload (a : SyncAction) : DownloadOp where
  kind := .symlink
  path := a.path
  symlink := a.target
  stored := if a.checkState ∧ a.localMeta.isNone then none else a.stored
  conflict := a.conflict

/-- `execSymlinkDownload`. -/
def execSymlinkDownload (a : SyncAction) : Try Unit := do
  let res ← liftM a.linkDownload.processSymlink
  match res.outcome with
  | .failed e => throw e
  | .skipped => liftM (modifyState (·.requestFullSweep))
  | .done => do
    let _ ← liftM (orSweep res.conflictPath.isNone)
    let info ← liftM (Cmd.lstat a.path).issue
    updateActionState a
      { type := .symlink, target := res.target
        localIdentity := (info.toOption.map (·.ident)).getD 0 }

/-- `execDeleteLocal`. -/
def execDeleteLocal (depth : ℕ) (a : SyncAction) : Try Unit := do
  let r ← applyConfirmedSyncRemoteDelete depth a.path a.stored
  let _ ← liftM (orSweep (r.1.isNone ∧ r.2))

/-- `executeAction` of a download. -/
def executeDownload (cfg : Config) (a : SyncAction) : Try Unit := do
  let current ← liftM (actionStillCurrent a)
  if ¬ current then pure ()
  else
    match a.kind with
    | .mkdirLocal => execMkdirLocal a
    | .symlinkDownload => execSymlinkDownload a
    | _ => execDownload cfg a

/-! ## Actions on the live tree -/

/-- Go on with what `Stat` shows, if it is what the scan has seen. -/
def ifRemoteCurrent (a : SyncAction) (rest : Option StatResult → Try Unit) : Try Unit := do
  let r ← remoteStatStillCurrent a
  if r.2 then rest r.1 else pure ()

/-- `execMkdirRemote`. -/
def execMkdirRemote (a : SyncAction) : Try Unit :=
  ifRemoteCurrent a fun stat => do
    publishAction (match stat with
      | none => do
        let r ← (Cmd.mkdirMode {} a.path a.mode).issue
        match r with
        | .error .alreadyExists => pure (.ok ())
        | r => pure r
      | some stat => (Cmd.chmodRemote { stat := some (some stat) } a.path a.mode).issue)
    updateActionState a { type := .dir, mode := a.mode }

/-- The download that takes the place of a deletion whose baseline is gone, with the entry of the
path. -/
def SyncAction.insteadOfDelete (a : SyncAction) (stat : StatResult) (entry : Option SyncEntry) :
    SyncAction :=
  { planDownload a.path { kind := stat.type, mode := stat.mode, size := stat.size
                          mtimeMs := stat.mtime } false with
    checkState := true, stored := entry }

/-- The middle of `execDeleteRemote`: the remote side is not the baseline. -/
def keepRemote (cfg : Config) (a : SyncAction) (stat : StatResult) : Try Unit := do
  let s ← liftM (Cmd.update (·.unmarkDeleted a.path)).issue
  executeDownload cfg (a.insteadOfDelete stat ((s.unmarkDeleted a.path).entry a.path))

/-- What `execDeleteRemote` does to the state in the end: its own tombstone goes. -/
def SyncState.confirmDelete (s : SyncState) (a : SyncAction) : SyncState :=
  match s.entry a.path with
  | none => s.requestFullSweep
  | some e =>
    if e.deleted ∧ (a.checkState → e.version = (a.stored.map (·.version)).getD 0) then
      (s.remove a.path).requestFullSweep
    else s.requestFullSweep

/-- The end of `execDeleteRemote`: what `Stat` has shown is removed. -/
def removeBaseline (a : SyncAction) (stat : Option StatResult) : Try Unit := do
  let r ← liftM (Cmd.rm { stat := some stat } a.path).issue
  match r with
  | .error e =>
    if e.isMissing then liftM (modifyState (·.confirmDelete a))
    else do
      let _ ← liftM (orSweep (e ≠ .writeConflict))
      throw (.client e)
  | .ok () => liftM (modifyState (·.confirmDelete a))

/-- `execDeleteRemote`. -/
def execDeleteRemote (cfg : Config) (a : SyncAction) : Try Unit :=
  ifRemoteCurrent a fun stat =>
    match stat with
    | none => removeBaseline a none
    | some stat => do
      let isBaseline ← syncRemoteMatchesStored a.path stat a.stored
      if isBaseline then removeBaseline a (some stat) else keepRemote cfg a stat

/-- All chunks of a file. -/
def allChunks (data : Bytes) (chunkSize : ℕ) : List (ℕ × Bytes) :=
  (List.range (uploadChunkHashes data chunkSize).length).map fun i => (i, readChunk data i chunkSize)

/-- Whether recovery publishes a file by its chunks. -/
def Config.byChunks (cfg : Config) (data : Bytes) : Bool := cfg.chunkThreshold < data.length

/-- The publication of `execUpload`. -/
def publishBytes (cfg : Config) (p : Path) (stat : Option StatResult) (data : Bytes) :
    Act (Except ClientErr Unit) :=
  if cfg.byChunks data then
    (Cmd.writeChunks { stat := some stat } p (allChunks data cfg.chunkSize) cfg.chunkSize data.length
      (uploadChunkHashes data cfg.chunkSize)).issue
  else (Cmd.echo { stat := some stat } p data).issue

/-- The entry `execUpload` leaves. -/
def SyncAction.uploaded (cfg : Config) (a : SyncAction) (info : FileInfo) (data : Bytes)
    (stat : StatResult) : SyncEntry :=
  let hashes := uploadChunkHashes data cfg.chunkSize
  let hash := if cfg.byChunks data then compositeHash hashes else sha256Hex data
  { type := .file, mode := defaultMode a.mode, size := data.length, localHash := hash
    remoteHash := hash, localMtimeMs := info.mtimeMs, remoteMtimeMs := stat.mtime
    chunkSize := if cfg.byChunks data then cfg.chunkSize else 0
    chunkHashes := if cfg.byChunks data then hashes else [] }

/-- The second half of `execUpload`. -/
def uploadBytes (cfg : Config) (a : SyncAction) (info : FileInfo) (data : Bytes) : Try Unit := do
  let current ← liftM (actionStillCurrent a)
  if ¬ current then pure ()
  else ifRemoteCurrent a fun stat => do
    publishAction (publishBytes cfg a.path stat data)
    let _ ← liftM (Cmd.chmodRemote {} a.path (defaultMode a.mode)).issue
    let after ← ofClient (Cmd.stat a.path).issue
    match after with
    | none => throw .missing
    | some after => updateActionState a (a.uploaded cfg info data after)

/-- `execUpload`: a file that is gone or too large is left alone. -/
def execUpload (cfg : Config) (a : SyncAction) : Try Unit := do
  let info ← liftM (Cmd.lstat a.path).issue
  match info with
  | .error .notExist => pure ()
  | .error e => throw (.os e)
  | .ok info => do
    let data ← liftM (Cmd.readFile a.path).issue
    match data with
    | .error .notExist => pure ()
    | .error e => throw (.os e)
    | .ok data =>
      if cfg.maxFileBytes < data.length then pure () else uploadBytes cfg a info data

/-- `execSymlinkUpload`. -/
def execSymlinkUpload (a : SyncAction) : Try Unit := do
  let r ← liftM (syncUploadSymlink {} a.path a.target a.stored).run
  match r with
  | .error e => do
    let _ ← liftM (orSweep (e ≠ .client .writeConflict))
    throw e
  | .ok _ => updateActionState a { type := .symlink, target := a.target }

/-- Whether an action writes to the live tree. -/
def ActionKind.isRemote : ActionKind → Bool
  | .mkdirRemote | .upload | .symlinkUpload | .deleteRemote => true
  | _ => false

/-- `executeAction`. -/
def executeAction (cfg : Config) (depth : ℕ) (a : SyncAction) : Try Unit := do
  let current ← liftM (actionStillCurrent a)
  if ¬ current then pure ()
  else if cfg.readonly ∧ a.kind.isRemote then throw .readonly
  else
    match a.kind with
    | .mkdirLocal => execMkdirLocal a
    | .mkdirRemote => execMkdirRemote a
    | .download => execDownload cfg a
    | .upload => execUpload cfg a
    | .symlinkDownload => execSymlinkDownload a
    | .symlinkUpload => execSymlinkUpload a
    | .deleteRemote => execDeleteRemote cfg a
    | .deleteLocal => execDeleteLocal depth a

/-! ## Opening directories -/

/-- `syncDirectoryModes`: the directories that were looked at, and what those were that had to be
opened for their owner. -/
structure DirectoryModes where
  prepared : List Path := []
  changed : List (Path × FileInfo) := []

/-- One directory of `prepare`. A directory that is missing is made later. -/
def DirectoryModes.open (m : DirectoryModes) (p : Path) : Act (DirectoryModes × Option SyncErr) :=
  if p ∈ m.prepared then pure (m, none)
  else do
    match ← (Cmd.lstat p).issue with
    | .error .notExist => pure (m, none)
    | .error e => pure (m, some (.os e))
    | .ok info =>
      if info.kind ≠ .dir then pure (m, some .notDir)
      else if info.mode &&& 0o700 = 0o700 then pure ({ m with prepared := p :: m.prepared }, none)
      else do
        match ← (Cmd.chmod p (info.mode ||| 0o700)).issue with
        | .error e => pure (m, some (.os e))
        | .ok () => pure (⟨p :: m.prepared, (p, info) :: m.changed⟩, none)

/-- `prepare`: the directories down to a path, from the top; the root is left alone. -/
def DirectoryModes.prepare (m : DirectoryModes) (p : Path) :
    Act (DirectoryModes × Option SyncErr) :=
  p.inits.tail.foldlM (fun r q => if r.2.isSome then pure r else r.1.open q) (m, none)

/-- `restoreDirectoryMode`: a directory that was replaced or changed meanwhile keeps its mode. -/
def restoreDirectoryMode (p : Path) (before : FileInfo) : Act (Option SyncErr) := do
  match ← (Cmd.lstat p).issue with
  | .error .notExist => do
    modifyState (·.requestFullSweep)
    pure none
  | .error e => pure (some (.os e))
  | .ok info =>
    if info.ident ≠ before.ident ∨ info.kind ≠ .dir ∨ info.mode ≠ before.mode ||| 0o700 then do
      modifyState (·.requestFullSweep)
      pure none
    else do
      match ← (Cmd.chmod p before.mode).issue with
      | .error e => pure (some (.os e))
      | .ok () => pure none

/-- A path as the reconciler writes it. -/
def slashed (p : Path) : Bytes := List.intercalate [slash] p

/-- `restore`: from the last path to the first, whatever fails on the way. -/
def DirectoryModes.restore (m : DirectoryModes) : Act (Option SyncErr) :=
  (m.changed.insertionSort fun a b => slashed b.1 ≤ slashed a.1).foldlM (fun err d => do
    let e ← restoreDirectoryMode d.1 d.2
    pure (err <|> e)) none

/-! ## Passes -/

/-- What a phase of a plan has come to: the directories opened so far, and the error that ended
it. -/
abbrev Phase := DirectoryModes × Option SyncErr

/-- Go on with a phase that has not ended. -/
def Phase.andThen (r : Phase) (next : DirectoryModes → Act Phase) : Act Phase :=
  if r.2.isSome then pure r else next r.1

/-- The order of the directories of a plan: parents before children. -/
def SyncAction.shallower (a b : SyncAction) : Bool :=
  a.path.length < b.path.length ||
    (a.path.length = b.path.length && slashed a.path ≤ slashed b.path)

/-- Whether an action writes to the local folder outside the directories phase. -/
def ActionKind.needsParent : ActionKind → Bool
  | .download | .symlinkDownload | .deleteLocal => true
  | _ => false

section Passes

variable (cfg : Config) (depth : ℕ)

/-- An action as part of a phase. -/
def runAction (m : DirectoryModes) (a : SyncAction) : Act Phase := do
  match ← (executeAction cfg depth a).run with
  | .ok () => pure (m, none)
  | .error e => pure (m, some e)

/-- The directories phase on one action: a local directory is made in one that is open, and is
opened itself. -/
def makeDirectory (m : DirectoryModes) (a : SyncAction) : Act Phase :=
  if a.kind = .mkdirLocal then do
    let r ← m.prepare (parentOf a.path)
    let r ← Phase.andThen r (runAction cfg depth · a)
    Phase.andThen r (·.prepare a.path)
  else runAction cfg depth m a

/-- The phases of `executePlan`: directories from the top, deletions from the bottom, then files and
links. -/
def executePhases (plan : List SyncAction) : Act Phase := do
  let dirs := (plan.filter fun a => a.kind = .mkdirLocal ∨ a.kind = .mkdirRemote).insertionSort
    fun a b => a.shallower b
  let deletes := (plan.filter fun a => a.kind = .deleteLocal ∨ a.kind = .deleteRemote).insertionSort
    fun a b => b.shallower a
  let files := plan.filter fun a => a.kind = .download ∨ a.kind = .upload ∨
    a.kind = .symlinkDownload ∨ a.kind = .symlinkUpload
  let r ← dirs.foldlM (fun r a => Phase.andThen r (makeDirectory cfg depth · a)) ({}, none)
  let r ← (plan.filter (·.kind.needsParent)).foldlM
    (fun r a => Phase.andThen r (·.prepare (parentOf a.path))) r
  let r ← deletes.foldlM (fun r a => Phase.andThen r (runAction cfg depth · a)) r
  files.foldlM (fun r a => Phase.andThen r (runAction cfg depth · a)) r

/-- `executePlan`. -/
def executePlan (plan : List SyncAction) : Act (Option SyncErr) := do
  let r ← executePhases cfg depth plan
  let e ← r.1.restore
  pure (r.2 <|> e)

/-- How long a tombstone is kept, in milliseconds. -/
def tombstoneAge : ℕ := 5 * 60 * 1000

/-- The entries without tombstones that are too old. -/
def SyncState.cleanup (s : SyncState) (now : ℕ) : SyncState :=
  { s with entries := s.entries.only fun e => ¬ (e.deleted ∧ tombstoneAge < now - e.lastSyncedAt) }

/-- `cleanupTombstones`. -/
def cleanupTombstones : Act Unit := do
  let now ← Cmd.now.issue
  modifyState (·.cleanup now)

/-- The scans of `warmStart`, with the deletions found between them. -/
def scanBoth (o : MapOrder) : Try (Scan × Scan) := do
  let _ ← ofClient (Cmd.stat []).issue
  let found ← scanLocalMeta cfg depth
  liftM (detectOfflineDeletes cfg o found)
  let remote ← scanRemoteMeta cfg depth
  pure (found, remote)

/-- `warmStart`: the error it ends with. -/
def warmStart (o : MapOrder) : Act (Option SyncErr) := do
  match ← (scanBoth cfg depth o).run with
  | .error e => pure (some e)
  | .ok (found, remote) => do
    let plan ← buildPlan cfg o found remote
    let err ← if plan = [] then pure none else executePlan cfg depth plan
    cleanupTombstones
    pure err

end Passes

end Afs.Sync
