import Afs.Sync.Downloader
import Afs.Sync.Plan

/-!
# The reconciler: remote events and results

`sync_event_reconciler.go`, the half that looks at the live tree and takes the results of the
workers. A handler returns the downloads it queues. A conflict checkpoint is a flag of the result.
-/

namespace Afs.Sync

/-! ## Remote events -/

/-- `detectConflict`: whether the local side has left the baseline. -/
def detectConflict (p : Path) (stored : Option SyncEntry) : Act Bool :=
  match stored with
  | none => pure false
  | some s => do
    match ← (Cmd.lstat p).issue with
    | .error _ => pure false
    | .ok info =>
      match info.kind with
      | .symlink =>
        match ← (Cmd.readlink p).issue with
        | .error _ => pure false
        | .ok target => pure (s.type = .symlink ∧ s.target ≠ target)
      | .dir => pure false
      | .file =>
        match ← (Cmd.readFile p).issue with
        | .error _ => pure false
        | .ok data => pure (s.localHash ≠ [] ∧ sha256Hex data ≠ s.localHash)

/-- The download of a file: its dirty chunks if the live tree has a manifest of it. -/
def fileDownload (p : Path) (stat : StatResult) (stored : Option SyncEntry) (conflict : Bool)
    (chunkMeta : Except ClientErr (ℕ × List Bytes)) : DownloadOp :=
  match chunkMeta with
  | .ok (chunkSize, hashes) =>
    if 0 < chunkSize ∧ hashes ≠ [] then
      { kind := .file, path := p, mode := stat.mode, stored, conflict, chunked := true
        fileSize := stat.size, chunkSize, chunkHashes := hashes
        dirtyChunks := (diffChunkManifests ((stored.map (·.chunkHashes)).getD []) hashes).1 }
    else { kind := .file, path := p, mode := stat.mode, stored, conflict }
  | .error _ => { kind := .file, path := p, mode := stat.mode, stored, conflict }

/-- The end of `handleRemoteEvent`, on a path that is there. -/
def remoteChanged (p : Path) (stat : StatResult) (stored : Option SyncEntry) :
    Act (List DownloadOp) := do
  let conflict ← detectConflict p stored
  match stat.type with
  | .dir => pure [{ kind := .mkdir, path := p, mode := stat.mode, stored }]
  | .symlink =>
    match ← (Cmd.readlinkRemote p).issue with
    | .error _ => pure []
    | .ok target => pure [{ kind := .symlink, path := p, symlink := target, stored, conflict }]
  | .file =>
    let chunkMeta ← (Cmd.chunkMeta p).issue
    pure [fileDownload p stat stored conflict chunkMeta]

/-- What a confirmed remote deletion does to the state: the entry takes a new version, so that plans
made before it no longer apply. -/
def SyncState.announceDelete (s : SyncState) (p : Path) (stored : SyncEntry) (now : ℕ) : SyncState :=
  match s.entry p with
  | none => s.requestFullSweep
  | some e =>
    if e.deleted ∨ e.version ≠ stored.version then s.requestFullSweep
    else s.put p { e with lastSyncedAt := now }

/-- The middle of `handleRemoteEvent`, on a path that is gone: it is looked at once more. -/
def remoteMissing (p : Path) (stored : SyncEntry) : Act (List DownloadOp) := do
  match ← (Cmd.stat p).issue with
  | .ok (some stat) => remoteChanged p stat (some stored)
  | .error e => if e.isMissing then confirmed else do
    modifyState (·.requestFullSweep)
    pure []
  | .ok none => confirmed
where
  /-- The path is gone. -/
  confirmed : Act (List DownloadOp) := do
    let now ← Cmd.now.issue
    let s ← (Cmd.update (·.announceDelete p stored now)).issue
    match s.entry p with
    | none => pure []
    | some e =>
      if e.deleted ∨ e.version ≠ stored.version then pure []
      else pure [{ kind := .delete, path := p
                   stored := some { e with lastSyncedAt := now, version := s.nextVersion } }]

/-- `handleRemoteEvent` of a path below the root. -/
def handleRemoteEvent (cfg : Config) (p : Path) : Act (List DownloadOp) :=
  if cfg.ignored p then pure []
  else do
    let s ← readState
    let stored := s.entry p
    if stored.any (·.deleted) then pure []
    else do
      match ← (Cmd.stat p).issue with
      | .ok (some stat) => remoteChanged p stat stored
      | .ok none => stored.elim (pure []) (remoteMissing p)
      | .error e => if e.isMissing then stored.elim (pure []) (remoteMissing p) else pure []

/-! ## Upload results -/

/-- A conflict of a deletion: the tombstone goes, and the path is looked at as after an event. -/
def deleteConflict (cfg : Config) (p : Path) : Act (List DownloadOp) := do
  modifyState fun s => if (s.entry p).any (·.deleted) then s.remove p else s
  handleRemoteEvent cfg p

/-- The kind of download that settles a conflict; none if a sweep has to. -/
def conflictKind (op : UploadOp) : Act (Option DownloadKind) :=
  if op.kind ≠ .symlink then pure (some .file)
  else do
    match ← (Cmd.stat op.path).issue with
    | .ok (some stat) =>
      match stat.type with
      | .dir => pure none
      | .symlink => pure (some .symlink)
      | .file => pure (some .file)
    | _ => pure none

/-- A conflict of anything else: the remote side wins, and the local one is moved aside. -/
def uploadConflict (op : UploadOp) : Act (List DownloadOp) := do
  match ← conflictKind op with
  | none => do
    modifyState (·.requestFullSweep)
    pure []
  | some kind => pure [{ kind, path := op.path, stored := op.stored, conflict := true }]

/-- The middle of `handleUploadResult`. -/
def applyUploadResult (cfg : Config) (res : UploadResult) : Act (List DownloadOp) := do
  let obsolete ← if res.op.kind = .file then uploadResultObsolete res else pure false
  if obsolete then do
    modifyState (·.requestFullSweep)
    pure []
  else
    match res.outcome with
    | .failed _ | .skipped => do
      modifyState (·.requestFullSweep)
      pure []
    | .conflict =>
      if res.op.kind = .delete then deleteConflict cfg res.op.path else uploadConflict res.op
    | .done => do
      let now ← Cmd.now.issue
      modifyState (·.applyUpload res now)
      -- a peer's directory keeps its own mode
      if res.op.kind = .mkdir ∧ res.remoteStat.any (·.mode ≠ res.op.mode) then
        handleRemoteEvent cfg res.op.path
      else pure []

/-- `handleUploadResult`. -/
def handleUploadResult (cfg : Config) (res : UploadResult) : Act (List DownloadOp) := do
  let ops ← if res.outcome = .skipped then do
      modifyState fun s => (s.discardPendingRename res.op).requestFullSweep
      pure []
    else applyUploadResult cfg res
  modifyState (·.settle res.op)
  pure ops

/-! ## Download results -/

/-- The entry a download leaves, given the identity of the local path now. -/
def downloadedEntry (res : DownloadResult) (ident now : ℕ) : SyncEntry :=
  match res.op.kind with
  | .symlink => { type := .symlink, target := res.target, localIdentity := ident, lastSyncedAt := now }
  | .mkdir => { type := .dir, mode := res.op.mode, lastSyncedAt := now }
  | _ =>
    { type := .file, mode := res.mode, size := res.size, localHash := res.remoteHash
      localIdentity := ident, remoteHash := res.remoteHash, localMtimeMs := res.localMtimeMs
      remoteMtimeMs := res.mtimeMs, lastSyncedAt := now, chunkSize := res.op.chunkSize
      chunkHashes := res.op.chunkHashes }

/-- What a successful download does to the state. -/
def SyncState.applyDownload (s : SyncState) (res : DownloadResult) (ident now : ℕ) : SyncState :=
  match res.op.kind with
  | .file | .symlink | .mkdir => s.put res.op.path (downloadedEntry res ident now)
  | .chmod =>
    match s.entry res.op.path with
    | none => s
    | some e => s.put res.op.path { e with mode := res.mode, lastSyncedAt := now }
  | .delete => s

/-- `localCandidateUnchanged`: whether the path still is what the download left there. -/
def localCandidateUnchanged (res : DownloadResult) : Act Bool := do
  match res.localInfo with
  | none => pure false
  | some info =>
    let first ← LocalSnapshot.unchanged { info := some info } res.op.path
    if ¬ first then pure false
    else do
      match ← (snapshotDownloadLocal res.op.path res.op.chunkSize).run with
      | .error _ => pure false
      | .ok seen =>
        let same ← seen.unchanged res.op.path
        let still ← LocalSnapshot.unchanged { info := some info } res.op.path
        pure (same ∧ still ∧ seen.info.any fun i =>
          match res.op.kind with
          | .file => i.kind = .file ∧ res.remoteHash ≠ [] ∧
              (seen.hash = res.remoteHash ∨ seen.baselineHash = res.remoteHash)
          | .symlink => i.kind = .symlink ∧ seen.target = res.target
          | .mkdir => i.kind = .dir
          | _ => false)

/-- The end of `handleDownloadResult`: the tombstone of a path that was deleted meanwhile stays, or
the entry is recorded. -/
def recordDownload (res : DownloadResult) : Act Unit := do
  let s ← readState
  if (s.entry res.op.path).any (·.deleted) then do
    let mine ← localCandidateUnchanged res
    if mine then do
      let _ ← (Cmd.remove res.op.path).issue
      modifyState (·.requestFullSweep)
    else modifyState (·.requestFullSweep)
  else do
    let info ← (Cmd.lstat res.op.path).issue
    let now ← Cmd.now.issue
    modifyState (·.applyDownload res ((info.toOption.map (·.ident)).getD 0) now)

/-- `handleDownloadResult`: whether it makes a conflict checkpoint. -/
def handleDownloadResult (cfg : Config) (res : DownloadResult) : Act Bool := do
  if res.conflictPath.isSome then modifyState (·.requestFullSweep)
  match res.outcome with
  | .skipped => do
    modifyState (·.requestFullSweep)
    pure false
  | .failed _ => pure false
  | .done =>
    if res.op.kind ≠ .delete then recordDownload res
    pure (res.conflictPath.isSome ∧ ¬ cfg.readonly)

/-! ## Local deletions -/

/-- What `handleLocalDelete` does to the state: the entry becomes a tombstone, and a candidate for a
rename. -/
def SyncState.localDelete (s : SyncState) (p : Path) (now : ℕ) : SyncState :=
  match s.entry p with
  | none => s
  | some e =>
    if e.deleted then s
    else
      let s := s.put p { e with deleted := true, lastSyncedAt := now }
      match renameCandidateKey e with
      | none => s
      | some key => s.remember ⟨key, p, e, now⟩

/-- `handleLocalDelete`: the upload it queues. One for a candidate waits, and is dropped if the
candidate is taken meanwhile. -/
def handleLocalDelete (cfg : Config) (p : Path) : Act (List UploadOp) :=
  if cfg.readonly then pure []
  else do
    let now ← Cmd.now.issue
    let s ← (Cmd.update (·.localDelete p now)).issue
    match s.entry p with
    | none => pure []
    | some e =>
      if e.deleted then pure []
      else pure [{ kind := .delete, path := p, stored := some e, deleteVersion := s.nextVersion }]

/-! ## Local events -/

/-- The key a link on disk is looked up by. -/
def linkKey (info : FileInfo) (target : Bytes) : CandidateKey :=
  if info.ident ≠ 0 then .ident .symlink info.ident else .target target

/-- `handleLocalSymlink`. -/
def handleLocalSymlink (p : Path) : Act (List UploadOp) := do
  let pending ← deferScanForPendingUpload p
  if pending then pure []
  else do
    match ← (Cmd.readlink p).issue with
    | .error _ => pure []
    | .ok target =>
      match ← (Cmd.lstat p).issue with
      | .error _ => pure []
      | .ok info => do
        let s ← readState
        match ← takeRenameCandidate p .symlink (linkKey info target) (s.entry p).isSome with
        | some c => do
          let version ← installPendingRename p info.ident c.entry
          enqueueTrackedUpload
            { kind := .rename, path := p, prevPath := c.path, renameVersion := version
              symlink := target, localIdentity := info.ident, stored := some c.entry }
        | none =>
          if (s.entry p).any fun e => e.type = .symlink ∧ e.target = target then pure []
          else
            enqueueTrackedUpload
              { kind := .symlink, path := p, symlink := target, localIdentity := info.ident
                stored := s.entry p }

/-- `handleLocalDelete` of several paths. -/
def handleLocalDeletes (cfg : Config) : List Path → Act (List UploadOp)
  | [] => pure []
  | p :: rest => do
    let ops ← handleLocalDelete cfg p
    let more ← handleLocalDeletes cfg rest
    pure (ops ++ more)

/-- `reconcileLocalDirDeletes`: the files and links recorded under a directory that are not there. -/
def reconcileLocalDirDeletes (cfg : Config) (o : MapOrder) (p : Path) : Act (List UploadOp) := do
  let s ← readState
  let gone ← missingLocally ((o.order s.entries.keys).filter fun q =>
    (s.entry q).any (fun e => ¬ e.deleted ∧ e.type ≠ .dir) ∧ p <+: q ∧ q ≠ p)
  handleLocalDeletes cfg gone

/-- The end of `handleLocalDir`, with the entry that was there at first. -/
def queueDirectory (cfg : Config) (p : Path) (mode : ℕ) (stored : Option SyncEntry) :
    Act (List UploadOp) := do
  let pending ← deferScanForPendingUpload p
  let known := stored.any fun e => e.type = .dir ∧ ¬ e.deleted
  if pending ∨ (known ∧ stored.any (·.mode = mode)) ∨ cfg.readonly then pure []
  else enqueueTrackedUpload { kind := if known then .chmod else .mkdir, path := p, mode, stored }

/-- `handleLocalDir`. -/
def handleLocalDir (cfg : Config) (o : MapOrder) (p : Path) (info : FileInfo) :
    Act (List UploadOp) := do
  let s ← readState
  let deletes ← reconcileLocalDirDeletes cfg o p
  let ops ← queueDirectory cfg p info.mode (s.entry p)
  pure (deletes ++ ops)

/-- `handleLocalEvent` of a path below the root. -/
def handleLocalEvent (cfg : Config) (o : MapOrder) (p : Path) : Act (List UploadOp) :=
  if cfg.readonly ∨ cfg.ignored p then pure []
  else do
    match ← (Cmd.lstat p).issue with
    | .error .notExist => handleLocalDelete cfg p
    | .error _ => pure []
    | .ok info =>
      match info.kind with
      | .symlink => handleLocalSymlink p
      | .dir => handleLocalDir cfg o p info
      | .file => handleLocalFile cfg p info

end Afs.Sync
