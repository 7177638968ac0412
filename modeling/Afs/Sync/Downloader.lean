import Afs.Sync.Uploader

/-!
# The downloader

`sync_downloader.go`, `sync_remote_delete.go` and `sync_conflict.go`: the operations that bring a
remote change to the local folder. An operation looks at the local path, at the live tree, and at
the local path again before it replaces or removes anything. The expectations set for the watcher
and the checks of the root folder are left out.
-/

namespace Afs.Sync

/-- `downloadOpKind`. -/
inductive DownloadKind
  | file
  | symlink
  | mkdir
  | delete
  | chmod
  deriving DecidableEq, Repr

/-- `downloadOp`. -/
structure DownloadOp where
  kind : DownloadKind
  path : Path
  mode : ℕ := 0
  symlink : Bytes := []
  stored : Option SyncEntry := none
  conflict : Bool := false
  chunked : Bool := false
  fileSize : ℕ := 0
  chunkSize : ℕ := 0
  chunkHashes : List Bytes := []
  dirtyChunks : List ℕ := []

/-- How a download landed. -/
inductive DownloadOutcome
  | done
  | skipped
  | failed (e : SyncErr)
  deriving DecidableEq, Repr

/-- `downloadResult`. -/
structure DownloadResult where
  op : DownloadOp
  outcome : DownloadOutcome
  remoteHash : Bytes := []
  conflictPath : Option Path := none
  mode : ℕ := 0
  size : ℕ := 0
  mtimeMs : ℕ := 0
  localMtimeMs : ℕ := 0
  localInfo : Option FileInfo := none
  target : Bytes := []

/-! ## Looking at the local path -/

/-- `downloadLocalSnapshot`. -/
structure LocalSnapshot where
  info : Option FileInfo := none
  hash : Bytes := []
  baselineHash : Bytes := []
  target : Bytes := []
  deriving DecidableEq, Repr

/-- The chunk size of an entry that may be missing. -/
def storedChunkSize (stored : Option SyncEntry) : ℕ := (stored.map (·.chunkSize)).getD 0

/-- The second half of `snapshotDownloadLocal`, on a path that is there. -/
def snapshotNode (p : Path) (chunkSize : ℕ) (info : FileInfo) : Try LocalSnapshot :=
  match info.kind with
  | .symlink => do
    let target ← ofOs (Cmd.readlink p).issue
    pure { info := some info, target }
  | .file => do
    let data ← ofOs (Cmd.readFile p).issue
    if chunkSize = 0 then
      pure { info := some info, hash := sha256Hex data, baselineHash := sha256Hex data }
    else do
      -- the chunk hashes are read in a second pass
      let again ← ofOs (Cmd.readFile p).issue
      pure { info := some info, hash := sha256Hex data
             baselineHash := compositeHash (uploadChunkHashes again chunkSize) }
  | .dir => pure { info := some info }

/-- `snapshotDownloadLocal`. -/
def snapshotDownloadLocal (p : Path) (chunkSize : ℕ) : Try LocalSnapshot := do
  let info ← liftM (Cmd.lstat p).issue
  match info with
  | .error .notExist => pure {}
  | .error e => throw (.os e)
  | .ok info => snapshotNode p chunkSize info

/-- `unchanged`, given what `Lstat` reports now. -/
def LocalSnapshot.agrees (s : LocalSnapshot) (now : Except OsErr FileInfo) : Bool :=
  match s.info, now with
  | none, .error .notExist => true
  | some i, .ok j => i = j
  | _, _ => false

/-- `unchanged`. -/
def LocalSnapshot.unchanged (s : LocalSnapshot) (p : Path) : Act Bool := do
  let now ← (Cmd.lstat p).issue
  pure (s.agrees now)

/-- Whether what was seen of a path that is there is what an entry recorded. -/
def LocalSnapshot.isEntry (s : LocalSnapshot) (i : FileInfo) (e : SyncEntry) : Bool :=
  match i.kind with
  | .file => e.type = .file ∧ i.mode = e.mode % 0o1000 ∧ i.size = e.size ∧ e.localHash ≠ [] ∧
      (s.hash = e.localHash ∨ s.baselineHash = e.localHash)
  | .symlink => e.type = .symlink ∧ s.target = e.target
  | .dir => e.type = .dir ∧ i.mode = e.mode % 0o1000

/-- `matchesStored`. -/
def LocalSnapshot.matchesStored (s : LocalSnapshot) (stored : Option SyncEntry) : Bool :=
  match s.info with
  | none => stored.all (·.deleted)
  | some i => stored.any fun e => ¬ e.deleted ∧ s.isEntry i e

/-! ## Conflict copies -/

/-- The byte string of a text. -/
def text (s : String) : Bytes := s.toUTF8.toList

/-- `conflictPath`: a name next to the file, made of a number nobody has used. -/
def conflictPath (p : Path) (n : ℕ) : Path :=
  joinPath (parentOf p) (baseName p ++ text ".conflict-" ++ text (toString n))

/-- The name of a temporary file next to a path. -/
def tempPath (p : Path) (n : ℕ) : Path :=
  joinPath (parentOf p) (text "." ++ baseName p ++ text ".afssync.tmp." ++ text (toString n))

/-- `moveLocalToConflict`. -/
def moveLocalToConflict (p : Path) : Try (Option Path) := do
  let info ← liftM (Cmd.lstat p).issue
  match info with
  | .error .notExist => pure none
  | .error e => throw (.os e)
  | .ok _ => do
    let n ← liftM Cmd.unique.issue
    ofOs (Cmd.mkdirAll (parentOf (conflictPath p n))).issue
    ofOs (Cmd.rename p (conflictPath p n)).issue
    pure (some (conflictPath p n))

/-! ## Replacing a file -/

/-- Give up a temporary file. -/
def giveUp {α : Type} (temp : Path) (e : SyncErr) : Try α := do
  let _ ← liftM (Cmd.remove temp).issue
  throw e

/-- The first half of `writeLocalFile`: the bytes are staged in a file next to the destination, and
the destination is compared with what it was before. -/
def stageLocalFile (p : Path) (mode : ℕ) (write : Try Bytes) (beforeCommit : Try Unit) :
    Try Path := do
  ofOs (Cmd.mkdirAll (parentOf p)).issue
  let info ← liftM (Cmd.lstat p).issue
  let before ← match info with
    | .ok info => pure (some info)
    | .error .notExist => pure none
    | .error e => throw (.os e)
  let n ← liftM Cmd.unique.issue
  let data ← write
  ofOs (Cmd.make (tempPath p n) mode (.file data)).issue
  let ready ← liftM beforeCommit.run
  match ready with
  | .error e => giveUp (tempPath p n) e
  | .ok () =>
    let same ← liftM (LocalSnapshot.unchanged { info := before } p)
    if same then pure (tempPath p n) else giveUp (tempPath p n) .localChanged

/-- `writeLocalFile`: the conflict copy it made and the error it met. -/
def writeLocalFile (p : Path) (conflict : Bool) (mode : ℕ) (write : Try Bytes)
    (beforeCommit : Try Unit) : Act (Option Path × Option SyncErr) := do
  match ← (stageLocalFile p mode write beforeCommit).run with
  | .error e => pure (none, some e)
  | .ok temp =>
    match ← (if conflict then moveLocalToConflict p else pure none : Try _).run with
    | .error e => do
      let _ ← (Cmd.remove temp).issue
      pure (none, some e)
    | .ok copy =>
      match ← (Cmd.rename temp p).issue with
      | .ok () => pure (copy, none)
      | .error e => do
        let _ ← (Cmd.remove temp).issue
        pure (copy, some (.os e))

/-! ## Remote deletions -/

/-- Whether one local node is what its entry recorded, looked at twice. -/
def checkNode (p : Path) (stored : Option SyncEntry) : Try Bool := do
  let stored := stored.map fun e => { e with deleted := false }
  let snapshot ← snapshotDownloadLocal p (storedChunkSize stored)
  let same ← liftM (snapshot.unchanged p)
  pure (snapshot.matchesStored stored ∧ same)

/-- The walk of `preserveLocalDeleteConflict` from a path of the given type on, with a bound on its
depth; it ends at the first node that is not what its entry recorded. -/
def checkTree (lookup : Path → Option SyncEntry) :
    ℕ → Path → Kind → Option SyncEntry → Try Bool
  | 0, _, _, _ => throw .missing
  | depth + 1, p, kind, stored => do
    let same ← checkNode p stored
    if ¬ same then pure false
    else if kind ≠ .dir then pure true
    else do
      let names ← liftM (Cmd.readDir p).issue
      match names with
      | .error .notExist => pure true
      | .error e => throw (.os e)
      | .ok names => names.foldlM (fun same n =>
          if same then checkTree lookup depth (joinPath p n.1) n.2 (lookup (joinPath p n.1))
          else pure false) true

/-- `preserveLocalDeleteConflict`: a subtree with local changes moves to a conflict copy. -/
def preserveLocalDeleteConflict (depth : ℕ) (p : Path) (stored : Option SyncEntry)
    (lookup : Path → Option SyncEntry) : Try (Option Path) := do
  let info ← liftM (Cmd.lstat p).issue
  match info with
  | .error .notExist => pure none
  | .error e => throw (.os e)
  | .ok info =>
    let same ← checkTree lookup depth p info.kind stored
    if same then pure none else moveLocalToConflict p

/-- The entries without those at and under a path. -/
def SyncState.removeAll (s : SyncState) (p : Path) : SyncState :=
  { s with entries := s.entries.removeAll p }

/-- The end of `applySyncRemoteDelete` without a conflict copy: what was seen at first is removed. -/
def removeLocal (p : Path) (seen : LocalSnapshot) : Try Bool := do
  let same ← liftM (seen.unchanged p)
  if ¬ same then pure false
  else do
    let isDir := seen.info.any fun i => i.kind = .dir
    let r ← liftM (if isDir then (Cmd.removeAll p).issue else (Cmd.remove p).issue)
    match r with
    | .error .other => throw (.os .other)
    | _ => pure true

/-- `applySyncRemoteDelete`: the conflict copy it made, and whether it went through. The state stays
locked from its first look at it to the end. -/
def applySyncRemoteDelete (depth : ℕ) (p : Path) (stored : Option SyncEntry) :
    Try (Option Path × Bool) := do
  let s ← liftM (Cmd.update id).issue
  if ¬ s.isCurrent p stored then pure (none, false)
  else do
    let seen ← snapshotDownloadLocal p (storedChunkSize stored)
    let copy ← preserveLocalDeleteConflict depth p stored s.entry
    match copy with
    | none => do
      let removed ← removeLocal p seen
      if ¬ removed then pure (none, false)
      else do
        let _ ← liftM (Cmd.update (·.removeAll p)).issue
        pure (none, true)
    | some copy => do
      let there ← liftM (Cmd.lstat p).issue
      match there with
      | .error .notExist => do
        let _ ← liftM (Cmd.update (·.removeAll p)).issue
        pure (some copy, true)
      | _ => pure (some copy, false)

/-- `applyConfirmedSyncRemoteDelete`. -/
def applyConfirmedSyncRemoteDelete (depth : ℕ) (p : Path) (stored : Option SyncEntry) :
    Try (Option Path × Bool) := do
  let stat ← liftM (Cmd.stat p).issue
  match stat with
  | .error e => if e.isMissing then applySyncRemoteDelete depth p stored else throw (.client e)
  | .ok (some _) => pure (none, false)
  | .ok none => applySyncRemoteDelete depth p stored

/-! ## The operations -/

/-- The mode a download gives a file: a read-only mount takes the write bits away. -/
def downloadMode (cfg : Config) (mode : ℕ) : ℕ :=
  if cfg.readonly then mode &&& 0o37777777555 else mode

/-- `processDelete`. -/
def DownloadOp.processDelete (depth : ℕ) (op : DownloadOp) : Act DownloadResult := do
  match ← (applyConfirmedSyncRemoteDelete depth op.path op.stored).run with
  | .error e => pure { op, outcome := .failed e }
  | .ok (copy, done) =>
    pure { op, outcome := if done then .done else .skipped, conflictPath := copy }

/-- What stops a directory from being made at a local path that is there. -/
def DownloadOp.keepsDir (cfg : Config) (op : DownloadOp) (before : FileInfo) : Bool :=
  before.kind ≠ .dir ∨ (¬ cfg.readonly ∧ op.stored.any fun s =>
    s.type = .dir ∧ before.mode ≠ s.mode ∧ op.mode = s.mode)

/-- The end of `processMkdir`. -/
def DownloadOp.makeDir (op : DownloadOp) : Try FileInfo := do
  ofOs (Cmd.mkdirAll op.path).issue
  let _ ← ofOs (Cmd.lstat op.path).issue
  ofOs (Cmd.chmod op.path op.mode).issue
  ofOs (Cmd.lstat op.path).issue

/-- `processMkdir` with the mode of the directory found. -/
def DownloadOp.processDir (cfg : Config) (op : DownloadOp) : Act DownloadResult := do
  match ← (Cmd.lstat op.path).issue with
  | .error .other => pure { op, outcome := .failed (.os .other) }
  | before =>
    if before.toOption.any (op.keepsDir cfg) then pure { op, outcome := .skipped }
    else do
      match ← op.makeDir.run with
      | .error e => pure { op, outcome := .failed e }
      | .ok info => pure { op, outcome := .done, mode := op.mode, localInfo := some info }

/-- `processMkdir`. -/
def DownloadOp.processMkdir (cfg : Config) (op : DownloadOp) : Act DownloadResult := do
  match ← (Cmd.stat op.path).issue with
  | .error e => pure { op, outcome := .failed (.client e) }
  | .ok none => pure { op, outcome := .skipped }
  | .ok (some stat) =>
    if stat.type ≠ .dir then pure { op, outcome := .skipped }
    else DownloadOp.processDir cfg { op with mode := stat.mode }

/-- The result of a link that is in place. -/
def DownloadOp.linked (op : DownloadOp) (copy : Option Path) (info : FileInfo) : DownloadResult :=
  { op, outcome := .done, target := op.symlink, conflictPath := copy
    localMtimeMs := info.mtimeMs, localInfo := some info }

/-- The end of `processSymlink`: the link that was staged replaces what is there. -/
def DownloadOp.replaceLink (op : DownloadOp) (temp : Path) (wasDir : Bool) :
    Act (Option Path × Except SyncErr FileInfo) := do
  match ← (clear).run with
  | .error e => pure (none, .error e)
  | .ok copy =>
    match ← (Cmd.rename temp op.path).issue with
    | .error e => pure (copy, .error (.os e))
    | .ok () =>
      match ← (Cmd.lstat op.path).issue with
      | .error e => pure (copy, .error (.os e))
      | .ok info => pure (copy, .ok info)
where
  /-- Move a conflict aside, or take an empty directory away. -/
  clear : Try (Option Path) :=
    if op.conflict then moveLocalToConflict op.path
    else if wasDir then do
      ofOs (Cmd.remove op.path).issue
      pure none
    else pure none

/-- The middle of `processSymlink`: the link is staged next to its place, which is looked at again. -/
def DownloadOp.stageLink (op : DownloadOp) (seen : LocalSnapshot) : Act DownloadResult := do
  match ← (Cmd.mkdirAll (parentOf op.path)).issue with
  | .error e => pure { op, outcome := .failed (.os e) }
  | .ok () =>
    let n ← Cmd.unique.issue
    let temp := tempPath op.path n
    match ← (Cmd.make temp 0o777 (.symlink op.symlink)).issue with
    | .error e => pure { op, outcome := .failed (.os e) }
    | .ok () =>
      let info ← (Cmd.lstat op.path).issue
      let same ← seen.unchanged op.path
      if ¬ same then do
        let _ ← (Cmd.remove temp).issue
        pure { op, outcome := .skipped }
      else do
        match ← op.replaceLink temp (info.toOption.any fun i => i.kind = .dir) with
        | (copy, .error e) => do
          let _ ← (Cmd.remove temp).issue
          pure { op, outcome := .failed e, conflictPath := copy }
        | (copy, .ok info) => pure (op.linked copy info)

/-- `processSymlink` with the target known. -/
def DownloadOp.processLink (op : DownloadOp) (seen : LocalSnapshot) : Act DownloadResult := do
  let same ← seen.unchanged op.path
  if ¬ same then pure { op, outcome := .skipped }
  else
    match seen.info.filter fun i => i.kind = .symlink ∧ seen.target = op.symlink with
    | some info => pure (op.linked none info)
    | none =>
      if ¬ op.conflict ∧ ¬ seen.matchesStored op.stored then pure { op, outcome := .skipped }
      else op.stageLink seen

/-- `processSymlink`. -/
def DownloadOp.processSymlink (op : DownloadOp) : Act DownloadResult := do
  match ← (snapshotDownloadLocal op.path (storedChunkSize op.stored)).run with
  | .error e => pure { op, outcome := .failed e }
  | .ok seen =>
    if op.symlink ≠ [] then op.processLink seen
    else do
      match ← (Cmd.readlinkRemote op.path).issue with
      | .error e => pure { op, outcome := .failed (.client e) }
      | .ok target => DownloadOp.processLink { op with symlink := target } seen

/-- `sendFileResult`. -/
def DownloadOp.fileResult (op : DownloadOp) (stat : StatResult) (hash : Bytes)
    (copy : Option Path) (mode size : ℕ) : Act DownloadResult := do
  match ← (Cmd.lstat op.path).issue with
  | .error e => pure { op, outcome := .failed (.os e), conflictPath := copy }
  | .ok info =>
    pure { op, outcome := .done, remoteHash := hash, conflictPath := copy, mode, size
           mtimeMs := stat.mtime, localMtimeMs := info.mtimeMs, localInfo := some info }

/-- The result of a file that could not be replaced. -/
def DownloadOp.notWritten (op : DownloadOp) (copy : Option Path) (e : SyncErr) : DownloadResult :=
  { op, outcome := if e = .localChanged then .skipped else .failed e, conflictPath := copy }

/-- The end of `processFile`: the bytes read replace the local file. -/
def DownloadOp.replaceFile (cfg : Config) (op : DownloadOp) (seen : LocalSnapshot)
    (stat : StatResult) (data : Bytes) : Act DownloadResult := do
  let mode := downloadMode cfg stat.mode
  let same ← seen.unchanged op.path
  if ¬ same then pure { op, outcome := .skipped }
  else if seen.info.any fun i =>
      i.kind = .file ∧ seen.hash = sha256Hex data ∧ i.mode = mode % 0o1000 then
    op.fileResult stat (sha256Hex data) none mode data.length
  else if ¬ op.conflict ∧ ¬ seen.matchesStored op.stored then pure { op, outcome := .skipped }
  else do
    match ← writeLocalFile op.path op.conflict mode (pure data) (pure ()) with
    | (copy, some e) => pure (op.notWritten copy e)
    | (copy, none) => op.fileResult stat (sha256Hex data) copy mode data.length

/-- `processFile` of a file that is not chunked. -/
def DownloadOp.processWholeFile (cfg : Config) (depth : ℕ) (op : DownloadOp) :
    Act DownloadResult := do
  match ← (snapshotDownloadLocal op.path (storedChunkSize op.stored)).run with
  | .error e => pure { op, outcome := .failed e }
  | .ok seen =>
    match ← statOrNone op.path with
    | .error e => pure { op, outcome := .failed (.client e) }
    | .ok none =>
      let same ← seen.unchanged op.path
      if ¬ same ∨ ¬ seen.matchesStored op.stored then pure { op, outcome := .skipped }
      else DownloadOp.processDelete depth { op with kind := .delete }
    | .ok (some stat) =>
      match stat.type with
      | .dir => DownloadOp.processMkdir cfg { op with kind := .mkdir, mode := stat.mode }
      | .symlink =>
        match ← (Cmd.readlinkRemote op.path).issue with
        | .error e => pure { op, outcome := .failed (.client e) }
        | .ok target => DownloadOp.processSymlink { op with symlink := target }
      | .file =>
        match ← (Cmd.cat op.path).issue with
        | .error e => pure { op, outcome := .failed (.client e) }
        | .ok data => op.replaceFile cfg seen stat data

/-- An operation on the whole file in place of one on its chunks. -/
def DownloadOp.whole (op : DownloadOp) : DownloadOp :=
  { op with chunked := false, fileSize := 0, chunkSize := 0, chunkHashes := [], dirtyChunks := [] }

/-- The bytes of a chunked download: the chunks that changed, laid over the local file. -/
def DownloadOp.patch (op : DownloadOp) (pieces : List (ℕ × Bytes)) : Try Bytes := do
  let base ← liftM (Cmd.readFile op.path).issue
  match base with
  | .error .notExist => pure (resize 0 (overlay 0 op.chunkSize [] pieces) op.fileSize)
  | .error e => throw (.os e)
  | .ok base => pure (resize 0 (overlay 0 op.chunkSize base pieces) op.fileSize)

/-- Whether the chunks read are the ones announced. -/
def DownloadOp.announced (op : DownloadOp) (pieces : List (ℕ × Bytes)) : Bool :=
  op.dirtyChunks.all fun i => i < op.chunkHashes.length ∧
    sha256Hex ((pieces.lookup i).getD []) = op.chunkHashes.getD i []

/-- The end of `processChunkedFile`: the chunks read are laid over the local file. -/
def DownloadOp.patchFile (cfg : Config) (op : DownloadOp) (seen : LocalSnapshot)
    (stat : StatResult) (pieces : List (ℕ × Bytes)) : Act DownloadResult := do
  let mode := downloadMode cfg stat.mode
  let hash := compositeHash op.chunkHashes
  let same ← seen.unchanged op.path
  if ¬ same ∨ ¬ op.announced pieces then pure { op, outcome := .skipped }
  else if seen.info.any fun i =>
      seen.baselineHash = hash ∧ i.size = op.fileSize ∧ i.mode = mode % 0o1000 then
    op.fileResult stat hash none mode op.fileSize
  else do
    match ← writeLocalFile op.path op.conflict mode (op.patch pieces) (pure ()) with
    | (_, some e) => pure (op.notWritten none e)
    | (_, none) => op.fileResult stat hash none mode op.fileSize

/-- `processChunkedFile`. -/
def DownloadOp.processChunkedFile (cfg : Config) (depth : ℕ) (op : DownloadOp) :
    Act DownloadResult :=
  if op.conflict then op.whole.processWholeFile cfg depth
  else do
    match ← (snapshotDownloadLocal op.path (storedChunkSize op.stored)).run with
    | .error e => pure { op, outcome := .failed e }
    | .ok seen =>
      -- a delta needs the whole file it was made against
      if seen.info.isNone ∨ op.stored.all fun s => s.chunkSize ≠ op.chunkSize then
        op.whole.processWholeFile cfg depth
      else if ¬ seen.matchesStored op.stored then pure { op, outcome := .skipped }
      else do
        match ← statOrNone op.path with
        | .error e => pure { op, outcome := .failed (.client e) }
        | .ok none =>
          let same ← seen.unchanged op.path
          if ¬ same then pure { op, outcome := .skipped }
          else DownloadOp.processDelete depth { op with kind := .delete }
        | .ok (some stat) =>
          match ← (Cmd.readChunks op.path op.dirtyChunks op.chunkSize).issue with
          | .error e => pure { op, outcome := .failed (.client e) }
          | .ok pieces => op.patchFile cfg seen stat pieces

/-- `processChmod`. -/
def DownloadOp.processChmod (op : DownloadOp) : Act DownloadResult := do
  match ← (Cmd.chmod op.path op.mode).issue with
  | .error e => pure { op, outcome := .failed (.os e) }
  | .ok () => pure { op, outcome := .done, mode := op.mode }

/-- `process`. -/
def DownloadOp.process (cfg : Config) (depth : ℕ) (op : DownloadOp) : Act DownloadResult := do
  match ← (Cmd.stat []).issue with
  | .error e => pure { op, outcome := .failed (.client e) }
  | .ok _ =>
    match op.kind with
    | .file =>
      if op.chunked then op.processChunkedFile cfg depth else op.processWholeFile cfg depth
    | .symlink => op.processSymlink
    | .mkdir => op.processMkdir cfg
    | .delete => op.processDelete depth
    | .chmod => op.processChmod

end Afs.Sync
