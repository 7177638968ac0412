import Afs.ControlPlane.Snapshot

/-!
# Checkpoints

Finding, saving and deleting checkpoints, and the other writer of a workspace's metadata.
-/

namespace Afs.ControlPlane

open History

/-! ## Finding a checkpoint -/

/-- `resolveWorkspaceMeta`. -/
def resolveWorkspaceMeta : Op WorkspaceMeta := required .notExist (call .getMeta)

/-- `ValidateName`. -/
def validateName (n : CheckpointId) : Op Unit :=
  lift (if isName n then .ok () else .error (.message "name is invalid"))

/-- `GetSavepointMeta`. -/
def getSavepointMeta (n : CheckpointId) : Op (Option SavepointMeta) := do
  let _ ← resolveWorkspaceMeta
  call (.getSavepoint n)

/-- `GetManifest`. -/
def getManifest (n : CheckpointId) : Op Manifest := do
  let _ ← resolveWorkspaceMeta
  required .notExist (call (.getManifest n))

/-- The metadata of the checkpoints in a list, those that have gone left out. -/
def readSavepoints : List CheckpointId → Op (List SavepointMeta)
  | [] => pure []
  | n :: rest => do
    let cp ← call (.getSavepoint n)
    let tail ← readSavepoints rest
    pure (cp.toList ++ tail)

/-- `ListSavepoints`; the limit `0` is none. -/
def listSavepoints (limit : ℕ) : Op (List SavepointMeta) := do
  let _ ← resolveWorkspaceMeta
  let ids ← call .listSavepoints
  readSavepoints (if limit = 0 then ids else ids.take limit)

/-- The name `latest`. -/
def latest : CheckpointId := ascii ['l', 'a', 't', 'e', 's', 't']

/-- The checkpoint a reference stands for. -/
def checkpointRef (ref : CheckpointId) : Op CheckpointId :=
  if ref = [] ∨ ref = latest then do
    match ← listSavepoints 1 with
    | cp :: _ => pure cp.id
    | [] => throw (.message "workspace has no checkpoints")
  else pure ref

/-- The checkpoint with an identity, or else the first one with that name. -/
def findSavepoint (ref : CheckpointId) : Op SavepointMeta := do
  match ← getSavepointMeta ref with
  | some cp => pure cp
  | none => do
    let all ← listSavepoints 0
    required .notExist (pure (all.find? fun candidate => candidate.name = ref))

/-- `GetCheckpoint`. -/
def getCheckpoint (ref : CheckpointId) : Op (SavepointMeta × Manifest) := do
  let _ ← resolveWorkspaceMeta
  let ref ← checkpointRef ref
  validateName ref
  let cp ← findSavepoint ref
  let m ← getManifest cp.id
  pure (cp, m)

/-! ## Saving a checkpoint -/

/-- `SaveCheckpointRequest`. -/
structure SaveCheckpointRequest where
  expectedChangesID : Option ℕ
  importLockToken : Option Token
  expectedGeneration : Option Generation
  expectedHead : CheckpointId
  checkpointID : CheckpointId
  manifest : Manifest
  blobs : AList fun _ : Hash => Bytes
  allowUnchanged : Bool

/-- The import lock is the caller's own, or nobody's. -/
def checkLock (token : Option Token) : Op Unit := do
  match token, ← call .getLock with
  | some _, none => throw .redisNil
  | some t, some t' => if t' = t then pure () else throw .importInProgress
  | none, some _ => throw .importInProgress
  | none, none => pure ()

/-- `SaveBlobs`. -/
def saveBlobs : List (Hash × Bytes) → Op Unit
  | [] => pure ()
  | (h, data) :: rest => do
    call (.setBlobNX h data)
    saveBlobs rest

/-- The reference of one more checkpoint to a blob. -/
def countRef (size : ℤ) (ref : Option BlobRef) : BlobRef :=
  let ref := ref.getD ⟨size, 0⟩
  { size := if ref.size = 0 then size else ref.size, refCount := ref.refCount + 1 }

/-- The references a save writes; they are read inside the transaction, but not watched. -/
def readRefs : List (Hash × ℤ) → Op (List (Hash × BlobRef))
  | [] => pure []
  | (h, size) :: rest => do
    let ref ← call (.getBlobRef h)
    let tail ← readRefs rest
    pure ((h, countRef size ref) :: tail)

/-- The generation is still the one the save started under. -/
def checkGeneration : Option Generation → Op Unit
  | none => pure ()
  | some g => do
    let generation ← required .redisNil (call .getGeneration)
    if generation = g then pure () else throw .workspaceConflict

/-- The change stream has not grown since the tree was read. -/
def checkChanges : Option ℕ → Op Unit
  | none => pure ()
  | some id => do
    let latest ← call .latestChange
    if latest = id then pure () else throw .workspaceConflict

/-- What the transaction of a save checks, and the metadata it goes on with. -/
def checkSave (input : SaveCheckpointRequest) : Op WorkspaceMeta := do
  let current ← resolveWorkspaceMeta
  checkGeneration input.expectedGeneration
  checkChanges input.expectedChangesID
  checkLock input.importLockToken
  if current.headSavepoint = input.expectedHead then pure current else throw .workspaceConflict

/-- The transaction of `saveCheckpoint`. -/
def saveTransaction (input : SaveCheckpointRequest) (now : ℤ) : Op Unit := do
  let stamp ← call .watch
  let current ← checkSave input
  let existing ← call (.getSavepoint input.checkpointID)
  if existing.isSome then
    throw (.message "savepoint already exists")
  else do
    let refs ← readRefs ((manifestBlobRefs input.manifest).entries.map fun e => (e.1, e.2))
    call (.execSave stamp {
      savepoint :=
        { id := input.checkpointID, name := input.checkpointID, parentSavepoint := input.expectedHead
          createdAt := now }
      manifest := input.manifest
      workspaceMeta :=
        { current with
          headSavepoint := input.checkpointID
          updatedAt := now
          dirtyHint := input.expectedChangesID.isNone }
      clean := input.expectedChangesID.isSome
      refs := refs })

/-- An aborted transaction is a conflict. -/
def asConflict (x : Op Unit) : Op Unit :=
  ExceptT.mk do
    match ← x.run with
    | .error .txFailed => pure (.error .workspaceConflict)
    | r => pure r

/-- `saveCheckpoint`, as every caller uses it: without a new materialization of the tree. -/
def saveCheckpoint (input : SaveCheckpointRequest) : Op Bool := do
  validateName input.checkpointID
  validateName input.expectedHead
  let _ ← resolveWorkspaceMeta
  checkLock input.importLockToken
  let headManifest ← getManifest input.expectedHead
  if manifestEquivalent headManifest input.manifest && !input.allowUnchanged then pure false
  else do
    let now ← call .now
    let _ ← call .getMeta
    saveBlobs (input.blobs.entries.map fun e => (e.1, e.2))
    asConflict (saveTransaction input now)
    call .audit
    pure true

/-- `serverRequireLiveRoot`. -/
def requireLiveRoot : Op Unit := do
  if ← call .rootExists then pure () else throw .notExist

/-- `captureCheckpoint`: a checkpoint of the live tree. -/
def captureCheckpoint (fuel : ℕ) (name : CheckpointId) (generation : Generation)
    (lockToken : Option Token) (allowUnchanged : Bool) : Op Bool := do
  validateName name
  let current ← resolveWorkspaceMeta
  requireLiveRoot
  let changes ← call .latestChange
  let (m, blobs) ← buildManifestFromWorkspaceRoot fuel name
  let latest ← call .latestChange
  if latest = changes then do
    let saved ← saveCheckpoint {
      expectedChangesID := some changes
      importLockToken := lockToken
      expectedGeneration := some generation
      expectedHead := current.headSavepoint
      checkpointID := name
      manifest := m
      blobs := blobs
      allowUnchanged := allowUnchanged }
    onlyIf (saved = true) do
      let _ ← required .notExist (getSavepointMeta name)
    pure saved
  else throw .workspaceConflict

/-- `WorkspaceGeneration`: the generation, if the workspace is neither deleted nor being restored. -/
def workspaceGeneration : Op Generation := do
  let _ ← resolveWorkspaceMeta
  match ← required .redisNil (call .getGeneration) with
  | .live n => pure (.live n)
  | .deleted => throw .notExist
  | _ => throw (.message "workspace is being restored; wait for restore to complete")

/-- `SaveCheckpointFromLiveWithOptions`. -/
def saveCheckpointFromLive (fuel : ℕ) (name : CheckpointId) (allowUnchanged : Bool) : Op Bool := do
  let generation ← workspaceGeneration
  captureCheckpoint fuel name generation none allowUnchanged

/-! ## Deleting a checkpoint -/

/-- `DeleteCheckpoint`. -/
def deleteCheckpoint (ref : CheckpointId) : Op Unit := do
  let (cp, m) ← getCheckpoint ref
  let _ ← resolveWorkspaceMeta
  call (.execDelete cp.id m)
  call .audit

/-! ## Metadata -/

/-- `MaterializeWorkspace`, as far as the workspace sees it: the metadata read at the beginning is
put back, with the time of the materialization, at the end. -/
def materializeWorkspace : Op Unit := do
  let current ← resolveWorkspaceMeta
  let _ ← getManifest current.headSavepoint
  let now ← call .now
  let _ ← call .getMeta
  call (.putMeta { current with lastMaterializedAt := now, dirtyHint := false })

/-- `MoveWorkspaceHead`. -/
def moveWorkspaceHead (n : CheckpointId) : Op Unit := do
  let _ ← resolveWorkspaceMeta
  let now ← call .now
  call (.moveHead n now)

end Afs.ControlPlane
