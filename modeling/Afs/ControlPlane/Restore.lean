import Afs.ControlPlane.Materialize

/-!
# Operations under the import lock

Restoring a checkpoint, creating a workspace and deleting one. They hold the import lock, whose
time runs out when its holder does not renew it; the holder only finds out through its heartbeat,
at the points where it asks.
-/

namespace Afs.ControlPlane

open History

/-- `AcquireImportLock`. -/
def acquireImportLock : Op Unit := do
  let _ ← call .getMeta
  if ← call .acquireLock then pure () else throw .importInProgress

/-- An operation with a deferred `lock.Release`. -/
def underLock {α : Type} (x : Op α) : Op α :=
  ExceptT.mk do
    let r ← x.run
    let _ ← (call .releaseLock).run
    pure r

/-- `lock.Lost()`. -/
def checkNotLost : Op Unit := do
  if ← call .lockLost then throw (.message "import lock was lost") else pure ()

/-! ## Restore -/

/-- What a restore is not told by Redis or its arguments: the clock for the name of the safety
checkpoint, the batches of `SCAN`; and what is left open here: the changes the restore captures
with the lineages it finds for them, and the activity it reports. -/
structure RestoreChoices where
  fuel : ℕ
  safetyName : CheckpointId
  batches : List (List Key) := []
  changes : List Change := []
  bindings : Bindings := fun _ => none
  activity : List Message := []

/-- The restore before this one stopped while it was replacing the tree. -/
def isRecovering : Generation → Bool
  | .restoring _ => true
  | _ => false

/-- `prepareRestoreActivity`: the checkpoint the tree had before is remembered until the restore is
complete. Only the last one of a row of interrupted restores is the one before. -/
def prepareRestoreActivity (recovering : Bool) : Op Unit :=
  if recovering then do
    match ← call .getRestoreBefore with
    | none => pure ()
    | some checkpoint => do
      let _ ← getManifest checkpoint
  else do
    let current ← resolveWorkspaceMeta
    call (.setRestoreBefore current.headSavepoint)
    let _ ← getManifest current.headSavepoint

/-- `prepareRestoreFileHistory`. -/
def prepareRestoreFileHistory (choices : RestoreChoices) (m : Manifest) (expected : Generation)
    (operation : Token) : Op Bindings := do
  let policy ← call .getPolicy
  if policy.mode = .off then do
    if ← call .hasHistory then pure choices.bindings else pure fun _ => none
  else do
    let _ ← lift (buildWorkspaceFSNodes m)
    call (.captureHistory expected operation choices.changes)
    pure choices.bindings

/-- `RestoreCheckpoint`, under the lock: `cp` and `m` were read before. -/
def restoreUnderLock (choices : RestoreChoices) (me : Token) (cp : SavepointMeta) (m : Manifest) :
    Op Unit := do
  let previous ← required .redisNil (call .getGeneration)
  let recovering := isRecovering previous
  let fencing : Generation := if recovering then .restoring me else .fencing me
  call (.setGeneration fencing)
  let liveRoot ← call .rootExists
  onlyIf (recovering = false ∧ liveRoot = true) do
    let _ ← captureCheckpoint choices.fuel choices.safetyName fencing (some me) false
  checkNotLost
  prepareRestoreActivity recovering
  let bindings ← prepareRestoreFileHistory choices m fencing me
  call (.setGeneration (.restoring me))
  moveWorkspaceHead cp.id
  syncWorkspaceRoot m bindings choices.batches
  checkNotLost
  call (.completeRestore choices.activity)

/-- `RestoreCheckpoint`. -/
def restoreCheckpoint (choices : RestoreChoices) (ref : CheckpointId) : Op Unit := do
  let (cp, m) ← getCheckpoint ref
  let _ ← resolveWorkspaceMeta
  let me ← call .newToken
  acquireImportLock
  underLock do
    restoreUnderLock choices me cp m
    call .audit

/-! ## Creation -/

/-- `BlobWriter.Submit` of the blobs of a manifest: a new workspace has no references yet. -/
def submitBlobs (blobs : Hash → Option Bytes) : List (Hash × ℤ) → Op Unit
  | [] => pure ()
  | (h, size) :: rest => do
    match blobs h with
    | none => throw (.message "manifest blob is missing")
    | some data => do
      call (.setBlob h data)
      call (.setBlobRef h { size := size, refCount := 1 })
      submitBlobs blobs rest

/-- `PutSavepoint`. -/
def putSavepoint (cp : SavepointMeta) (m : Manifest) : Op Unit := do
  let _ ← call .getMeta
  call (.setSavepoint cp.id cp)
  call (.setManifest cp.id m)
  call (.addSavepoint cp.id cp.createdAt)

/-- `CreateWorkspaceFromManifest`, from the moment the new storage identity is drawn on. Nobody
else knows the identity before the metadata is written. -/
def createWorkspaceFromManifest (m : Manifest) (blobs : Hash → Option Bytes) : Op Unit := do
  let me ← call .newToken
  let now ← call .now
  submitBlobs blobs ((manifestBlobRefs m).entries.map fun e => (e.1, e.2))
  let m := { m with savepoint := initialCheckpointName }
  putSavepoint { id := initialCheckpointName, name := initialCheckpointName, createdAt := now } m
  let _ ← call .getMeta
  call (.del rootKeys)
  let nodes ← lift (buildWorkspaceFSNodes m)
  writeWorkspaceFSNodes nodes fun _ => none
  let _ ← call .getMeta
  call (.markClean m.savepoint)
  checkNotLost
  call (.setGeneration (.live me))
  let _ ← call .getMeta
  call (.putMeta
    { headSavepoint := initialCheckpointName, defaultSavepoint := initialCheckpointName
      updatedAt := now })
  call .audit

/-! ## Deletion -/

/-- The keys the sweep of a deleted workspace takes: all but the tombstone, the lock and the
metadata a retry needs. -/
def sweptKeys : Key → Bool
  | .generation | .importLock | .workspaceMeta => false
  | _ => true

/-- `Store.DeleteWorkspace`. -/
def sweepWorkspace (batches : List (List Key)) : Op Unit := do
  let _ ← resolveWorkspaceMeta
  call (.setGeneration .deleted)
  scanAndDelete sweptKeys batches
  call (.del fun k => k = .workspaceMeta)

/-- `Service.DeleteWorkspace`. -/
def deleteWorkspace (batches : List (List Key)) : Op Unit := do
  acquireImportLock
  underLock do
    let _ ← resolveWorkspaceMeta
    sweepWorkspace batches
    call .audit

end Afs.ControlPlane
