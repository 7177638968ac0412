import Afs.Client.Files
import Afs.Foundations.Pool

/-!
# Requests

Restoring a version of a file, advisory locks, the frame a native session puts around a request,
`Request`: everything a client can be asked to change in a workspace, and the clients that do so.
-/

namespace Afs.Client

open History

/-! ## Restoring a version -/

/-- `filehistory.NormalizePath`: no NUL, no parent traversal, not the root. -/
def historyNormalizePath (path : Bytes) : Except Err Path :=
  if 0 ∈ path then .error (.message "history path contains NUL")
  else if dotdot ∈ splitSlash path then .error (.message "history path must not contain '..'")
  else if normalizePath path = [] then .error (.message "history path must name a file")
  else .ok (normalizePath path)

/-- The checks of `RestoreFileVersion` before it talks to Redis. -/
def restoreChecks (ctx : Ctx) (selected : Record) (content : Bytes) (expected : Option Stat)
    (undelete : Bool) : Except Err Unit :=
  if selected.deleted ∨ selected.metadataOnly ∨
      (selected.type ≠ some .file ∧ selected.type ≠ some .symlink) then
    .error (.message "selected version has no recoverable content")
  else if selected.type = some .file ∧ (content.length : ℤ) ≠ selected.size then
    .error (.message "selected version size does not match content")
  else if ctx.generation.isNone ∨ ctx.generation = some .deleted then .error .workspaceChanged
  else if undelete ∧ expected.isSome then .error .writeConflict
  else .ok ()

/-- The hash of the bytes a restore replaces. The inline bytes of an inode are not loaded with
it. -/
def restoreBeforeHash (before : Option InodeData) : Op Hash :=
  match before with
  | some i =>
    if i.type = .file then
      match i.contentRef with
      | some ref => hashLive i.id ref i.size
      | none => pure (.sha i.content)
    else pure .empty
  | none => pure .empty

/-- The error of a restore that left no record. -/
def restoreError : Except Err Reply → Err
  | .ok (.refused "HISTORY_RESTORE_CONFLICT") => .writeConflict
  | .ok (.refused "HISTORY_RESTORE_GENERATION") => .workspaceChanged
  | .ok (.refused name) => .message name
  | .ok (.raised e) => .lua e
  | .ok _ => .message "unexpected reply"
  | .error e => e

/-- The script of a restore, with a lost reply resolved from the record it writes. -/
def runRestore (a : RestoreArgs) : Op Unit := do
  let r ← attempt (call (.restoreVersion a))
  match r with
  | .ok (.record _) => pruneHistory 3
  | _ => do
    match ← attempt (call (.getRecord ⟨a.operation, a.id, .a⟩)) with
    | .ok (some _) => pruneHistory 3
    | _ => throw (restoreError r)

/-- The arguments of the script of a restore. -/
def restoreArgs (ctx : Ctx) (parentPath p : Path) (selected : Record) (before : Option InodeData)
    (after : InodeData) (stage : Option Token) (beforeHash afterHash : Hash) (undelete : Bool) :
    RestoreArgs :=
  { id := after.id, expectedId := before.map (·.id), expected := (before.map (·.revision)).getD 0
    operation := after.revision, parentPath := parentPath, path := p
    fields := (inodeFieldsAtPath after p false).merge { revision := some after.revision }
    beforeContent := before.map (·.content), stage := stage, beforeHash := beforeHash
    afterHash := afterHash, fileId := some selected.fileId, undelete := undelete
    origin := ctx.origin, metadata := ctx.metadata
    payload := invalidationPayload ctx .inode [p] }

/-- The directory a restore goes to; a present path must already have one. -/
def restoreParent (ctx : Ctx) (p : Path) (expected : Option Stat) : Op (Path × InodeData) := do
  match ← attempt (resolvePath ctx (parentOf p) true) with
  | .error .redisNil => throw (if expected.isSome then .writeConflict else .redisNil)
  | .error e => throw e
  | .ok r => pure r

/-- The inode a restore replaces. -/
def restoreBefore (ctx : Ctx) (p : Path) : Op (Option InodeData) := do
  match ← attempt (resolvePath ctx p false) with
  | .error .redisNil => pure none
  | .error e => throw e
  | .ok (_, i) => pure (some i)

/-- The inode that will hold the version: the one there if it has the right kind. -/
def restoreId (ctx : Ctx) (before : Option InodeData) (kind : Kind) : Op Id :=
  match before with
  | some i => if i.type = kind then pure i.id else allocInodeID ctx
  | none => allocInodeID ctx

/-- The inode of a restored version. -/
def restoredInode (p : Path) (parent id : Id) (selected : Record) (before : Option InodeData)
    (operation : Token) (now : ℤ) : InodeData :=
  { id := id, parent := parent, name := baseName p, type := selected.type.getD .file
    mode := selected.mode, size := selected.size, target := selected.target.getD []
    revision := operation, ctimeMs := now, mtimeMs := now, atimeMs := now
    uid := (before.map (·.uid)).getD 0, gid := (before.map (·.gid)).getD 0 }

/-- The second half of `RestoreFileVersion`: stage the bytes and run the script. -/
def publishRestore (ctx : Ctx) (parentPath p : Path) (selected : Record) (content : Bytes)
    (before : Option InodeData) (after : InodeData) (beforeHash : Hash) (undelete : Bool) :
    Op Unit := do
  if after.type ≠ .file then
    runRestore (restoreArgs ctx parentPath p selected before after none beforeHash
      (.symlink after.target) undelete)
  else do
    let after ← selectContentRef after
    if selected.contentHash ≠ .empty ∧ selected.contentHash ≠ .sha content then
      throw (.message "selected version content hash mismatch")
    else do
      let t ← stageFullFile { after with content := content }
      withStage t <| runRestore (restoreArgs ctx parentPath p selected before after (some t)
        beforeHash (.sha content) undelete)

/-- `RestoreFileVersion`. -/
def restoreFileVersion (ctx : Ctx) (path : Bytes) (selected : Record) (content : Bytes)
    (expected : Option Stat) (undelete : Bool) : Op Unit := do
  let p ← lift (historyNormalizePath path)
  lift (restoreChecks ctx selected content expected undelete)
  checkGeneration ctx
  let ctx := ctx.withExpectedStat expected
  onlyIf (expected.isNone = true) (ensureParents ctx p)
  let (parentPath, parent) ← restoreParent ctx p expected
  let p := joinPath parentPath (baseName p)
  let before ← restoreBefore ctx p
  lift (checkWriteCondition ctx (before.getD parent) before.isNone)
  if before.any fun i => i.type = .dir then throw .writeConflict
  else do
    let beforeHash ← restoreBeforeHash before
    let id ← restoreId ctx before (selected.type.getD .file)
    let operation ← call .newOriginID
    let now ← call .nowMs
    publishRestore ctx parentPath p selected content before
      (restoredInode p parent.id id selected before operation now) beforeHash undelete

/-! ## Locks -/

/-- `Setlk` without waiting. -/
def setlk (inode : Id) (owner : LockOwner) (lk : FileLock) : Op Unit :=
  if lk.stop < lk.start then throw (.message "invalid lock range")
  else if owner.lease.isNone ∧ owner.handle = [] then throw (.message "empty lock owner")
  else retryWatch (call (.setLock inode owner lk)) watchAttempts

/-- `UnlockAll`. -/
def unlockAll (inode : Id) (owner : LockOwner) : Op Unit :=
  retryWatch (call (.unlockAll inode owner)) watchAttempts

/-! ## Requests -/

/-- What a client can be asked to change. -/
inductive Request
  | echo (p data : Bytes)
  | echoCreate (p data : Bytes) (mode : ℕ)
  | echoAppend (p data : Bytes)
  | touch (p : Bytes)
  | createFile (p : Bytes) (mode : ℕ) (exclusive : Bool)
  | mkdir (p : Bytes) (mode : ℕ)
  | rm (p : Bytes)
  /-- `fuel` bounds the depth of the subtree whose paths are refreshed. -/
  | rename (src dst : Bytes) (flags : RenameFlags) (fuel : ℕ)
  | ln (target linkpath : Bytes)
  | chmod (p : Bytes) (mode : ℕ)
  | chown (p : Bytes) (uid gid : ℕ)
  | truncate (p : Bytes) (size : ℤ)
  | utimens (p : Bytes) (atimeMs mtimeMs : ℤ)
  | setAttrs (p : Bytes) (u : AttrUpdate)
  | writeChunks (p : Bytes) (chunks : Chunks) (chunkSize newSize : ℤ) (hashes : List Bytes)
  | writeInodeAt (inode : Id) (payload : Bytes) (off : ℤ)
  | truncateInode (inode : Id) (size : ℤ)
  | restore (p : Bytes) (selected : Record) (content : Bytes) (expected : Option Stat)
      (undelete : Bool)
  | setlk (inode : Id) (owner : LockOwner) (lk : FileLock)
  | unlockAll (inode : Id) (owner : LockOwner)

/-- The operation a request starts. -/
def Request.op (ctx : Ctx) : Request → Op Unit
  | .echo p data => writeFile ctx p data false
  | .echoCreate p data mode => writeFileWithMode ctx p data mode
  | .echoAppend p data => writeFile ctx p data true
  | .touch p => Client.touch ctx p
  | .createFile p mode exclusive => createFileOp ctx p mode exclusive
  | .mkdir p mode => mkdirMode ctx p mode
  | .rm p => Client.rm ctx p
  | .rename src dst flags fuel => Client.rename ctx fuel src dst flags
  | .ln target linkpath => Client.ln ctx target linkpath
  | .chmod p mode => Client.chmod ctx p mode
  | .chown p uid gid => Client.chown ctx p uid gid
  | .truncate p size => Client.truncate ctx p size
  | .utimens p atimeMs mtimeMs => Client.utimens ctx p atimeMs mtimeMs
  | .setAttrs p u => Client.setAttrs ctx p u
  | .writeChunks p chunks chunkSize newSize hashes =>
    publishChunks ctx p chunks chunkSize newSize hashes
  | .writeInodeAt inode payload off => Client.writeInodeAt ctx inode payload off
  | .truncateInode inode size => Client.truncateInode ctx inode size
  | .restore p selected content expected undelete =>
    restoreFileVersion ctx p selected content expected undelete
  | .setlk inode owner lk => Client.setlk inode owner lk
  | .unlockAll inode owner => Client.unlockAll inode owner

/-- A request of a native session: the generation and the lease are checked before it and, if it
succeeds, once more after it. -/
def Request.inSession (ctx : Ctx) (r : Request) : Op Unit := do
  checkGeneration { ctx with requestChecked := false }
  r.op { ctx with requestChecked := true }
  checkGeneration { ctx with requestChecked := false }

/-! ## Clients -/

/-- The clients at work on a workspace. -/
abbrev Clients := Pool sig Ctx (Except Err Unit) World

/-- A workspace nobody is working on. -/
def idle (w : World) : Clients := ⟨w, fun _ => none⟩

theorem seqExec_trace {α : Type} (ctx : Ctx) (p : Prog sig α) (w : World) :
    p.Trace (Exec ctx) (Prog.interleave (seqExec ctx) [] p w).1
      (Prog.interleave (seqExec ctx) [] p w).2 :=
  Prog.trace_interleave (fun _ _ => ⟨{}, rfl⟩) _ _ _

end Afs.Client
