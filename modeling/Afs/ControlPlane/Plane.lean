import Afs.ControlPlane.Manifest
import Afs.Client.Command

/-!
# The control plane's side of a workspace

The keys the control plane keeps next to the live tree: the workspace's metadata, its checkpoints
and their blobs with reference counts, the import lock, the baseline of an interrupted restore. The
name index is left out, a workspace is addressed by its storage identity.

A transaction that reads only keys it watches is one command. `saveCheckpoint` also reads keys it
does not watch, so its reads are commands of their own and `execSave` looks at `touched`, which
counts the writes to the keys it watches. Operations draw their random tokens once: the number of
the operation stands for its lock token and for the generation it makes.
-/

namespace Afs.ControlPlane

open Function (update)

open History

/-- The errors of the control plane. -/
inductive Err
  /-- `os.ErrNotExist`. -/
  | notExist
  /-- `redis.Nil`. -/
  | redisNil
  | workspaceConflict
  | importInProgress
  /-- `redis.TxFailedErr`: a watched key changed. -/
  | txFailed
  /-- The reply of a command was lost, or the command never reached Redis. -/
  | network
  | message (text : String)
  /-- Not an error of the source: a loop without a bound of its own has not ended within the fuel
  it was given. -/
  | unfinished
  deriving DecidableEq, Repr

/-- The keys under a workspace's prefix. The history keys are deleted together, and so are one. -/
inductive Key
  | generation
  | importLock
  | workspaceMeta
  | savepoint (n : CheckpointId)
  | manifest (n : CheckpointId)
  | savepoints
  | blob (h : Hash)
  | blobref (h : Hash)
  | rootHead
  | rootDirty
  | restoreBefore
  | history
  | changes
  | inode (id : Id)
  | dirents (id : Id)
  | content (id : Id)
  /-- `content:<id>:stage:<token>`. -/
  | stage (t : Token)
  | locks (id : Id)
  | session (t : Token)
  | info
  | nextInode
  deriving DecidableEq, Repr

/-- One workspace. -/
structure Plane where
  world : World := {}
  workspaceMeta : Option WorkspaceMeta := none
  savepoint : CheckpointId → Option SavepointMeta := fun _ => none
  manifest : CheckpointId → Option Manifest := fun _ => none
  /-- The sorted set `workspace:savepoints`. -/
  savepoints : List (CheckpointId × ℤ) := []
  blob : Hash → Option Bytes := fun _ => none
  blobref : Hash → Option BlobRef := fun _ => none
  /-- Expiring: the token of the operation that holds the import lock. -/
  importLock : Option Token := none
  rootHead : Option CheckpointId := none
  restoreBefore : Option CheckpointId := none
  /-- How often a key that `saveCheckpoint` watches has been written: the metadata, the generation,
  the change stream and the import lock. -/
  touched : ℕ := 0

namespace Plane

variable (p : Plane)

/-- The store of the live tree. -/
abbrev store : Store := p.world.toStore

/-- A watched key has been written. -/
def touch : Plane := { p with touched := p.touched + 1 }

/-- A write to the live tree's keys. -/
def mapStore (f : Store → Store) : Plane := { p with world := { p.world with toStore := f p.store } }

/-- `DEL` of the keys in a set. -/
def del (which : Key → Bool) : Plane where
  world := { p.world with
    generation := if which .generation then none else p.world.generation
    history := if which .history then {} else p.world.history
    changes := if which .changes then .absent else p.world.changes
    inode := fun id => if which (.inode id) then none else p.world.inode id
    dirents := fun id => if which (.dirents id) then ∅ else p.world.dirents id
    content := fun id => if which (.content id) then none else p.world.content id
    stage := fun t => if which (.stage t) then none else p.world.stage t
    locks := fun id => if which (.locks id) then ∅ else p.world.locks id
    session := fun t => if which (.session t) then false else p.world.session t
    info := if which .info then none else p.world.info
    nextInode := if which .nextInode then none else p.world.nextInode
    rootDirty := if which .rootDirty then false else p.world.rootDirty }
  workspaceMeta := if which .workspaceMeta then none else p.workspaceMeta
  savepoint := fun n => if which (.savepoint n) then none else p.savepoint n
  manifest := fun n => if which (.manifest n) then none else p.manifest n
  savepoints := if which .savepoints then [] else p.savepoints
  blob := fun h => if which (.blob h) then none else p.blob h
  blobref := fun h => if which (.blobref h) then none else p.blobref h
  importLock := if which .importLock then none else p.importLock
  rootHead := if which .rootHead then none else p.rootHead
  restoreBefore := if which .restoreBefore then none else p.restoreBefore
  touched :=
    if which .generation ∨ which .changes ∨ which .workspaceMeta ∨ which .importLock then p.touched + 1
    else p.touched

/-- `ZREVRANGE workspace:savepoints`: the newest first, names decide between equal times. -/
def zrevrange : List CheckpointId :=
  ((p.savepoints.insertionSort fun a b => a.2 < b.2 ∨ a.2 = b.2 ∧ a.1 ≤ b.1).map Prod.fst).reverse

/-- `ZADD workspace:savepoints`. -/
def zadd (n : CheckpointId) (score : ℤ) : List (CheckpointId × ℤ) :=
  (n, score) :: p.savepoints.filter fun e => e.1 ≠ n

end Plane

/-- What the transaction of `saveCheckpoint` writes. -/
structure SaveWrites where
  savepoint : SavepointMeta
  manifest : Manifest
  workspaceMeta : WorkspaceMeta
  /-- The tree is exactly the checkpoint: the root is clean. -/
  clean : Bool
  refs : List (Hash × BlobRef)

/-- The commands. -/
inductive Cmd
  /-- The random bytes of the operation. -/
  | newToken
  | now
  /-- `lock.Lost()`: what the heartbeat has noticed so far. -/
  | lockLost
  | getMeta
  | getGeneration
  /-- `latestServerChange`: which entry of the stream is the last. -/
  | latestChange
  | getLock
  | getSavepoint (n : CheckpointId)
  | getManifest (n : CheckpointId)
  | listSavepoints
  | getBlob (h : Hash)
  | getBlobRef (h : Hash)
  | getRestoreBefore
  | rootExists
  /-- `HMGET inode:<id> type mode size mtime_ms target content content_ref`. -/
  | readInode (id : Id)
  | readDirents (id : Id)
  | getContent (id : Id)
  | getChunks (id : Id) (first last : ℕ)
  | preferredRef
  | getPolicy
  /-- `EXISTS history:sequence`. -/
  | hasHistory
  /-- `WATCH` of the keys `saveCheckpoint` watches. -/
  | watch
  /-- `SETNX import_lock`. -/
  | acquireLock
  | releaseLock
  /-- The lock's time is over. -/
  | expireLock
  | setGeneration (g : Generation)
  /-- `SETNX blob:<h>`. -/
  | setBlobNX (h : Hash) (data : Bytes)
  /-- `SET blob:<h>`. -/
  | setBlob (h : Hash) (data : Bytes)
  | setBlobRef (h : Hash) (ref : BlobRef)
  | setSavepoint (n : CheckpointId) (cp : SavepointMeta)
  | setManifest (n : CheckpointId) (m : Manifest)
  | addSavepoint (n : CheckpointId) (score : ℤ)
  /-- `EXEC` of `saveCheckpoint`. -/
  | execSave (stamp : ℕ) (writes : SaveWrites)
  /-- The transaction of `DeleteCheckpoint`, with the manifest read before. -/
  | execDelete (n : CheckpointId) (m : Manifest)
  /-- The transaction of `MoveWorkspaceHead`. -/
  | moveHead (n : CheckpointId) (updatedAt : ℤ)
  /-- The `SET` of `PutWorkspaceMeta`. -/
  | putMeta (m : WorkspaceMeta)
  | setRestoreBefore (n : CheckpointId)
  /-- The script of `captureWorkspaceHistory`. -/
  | captureHistory (expected : Generation) (operation : Token) (changes : List Change)
  | del (which : Key → Bool)
  /-- `QueueWriteFull`. -/
  | writeContent (id : Id) (ref : ContentRef) (data : Bytes)
  | hsetInode (id : Id) (fields : InodeHash)
  | link (d : Id) (n : Name) (i : Id)
  /-- `HSET history:file:<lineage> inode_id`. -/
  | bindLineage (l : LineageId) (id : Id)
  | setInfo (i : Info)
  | setNextInode (n : ℕ)
  /-- `MarkWorkspaceRootClean`. -/
  | markClean (head : CheckpointId)
  /-- `completeRestoreActivityScript`. -/
  | completeRestore (activity : List Message)
  /-- `Audit` and `recordLifecycle`: entries of streams nothing here reads. -/
  | audit
  /-- A command of a client of the workspace. -/
  | client (ctx : Client.Ctx) (o : Client.Choice) (c : Client.Cmd)

/-- What a command returns when it does not fail. -/
@[reducible] def Val : Cmd → Type
  | .newToken => Token
  | .now => ℤ
  | .lockLost => Bool
  | .getMeta => Option WorkspaceMeta
  | .getGeneration => Option Generation
  | .latestChange => ℕ
  | .getLock => Option Token
  | .getSavepoint _ => Option SavepointMeta
  | .getManifest _ => Option Manifest
  | .listSavepoints => List CheckpointId
  | .getBlob _ => Option Bytes
  | .getBlobRef _ => Option BlobRef
  | .getRestoreBefore => Option CheckpointId
  | .rootExists | .hasHistory | .acquireLock => Bool
  | .readInode _ => Option InodeHash
  | .readDirents _ => List (Name × Id)
  | .getContent _ => Bytes
  | .getChunks _ _ _ => List (Option Bytes)
  | .preferredRef => ContentRef
  | .getPolicy => Policy
  | .watch => ℕ
  | _ => Unit

/-- The signature of control plane programs. -/
@[reducible] def sig : Sig := ⟨Cmd, fun c => Except Err (Val c)⟩

/-- What happens to a command besides its own effect. -/
structure Choice where
  /-- `some false`: the command never ran. `some true`: it ran and its reply was lost. -/
  fault : Option Bool := none
  time : ℤ := 0
  /-- The heartbeat has noticed that the lock is gone. -/
  lost : Bool := false

/-! ## Effects -/

/-- The fields of an inode that a walk over the tree asks for. -/
def shown (f : InodeHash) : InodeHash where
  type := f.type
  mode := f.mode
  size := f.size
  mtimeMs := f.mtimeMs
  target := f.target
  content := f.content
  contentRef := f.contentRef

/-- The number of the last entry of the change stream. -/
def lastChange : Stream → Except Err ℕ
  | .absent => .ok 0
  | .entries l => .ok l.length
  | .wrongType => .error (.message "WRONGTYPE")

/-- The commands of `redis.error_reply` and of a wrong key type. -/
def fromClient {α : Type} : Except Client.Err α → Except Err α
  | .ok a => .ok a
  | .error _ => .error (.message "WRONGTYPE")

/-- `EXEC` of `saveCheckpoint`, when no watched key has changed. -/
def saveWrite (w : SaveWrites) (p : Plane) : Plane :=
  let n := w.savepoint.id
  { p with
    savepoint := update p.savepoint n (some w.savepoint)
    manifest := update p.manifest n (some w.manifest.viaJson)
    workspaceMeta := some w.workspaceMeta
    savepoints := p.zadd n w.savepoint.createdAt
    rootHead := if w.clean then some n else p.rootHead
    world := { p.world with rootDirty := !w.clean }
    blobref := w.refs.foldl (fun f e => update f e.1 (some e.2)) p.blobref
    touched := p.touched + 1 }

/-- The reference counts after a checkpoint with these blobs has gone; a missing one is an error. -/
def dropRefs (blobref : Hash → Option BlobRef) : List Hash → Except Err (List (Hash × BlobRef))
  | [] => .ok []
  | b :: bs => do
    let some ref := blobref b | .error .notExist
    let rest ← dropRefs blobref bs
    return (b, { ref with refCount := if 0 < ref.refCount then ref.refCount - 1 else ref.refCount })
      :: rest

/-- The transaction of `DeleteCheckpoint`. -/
def execDelete (n : CheckpointId) (m : Manifest) (p : Plane) : Except Err Unit × Plane :=
  match p.workspaceMeta with
  | none => (.error .notExist, p)
  | some current =>
    if current.headSavepoint = n ∨ current.defaultSavepoint = n then
      (.error (.message "cannot delete current or default checkpoint"), p)
    else if p.restoreBefore = some n then
      (.error (.message "cannot delete restore baseline checkpoint"), p)
    else if (p.savepoint n).isNone then (.error .notExist, p)
    else
      match dropRefs p.blobref (manifestBlobRefs m).keys with
      | .error e => (.error e, p)
      | .ok refs =>
        (.ok (), { p with
          savepoint := update p.savepoint n none
          manifest := update p.manifest n none
          savepoints := p.savepoints.filter fun e => e.1 ≠ n
          blobref := refs.foldl (fun f e => update f e.1 (some e.2)) p.blobref })

/-- `completeRestoreActivityScript` of the operation `me`. -/
def completeRestore (me : Token) (activity : List Message) (p : Plane) : Except Err Unit × Plane :=
  if p.world.generation = some (.live me) then (.ok (), p)
  else if p.world.generation ≠ some (.restoring me) ∨ p.importLock ≠ some me then
    (.error (.message "workspace restore generation or lock changed"), p)
  else if p.world.changes = .wrongType then
    (.error (.message "workspace change journal has wrong Redis type"), p)
  else
    let root : Message := { origin := 0, op := .rootReplace, paths := [[]] }
    let s := (activity ++ [root]).foldl Store.xadd p.store
    (.ok (), { p with
      world := { p.world with toStore := { s with generation := some (.live me) } }
      restoreBefore := none
      touched := p.touched + 1 })

/-- What a command of the operation `me` does when it runs and its reply arrives. -/
def effect (me : Token) (o : Choice) (p : Plane) : (c : Cmd) → Except Err (Val c) × Plane
  | .newToken => (.ok me, p)
  | .now => (.ok o.time, p)
  | .lockLost => (.ok o.lost, p)
  | .getMeta => (.ok p.workspaceMeta, p)
  | .getGeneration => (.ok p.world.generation, p)
  | .latestChange => (lastChange p.world.changes, p)
  | .getLock => (.ok p.importLock, p)
  | .getSavepoint n => (.ok (p.savepoint n), p)
  | .getManifest n => (.ok (p.manifest n), p)
  | .listSavepoints => (.ok p.zrevrange, p)
  | .getBlob h => (.ok (p.blob h), p)
  | .getBlobRef h => (.ok (p.blobref h), p)
  | .getRestoreBefore => (.ok p.restoreBefore, p)
  | .rootExists => (.ok (p.world.inode rootInodeID).isSome, p)
  | .readInode id => (.ok ((p.world.inode id).map shown), p)
  | .readDirents id => (.ok ((p.world.dirents id).entries.map fun e => (e.1, e.2)), p)
  | .getContent id => (fromClient (Client.readString (fun b => b) (p.world.content id)), p)
  | .getChunks id first last => (fromClient (Client.readArray first last (p.world.content id)), p)
  | .preferredRef => (.ok (if p.world.arrays then .array else .ext), p)
  | .getPolicy => (.ok (p.world.history.policy.getD {}), p)
  | .hasHistory => (.ok p.world.history.sequence.isSome, p)
  | .watch => (.ok p.touched, p)
  | .acquireLock =>
    if p.importLock.isSome then (.ok false, p)
    else (.ok true, { p with importLock := some me, touched := p.touched + 1 })
  | .releaseLock =>
    if p.importLock = some me then
      (.ok (), { p with importLock := none, touched := p.touched + 1 })
    else (.ok (), p)
  | .expireLock =>
    if p.importLock.isSome then (.ok (), { p with importLock := none, touched := p.touched + 1 })
    else (.ok (), p)
  | .setGeneration g =>
    (.ok (), { p with world := { p.world with generation := some g }, touched := p.touched + 1 })
  | .setBlobNX h data =>
    (.ok (), { p with blob := update p.blob h (some ((p.blob h).getD data)) })
  | .setBlob h data => (.ok (), { p with blob := update p.blob h (some data) })
  | .setBlobRef h ref => (.ok (), { p with blobref := update p.blobref h (some ref) })
  | .setSavepoint n cp => (.ok (), { p with savepoint := update p.savepoint n (some cp) })
  | .setManifest n m =>
    (.ok (), { p with manifest := update p.manifest n (some m.viaJson) })
  | .addSavepoint n score => (.ok (), { p with savepoints := p.zadd n score })
  | .execSave stamp writes =>
    if p.touched = stamp then (.ok (), saveWrite writes p) else (.error .txFailed, p)
  | .execDelete n m => execDelete n m p
  | .moveHead n updatedAt =>
    match p.workspaceMeta with
    | none => (.error .notExist, p)
    | some current =>
      (.ok (), { p with
        workspaceMeta := some
          { current with headSavepoint := n, updatedAt := updatedAt, dirtyHint := false }
        touched := p.touched + 1 })
  | .putMeta m => (.ok (), { p with workspaceMeta := some m, touched := p.touched + 1 })
  | .setRestoreBefore n => (.ok (), { p with restoreBefore := some n })
  | .captureHistory expected operation changes =>
    if p.world.generation ≠ some expected then
      (.error (.message "workspace generation changed during history restore"), p)
    else
      match capture p.store operation 0 p.world.clock.toNat changes with
      | .error _ => (.error (.message "history capture"), p)
      | .ok cap => (.ok (), p.mapStore fun s => Client.applyCapture s cap)
  | .del which => (.ok (), p.del which)
  | .writeContent id ref data =>
    (.ok (), p.mapStore fun s =>
      { s with content := update s.content id (writeFull ref data) })
  | .hsetInode id fields => (.ok (), p.mapStore fun s => s.hset id fields)
  | .link d n i => (.ok (), p.mapStore fun s => s.link d n i)
  | .bindLineage l id =>
    (.ok (), p.mapStore fun s =>
      { s with history := { s.history with
          file := update s.history.file l
            (some { (s.history.file l).getD {} with inodeId := some id }) } })
  | .setInfo i => (.ok (), p.mapStore fun s => { s with info := some i })
  | .setNextInode n => (.ok (), p.mapStore fun s => { s with nextInode := some n })
  | .markClean head =>
    (.ok (), { p.mapStore (fun s => { s with rootDirty := false }) with rootHead := some head })
  | .completeRestore activity => completeRestore me activity p
  | .audit => (.ok (), p)
  | .client ctx oc c =>
    let w := (Client.exec ctx oc c p.world).2
    (.ok (), { p with
      world := w
      touched := if w.changes = p.world.changes then p.touched else p.touched + 1 })

/-- The commands that never leave the process. -/
def Cmd.isLocal : Cmd → Bool
  | .newToken | .now | .lockLost => true
  | _ => false

/-- What a command does, network faults included. -/
def exec (me : Token) (o : Choice) (c : Cmd) (p : Plane) : Except Err (Val c) × Plane :=
  if c.isLocal then effect me o p c
  else
    match o.fault with
    | none => effect me o p c
    | some false => (.error .network, p)
    | some true => (.error .network, (effect me o p c).2)

/-- One exchange of the operation `me`. -/
def Exec (me : Token) (c : Cmd) (p : Plane) (r : Except Err (Val c)) (p' : Plane) : Prop :=
  ∃ o, exec me o c p = (r, p')

variable {me : Token} {c : Cmd} {p p' : Plane} {r : Except Err (Val c)}

/-- How an exchange can go: the command ran and answered, or it failed, having run or not. -/
theorem exec_cases {o : Choice} (h : exec me o c p = (r, p')) :
    effect me o p c = (r, p') ∨ r = .error .network ∧ (p' = p ∨ p' = (effect me o p c).2) := by
  unfold exec at h
  split at h
  · exact .inl h
  · split at h
    · exact .inl h
    · cases h
      exact .inr ⟨rfl, .inl rfl⟩
    · cases h
      exact .inr ⟨rfl, .inr rfl⟩

/-- What holds of the effect of a command, and of a command that did not run, holds of every
exchange. -/
theorem Exec.of_effect {P : Plane → Prop} (h : Exec me c p r p')
    (hsame : P p) (heffect : ∀ o, P (effect me o p c).2) : P p' := by
  obtain ⟨o, ho⟩ := h
  obtain heq | ⟨-, rfl | rfl⟩ := exec_cases ho
  · have := heffect o
    rwa [heq] at this
  · exact hsame
  · exact heffect o

/-- A reply is the reply of the effect. -/
theorem Exec.reply {v : Val c} (h : Exec me c p (.ok v) p') :
    ∃ o, effect me o p c = (.ok v, p') := by
  obtain ⟨o, ho⟩ := h
  obtain heq | ⟨hr, -⟩ := exec_cases ho
  · exact ⟨o, heq⟩
  · cases hr

end Afs.ControlPlane
