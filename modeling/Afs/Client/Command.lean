import Afs.Foundations.Prog
import Afs.Workspace.Content
import Afs.History.Retention
import Afs.Client.TreeScripts
import Afs.Client.Locks

/-!
# The commands of the client

Every exchange a client operation has with Redis, and the few it has with its own process (fresh
tokens, the clock, the path cache). `exec` says what a command does under the context of the
operation that issues it. Scripts are one command. A `WATCH` block is one command too, for what
it reads under the watch is, when `EXEC` succeeds, what the script meets; only reads of keys that
are not watched are commands of their own, before the block.

A `Choice` settles what the store does not: a lost request or reply, a watched key that changed,
which cache entry is found, what the clock says.
-/

namespace Afs.Client

open History

/-- What happens to a command besides its own effect. -/
structure Choice where
  /-- `some false`: the command never ran. `some true`: it ran and its reply was lost. -/
  fault : Option Bool := none
  /-- A watched key changed before `EXEC`. -/
  abort : Bool := false
  hit : Option InodeData := none
  time : Option ℤ := none
  /-- The root was marked dirty a moment ago. -/
  throttled : Bool := false
  /-- Leases that were still read as live, outside of any watch, and expired before `EXEC`. -/
  lingering : List Token := []

/-- The commands on a private stage. -/
inductive StageOp
  /-- `QueueWriteFull` and `EXPIRE`, as one transaction. -/
  | writeFull (ref : ContentRef) (data : Bytes)
  /-- `COPY` of the live content, replacing the stage, and `EXPIRE`. -/
  | copy (id : Id)
  | set (data : Bytes)
  | arset (first : ℕ) (chunks : List Bytes)
  | argetrange (first last : ℕ)
  | ardelrange (first last : ℕ)
  | setrange (off : ℕ) (data : Bytes)
  /-- Cut a string down to its first `size` bytes. -/
  | shrink (size : ℕ)
  | expire
  | del

/-- The reply to a command on a stage: whether `COPY` found a value, and the chunks read. -/
structure StageReply where
  copied : Bool := false
  chunks : List (Option Bytes) := []

/-- `PrepareRequest`. -/
structure PrepareRequest where
  inode : Id
  expected : Rev
  path : Path
  afterType : Option Kind := none
  afterBody : Option BodyKey := none
  afterRef : Option ContentRef := none
  afterSize : ℤ := 0
  known : Option Bytes := none

/-- The commands. -/
inductive Cmd
  /-- A fresh token. -/
  | newOriginID
  | nowMs
  | markThrottled
  | cacheGet (p : Path)
  | cachePath (p : Path) (inode : InodeData)
  /-- `PreferredRef`: what the server supports. -/
  | preferredRef
  | getGeneration
  /-- `MGET` of the generation and the session's lease. -/
  | getGenerationAndLease (lease : Token)
  /-- `loadInodeByID`. -/
  | loadInode (id : Id)
  /-- `HGET inode:<id> revision`. -/
  | getRevision (id : Id)
  /-- `lookupChildID`. -/
  | lookupChild (d : Id) (n : Name)
  /-- `loadDirEntries`. -/
  | loadDirEntries (d : Id)
  /-- `inodePathScript`. -/
  | inodePath (id : Id)
  /-- `loadInodeSize`. -/
  | loadInodeSize (id : Id)
  /-- `HGET inode:<id> content`. -/
  | getInline (id : Id)
  /-- `EXISTS content:<id>`. -/
  | contentExists (id : Id)
  /-- `GET content:<id>`. -/
  | getContent (id : Id)
  /-- `GETRANGE content:<id>`, both ends included. -/
  | getRange (id : Id) (first last : ℕ)
  /-- `ARGETRANGE content:<id>`. -/
  | getChunks (id : Id) (first last : ℕ)
  | getRecord (id : RecordId)
  /-- The transaction of `ensureRoot` that creates a missing root. -/
  | createRoot (now : ℤ)
  | incrNextInode
  | stage (t : Token) (op : StageOp)
  /-- `markRootDirty` past its throttle. -/
  | markRootDirty
  /-- `PublishInvalidation`. -/
  | publishInvalidation (op : InvalidateOp) (paths : List Path)
  /-- `filehistory.Prune` of at most 64 records. -/
  | prune
  /-- `filehistory.Prepare`. -/
  | prepare (operation : Token) (requests : List PrepareRequest)
  | discardPreparation (operation : Token)
  | publishFile (a : PublishArgs)
  | deleteInode (a : DeleteArgs)
  | updateInode (a : UpdateArgs)
  /-- The `WATCH` block of `createInodeUnderParent`; `name` is the name before JSON. -/
  | createMetadata (name : Name) (a : CreateArgs)
  /-- The `WATCH` block of `renamePath`. `replaced` is the entry read at the destination with the
  inode it led to, `watched` the destination directory whose entries are watched. -/
  | renameMetadata (a : RenameArgs) (replaced : Option (Id × Option InodeData)) (noReplace : Bool)
      (watched : Option Id)
  /-- The `WATCH` block of `refreshIndexedSubtree`: the new paths of a subtree. -/
  | refreshPaths (paths : List (Id × Path))
  | restoreVersion (a : RestoreArgs)
  /-- The `WATCH` block of `trySetLock`. -/
  | setLock (inode : Id) (owner : LockOwner) (lk : FileLock)
  /-- The `WATCH` block of `UnlockAll`. -/
  | unlockAll (inode : Id) (owner : LockOwner)

/-- What a command returns when it does not fail. -/
@[reducible] def Val : Cmd → Type
  | .newOriginID => Token
  | .nowMs => ℤ
  | .markThrottled => Bool
  | .cacheGet _ => Option InodeData
  | .preferredRef => ContentRef
  | .getGeneration => Option Generation
  | .getGenerationAndLease _ => Option Generation × Bool
  | .loadInode _ => Option InodeData
  | .getRevision _ => Option Rev
  | .lookupChild _ _ => Option Id
  | .loadDirEntries _ => List (Name × Id)
  | .inodePath _ => Path
  | .loadInodeSize _ => ℤ
  | .getInline _ | .getContent _ | .getRange _ _ _ => Bytes
  | .contentExists _ => Bool
  | .getChunks _ _ _ => List (Option Bytes)
  | .getRecord _ => Option Record
  | .incrNextInode => Id
  | .stage _ _ => StageReply
  | .publishFile _ | .deleteInode _ | .updateInode _ => Reply
  | .createMetadata _ _ | .renameMetadata _ _ _ _ | .restoreVersion _ => Reply
  | _ => Unit

/-- The signature of client programs: a command fails or returns a value. -/
@[reducible] def sig : Sig := ⟨Cmd, fun c => Except Err (Val c)⟩

/-! ## Reading -/

/-- `inodeFromValues`: an inode without a type does not exist. -/
def inodeFromHash (id : Id) (h : InodeHash) : Option InodeData :=
  h.type.map fun type =>
    { id := id, type := type, mode := h.mode.getD 0, uid := h.uid.getD 0, gid := h.gid.getD 0
      size := h.size.getD 0, ctimeMs := h.ctimeMs.getD 0, mtimeMs := h.mtimeMs.getD 0
      atimeMs := h.atimeMs.getD 0, target := h.target.getD [], parent := h.parent.getD 0
      name := h.name.getD [], contentRef := h.contentRef, revision := h.revision.getD 0 }

/-- `loadInodeByID`. -/
def loadInodeByID (s : Store) (id : Id) : Option InodeData := (s.inode id).bind (inodeFromHash id)

/-- The walk of `inodePathScript` up to the root; every step must be the entry the inode names. -/
def inodePathAux (s : Store) : ℕ → Id → Path → Option Path
  | 0, _, _ => none
  | fuel + 1, id, parts =>
    if id = rootInodeID then some parts
    else
      match (s.fields id).parent, (s.fields id).name with
      | some parent, some name =>
        if s.lookup parent name = some id then inodePathAux s fuel parent (name :: parts) else none
      | _, _ => none

/-- A read of `content:<id>` as a string; an absent key reads as the empty one. -/
def readString (f : Bytes → Bytes) : Option Body → Except Err Bytes
  | none => .ok (f [])
  | some (.str b) => .ok (f b)
  | some (.array _) => .error (.message "WRONGTYPE")

/-- A read of `content:<id>` as an Array. -/
def readArray (first last : ℕ) : Option Body → Except Err (List (Option Bytes))
  | none => .ok (argetrange [] first last)
  | some (.array chunks) => .ok (argetrange chunks first last)
  | some (.str _) => .error (.message "WRONGTYPE")

/-! ## Guards -/

/-- The inode the directory entries of a path lead to. -/
def walk (s : Store) : Path → Id → Option Id
  | [], id => some id
  | n :: ns, id =>
    match s.lookup id n with
    | some next => walk s ns next
    | none => none

/-- `watchExpectedParents`. -/
def parentsHold (s : Store) (parents : List (Path × Id)) : Bool :=
  parents.all fun (p, expected) => expected != 0 && walk s p rootInodeID == some expected

/-- What `retryWatch` checks before the block it runs. -/
def watchGuard (ctx : Ctx) (s : Store) : Except Err Unit :=
  if ctx.guard.leaseLost s then .error .nativeSessionLost
  else if ctx.guard.fenced s then .error .workspaceChanged
  else if parentsHold s ctx.expectedParents then .ok ()
  else .error .writeConflict

/-- A block under `WATCH`: it does not commit if a watched key changed or a guard fails. -/
def watch {α : Type} (ctx : Ctx) (o : Choice) (w : World) (block : World → Except Err α × World) :
    Except Err α × World :=
  if o.abort then (.error .txFailed, w)
  else
    match watchGuard ctx w.toStore with
    | .error e => (.error e, w)
    | .ok () => block w

/-- `runMutationScript`: under `WATCH` only when the operation is bound to directories. -/
def mutation (ctx : Ctx) (o : Choice) (w : World) (script : World → Reply × World) :
    Except Err Reply × World :=
  let block := fun w => (Except.ok (script w).1, (script w).2)
  if ctx.expectedParents = [] then block w else watch ctx o w block

/-! ## Effects -/

/-- The commands on a stage. -/
def execStage (content : Id → Option Body) (op : StageOp) (body : Option Body) :
    Except Err StageReply × Option Body :=
  let wrongType : Except Err StageReply × Option Body := (.error (.message "WRONGTYPE"), body)
  match op with
  | .writeFull ref data => (.ok {}, Afs.writeFull ref data)
  | .copy id =>
    match content id with
    | some b => (.ok { copied := true }, some b)
    | none => (.ok {}, body)
  | .set data => (.ok {}, some (.str data))
  | .expire => (.ok {}, body)
  | .del => (.ok {}, none)
  | .arset first chunks =>
    match body with
    | none => (.ok {}, some (.array (Afs.arset [] first chunks)))
    | some (.array l) => (.ok {}, some (.array (Afs.arset l first chunks)))
    | some (.str _) => wrongType
  | .argetrange first last =>
    match body with
    | none => (.ok { chunks := Afs.argetrange [] first last }, body)
    | some (.array l) => (.ok { chunks := Afs.argetrange l first last }, body)
    | some (.str _) => wrongType
  | .ardelrange first last =>
    match body with
    | none => (.ok {}, none)
    | some (.array l) => (.ok {}, some (.array (Afs.ardelrange l first last)))
    | some (.str _) => wrongType
  | .setrange off data =>
    match body with
    | none => (.ok {}, if data = [] then none else some (.str (Afs.setrange [] off data)))
    | some (.str b) => (.ok {}, some (.str (Afs.setrange b off data)))
    | some (.array _) => wrongType
  | .shrink size =>
    match body with
    | none => (.ok {}, some (.str []))
    | some (.str b) => (.ok {}, some (.str (b.take size)))
    | some (.array _) => wrongType

/-- `HashContent` of a value nobody else writes. -/
def hashContent (ref : ContentRef) (size : ℤ) (body : Option Body) : Except Err Hash :=
  if size < 0 then .error (.message "invalid history content size")
  else if size = 0 then .ok (.sha [])
  else
    match ref, body with
    | _, none => .error (.message "history content is missing")
    | .ext, some (.str b) =>
      if (b.length : ℤ) < size then .error (.message "history content has inconsistent size")
      else .ok (.sha (b.take size.toNat))
    | .array, some (.array chunks) => .ok (.sha (readArrayRange chunks 0 size.toNat))
    | _, _ => .error (.message "WRONGTYPE")

/-- The hash an inode keeps of its own bytes. -/
def keptHash (f : InodeHash) : Option Hash :=
  if f.historyRevision = f.revision then f.historyHash else none

/-- The hash of the bytes a publication replaces. -/
def prepareBefore (s : Store) (r : PrepareRequest) : Except Err Hash :=
  let f := s.fields r.inode
  match f.type, keptHash f with
  | some .file, some h => .ok h
  | some .file, none =>
    match f.contentRef with
    | none => .ok (.sha (f.content.getD []))
    | some ref => hashContent ref (f.size.getD 0) (s.content r.inode)
  | _, _ => .ok .empty

/-- The hash of the bytes a publication writes. -/
def prepareAfter (s : Store) (r : PrepareRequest) (before : Hash) : Except Err Hash :=
  match r.known, r.afterBody with
  | some b, _ => .ok (.sha b)
  | none, some key => hashContent (r.afterRef.getD .ext) r.afterSize (bodyAt s key)
  | none, none => .ok before

/-- `preparePinScript` does not find the bytes to pin. -/
def pinMissing (s : Store) (id : Id) : Bool :=
  let f := s.fields id
  f.type == some .file && decide (0 < f.size.getD 0) && f.contentRef.isSome && (keptHash f).isNone &&
    (s.content id).isNone

/-- One request of `Prepare`: what it adds to the prepared hashes. -/
def prepareOne (s : Store) (policy : Policy) (r : PrepareRequest) : Except Err (List Prepared) :=
  let f := s.fields r.inode
  if f.revision.getD 0 ≠ r.expected then .error .writeConflict
  else
    match historyPath s f (f.path.getD []) with
    | .error e => .error (.lua e)
    | .ok path =>
      if pinMissing s r.inode then .error (.message "history content is missing")
      else if ¬ (policyMatches policy path ∨ policyMatches policy r.path) then .ok []
      else
        match prepareBefore s r with
        | .error e => .error e
        | .ok before =>
          match prepareAfter s r before with
          | .error e => .error e
          | .ok h =>
            .ok [{ inode := r.inode, revision := r.expected
                   beforeHash := if before = .empty then none else some before
                   after := if r.afterType = some .file then some (h, r.afterBody) else none }]

/-- `Prepare`: nothing while the policy is off. -/
def prepare (s : Store) (operation : Token) (requests : List PrepareRequest) :
    Except Err Unit × Store :=
  let policy := s.history.policy.getD {}
  if policy.mode = .off then (.ok (), s)
  else
    match requests.mapM (prepareOne s policy) with
    | .error e => (.error e, s)
    | .ok l =>
      (.ok (), { s with
        history := { s.history with
          prepared := Function.update s.history.prepared operation l.flatten } })

/-- `createMetadata` under its watch. -/
def createBlock (name : Name) (a : CreateArgs) (w : World) : Except Err Reply × World :=
  if (w.inode a.parent).isNone then (.error .writeConflict, w)
  else if (w.lookup a.parent name).isSome then (.error .alreadyExists, w)
  else ((.ok (createMetadataScript a w).1), (createMetadataScript a w).2)

/-- `renameMetadata` under its watch, up to the script. -/
def renameGuard (a : RenameArgs) (replaced : Option (Id × Option InodeData)) (noReplace : Bool)
    (watched : Option Id) (s : Store) : Except Err Unit :=
  if (s.inode a.oldParent).isNone ∨ (s.inode a.newParent).isNone then .error .writeConflict
  else
    match s.lookup a.oldParent a.oldName with
    | none => .error .notFound
    | some src =>
      if src ≠ a.id then .error .txFailed
      else
        match loadInodeByID s src with
        | none => .error .notFound
        | some cur =>
          if cur.revision ≠ a.expected then .error .writeConflict
          else if s.lookup a.newParent a.newName ≠ replaced.map (·.1) then .error .txFailed
          else
            match replaced with
            | none => .ok ()
            | some (_, none) => .error .txFailed
            | some (_, some r) =>
              if noReplace then .error .alreadyExists
              else if cur.type = .dir ∧ r.type ≠ .dir then .error .notDir
              else if cur.type ≠ .dir ∧ r.type = .dir then .error .notFile
              else if r.type = .dir ∧ watched ≠ some r.id then .error .needDirWatch
              else if r.type = .dir ∧ (s.dirents r.id).entries ≠ [] then .error .dirNotEmpty
              else .ok ()

/-- `renameMetadata` under its watch. -/
def renameBlock (a : RenameArgs) (replaced : Option (Id × Option InodeData)) (noReplace : Bool)
    (watched : Option Id) (w : World) : Except Err Reply × World :=
  match renameGuard a replaced noReplace watched w.toStore with
  | .error e => (.error e, w)
  | .ok () => (.ok (renameMetadataScript a w).1, (renameMetadataScript a w).2)

/-- `trySetLock` under its watch. The leases of the owners are not watched: some of those that were
found (`seen`) may be gone. -/
def setLockBlock (seen : Token → Bool) (inode : Id) (owner : LockOwner) (lk : FileLock) (w : World) :
    Except Err Unit × World :=
  match w.kind inode with
  | none => (.error .notFound, w)
  | some .file =>
    if lockBlocked seen (w.locks inode) owner lk then (.error .lockWouldBlock, w)
    else
      (.ok (), { w with
        locks := Function.update w.locks inode (lockTable seen (w.locks inode) owner lk) })
  | some _ => (.error .notFile, w)

/-- The root `ensureRoot` writes, and the counters with it. -/
def createRootWrite (now : ℤ) (w : World) : World :=
  let root : InodeHash :=
    { type := some .dir, mode := some 0o755, uid := some 0, gid := some 0, size := some 0
      ctimeMs := some now, mtimeMs := some now, atimeMs := some now, parent := some 0
      name := some [], path := some [] }
  let s := w.toStore.hset rootInodeID root
  { w with
    toStore := { s with
      info := some { files := 0, directories := 1, symlinks := 0, totalDataBytes := 0 }
      nextInode := some (s.nextInode.getD rootInodeID) } }

/-- The path fields `refreshIndexedSubtree` writes. -/
def refreshWrite (paths : List (Id × Path)) (s : Store) : Store :=
  paths.foldl (fun s e => s.hset e.1 { path := some e.2 }) s

/-- What a command does when it runs and its reply arrives. -/
def effect (ctx : Ctx) (o : Choice) (w : World) : (c : Cmd) → Except Err (Val c) × World
  | .newOriginID => (.ok (w.tokens + 1), { w with tokens := w.tokens + 1 })
  | .nowMs => (.ok (o.time.getD w.clock), w)
  | .markThrottled => (.ok o.throttled, w)
  | .cacheGet p => (.ok (o.hit.filter fun d => (p, d) ∈ w.cached), w)
  | .cachePath p d => (.ok (), { w with cached := (p, { d with content := [] }) :: w.cached })
  | .preferredRef => (.ok (if w.arrays then .array else .ext), w)
  | .getGeneration => (.ok w.generation, w)
  | .getGenerationAndLease t => (.ok (w.generation, w.session t), w)
  | .loadInode id => (.ok (loadInodeByID w.toStore id), w)
  | .getRevision id => (.ok ((w.inode id).bind (·.revision)), w)
  | .lookupChild d n => (.ok (w.lookup d n), w)
  | .loadDirEntries d => (.ok ((w.dirents d).entries.map fun e => (e.1, e.2)), w)
  | .inodePath id =>
    (if ctx.guard.fenced w.toStore then .error .workspaceChanged
     else if ctx.guard.leaseLost w.toStore then .error .nativeSessionLost
     else
       match inodePathAux w.toStore 4097 id [] with
       | some p => if (w.inode rootInodeID).isSome then .ok p else .error .notFound
       | none => .error .notFound, w)
  | .loadInodeSize id => (.ok (w.size id), w)
  | .getInline id => (.ok ((w.fields id).content.getD []), w)
  | .contentExists id => (.ok (w.content id).isSome, w)
  | .getContent id => (readString (fun b => b) (w.content id), w)
  | .getRange id first last =>
    (readString (fun b => (b.drop first).take (last + 1 - first)) (w.content id), w)
  | .getChunks id first last => (readArray first last (w.content id), w)
  | .getRecord id => (.ok (w.history.records id), w)
  | .createRoot now =>
    if ctx.generation.isSome then (.error .workspaceChanged, w) else (.ok (), createRootWrite now w)
  | .incrNextInode =>
    (.ok (w.nextInode.getD 0 + 1), { w with nextInode := some (w.nextInode.getD 0 + 1) })
  | .stage t op =>
    let r := execStage w.content op (w.stage t)
    (r.1, { w with stage := Function.update w.stage t r.2 })
  | .markRootDirty =>
    if ctx.guard.fenced w.toStore then (.error .workspaceChanged, w)
    else if ctx.generation.isSome ∧ ctx.guard.leaseLost w.toStore then (.error .nativeSessionLost, w)
    else (.ok (), { w with rootDirty := true })
  | .publishInvalidation op paths =>
    (.ok (), { w with toStore := w.toStore.xadd { origin := ctx.origin, op := op, paths := paths } })
  | .prune =>
    match History.prune w.history w.clock 64 with
    | .ok h => (.ok (), { w with history := h })
    | .error e => (.error (.lua e), w)
  | .prepare operation requests =>
    ((prepare w.toStore operation requests).1,
      { w with toStore := (prepare w.toStore operation requests).2 })
  | .discardPreparation operation =>
    (.ok (), { w with
      history := { w.history with
        prepared := Function.update w.history.prepared operation [] } })
  | .publishFile a => mutation ctx o w (publishFileScript ctx.guard a)
  | .deleteInode a => mutation ctx o w (deleteInodeScript ctx.guard a)
  | .updateInode a => mutation ctx o w (updateInodeScript ctx.guard a)
  | .createMetadata name a => watch ctx o w (createBlock name a)
  | .renameMetadata a replaced noReplace watched =>
    watch ctx o w (renameBlock a replaced noReplace watched)
  | .refreshPaths paths =>
    watch ctx o w fun w => (.ok (), { w with toStore := refreshWrite paths w.toStore })
  | .restoreVersion a =>
    (.ok (restoreVersionScript ctx.guard a w).1, (restoreVersionScript ctx.guard a w).2)
  | .setLock inode owner lk =>
    watch ctx o w (setLockBlock (fun t => w.session t || o.lingering.contains t) inode owner lk)
  | .unlockAll inode owner =>
    watch ctx o w fun w =>
      (.ok (), { w with locks := Function.update w.locks inode ((w.locks inode).erase owner) })

/-- The commands that never leave the process. -/
def Cmd.isLocal : Cmd → Bool
  | .newOriginID | .nowMs | .markThrottled | .cacheGet _ | .cachePath _ _ => true
  | _ => false

/-- What a command does, network faults included. -/
def exec (ctx : Ctx) (o : Choice) (c : Cmd) (w : World) : Except Err (Val c) × World :=
  if c.isLocal then effect ctx o w c
  else
    match o.fault with
    | none => effect ctx o w c
    | some false => (.error .network, w)
    | some true => (.error .network, (effect ctx o w c).2)

/-- One exchange of an operation with context `ctx`. -/
def Exec (ctx : Ctx) (c : Cmd) (w : World) (r : Except Err (Val c)) (w' : World) : Prop :=
  ∃ o, exec ctx o c w = (r, w')

/-- A single client on a quiet network, without a path cache. -/
def seqExec (ctx : Ctx) (c : Cmd) (w : World) : Except Err (Val c) × World := exec ctx {} c w

end Afs.Client
