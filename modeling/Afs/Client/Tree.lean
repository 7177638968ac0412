import Afs.Client.Publish

/-!
# Directories, links, renames and removals

The namespace operations of `native_core.go` and `native_helpers.go`. A rename resolves its
source without following it and the parent of its destination; the tests for a no-op and for a
move below itself compare path strings, the transaction works on inode identities and names.
-/

namespace Afs.Client

open History

/-! ## Creating -/

/-- The attempts of the transaction in `createInodeUnderParent`; every attempt has a revision of
its own. It returns the inode as it was published. -/
def createAttempts (ctx : Ctx) (childPath : Path) (name : Name) (i : InodeData) : ℕ → Op InodeData
  | 0 => throw .txFailed
  | attempts + 1 => do
    let revision ← call .newOriginID
    let i := { i with revision := revision }
    let args : CreateArgs :=
      { id := i.id, parent := i.parent, path := childPath
        fields := (inodeFieldsAtPath i childPath false).merge { revision := some revision }
        payload := mutationPayload ctx .inode [childPath] }
    match ← attempt (scriptCode (call (.createMetadata name args))) with
    | .error .txFailed => createAttempts ctx childPath name i attempts
    | .error e => throw e
    | .ok code =>
      if code = -1 then throw .writeConflict
      else do
        pruneHistory code
        pure i

/-- `createInodeUnderParent` for a directory or a symbolic link. -/
def createInodeUnderParent (ctx : Ctx) (childPath : Path) (parent : InodeData) (name : Name)
    (i : InodeData) : Op InodeData := do
  if parent.type ≠ .dir then throw .parentConflict
  else do
    lift (checkExpectedParent ctx childPath parent.id)
    match ← call (.lookupChild parent.id name) with
    | some _ => throw .alreadyExists
    | none => do
      let id ← allocInodeID ctx
      let now ← call .nowMs
      let i ← createAttempts ctx childPath name { i with id := id, parent := parent.id, name := name }
        watchAttempts
      call (.cachePath (parentOf childPath) { parent with mtimeMs := now, ctimeMs := now })
      publishInvalidate ctx .dir [parentOf childPath]
      call (.cachePath childPath i)
      publishInvalidate ctx .inode [childPath]
      pure i

/-- A new directory. -/
def newDir (mode : ℕ) (now : ℤ) : InodeData :=
  { type := .dir, mode := mode, ctimeMs := now, mtimeMs := now, atimeMs := now }

/-- One component of `ensureParents`: the directory there, created if it is missing. -/
def ensureComponent (ctx : Ctx) (cur : InodeData) (nextPath : Path) (n : Name) : Op InodeData := do
  let hit ← call (.cacheGet nextPath)
  match hit.filter fun d => d.type = .dir with
  | some child => pure child
  | none =>
    match ← call (.lookupChild cur.id n) with
    | some id =>
      match ← call (.loadInode id) with
      | none => throw .parentConflict
      | some child =>
        if child.type ≠ .dir then throw .parentConflict
        else do
          call (.cachePath nextPath child)
          pure child
    | none => do
      let now ← call .nowMs
      createInodeUnderParent ctx nextPath cur n (newDir 0o755 now)

/-- The loop of `ensureParents`; symbolic links are not followed. -/
def ensureLoop (ctx : Ctx) : Path → InodeData → List Name → Op Unit
  | _, _, [] => pure ()
  | curPath, cur, n :: rest => do
    let child ← ensureComponent ctx cur (joinPath curPath n) n
    ensureLoop ctx (joinPath curPath n) child rest

/-- `ensureParents`: an operation bound to directories never creates one. -/
def ensureParents (ctx : Ctx) (p : Path) : Op Unit :=
  if ctx.expectedParents ≠ [] then do
    match ← attempt (resolvePath ctx (parentOf p) true) with
    | .error .redisNil => throw .writeConflict
    | .error e => throw e
    | .ok (_, parent) => lift (checkExpectedParent ctx p parent.id)
  else do
    ensureRoot ctx
    if parentOf p = [] then pure ()
    else
      match ← loadRootInode with
      | none => throw .redisNil
      | some root => ensureLoop ctx [] root (parentOf p)

/-- `createInodeAtPath`, without creating parents. -/
def createInodeAtPath (ctx : Ctx) (p : Path) (i : InodeData) : Op InodeData := do
  if p = [] then throw .alreadyExists
  else do
    let (_, parent) ← resolvePath ctx (parentOf p) true
    createInodeUnderParent ctx p parent (baseName p) i

/-- `MkdirMode`: an existing directory is a success. -/
def mkdirMode (ctx : Ctx) (path : Bytes) (mode : ℕ) : Op Unit := do
  let p := normalizePath path
  if p = [] then ensureRoot ctx
  else do
    ensureParents ctx p
    match ← loadInode ctx p with
    | some i => if i.type = .dir then pure () else throw .alreadyExists
    | none => do
      ensureParents ctx p
      let now ← call .nowMs
      let _ ← createInodeAtPath ctx p (newDir mode now)
      markRootDirty

/-- `Mkdir`. -/
def mkdir (ctx : Ctx) (path : Bytes) : Op Unit := mkdirMode ctx path 0o755

/-- `Ln`. -/
def ln (ctx : Ctx) (target linkpath : Bytes) : Op Unit := do
  let p := normalizePath linkpath
  if p = [] then throw .alreadyExists
  else do
    ensureParents ctx p
    match ← loadInode ctx p with
    | some _ => throw .alreadyExists
    | none => do
      let now ← call .nowMs
      let _ ← createInodeAtPath ctx p
        { type := .symlink, mode := 0o777, size := target.length, ctimeMs := now, mtimeMs := now
          atimeMs := now, target := target }
      markRootDirty

/-! ## Removing -/

/-- `Rm`: files, symbolic links and empty directories. -/
def rm (ctx : Ctx) (path : Bytes) : Op Unit := do
  let p := normalizePath path
  if p = [] then throw .cannotRemoveRoot
  else do
    let (resolved, i) ← resolvePath ctx p false
    deletePublishedInode ctx resolved i
    publishInvalidate ctx .inode [parentOf resolved]
    publishInvalidate ctx .inode [resolved]

/-! ## Renaming -/

/-- The children of a directory that still exist, each with the new paths below it. -/
def collectChildren (collect : Path → InodeData → Op (List (Id × Path))) (path : Path) :
    List (Name × Id) → Op (List (Id × Path))
  | [] => pure []
  | (n, id) :: rest => do
    match ← call (.loadInode id) with
    | none => collectChildren collect path rest
    | some child => do
      let below ← collect (joinPath path n) child
      let others ← collectChildren collect path rest
      pure (below ++ others)

/-- `queueRefreshIndexedSubtree`: the new paths of a subtree. It descends as deep as the tree is;
`fuel` bounds the depth. -/
def collectPaths : ℕ → Path → InodeData → Op (List (Id × Path))
  | 0, _, _ => throw .unfinished
  | fuel + 1, path, i => do
    if i.type ≠ .dir then pure [(i.id, path)]
    else do
      let entries ← call (.loadDirEntries i.id)
      let below ← collectChildren (collectPaths fuel) path entries
      pure ((i.id, path) :: below)

/-- `refreshIndexedSubtree`. -/
def refreshIndexedSubtree (fuel : ℕ) (path : Path) (i : InodeData) : Op Unit :=
  retryWatch (do
    let paths ← collectPaths fuel path i
    call (.refreshPaths paths)) watchAttempts

/-- What `renamePath` has fixed before its attempts. -/
structure RenamePlan where
  src : Path
  inode : InodeData
  dst : Path
  newParent : Id
  noReplace : Bool

/-- The arguments of the script in one attempt. -/
def RenamePlan.args (r : RenamePlan) (ctx : Ctx) (revision : Rev) (now : ℤ)
    (replaced : Option InodeData) : RenameArgs :=
  { id := r.inode.id, oldParent := r.inode.parent, oldName := r.inode.name
    newParent := r.newParent, newName := baseName r.dst, expected := r.inode.revision
    revision := revision, ctimeMs := now, replaced := replaced.map fun i => (i.id, i.revision)
    dst := r.dst, src := r.src, payload := mutationPayload ctx .pfx [r.src, r.dst] }

/-- What one attempt of a rename is asked to prepare. -/
def RenamePlan.requests (r : RenamePlan) (replaced : Option InodeData) : List PrepareRequest :=
  { inode := r.inode.id, expected := r.inode.revision, path := r.dst
    afterType := some r.inode.type } ::
  match replaced with
  | some i => [{ inode := i.id, expected := i.revision, path := r.dst }]
  | none => []

/-- How the attempts of one transaction in `renamePath` end. -/
inductive RenameOutcome
  | failed (e : Err)
  /-- The destination is a directory whose entries have to be watched first. -/
  | watchDir (id : Id)
  | done (i : InodeData)

/-- The entry at the destination of a rename, with the inode it leads to. -/
def RenamePlan.destination (r : RenamePlan) : Op (Option (Id × Option InodeData)) := do
  match ← call (.lookupChild r.newParent (baseName r.dst)) with
  | none => pure none
  | some id => do
    let inode ← call (.loadInode id)
    pure (some (id, inode))

/-- The attempts of the transaction in `renamePath` under one operation identity, and whether
hashes were prepared. -/
def renameAttempts (ctx : Ctx) (r : RenamePlan) (watched : Option Id) (operation : Token) :
    ℕ → Bool → Op (RenameOutcome × Bool)
  | 0, prepared => pure (.failed .txFailed, prepared)
  | attempts + 1, prepared => do
    let replaced ← r.destination
    let found := replaced.bind (·.2)
    let now ← call .nowMs
    let args := r.args ctx operation now found
    match ← attempt (scriptCode (call (.renameMetadata args replaced r.noReplace watched))) with
    | .error .txFailed => renameAttempts ctx r watched operation attempts prepared
    | .error .needDirWatch => pure (.watchDir ((replaced.map (·.1)).getD 0), prepared)
    | .error (.lua .preparationRequired) =>
      match ← attempt (call (.prepare operation (r.requests found))) with
      | .error e => pure (.failed e, prepared)
      | .ok () => renameAttempts ctx r watched operation attempts true
    | .error e => pure (.failed e, prepared)
    | .ok code =>
      if code = -1 then pure (.failed .writeConflict, prepared)
      else do
        pruneHistory code
        pure (.done { r.inode with
          parent := r.newParent, name := baseName r.dst, ctimeMs := now
          revision := operation }, prepared)

/-- The loop of `renamePath`: again with the destination directory watched when the attempt
before found one there. It also returns the operations whose preparation is to be discarded. -/
def renameLoop (ctx : Ctx) (r : RenamePlan) : ℕ → Option Id → List Token →
    Op (Except Err InodeData × List Token)
  | 0, _, prepared => pure (.error (.message "destination changed too often"), prepared)
  | attempts + 1, watched, prepared => do
    let operation ← call .newOriginID
    let (outcome, didPrepare) ← renameAttempts ctx r watched operation watchAttempts false
    let prepared := if didPrepare then operation :: prepared else prepared
    match outcome with
    | .watchDir id => renameLoop ctx r attempts (some id) prepared
    | .failed e => pure (.error e, prepared)
    | .done i => pure (.ok i, prepared)

/-- Discard every preparation of a rename. -/
def discardAll : List Token → Op Unit
  | [] => pure ()
  | t :: ts => do
    ignore (call (.discardPreparation t))
    discardAll ts

/-- `renamePath`. -/
def renamePath (ctx : Ctx) (fuel : ℕ) (r : RenamePlan) : Op Unit := do
  lift (checkExpectedParent ctx r.src r.inode.parent)
  lift (checkExpectedParent ctx r.dst r.newParent)
  lift (checkWriteCondition ctx r.inode false)
  if r.inode.parent = 0 then throw .notFound
  else do
    let (result, prepared) ← renameLoop ctx r 8 none []
    let outcome ← attempt <| do
      let i ← lift result
      publishInvalidate ctx .inode [parentOf r.src]
      publishInvalidate ctx .inode [parentOf r.dst]
      publishInvalidate ctx .pfx [r.src]
      publishInvalidate ctx .pfx [r.dst]
      refreshIndexedSubtree fuel r.dst i
    discardAll prepared
    lift outcome

/-- The flags of `Rename`. -/
structure RenameFlags where
  noReplace : Bool := false
  /-- `RENAME_EXCHANGE` or any other bit. -/
  other : Bool := false
  deriving DecidableEq

/-- `Rename`. -/
def rename (ctx : Ctx) (fuel : ℕ) (source destination : Bytes) (flags : RenameFlags) : Op Unit := do
  let src := normalizePath source
  let dst := normalizePath destination
  if src = [] then throw .cannotMoveRoot
  else if src = dst then pure ()
  else if flags.other then throw .unsupported
  else do
    let (resolvedSrc, i) ← resolvePath ctx src false
    if i.type = .dir ∧ isUnder dst resolvedSrc then
      throw (.message "cannot move a directory into its own subtree")
    else do
      let (_, newParent) ← resolvePath ctx (parentOf dst) true
      if newParent.type ≠ .dir then throw .parentConflict
      else do
        renamePath ctx fuel ⟨resolvedSrc, i, dst, newParent.id, flags.noReplace⟩
        markRootDirty

end Afs.Client
