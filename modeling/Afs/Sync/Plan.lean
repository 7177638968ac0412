import Mathlib.Data.List.Perm.Basic
import Afs.Sync.Reconciler

/-!
# The plan of a full reconciliation

`sync_full_reconciler.go`, up to `buildPlan`: both sides are scanned for their metadata, local
deletions made while nobody was watching become tombstones, and every path is given at most one
action by comparing both sides with the baseline. A map of Go is gone through in any order, so the
order is chosen from outside. The walks have a bound on their depth.
-/

namespace Afs.Sync

/-- `observedMeta`: what a scan keeps of a path. -/
structure ObservedMeta where
  kind : Kind
  mode : ℕ := 0
  size : ℕ := 0
  mtimeMs : ℕ := 0
  mtimeNs : ℕ := 0
  target : Bytes := []
  deriving DecidableEq, Repr

/-- What a scan has found, by path. -/
abbrev Scan := Table Name ObservedMeta

/-- The order in which the keys of a map come. -/
structure MapOrder where
  order : List Path → List Path
  perm : ∀ l, (order l).Perm l

/-- The order of the table. -/
def MapOrder.asIs : MapOrder := ⟨id, fun _ => .refl _⟩

/-! ## The local scan -/

/-- What the walk records of an entry that its directory lists with a type. -/
def observeLocal (p : Path) (listed : Kind) : Act (Option ObservedMeta) := do
  match ← (Cmd.lstat p).issue with
  | .error _ => pure none
  | .ok info =>
    if info.kind = .symlink then do
      match ← (Cmd.readlink p).issue with
      | .error _ => pure none
      | .ok target => pure (some { kind := .symlink, target, mtimeMs := info.mtimeMs })
    else if listed = .dir then
      pure (some { kind := .dir, mode := info.mode, mtimeMs := info.mtimeMs })
    else if info.kind = .file then
      pure (some { kind := .file, mode := info.mode, size := info.size, mtimeMs := info.mtimeMs
                   mtimeNs := info.mtime })
    else pure none

/-- The walk of `scanLocalMeta` from a directory on. -/
def scanLocalDir (cfg : Config) : ℕ → Path → Scan → Try Scan
  | 0, _, _ => throw .missing
  | depth + 1, dir, out => do
    let names ← liftM (Cmd.readDir dir).issue
    match names with
    | .error .notExist => if dir = [] then throw (.os .notExist) else pure out
    | .error e => throw (.os e)
    | .ok names => names.foldlM (fun out n =>
        if cfg.ignored (joinPath dir n.1) then pure out
        else do
          let seen ← liftM (observeLocal (joinPath dir n.1) n.2)
          let out := seen.elim out (out.insert (joinPath dir n.1))
          if n.2 = .dir then scanLocalDir cfg depth (joinPath dir n.1) out else pure out) out

/-- `scanLocalMeta`: nothing is taken from a root that was replaced meanwhile. -/
def scanLocalMeta (cfg : Config) (depth : ℕ) : Try Scan := do
  let before ← ofOs (Cmd.lstat []).issue
  if before.kind ≠ .dir then throw .notDir
  let out ← scanLocalDir cfg depth [] ∅
  let after ← ofOs (Cmd.lstat []).issue
  if after.kind ≠ .dir ∨ after.ident ≠ before.ident then throw .localChanged
  pure out

/-! ## The remote scan -/

/-- What the scan records of an inode that its directory lists; a link that cannot be read is left
out. -/
def observeRemote (p : Path) (stat : StatResult) : Act (Option ObservedMeta) :=
  match stat.type with
  | .dir => pure (some { kind := .dir, mode := stat.mode, mtimeMs := stat.mtime })
  | .file => pure (some { kind := .file, mode := stat.mode, size := stat.size, mtimeMs := stat.mtime })
  | .symlink => do
    match ← (Cmd.readlinkRemote p).issue with
    | .error _ => pure none
    | .ok target =>
      pure (some { kind := .symlink, mode := stat.mode, size := stat.size, target
                   mtimeMs := stat.mtime })

/-- `scanRemoteDirMeta`: what was found up to the first error, and the error. -/
def scanRemoteDirMeta (cfg : Config) : ℕ → Path → Scan → Act (Scan × Option SyncErr)
  | 0, _, out => pure (out, some .missing)
  | depth + 1, dir, out => do
    match ← (Cmd.lsLong dir).issue with
    | .error e => pure (out, some (.client e))
    | .ok names => names.foldlM (fun found n =>
        if found.2.isSome ∨ cfg.ignored (joinPath dir n.1) then pure found
        else do
          let seen ← observeRemote (joinPath dir n.1) n.2
          let out := seen.elim found.1 (found.1.insert (joinPath dir n.1))
          if n.2.type = .dir then scanRemoteDirMeta cfg depth (joinPath dir n.1) out
          else pure (out, none)) (out, none)

/-- `scanRemoteMeta`: a directory that is not found ends the scan with what there is. -/
def scanRemoteMeta (cfg : Config) (depth : ℕ) : Try Scan := do
  let found ← liftM (scanRemoteDirMeta cfg depth [] ∅)
  match found.2 with
  | none => pure found.1
  | some (.client e) => if e.isNotFound then pure found.1 else throw (.client e)
  | some e => throw e

/-! ## Deletions nobody has seen -/

/-- An entry becomes a tombstone. -/
def SyncState.markDeleted (s : SyncState) (now : ℕ) (p : Path) : SyncState :=
  match s.entry p with
  | none => s
  | some e => if e.deleted then s else s.put p { e with deleted := true, lastSyncedAt := now }

/-- A tombstone becomes an entry again. -/
def SyncState.unmarkDeleted (s : SyncState) (p : Path) : SyncState :=
  match s.entry p with
  | none => s
  | some e => if e.deleted then s.put p { e with deleted := false } else s

/-- The paths that are not there. -/
def missingLocally : List Path → Act (List Path)
  | [] => pure []
  | p :: rest => do
    let info ← (Cmd.lstat p).issue
    let gone ← missingLocally rest
    match info with
    | .error .notExist => pure (p :: gone)
    | _ => pure gone

/-- `detectOfflineDeletes`. The state stays locked from its first look at it to the end. -/
def detectOfflineDeletes (cfg : Config) (o : MapOrder) (found : Scan) : Act Unit := do
  let s ← readState
  let now ← Cmd.now.issue
  if cfg.readonly then modifyState fun s => (o.order s.entries.keys).foldl .unmarkDeleted s
  else do
    let gone ← missingLocally ((o.order s.entries.keys).filter fun p =>
      (s.entry p).any (¬ ·.deleted) ∧ (found.lookup p).isNone)
    modifyState fun s => gone.foldl (·.markDeleted now ·) s

/-! ## The plan -/

/-- The kinds of a `syncAction`. -/
inductive ActionKind
  | mkdirLocal
  | mkdirRemote
  | download
  | upload
  | symlinkDownload
  | symlinkUpload
  | deleteRemote
  | deleteLocal
  deriving DecidableEq, Repr

/-- `syncAction`. -/
structure SyncAction where
  kind : ActionKind
  path : Path
  mode : ℕ := 0
  target : Bytes := []
  conflict : Bool := false
  localMeta : Option ObservedMeta := none
  remoteMeta : Option ObservedMeta := none
  checkState : Bool := false
  stored : Option SyncEntry := none
  deriving DecidableEq, Repr

/-- `planUpload`. -/
def planUpload (cfg : Config) (p : Path) (l : ObservedMeta) : List SyncAction :=
  if cfg.readonly then []
  else
    match l.kind with
    | .dir => [{ kind := .mkdirRemote, path := p, mode := l.mode }]
    | .symlink => [{ kind := .symlinkUpload, path := p, target := l.target }]
    | .file => [{ kind := .upload, path := p, mode := l.mode, localMeta := some l }]

/-- `planDownload`. -/
def planDownload (p : Path) (r : ObservedMeta) (conflict : Bool) : SyncAction :=
  match r.kind with
  | .dir => { kind := .mkdirLocal, path := p, mode := r.mode, remoteMeta := some r }
  | .symlink =>
    { kind := .symlinkDownload, path := p, target := r.target, conflict, remoteMeta := some r }
  | .file => { kind := .download, path := p, mode := r.mode, conflict, remoteMeta := some r }

/-- `metaMatch`. -/
def metaMatch (l r : ObservedMeta) (stored : Option SyncEntry) : Bool :=
  l.kind = r.kind &&
    match l.kind with
    | .dir => l.mode = r.mode
    | .symlink => l.target = r.target
    | .file => l.size = r.size && l.mode = r.mode && stored.any fun s =>
        s.size = l.size && l.mtimeMs = s.localMtimeMs && r.mtimeMs = s.remoteMtimeMs

/-- `observedChangedFromStored`, where a file is compared with one of the two recorded times. -/
def ObservedMeta.changedFrom (m : ObservedMeta) (s : SyncEntry) (mtimeMs : ℕ) : Bool :=
  s.deleted || m.kind ≠ s.type ||
    match m.kind with
    | .dir => s.mode ≠ 0 && m.mode ≠ 0 && m.mode ≠ s.mode
    | .symlink => m.target ≠ s.target
    | .file => m.size ≠ s.size || (mtimeMs ≠ 0 && m.mtimeMs ≠ mtimeMs)

/-- `mountRemoteDirHasLiveDescendants`. -/
def hasLiveDescendants (p : Path) (remote : Scan) (s : SyncState) : Bool :=
  remote.keys.any fun c => p <+: c ∧ c ≠ p ∧ ¬ (s.entry c).any (·.deleted)

/-- `targetFromMeta`. -/
def targetFromMeta (l r : ObservedMeta) : Bytes :=
  if l.kind = .symlink then l.target else if r.kind = .symlink then r.target else []

/-- What `refreshStateMeta` does to the state. -/
def SyncState.refresh (s : SyncState) (p : Path) (l r : ObservedMeta) (stored : Option SyncEntry)
    (now : ℕ) : SyncState :=
  if ¬ s.isCurrent p stored then s.requestFullSweep
  else s.put p { (s.entry p).getD { type := l.kind } with
    deleted := false, type := l.kind, mode := l.mode, size := l.size, localMtimeMs := l.mtimeMs
    remoteMtimeMs := r.mtimeMs, target := targetFromMeta l r, lastSyncedAt := now }

/-- `refreshStateMeta`. -/
def refreshStateMeta (p : Path) (l r : ObservedMeta) (stored : Option SyncEntry) :
    Act (List SyncAction) := do
  let now ← Cmd.now.issue
  modifyState (·.refresh p l r stored now)
  pure []

section BuildPlan

variable (cfg : Config) (remote : Scan) (p : Path)

/-- A path that is only here: uploaded if it is new or came back, removed if it is gone remotely. -/
def planLocalOnly (l : ObservedMeta) (stored : Option SyncEntry) : Act (List SyncAction) :=
  if stored.all (·.deleted) then pure (planUpload cfg p l)
  else do
    match ← (Cmd.stat p).issue with
    | .ok (some _) => pure []
    | .ok none => pure [{ kind := .deleteLocal, path := p }]
    | .error e =>
      if e.isNotFound then pure [{ kind := .deleteLocal, path := p }]
      else do
        modifyState (·.requestFullSweep)
        pure []

/-- A path that is only there: a tombstone is carried out, unless the directory it is of has entries
nobody deleted. -/
def planRemoteOnly (r : ObservedMeta) (stored : Option SyncEntry) : Act (List SyncAction) :=
  if stored.any (·.deleted) then
    if r.kind = .dir then do
      let s ← readState
      if hasLiveDescendants p remote s then pure [planDownload p r false]
      else pure [{ kind := .deleteRemote, path := p }]
    else pure [{ kind := .deleteRemote, path := p }]
  else pure [planDownload p r false]

/-- The remote side as a read-only mount compares it. -/
def comparisonRemote (r : ObservedMeta) : ObservedMeta :=
  if cfg.readonly ∧ r.kind = .file then { r with mode := r.mode &&& 0o37777777555 } else r

/-- A path that is on both sides. -/
def planBoth (l r : ObservedMeta) (stored : Option SyncEntry) : Act (List SyncAction) :=
  let c := comparisonRemote cfg r
  if metaMatch l c stored then refreshStateMeta p l r stored
  else
    match stored.filter (¬ ·.deleted) with
    | none => pure [planDownload p r true]
    | some s =>
      let localChanged := l.changedFrom s s.localMtimeMs ∨ l.mode ≠ s.mode
      let remoteChanged := c.changedFrom s s.remoteMtimeMs ∨ c.mode ≠ s.mode
      if localChanged then
        if remoteChanged ∨ cfg.readonly then pure [planDownload p r true]
        else pure (planUpload cfg p l)
      else if remoteChanged then pure [planDownload p r false]
      else refreshStateMeta p l r stored

/-- The action for one path. -/
def planPath (found : Scan) (stored : Option SyncEntry) : Act (List SyncAction) := do
  let pending ← deferScanForPendingUpload p
  if pending then pure []
  else
    match found.lookup p, remote.lookup p with
    | some l, none => planLocalOnly cfg p l stored
    | none, some r => planRemoteOnly remote p r stored
    | some l, some r => planBoth cfg p l r stored
    | none, none => pure []

end BuildPlan

/-- An action with what it was planned on. -/
def SyncAction.against (a : SyncAction) (found remote : Scan) (baseline : SyncState) : SyncAction :=
  { a with
    checkState := true
    stored := baseline.entry a.path
    localMeta := found.lookup a.path <|> a.localMeta
    remoteMeta := remote.lookup a.path <|> a.remoteMeta }

/-- The paths of both scans. -/
def scanned (found remote : Scan) : List Path :=
  found.keys ++ remote.keys.filter fun p => (found.lookup p).isNone

/-- `buildPlan`. -/
def buildPlan (cfg : Config) (o : MapOrder) (found remote : Scan) : Act (List SyncAction) := do
  let baseline ← readState
  let plan ← (o.order (scanned found remote)).foldlM (fun plan p => do
    let actions ← planPath cfg remote p found (baseline.entry p)
    pure (plan ++ actions)) []
  pure (plan.map (·.against found remote baseline))

end Afs.Sync
