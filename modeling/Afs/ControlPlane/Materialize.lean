import Afs.ControlPlane.Checkpoint

/-!
# Writing a manifest out as the live tree

`SyncWorkspaceRootWithOptions` deletes the keys of the old tree in batches, lays the entries of the
manifest out as inodes numbered from the root on, parents before their children, and writes them in
batches of commands.
-/

namespace Afs.ControlPlane

open History

/-! ## The nodes -/

/-- `workspaceFSNode`. The root has no parent. -/
structure FSNode where
  id : Id
  path : Path
  parentId : Option Id := none
  name : Name := []
  entry : ManifestEntry
  deriving DecidableEq, Repr

/-- The entries of a manifest by normalized path. -/
abbrev PathEntries := AList fun _ : Path => ManifestEntry

/-- The directories above a path, the root left out. -/
def properAncestors (p : Path) : List Path := (p.dropLast.inits).filter (· ≠ [])

/-- A directory nobody described. -/
def impliedDir : ManifestEntry := { type := .dir, mode := 0o755 }

/-- The root's entry: always a directory, and never without permissions. -/
def rootEntry (entries : PathEntries) : ManifestEntry :=
  let e := (entries.lookup []).getD impliedDir
  let e := { e with type := .dir }
  { e with mode := modeForWorkspaceFS e }

/-- `workspaceFSManifestEntries`: the entries under their normalized paths, with a root and with
every directory above them. -/
def workspaceFSManifestEntries (m : Manifest) : PathEntries :=
  let entries : PathEntries :=
    m.entries.entries.foldl (fun es e => es.insert (normalizePath e.1) e.2) ∅
  let entries := entries.insert [] (rootEntry entries)
  (entries.keys.flatMap properAncestors).foldl
    (fun es p => if (es.lookup p).isSome then es else es.insert p impliedDir) entries

/-- The order of `workspaceFSOrderedPaths`: by depth, then by the string. -/
def pathBefore (a b : Path) : Bool :=
  a.length < b.length || (a.length = b.length && decide (pathString a ≤ pathString b))

/-- `workspaceFSOrderedPaths`. -/
def workspaceFSOrderedPaths (entries : PathEntries) : List Path :=
  entries.keys.insertionSort fun a b => pathBefore a b = true

/-- The node of one path, if its parent is a directory that has a number already. -/
def buildNode (entries : PathEntries) (ids : AList fun _ : Path => Id) (nextId : Id) (p : Path) :
    Except Err FSNode :=
  match entries.lookup p, entries.lookup (parentOf p), ids.lookup (parentOf p) with
  | some entry, some parent, some parentId =>
    if parent.type = .dir then .ok ⟨nextId, p, some parentId, baseName p, entry⟩
    else .error (.message "manifest path has non-directory parent")
  | _, none, _ => .error (.message "manifest path is missing parent")
  | _, _, _ => .error (.message "manifest path is missing parent inode")

/-- The loop of `buildWorkspaceFSNodes` over the paths below the root. -/
def buildNodes (entries : PathEntries) :
    List Path → AList (fun _ : Path => Id) → Id → Except Err (List FSNode)
  | [], _, _ => .ok []
  | p :: ps, ids, last => do
    let node ← buildNode entries ids (last + 1) p
    let rest ← buildNodes entries ps (ids.insert p (last + 1)) (last + 1)
    return node :: rest

/-- `buildWorkspaceFSNodes`. -/
def buildWorkspaceFSNodes (m : Manifest) : Except Err (List FSNode) := do
  let entries := workspaceFSManifestEntries m
  let paths := (workspaceFSOrderedPaths entries).filter (· ≠ [])
  let rest ← buildNodes entries paths (AList.singleton [] rootInodeID) rootInodeID
  return ⟨rootInodeID, [], none, [], (entries.lookup []).getD impliedDir⟩ :: rest

/-! ## The fields -/

/-- `workspaceHistoryBinding`. -/
structure HistoryBinding where
  fileID : LineageId
  revision : Rev
  historyRevision : Rev
  deriving DecidableEq, Repr

/-- The lineages a restored tree keeps, by path. -/
abbrev Bindings := Path → Option HistoryBinding

/-- `ManifestEntryData`. -/
def manifestEntryData (e : ManifestEntry) : Op Bytes :=
  if e.inline ≠ [] then
    match Base64.decode e.inline with
    | some data => pure data
    | none => throw (.message "illegal base64 data")
  else if e.blobId ≠ .empty then do
    let _ ← call .getMeta
    required .notExist (call (.getBlob e.blobId))
  else if e.type = .file ∧ e.size = 0 then pure []
  else throw (.message "manifest entry does not contain file data")

/-- The fields every kind of node has. -/
def nodeFields (node : FSNode) (binding : Option HistoryBinding) : InodeHash :=
  { type := some node.entry.type
    mode := some (modeForWorkspaceFS node.entry)
    uid := some 0
    gid := some 0
    ctimeMs := some node.entry.mtimeMs
    mtimeMs := some node.entry.mtimeMs
    atimeMs := some node.entry.mtimeMs
    parent := some (node.parentId.getD 0)
    name := some node.name
    path := some node.path
    historyId := binding.map (·.fileID)
    historyRevision := binding.map (·.historyRevision)
    revision := binding.map (·.revision) }

/-- The size of a symbolic link. -/
def linkSize (e : ManifestEntry) : ℤ :=
  if e.size = 0 ∧ e.target ≠ [] then e.target.length else e.size

/-- `workspaceFSNodeFields`: the fields of a node and the bytes of a file. -/
def workspaceFSNodeFields (node : FSNode) (binding : Option HistoryBinding) (ref : ContentRef) :
    Op (InodeHash × Bytes) :=
  let base := nodeFields node binding
  match node.entry.type with
  | .dir => pure ({ base with size := some 0 }, [])
  | .file => do
    let data ← manifestEntryData node.entry
    pure ({ base with size := some data.length, contentRef := some ref }, data)
  | .symlink =>
    pure ({ base with size := some (linkSize node.entry), target := some node.entry.target }, [])

/-! ## The batches -/

/-- The commands waiting in a pipeline, the entries and the bytes they count for. -/
structure Pipeline where
  commands : List Cmd := []
  entries : ℕ := 0
  bytes : ℕ := 0

/-- `workspaceFSWriteBatchEntries`. -/
def writeBatchEntries : ℕ := 128

/-- `workspaceFSWriteBatchBytes`. -/
def writeBatchBytes : ℕ := 4 * 2 ^ 20

/-- The commands of a pipeline, sent one after the other. -/
def sendAll : List Cmd → Op Unit
  | [] => pure ()
  | c :: cs => do
    let _ ← call c
    sendAll cs

/-- `queueCapacity`: a full pipeline is sent first. -/
def queueCapacity (pipe : Pipeline) (weight : ℕ) : Op Pipeline :=
  if writeBatchEntries ≤ pipe.entries ∨ 0 < pipe.bytes ∧ writeBatchBytes < pipe.bytes + weight then do
    sendAll pipe.commands
    pure { entries := 1, bytes := weight }
  else pure { pipe with entries := pipe.entries + 1, bytes := pipe.bytes + weight }

/-- `workspaceFSNodeWeight`. -/
def nodeWeight (node : FSNode) (contentSize : ℕ) : ℕ :=
  let weight := (pathString node.path).length + node.name.length + 256
  match node.entry.type with
  | .file => weight + contentSize
  | .symlink => weight + node.entry.target.length
  | .dir => weight

/-- The commands that write a node. -/
def nodeCommands (node : FSNode) (binding : Option HistoryBinding) (ref : ContentRef)
    (fields : InodeHash) (content : Bytes) : List Cmd :=
  (if node.entry.type = .file then [Cmd.writeContent node.id ref content] else []) ++
    [Cmd.hsetInode node.id fields] ++
    (binding.map fun b => Cmd.bindLineage b.fileID node.id).toList ++
    (node.parentId.map fun d => Cmd.link d node.name node.id).toList

/-- The counters of the nodes written so far. -/
def countNode (info : Info) (node : FSNode) (size : ℕ) : Info :=
  match node.entry.type with
  | .file => { info with files := info.files + 1, totalDataBytes := info.totalDataBytes + size }
  | .dir => { info with directories := info.directories + 1 }
  | .symlink => { info with symlinks := info.symlinks + 1 }

/-- The loop of `writeWorkspaceFSNodes`. -/
def writeNodes (bindings : Bindings) (ref : ContentRef) :
    List FSNode → Pipeline → Info → Op (Pipeline × Info)
  | [], pipe, info => pure (pipe, info)
  | node :: rest, pipe, info => do
    let (fields, content) ← workspaceFSNodeFields node (bindings node.path) ref
    let pipe ← queueCapacity pipe (nodeWeight node content.length)
    writeNodes bindings ref rest
      { pipe with
        commands := pipe.commands ++ nodeCommands node (bindings node.path) ref fields content }
      (countNode info node content.length)

/-- `writeWorkspaceFSNodes`. -/
def writeWorkspaceFSNodes (nodes : List FSNode) (bindings : Bindings) : Op Unit := do
  let ref ← call .preferredRef
  let (pipe, info) ← writeNodes bindings ref nodes {} {}
  let pipe ← queueCapacity pipe 512
  sendAll (pipe.commands ++
    [Cmd.setInfo info, Cmd.setNextInode ((nodes.getLast?.map (·.id)).getD rootInodeID)])

/-! ## The whole -/

/-- The families of keys `resetWorkspaceFSNamespace` deletes. -/
def namespacePatterns : List (Key → Bool)  :=
  [fun k => match k with | .inode _ => true | _ => false,
   fun k => match k with | .content _ | .stage _ => true | _ => false,
   fun k => match k with | .dirents _ => true | _ => false,
   fun k => match k with | .locks _ => true | _ => false]

/-- The keys that are deleted by name. -/
def rootKeys : Key → Bool
  | .info | .nextInode | .rootHead | .rootDirty => true
  | _ => false

/-- `SCAN` and `DEL` of the keys of a family. `SCAN` comes back with batches of its own choice, in
which no key is missing that was there from the beginning. -/
def scanAndDelete (pattern : Key → Bool) : List (List Key) → Op Unit
  | [] => call (.del pattern)
  | batch :: rest => do
    call (.del fun k => pattern k && batch.contains k)
    scanAndDelete pattern rest

/-- `resetWorkspaceFSNamespace`. -/
def resetWorkspaceFSNamespace (batches : List (List Key)) : List (Key → Bool) → Op Unit
  | [] => call (.del rootKeys)
  | pattern :: rest => do
    scanAndDelete pattern batches
    resetWorkspaceFSNamespace batches rest

/-- `SyncWorkspaceRootWithOptions` with a namespace to reset; `batches` are the choices of `SCAN`. -/
def syncWorkspaceRoot (m : Manifest) (bindings : Bindings) (batches : List (List Key)) : Op Unit := do
  let _ ← call .getMeta
  resetWorkspaceFSNamespace batches namespacePatterns
  let nodes ← lift (buildWorkspaceFSNodes m)
  writeWorkspaceFSNodes nodes bindings
  let _ ← call .getMeta
  call (.markClean m.savepoint)

end Afs.ControlPlane
