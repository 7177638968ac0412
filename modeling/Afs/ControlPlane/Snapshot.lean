import Afs.ControlPlane.Plane

/-!
# Reading the live tree

`BuildManifestFromWorkspaceRoot` walks the directories level by level. Every inode, every content
and every directory is read by a command of its own, so the tree may change under the walk; it is
the caller who finds out.
-/

namespace Afs.ControlPlane

open History

/-- Operations of the control plane. -/
abbrev Op (α : Type) := ExceptT Err (Prog sig) α

/-- Issue one command. -/
def call (c : Cmd) : Op (Val c) := ExceptT.mk (Prog.call (S := sig) c)

/-- A check that issues no command. -/
def lift {α : Type} (x : Except Err α) : Op α := ExceptT.mk (pure x)

/-- A value that has to be there. -/
def required {α : Type} (e : Err) (x : Op (Option α)) : Op α := do
  match ← x with
  | some a => pure a
  | none => throw e

/-- A step taken only under a condition. -/
def onlyIf (b : Prop) [Decidable b] (x : Op Unit) : Op Unit := if b then x else pure ()

/-! ## Contents -/

/-- The batches of `loadArray` read one after the other. -/
def loadArrayBatches (id : Id) (size : ℕ) : List (ℕ × ℕ) → Bytes → Op Bytes
  | [], buf => pure buf
  | batch :: rest, buf => do
    let values ← call (.getChunks id batch.1 batch.2)
    loadArrayBatches id size rest (loadBatch size buf batch values)

/-- `rediscontent.Load`. -/
def loadContent (id : Id) (ref : ContentRef) (size : ℤ) : Op Bytes :=
  match ref with
  | .ext => call (.getContent id)
  | .array => do
    if (← call .preferredRef) = .ext then
      throw (.message "the server does not support array commands")
    else if size ≤ 0 then pure []
    else loadArrayBatches id size.toNat (loadBatches size.toNat) (List.replicate size.toNat 0)

/-! ## The walk -/

/-- `bfsItem`. -/
structure Item where
  inode : Id
  path : Bytes
  deriving DecidableEq, Repr

/-- The walk so far: the entries and the blobs that do not fit into them. -/
structure Walked where
  entries : Entries := ∅
  blobs : AList fun _ : Hash => Bytes := ∅

/-- An inode of the level, with its bytes if it is a file. -/
structure Visit where
  item : Item
  kind : Kind
  fields : InodeHash
  content : Bytes

/-- The first pass over a level: inodes without a type are skipped. -/
def readInodes : List Item → Op (List (Item × Kind × InodeHash))
  | [] => pure []
  | item :: rest => do
    let h ← call (.readInode item.inode)
    let tail ← readInodes rest
    match h.bind fun f => f.type.map fun k => (item, k, f) with
    | some v => pure (v :: tail)
    | none => pure tail

/-- The bytes of an inode. -/
def visitContent (item : Item) (kind : Kind) (f : InodeHash) : Op Bytes :=
  match kind, f.contentRef with
  | .file, some ref => loadContent item.inode ref (f.size.getD 0)
  | _, _ => pure (f.content.getD [])

/-- The second pass over a level. -/
def readContents : List (Item × Kind × InodeHash) → Op (List Visit)
  | [] => pure []
  | (item, kind, f) :: rest => do
    let content ← visitContent item kind f
    let tail ← readContents rest
    pure (⟨item, kind, f, content⟩ :: tail)

/-- `blobSHA256`. -/
def blobSHA256 (data : Bytes) : Hash := .sha data

/-- The manifest entry of an inode. -/
def Visit.entry (v : Visit) : ManifestEntry :=
  let base : ManifestEntry :=
    { type := v.kind, mode := v.fields.mode.getD 0 % 2 ^ 32, mtimeMs := v.fields.mtimeMs.getD 0 }
  match v.kind with
  | .dir => base
  | .symlink =>
    let target := v.fields.target.getD []
    { base with target := target, size := target.length }
  | .file =>
    let base := { base with size := v.content.length }
    if v.content.length ≤ inlineThreshold then { base with inline := Base64.encode v.content }
    else { base with blobId := blobSHA256 v.content }

/-- What one inode adds to the manifest. -/
def Walked.add (w : Walked) (v : Visit) : Walked :=
  if shouldIgnoreMountPath v.item.path then w
  else
    { entries := w.entries.insert v.item.path v.entry
      blobs :=
        if v.entry.blobId = .empty then w.blobs else w.blobs.insert v.entry.blobId v.content }

/-- The directories of a level that are walked on. -/
def Visit.descends (v : Visit) : Bool := v.kind = .dir && !shouldIgnoreMountPath v.item.path

/-- The children of a directory in the order of their names. -/
def children (dir : Item) (entries : List (Name × Id)) : List Item :=
  (entries.insertionSort fun a b => a.1 ≤ b.1).map fun e => ⟨e.2, childPath dir.path e.1⟩

/-- The next level. -/
def readDirents : List Item → Op (List Item)
  | [] => pure []
  | dir :: rest => do
    let entries ← call (.readDirents dir.inode)
    let tail ← readDirents rest
    pure (children dir entries ++ tail)

/-- The loop over the levels. -/
def walkLevels : ℕ → List Item → Walked → Op Walked
  | _, [], w => pure w
  | 0, _ :: _, _ => throw .unfinished
  | fuel + 1, queue, w => do
    let inodes ← readInodes queue
    let visits ← readContents inodes
    let w := visits.foldl Walked.add w
    let next ← readDirents ((visits.filter Visit.descends).map (·.item))
    walkLevels fuel next w

/-- `BuildManifestFromWorkspaceRoot`; `fuel` bounds the depth of the tree. -/
def buildManifestFromWorkspaceRoot (fuel : ℕ) (savepoint : CheckpointId) :
    Op (Manifest × AList fun _ : Hash => Bytes) := do
  let w ← walkLevels fuel [⟨rootInodeID, [slash]⟩] {}
  let entries :=
    if (w.entries.lookup [slash]).isSome then w.entries
    else w.entries.insert [slash] { type := .dir, mode := 0o755 }
  pure (⟨savepoint, entries⟩, w.blobs)

end Afs.ControlPlane
