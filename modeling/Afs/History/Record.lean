import Afs.Workspace.Path

/-!
# History records

The data of `internal/filehistory`: the versioning policy, the immutable record of one version of
a file, and the keys under the workspace's `history:` prefix. Revisions and operation identities
come from `newOriginID`, sixteen random bytes that never repeat; they are numbers here, with `0`
for the empty string.

SHA-256 is ideal: a digest is kept as the bytes it was computed from.
-/

namespace Afs

/-- Inode identities, the decimal strings `INCR` hands out; `0` is the empty string. -/
abbrev Id := ℕ

/-- Values of `newOriginID`; `0` is the empty string. -/
abbrev Token := ℕ

/-- The revision of an inode: the token of the publication that wrote it. -/
abbrev Rev := Token

/-- Where file bytes are stored: the `content_ref` field (`ext` or `array`). -/
inductive ContentRef
  | ext
  | array
  deriving DecidableEq, Repr

/-- A Redis value that holds file bytes: a string, or an Array of chunks with holes. -/
inductive Body
  | str (b : Bytes)
  | array (chunks : List (Option Bytes))
  deriving DecidableEq, Repr

/-- The three kinds of inode. -/
inductive Kind
  | file
  | dir
  | symlink
  deriving DecidableEq, Repr

namespace History

/-- The modes of a versioning policy. -/
inductive Mode
  | off
  | all
  | paths
  deriving DecidableEq, Repr

/-- `Policy`: zero limits are unlimited. -/
structure Policy where
  mode : Mode := .off
  include_ : List Bytes := []
  exclude : List Bytes := []
  maxVersions : ℕ := 0
  maxAgeDays : ℕ := 0
  maxBytes : ℕ := 0
  maxFileBytes : ℕ := 0
  deriving DecidableEq, Repr

/-- A content hash: empty, the SHA-256 of some bytes, or `symlink:` and a target. -/
inductive Hash
  | empty
  | sha (preimage : Bytes)
  | symlink (target : Bytes)
  deriving DecidableEq, Repr

/-- The name of a lineage: the operation and the inode that started it. -/
structure LineageId where
  operation : Token
  inode : Id
  deriving DecidableEq, Repr

/-- The two suffixes of a record's identity: `b` for a baseline, `a` for what came after. -/
inductive Suffix
  | b
  | a
  deriving DecidableEq, Repr

/-- A record's identity: operation, inode and suffix. -/
structure RecordId where
  operation : Token
  inode : Id
  suffix : Suffix
  deriving DecidableEq, Repr

/-- What a change did. -/
inductive Operation
  | baseline
  | create
  | write
  | metadata
  | rename
  | replace
  | delete
  | restore
  | undelete
  deriving DecidableEq, Repr

/-- Who made a change, as the caller labelled it. -/
structure Metadata where
  source : Option Bytes := none
  sessionId : Bytes := []
  agentId : Bytes := []
  user : Bytes := []
  checkpointIds : List Bytes := []
  label : Bytes := []
  agentVersion : Bytes := []
  deriving DecidableEq, Repr

/-- One immutable version of a file. -/
structure Record where
  id : RecordId
  fileId : LineageId
  path : Path
  operation : Operation
  type : Option Kind
  mode : ℕ
  size : ℤ
  target : Option Bytes
  deleted : Bool
  createdAt : ℕ
  origin : Token
  contentRef : Option ContentRef
  contentHash : Hash
  prevHash : Hash
  deltaBytes : ℤ
  metadata : Metadata
  metadataOnly : Bool
  previousPath : Option Path := none
  blobId : Option Bytes := none
  version : ℕ := 0
  sequence : ℕ := 0
  deriving DecidableEq, Repr

/-- The hash at `file:<lineage>`. -/
structure FileEntry where
  next : ℕ := 0
  head : Option RecordId := none
  recoverable : Option RecordId := none
  inodeId : Option Id := none
  deriving DecidableEq, Repr

/-- The value at `blobmeta`. -/
structure BlobMeta where
  size : ℤ
  ref : ContentRef
  deriving DecidableEq, Repr

/-- What a staged publication will write, by the key that holds it. -/
inductive BodyKey
  | content (id : Id)
  | stage (t : Token)
  deriving DecidableEq, Repr

/-- What `Prepare` computed for one inode of an operation. -/
structure Prepared where
  inode : Id
  revision : Rev
  beforeHash : Option Hash
  /-- The hash after the change and the key whose bytes it was computed from. -/
  after : Option (Hash × Option BodyKey)
  deriving DecidableEq, Repr

/-- A sorted set, in the order of its scores. -/
abbrev ZSet (α : Type) := List (α × ℕ)

/-- The sorted sets that index records by lineage or by path. -/
inductive Index
  | fileTimeline (l : LineageId)
  | timeline (p : Path)
  deriving DecidableEq, Repr

end History

open History in
/-- The keys under `history:`. -/
structure HistoryKeys where
  policy : Option Policy := none
  records : RecordId → Option Record := fun _ => none
  file : LineageId → Option FileEntry := fun _ => none
  versions : LineageId → ZSet RecordId := fun _ => []
  index : Index → ZSet RecordId := fun _ => []
  /-- `path:<sha1 of the path>`, the lineages that had a version at the path. -/
  path : Path → ZSet LineageId := fun _ => []
  retention : ZSet RecordId := []
  blobrefs : Bytes → Option ℕ := fun _ => none
  blobmeta : Bytes → Option BlobMeta := fun _ => none
  blob : Bytes → Option Body := fun _ => none
  /-- Bodies of records from before blobs were shared. -/
  body : RecordId → Option Body := fun _ => none
  sequence : Option ℕ := none
  bytes : Option ℕ := none
  physicalBytes : Option ℕ := none
  pruneCursor : Option ℕ := none
  /-- Expiring: hashes computed ahead of a publication. -/
  prepared : Token → List Prepared := fun _ => []

namespace History

/-- `ZADD`; scores only ever grow, so the new member is the last. -/
def ZSet.add {α : Type} [DecidableEq α] (z : ZSet α) (m : α) (score : ℕ) : ZSet α :=
  z.filter (fun e => e.1 ≠ m) ++ [(m, score)]

/-- `ZREM`. -/
def ZSet.rem {α : Type} [DecidableEq α] (z : ZSet α) (m : α) : ZSet α :=
  z.filter fun e => e.1 ≠ m

/-- `ZSCORE`. -/
def ZSet.score {α : Type} [DecidableEq α] (z : ZSet α) (m : α) : Option ℕ :=
  (z.find? fun e => e.1 = m).map Prod.snd

end History

end Afs
