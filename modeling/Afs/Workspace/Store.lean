import Mathlib.Data.List.AList
import Mathlib.Logic.Function.Basic
import Afs.History.Record

/-!
# The workspace in Redis

The keys of one workspace, `afs:{id}:…`, as one record. A key that is absent is `none` (or the
empty hash, which Redis does not keep). An inode is a Redis hash: a command may write some of its
fields and leave the others missing, so every field is optional, and `InodeHash.merge` is `HSET`.

`World` adds what the clients share besides Redis: the source of fresh tokens, a clock, and the
inode data the clients have cached.
-/

namespace Afs

/-- The workspace's generation token. Restore walks it through the two fenced states to a new
live one, deletion leaves the tombstone `deleted`. -/
inductive Generation
  | live (n : ℕ)
  | fencing (n : ℕ)
  | restoring (n : ℕ)
  | deleted
  deriving DecidableEq, Repr

/-- The hash at `inode:<id>`. `path` is a hint that follows a rename late; the source's
`path_ancestors` is computed from it and read by no modelled function. -/
structure InodeHash where
  type : Option Kind := none
  mode : Option ℕ := none
  uid : Option ℕ := none
  gid : Option ℕ := none
  size : Option ℤ := none
  ctimeMs : Option ℤ := none
  mtimeMs : Option ℤ := none
  atimeMs : Option ℤ := none
  target : Option Bytes := none
  parent : Option Id := none
  name : Option Name := none
  contentRef : Option ContentRef := none
  revision : Option Rev := none
  path : Option Path := none
  content : Option Bytes := none
  chunkSize : Option ℕ := none
  chunkHashes : Option (List Bytes) := none
  historyId : Option History.LineageId := none
  historyRevision : Option Rev := none
  historyHash : Option History.Hash := none
  deriving DecidableEq, Repr

/-- `HSET` of the fields `f` has. -/
def InodeHash.merge (h f : InodeHash) : InodeHash where
  type := f.type <|> h.type
  mode := f.mode <|> h.mode
  uid := f.uid <|> h.uid
  gid := f.gid <|> h.gid
  size := f.size <|> h.size
  ctimeMs := f.ctimeMs <|> h.ctimeMs
  mtimeMs := f.mtimeMs <|> h.mtimeMs
  atimeMs := f.atimeMs <|> h.atimeMs
  target := f.target <|> h.target
  parent := f.parent <|> h.parent
  name := f.name <|> h.name
  contentRef := f.contentRef <|> h.contentRef
  revision := f.revision <|> h.revision
  path := f.path <|> h.path
  content := f.content <|> h.content
  chunkSize := f.chunkSize <|> h.chunkSize
  chunkHashes := f.chunkHashes <|> h.chunkHashes
  historyId := f.historyId <|> h.historyId
  historyRevision := f.historyRevision <|> h.historyRevision
  historyHash := f.historyHash <|> h.historyHash

/-- `inodeData`: an inode as the client holds it, missing fields read as zero values. -/
structure InodeData where
  revision : Rev := 0
  id : Id := 0
  parent : Id := 0
  name : Name := []
  type : Kind
  mode : ℕ := 0
  uid : ℕ := 0
  gid : ℕ := 0
  size : ℤ := 0
  ctimeMs : ℤ := 0
  mtimeMs : ℤ := 0
  atimeMs : ℤ := 0
  target : Bytes := []
  content : Bytes := []
  contentRef : Option ContentRef := none
  deriving DecidableEq, Repr

/-- The hash at `info`. -/
structure Info where
  files : ℤ := 0
  directories : ℤ := 0
  symlinks : ℤ := 0
  totalDataBytes : ℤ := 0
  deriving DecidableEq, Repr

/-- One inode of a kind less. An unknown kind counts as a file. -/
def Info.forget (i : Info) (kind : Option Kind) : Info :=
  match kind with
  | some .dir => { i with directories := i.directories - 1 }
  | some .symlink => { i with symlinks := i.symlinks - 1 }
  | _ => { i with files := i.files - 1 }

/-- The counter of a kind. -/
def Info.counter (i : Info) (kind : Option Kind) : ℤ :=
  match kind with
  | some .dir => i.directories
  | some .symlink => i.symlinks
  | _ => i.files

/-- The bytes a removed inode gives back. -/
def Info.release (i : Info) (kind : Option Kind) (size : ℤ) : Info :=
  if kind = some .file ∧ 0 < size then { i with totalDataBytes := i.totalDataBytes - size } else i

/-- What an invalidation message is about. -/
inductive InvalidateOp
  | inode
  | dir
  | pfx
  | content
  | rootReplace
  deriving DecidableEq, Repr

/-- The activities of the change stream. -/
inductive EventOp
  | put
  | mkdir
  | symlink
  | chmod
  | rename
  | delete
  deriving DecidableEq, Repr

/-- The activity a publication adds to its message. -/
structure ChangeEvent where
  op : EventOp
  path : Path
  /-- `none` is the kind `tombstone`. -/
  kind : Option Kind
  sizeBytes : ℤ
  deltaBytes : ℤ
  mode : ℕ
  metadata : History.Metadata
  prevPath : Option Path := none
  versionId : Option History.RecordId := none
  deriving DecidableEq, Repr

/-- One message of the change stream. -/
structure Message where
  origin : Token
  op : InvalidateOp
  paths : List Path
  change : Option ChangeEvent := none
  deriving DecidableEq, Repr

/-- The key `changes`. -/
inductive Stream
  | absent
  | wrongType
  | entries (l : List Message)
  deriving DecidableEq, Repr

/-- A byte-range lock. -/
structure FileLock where
  start : ℕ
  stop : ℕ
  /-- `none` is `F_UNLCK`, `some true` is `F_WRLCK`. -/
  type : Option Bool
  pid : ℕ
  deriving DecidableEq, Repr

/-- The owner of a lock: the session's lease, if the owner names one, and the handle. -/
structure LockOwner where
  lease : Option Token
  handle : Bytes
  deriving DecidableEq, Repr

/-- A directory's entries, the hash at `dirents:<id>`. -/
abbrev Dirents := AList fun _ : Name => Id

/-- The keys of one workspace. -/
structure Store where
  generation : Option Generation := none
  inode : Id → Option InodeHash := fun _ => none
  dirents : Id → Dirents := fun _ => ∅
  content : Id → Option Body := fun _ => none
  /-- Expiring: `content:<id>:stage:<token>`. -/
  stage : Token → Option Body := fun _ => none
  info : Option Info := none
  nextInode : Option ℕ := none
  rootDirty : Bool := false
  changes : Stream := .absent
  /-- Expiring: the leases of native sessions. -/
  session : Token → Bool := fun _ => false
  /-- Expiring: the advisory locks on an inode. -/
  locks : Id → AList fun _ : LockOwner => List FileLock := fun _ => ∅
  history : HistoryKeys := {}

/-- The store together with what its clients share. -/
structure World extends Store where
  /-- `newOriginID` has handed out the tokens `1` to `tokens`. -/
  tokens : Token := 0
  clock : ℤ := 0
  /-- Whether the server has the Array commands. -/
  arrays : Bool := false
  /-- What the clients have put into their path caches. Entries expire and are invalidated at
  any time, so a lookup may find any of them or none. -/
  cached : List (Path × InodeData) := []

/-- The root's inode. -/
def rootInodeID : Id := 1

namespace Store

variable (s : Store)

/-- `HGET dirents:<d> n`. -/
def lookup (d : Id) (n : Name) : Option Id := (s.dirents d).lookup n

/-- The fields of `inode:<id>`; an absent key has none. -/
def fields (id : Id) : InodeHash := (s.inode id).getD {}

/-- `HGET inode:<id> revision`, with the empty string for a missing field. -/
def revision (id : Id) : Rev := ((s.inode id).bind (·.revision)).getD 0

/-- `HGET inode:<id> type`. -/
def kind (id : Id) : Option Kind := (s.inode id).bind (·.type)

/-- `HGET inode:<id> size`, with `0` for a missing field. -/
def size (id : Id) : ℤ := ((s.inode id).bind (·.size)).getD 0

/-- The counters; an absent hash reads as zeros. -/
def counters : Info := s.info.getD {}

/-- `HSET inode:<id> …`. -/
def hset (id : Id) (f : InodeHash) : Store :=
  { s with inode := Function.update s.inode id (some ((s.fields id).merge f)) }

/-- `HSET dirents:<d> n i`. -/
def link (d : Id) (n : Name) (i : Id) : Store :=
  { s with dirents := Function.update s.dirents d ((s.dirents d).insert n i) }

/-- `HDEL dirents:<d> n`. -/
def unlink (d : Id) (n : Name) : Store :=
  { s with dirents := Function.update s.dirents d ((s.dirents d).erase n) }

/-- `DEL inode:<id> content:<id> dirents:<id>`. -/
def del (id : Id) : Store :=
  { s with
    inode := Function.update s.inode id none
    content := Function.update s.content id none
    dirents := Function.update s.dirents id ∅ }

/-- `HINCRBY` on the counters. -/
def count (f : Info → Info) : Store := { s with info := some (f s.counters) }

/-- `XADD`: the stream is trimmed to about ten thousand entries, far more than any reader here
looks back. -/
def xadd (m : Message) : Store :=
  { s with
    changes :=
      match s.changes with
      | .absent => .entries [m]
      | .wrongType => .wrongType
      | .entries l => .entries (l ++ [m]) }

end Store

end Afs
