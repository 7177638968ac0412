import Afs.History.Glob
import Afs.Workspace.Store

/-!
# Capturing history

`capture.lua`: what a publication does to the history keys in the same script that changes the
tree. The capture is planned and checked as a whole before anything is written, so it either
fails and changes nothing or returns the new history keys. Of the live tree it only writes the
three history fields of the inodes that changed, which `Captured.bound` lists.
-/

namespace Afs.History

open Function (update)

/-- How a script fails: asking for prepared hashes, or with a message. -/
inductive LuaError
  | preparationRequired
  | error (msg : String)
  deriving DecidableEq, Repr

/-- One change of a publication. `before` is `none` when the script has to read it. -/
structure Change where
  id : Id
  path : Path
  explicitPath : Bool := false
  before : Option (Option InodeHash) := none
  after : Option InodeHash
  body : Option BodyKey := none
  beforeBody : Option BodyKey := none
  beforeHash : Option Hash := none
  afterHash : Option Hash := none
  operation : Operation
  fileId : Option LineageId := none
  force : Bool := false
  metadata : Metadata := {}
  deriving DecidableEq

/-- Counters stop below this bound. -/
def counterLimit : ℤ := 100000000000000

section Reading

variable (s : Store)

/-- The value a body key holds. -/
def bodyAt : BodyKey → Option Body
  | .content id => s.content id
  | .stage t => s.stage t

/-- The walk of `history_path` from `id` up to the root; `fuel` bounds the number of parts, and a
repeated inode runs out of it. -/
def ancestors : ℕ → Id → Path → Except LuaError Path
  | 0, _, _ => .error (.error "history encountered invalid inode ancestry")
  | fuel + 1, id, parts =>
    if id = rootInodeID ∨ id = 0 then .ok parts
    else
      match (s.fields id).parent, (s.fields id).name with
      | some parent, some name => ancestors fuel parent (name :: parts)
      | _, _ => .error (.error "history encountered missing parent")

/-- `history_path`. -/
def historyPath (fields : InodeHash) (fallback : Path) : Except LuaError Path :=
  match fields.name, fields.parent with
  | some name, some parent => ancestors s 4097 parent [name]
  | _, _ => .ok fallback

/-- The state of an inode before a change. -/
def Change.beforeFields (c : Change) : Option InodeHash :=
  match c.before with
  | none => some (s.fields c.id)
  | some b => b

/-- The kind of inode a change is about. -/
def Change.kind (c : Change) : Option Kind :=
  match c.after.bind (·.type) with
  | some k => some k
  | none => (c.beforeFields s).bind (·.type)

/-- The path before a change. -/
def Change.oldPath (c : Change) : Except LuaError Path :=
  match c.beforeFields s with
  | some before =>
    if before.type.isNone then .ok c.path
    else if c.explicitPath then .ok (before.path.getD c.path)
    else historyPath s before c.path
  | none => .ok c.path

/-- The path after a change. -/
def Change.newPath (c : Change) (old : Path) : Except LuaError Path :=
  match c.after with
  | some after =>
    if c.explicitPath then .ok (after.path.getD c.path)
    else historyPath s after (after.path.getD c.path)
  | none => .ok old

/-- Which of the two states of a change is hashed. -/
inductive Which
  | before
  | after
  deriving DecidableEq

/-- The prepared entry of an inode, if it was prepared for the revision the inode has. -/
def preparedFor (operation : Token) (c : Change) : Option Prepared :=
  let before := match c.before with
    | some (some b) => b
    | _ => s.fields c.id
  (s.history.prepared operation).find? fun p =>
    p.inode = c.id ∧ p.revision = before.revision.getD 0

/-- `contentHash`. -/
def contentHash (operation : Token) (c : Change) (fields : Option InodeHash) (which : Which)
    (body : BodyKey) : Except LuaError Hash :=
  match fields with
  | none => .ok .empty
  | some f =>
    match f.type with
    | none => .ok .empty
    | some .symlink => .ok (.symlink (f.target.getD []))
    | some _ =>
      let before := match c.before with
        | some (some b) => b
        | _ => s.fields c.id
      let given := match which with
        | .before => c.beforeHash
        | .after => c.afterHash
      let prepared := (preparedFor s operation c).bind fun p =>
        match which with
        | .before => p.beforeHash
        | .after => p.after.bind fun (h, key) => if key.isSome ∧ key ≠ some body then none else some h
      let known := match which with
        | .before => if f.historyRevision = f.revision then f.historyHash else none
        | .after =>
          if body = .content c.id ∧ (c.operation = .metadata ∨ c.operation = .rename) ∧
              before.historyRevision = before.revision ∧ before.size.getD 0 = f.size.getD 0
          then before.historyHash else none
      match given <|> prepared <|> known with
      | some (.sha b) => .ok (.sha b)
      | _ => .error .preparationRequired

end Reading

/-! ## Planning -/

/-- A record to write and where its bytes come from. -/
structure Plan where
  record : Record
  body : Option BodyKey
  payload : Option Bytes
  bytes : ℤ

/-- The state of a lineage while planning. -/
structure FileState where
  next : ℕ
  last : Option Record
  head : Option RecordId := none
  recoverable : Option RecordId := none

/-- What the loop over the changes has planned so far. -/
structure Draft where
  files : List (LineageId × FileState) := []
  plans : List Plan := []

/-- What a capture binds to a change: the fields written to the inode and its record. -/
structure Bound where
  id : Id
  after : Bool
  lineage : Option LineageId := none
  revision : Option Rev := none
  hash : Hash := .empty
  record : Option Record := none

/-- Two versions that need no new record. -/
def sameVersion (prior record : Record) : Bool :=
  !prior.deleted && !record.deleted && prior.path == record.path && prior.type == record.type &&
    prior.mode == record.mode && prior.size == record.size &&
    prior.contentHash == record.contentHash && prior.metadataOnly == record.metadataOnly

/-- The bytes of a snapshot that is not copied from a key, after checking those that are. -/
def snapshotPayload (s : Store) (fields : InodeHash) (size : ℤ) (body : Option BodyKey) :
    Except LuaError (Option Bytes × ContentRef) :=
  if size = 0 then .ok (some [], .ext)
  else
    match fields.contentRef with
    | none =>
      let payload := fields.content.getD []
      if (payload.length : ℤ) ≠ size then
        .error (.error "history inline content has inconsistent size")
      else .ok (some payload, .ext)
    | some ref =>
      match ref, body.bind (bodyAt s) with
      | _, none => .error (.error "history content is missing")
      | .ext, some (.str b) =>
        if (b.length : ℤ) = size then .ok (none, .ext)
        else .error (.error "history content has inconsistent size or type")
      | .ext, some (.array _) => .error (.error "history content has inconsistent size or type")
      | .array, some (.array _) => .ok (none, .array)
      | .array, some (.str _) => .error (.error "history Array content has wrong Redis type")

/-- The arguments of `snapshot` besides the change. -/
structure SnapshotArgs where
  fields : InodeHash
  body : Option BodyKey
  path : Path
  operation : Operation
  deleted : Bool
  lineage : LineageId
  suffix : Suffix
  previous : Option Path
  hash : Hash
  prevHash : Hash
  previousSize : ℤ

/-- The state of lineage `l`. -/
def Draft.file (d : Draft) (l : LineageId) : FileState :=
  ((d.files.find? fun e => e.1 = l).map Prod.snd).getD ⟨0, none, none, none⟩

/-- Replace the state of lineage `l`. -/
def Draft.setFile (d : Draft) (l : LineageId) (f : FileState) : Draft :=
  { d with files := (l, f) :: d.files.filter fun e => e.1 ≠ l }

/-- `snapshot`: plan one record, unless the lineage already ends in the same version. -/
def snapshot (s : Store) (policy : Policy) (operation origin : Token) (now : ℕ) (c : Change)
    (a : SnapshotArgs) (d : Draft) : Except LuaError (Draft × Option Record) := do
  let size := a.fields.size.getD 0
  if size < 0 ∨ counterLimit ≤ size then throw (.error "invalid history file size")
  let kind := a.fields.type
  let metadataOnly := !a.deleted && kind == some .file && policy.maxFileBytes > 0 &&
    (policy.maxFileBytes : ℤ) < size
  let keepsBody := kind = some .file ∧ !a.deleted ∧ !metadataOnly
  let (payload, ref) ←
    if keepsBody then snapshotPayload s a.fields size a.body
    else pure (none, a.fields.contentRef.getD .ext)
  let blobId := match a.hash with
    | .sha b => if keepsBody then some b else none
    | _ => none
  let record : Record :=
    { id := ⟨operation, c.id, a.suffix⟩, fileId := a.lineage, path := a.path
      operation := a.operation, type := kind, mode := a.fields.mode.getD 0
      size := if a.deleted then 0 else size, target := a.fields.target, deleted := a.deleted
      createdAt := now, origin := origin
      contentRef := if metadataOnly then none else some ref
      contentHash := if a.deleted then .empty else a.hash, prevHash := a.prevHash
      deltaBytes := (if a.deleted then 0 else size) - a.previousSize, metadata := c.metadata
      metadataOnly := metadataOnly
      previousPath := a.previous.bind fun p => if p = a.path then none else some p
      blobId := blobId }
  let file := d.file a.lineage
  if (file.last.any (sameVersion · record)) ∧ !c.force then pure (d, none)
  else
    let d := d.setFile a.lineage { file with last := some record }
    let bytes := if keepsBody then size else 0
    pure ({ d with plans := d.plans ++ [⟨record, a.body, payload, bytes⟩] }, some record)

/-- Open the lineage of a change: its counters and its last record. -/
def openLineage (s : Store) (l : LineageId) (d : Draft) : Except LuaError (Draft × ℕ) := do
  let entry := (s.history.file l).getD {}
  if 99999999999998 ≤ entry.next then
    throw (.error "history version counter is invalid or exhausted")
  let last := entry.head.bind s.history.records
  if entry.head.isSome ∧ last.isNone then throw (.error "history head record is missing")
  if d.files.any (·.1 = l) then pure (d, entry.next)
  else pure (d.setFile l ⟨entry.next, last, none, none⟩, entry.next)

/-- The two records of a change whose lineage is open: a baseline where the lineage does not know
the state before, and the state after. -/
def planVersions (s : Store) (policy : Policy) (operation origin : Token) (now : ℕ) (c : Change)
    (l : LineageId) (next : ℕ) (old new : Path) (beforeHash afterHash : Hash) (d : Draft) :
    Except LuaError (Draft × Bound) := do
  let before := c.beforeFields s
  let contentKey := BodyKey.content c.id
  let known := fun b : InodeHash =>
    b.historyId.isSome ∧ b.historyRevision = some (b.revision.getD 0) ∧ next ≠ 0
  let (d, _) ←
    match before with
    | some b =>
      if b.type.isSome ∧ ¬ known b then
        snapshot s policy operation origin now c
          ⟨b, some (c.beforeBody.getD contentKey), old, .baseline, false, l, .b, none, beforeHash,
            .empty, 0⟩ d
      else pure (d, none)
    | none => pure (d, none)
  let beforeSize := (before.bind (·.size)).getD 0
  let (d, record) ←
    match c.after with
    | some after =>
      let metadataOnlyChange := c.operation = .write ∧ before.bind (·.type) = after.type ∧
        before.isSome ∧ beforeHash = afterHash ∧ (before.bind (·.mode)).getD 0 ≠ after.mode.getD 0
      snapshot s policy operation origin now c
        ⟨after, some (c.body.getD contentKey), new,
          if metadataOnlyChange then .metadata else c.operation, false, l, .a, some old, afterHash,
          beforeHash, beforeSize⟩ d
    | none =>
      snapshot s policy operation origin now c
        ⟨before.getD {}, none, old, c.operation, true, l, .a, none, .empty, beforeHash, beforeSize⟩ d
  pure (d, { id := c.id, after := c.after.isSome, lineage := some l
             revision := c.after.bind (·.revision), hash := afterHash, record := record })

/-- One turn of the loop over the changes. -/
def planChange (s : Store) (policy : Policy) (operation origin : Token) (now : ℕ) (d : Draft)
    (c : Change) : Except LuaError (Draft × Bound) := do
  let untracked : Bound := { id := c.id, after := c.after.isSome }
  if c.kind s = some .dir ∨ c.kind s = none then pure (d, untracked)
  else
    let old ← c.oldPath s
    let new ← c.newPath s old
    if ¬ (c.force ∨ policyMatches policy old ∨ policyMatches policy new) then pure (d, untracked)
    else
      let before := c.beforeFields s
      let l := (c.fileId <|> before.bind (·.historyId)).getD ⟨operation, c.id⟩
      let (d, next) ← openLineage s l d
      let contentKey := BodyKey.content c.id
      let beforeHash ← contentHash s operation c before .before (c.beforeBody.getD contentKey)
      let afterHash ← contentHash s operation c c.after .after (c.body.getD contentKey)
      let initialNoop := next = 0 ∧ !c.force ∧ (before.bind (·.type)).isSome ∧ c.after.isSome ∧
        before.bind (·.type) = c.after.bind (·.type) ∧ old = new ∧ beforeHash = afterHash ∧
        (before.bind (·.mode)).getD 0 = (c.after.bind (·.mode)).getD 0 ∧
        (before.bind (·.size)).getD 0 = (c.after.bind (·.size)).getD 0
      if initialNoop then pure (d, untracked)
      else planVersions s policy operation origin now c l next old new beforeHash afterHash d

/-- The loop over the changes. -/
def planChanges (s : Store) (policy : Policy) (operation origin : Token) (now : ℕ) :
    List Change → Draft → Except LuaError (Draft × List Bound)
  | [], d => .ok (d, [])
  | c :: cs, d => do
    let (d, b) ← planChange s policy operation origin now d c
    let (d, bs) ← planChanges s policy operation origin now cs d
    pure (d, b :: bs)

/-! ## Blobs and retention -/

/-- Ownership of one blob while planning. -/
structure BlobState where
  id : Bytes
  count : ℤ
  size : ℤ
  ref : ContentRef
  new : Bool
  plan : Option Plan := none

/-- What the second loop has computed so far. -/
structure Ledger where
  files : List (LineageId × FileState)
  plans : List Plan := []
  blobs : List BlobState := []
  sequence : ℕ
  added : ℤ := 0
  physical : ℤ

/-- `blobState`: the planned state of a record's blob, read and checked the first time. -/
def blobState (h : HistoryKeys) (blobs : List BlobState) (record : Record) :
    Except LuaError (Option BlobState) :=
  match record.blobId with
  | none => .ok none
  | some id =>
    match blobs.find? (·.id = id) with
    | some b =>
      if b.size ≠ record.size then .error (.error "inconsistent history blob size") else .ok (some b)
    | none =>
      match h.blobrefs id, h.blobmeta id, h.blob id with
      | none, none, none =>
        .ok (some ⟨id, 0, record.size, record.contentRef.getD .ext, true, none⟩)
      | some count, some m, some body =>
        if count = 0 ∨ counterLimit ≤ count then
          .error (.error "inconsistent history blob ownership")
        else if m.size ≠ record.size then .error (.error "inconsistent history blob size")
        else
          match m.ref, body with
          | .ext, .str b =>
            if (b.length : ℤ) = m.size then .ok (some ⟨id, count, record.size, m.ref, false, none⟩)
            else .error (.error "inconsistent history blob backend")
          | .array, .array _ => .ok (some ⟨id, count, record.size, m.ref, false, none⟩)
          | _, _ => .error (.error "inconsistent history blob backend")
      | _, _, _ => .error (.error "inconsistent history blob ownership")

/-- Replace the state of a blob. -/
def setBlob (blobs : List BlobState) (b : BlobState) : List BlobState :=
  b :: blobs.filter (·.id ≠ b.id)

/-- Give a planned record its version and sequence numbers and its share of a blob. -/
def numberPlan (h : HistoryKeys) (g : Ledger) (p : Plan) : Except LuaError Ledger := do
  let file := ((g.files.find? fun e => e.1 = p.record.fileId).map Prod.snd).getD ⟨0, none, none, none⟩
  let recoverable :=
    if !p.record.deleted ∧ !p.record.metadataOnly then some p.record.id else file.recoverable
  let file := { file with next := file.next + 1, head := some p.record.id, recoverable := recoverable }
  let record := { p.record with version := file.next, sequence := g.sequence + 1 }
  if (h.records record.id).isSome ∨ (h.body record.id).isSome then
    throw (.error "history operation identity already exists")
  let blob ← blobState h g.blobs record
  let record := match blob with
    | some b => { record with contentRef := some b.ref }
    | none => record
  let plan := { p with record := record }
  let fresh := blob.any fun b => b.new && b.plan.isNone
  let blobs ← match blob with
    | none => pure g.blobs
    | some b =>
      if counterLimit ≤ b.count + 1 then throw (.error "history blob reference counter exhausted")
      else pure (setBlob g.blobs
        { b with count := b.count + 1, plan := if fresh then some plan else b.plan })
  pure { files := (record.fileId, file) :: g.files.filter fun e => e.1 ≠ record.fileId
         plans := g.plans ++ [plan], blobs := blobs, sequence := g.sequence + 1
         added := g.added + p.bytes
         physical := if fresh then g.physical + record.size else g.physical }

/-- Number every planned record, in order. -/
def numberPlans (h : HistoryKeys) : List Plan → Ledger → Except LuaError Ledger
  | [], g => .ok g
  | p :: ps, g => do numberPlans h ps (← numberPlan h g p)

/-- The walk over the oldest records that makes room under the byte limit. It stops as soon as
the new versions fit; heads and newest recoverable versions stay. -/
def evict (h : HistoryKeys) (limit : ℤ) (g : Ledger) :
    List RecordId → ℤ → List Record → Except LuaError (Ledger × ℤ × List Record)
  | [], bytes, out => .ok (g, bytes, out)
  | id :: ids, bytes, out =>
    match h.records id with
    | none => evict h limit g ids bytes out
    | some record =>
      if record.id ≠ id then .error (.error "invalid history record")
      else
        let planned := (g.files.find? fun e => e.1 = record.fileId).map Prod.snd
        let entry := (h.file record.fileId).getD {}
        let head := planned.bind (·.head) <|> entry.head
        let recoverable := planned.bind (·.recoverable) <|> entry.recoverable
        if some id ≠ head ∧ some id ≠ recoverable ∧ record.type = some .file ∧ !record.deleted ∧
            !record.metadataOnly then
          if record.size < 0 ∨ bytes < record.size then
            .error (.error "invalid history byte accounting")
          else
            match blobState h g.blobs record with
            | .error e => .error e
            | .ok blob =>
              if blob.any (·.count ≤ 0) then .error (.error "invalid history blob ownership")
              else
                let blobs := match blob with
                  | none => g.blobs
                  | some b => setBlob g.blobs { b with count := b.count - 1 }
                let g := { g with blobs := blobs }
                let bytes := bytes - record.size
                if bytes + g.added ≤ limit then .ok (g, bytes, out ++ [record])
                else evict h limit g ids bytes (out ++ [record])
        else evict h limit g ids bytes out

/-! ## Writing -/

/-- Take one record out of the indexes. -/
def dropRecord (h : HistoryKeys) (r : Record) : HistoryKeys :=
  let index := update h.index (.fileTimeline r.fileId)
    ((h.index (.fileTimeline r.fileId)).rem r.id)
  let index := update index (.timeline r.path) ((index (.timeline r.path)).rem r.id)
  let index := match r.previousPath with
    | some p => update index (.timeline p) ((index (.timeline p)).rem r.id)
    | none => index
  { h with
    body := if r.blobId.isNone then update h.body r.id none else h.body
    records := update h.records r.id none
    versions := update h.versions r.fileId ((h.versions r.fileId).rem r.id)
    index := index
    retention := h.retention.rem r.id }

/-- Put one record into the records and the indexes. -/
def addRecord (h : HistoryKeys) (r : Record) : HistoryKeys :=
  let index := update h.index (.fileTimeline r.fileId)
    ((h.index (.fileTimeline r.fileId)).add r.id r.sequence)
  let index := update index (.timeline r.path)
    ((index (.timeline r.path)).add r.id r.sequence)
  let index := match r.previousPath with
    | some p => update index (.timeline p) ((index (.timeline p)).add r.id r.sequence)
    | none => index
  let path := update h.path r.path ((h.path r.path).add r.fileId r.sequence)
  let path := match r.previousPath with
    | some p => update path p ((path p).add r.fileId r.sequence)
    | none => path
  let entry := (h.file r.fileId).getD {}
  { h with
    records := update h.records r.id (some r)
    versions := update h.versions r.fileId ((h.versions r.fileId).add r.id r.version)
    index := index
    path := path
    retention := h.retention.add r.id r.sequence
    file := update h.file r.fileId <| some
      { entry with
        next := r.version
        head := some r.id
        recoverable := if !r.deleted ∧ !r.metadataOnly then some r.id else entry.recoverable } }

/-- Publish the planned count of one blob, copying its bytes if it is new. -/
def putBlob (s : Store) (h : HistoryKeys) (b : BlobState) : HistoryKeys :=
  let h := if b.new then
      match b.plan with
      | some p =>
        { h with blob := update h.blob b.id <|
            match p.payload with
            | some bytes => some (.str bytes)
            | none => p.body.bind (bodyAt s) }
      | none => h
    else h
  if 0 < b.count then
    { h with
      blobrefs := update h.blobrefs b.id (some b.count.toNat)
      blobmeta := update h.blobmeta b.id (some ⟨b.size, b.ref⟩) }
  else
    { h with
      blob := update h.blob b.id none
      blobrefs := update h.blobrefs b.id none
      blobmeta := update h.blobmeta b.id none }

/-- Bind a change to its lineage. -/
def bindFile (h : HistoryKeys) (b : Bound) : HistoryKeys :=
  match b.lineage with
  | none => h
  | some l =>
    let entry := (h.file l).getD {}
    { h with
      file := update h.file l <|
        some { entry with inodeId := if b.after then some b.id else none } }

/-- What a capture returns: whether it wrote records, the new history keys, and what it binds to
each change. -/
structure Captured where
  tracked : Bool
  history : HistoryKeys
  bound : List Bound

/-- The fields a capture writes to the inode of a change. -/
def Bound.fields (b : Bound) : InodeHash :=
  if b.after then
    match b.lineage with
    | some l => { historyId := some l, historyRevision := some (b.revision.getD 0),
                  historyHash := some b.hash }
    | none => {}
  else {}

/-- Make room for the new versions where the byte limit asks for it. -/
def makeRoom (h : HistoryKeys) (policy : Policy) (g : Ledger) (bytes : ℤ) :
    Except LuaError (Ledger × ℤ × List Record) :=
  if 0 < policy.maxBytes ∧ (policy.maxBytes : ℤ) < bytes + g.added then do
    let r ← evict h policy.maxBytes g ((h.retention.take 128).map Prod.fst) bytes []
    if (policy.maxBytes : ℤ) < r.2.1 + r.1.added then
      throw (.error "history byte limit exceeded; raise max_bytes or prune eligible old versions")
    else pure r
  else pure (g, bytes, [])

/-- Write a numbered capture: evicted records go, new ones come, then the blobs and the totals. -/
def writeHistory (s : Store) (g : Ledger) (bytes : ℤ) (evictions : List Record) :
    Except LuaError HistoryKeys :=
  let physical : ℤ := s.history.physicalBytes.getD 0
  let released := ((g.blobs.filter fun b => b.count = 0 ∧ !b.new).map (·.size)).sum
  if physical < released then .error (.error "invalid history physical byte accounting")
  else
    let dropped := ((g.blobs.filter fun b => b.count ≤ 0).map (·.size)).sum
    let h := evictions.foldl dropRecord s.history
    let h := (g.plans.map (·.record)).foldl addRecord h
    let h := g.blobs.foldl (putBlob s) h
    .ok { h with
      sequence := some g.sequence
      bytes := some (bytes + g.added).toNat
      physicalBytes := some (g.physical - dropped).toNat }

/-- The records of a capture. -/
def captureRecords (s : Store) (policy : Policy) (d : Draft) : Except LuaError HistoryKeys := do
  let h := s.history
  let bytes : ℤ := h.bytes.getD 0
  let g ← numberPlans h d.plans
    { files := d.files, sequence := h.sequence.getD 0, physical := (h.physicalBytes.getD 0 : ℕ) }
  if counterLimit ≤ g.sequence ∨ counterLimit ≤ bytes + g.added ∨ counterLimit ≤ g.physical then
    throw (.error "history counter exhausted")
  else do
    let (g, bytes, evictions) ← makeRoom h policy g bytes
    writeHistory s g bytes evictions

/-- `history_capture`. -/
def capture (s : Store) (operation origin : Token) (now : ℕ) (changes : List Change) :
    Except LuaError Captured :=
  let policy := s.history.policy.getD {}
  if policy.mode = .off ∧ ¬ changes.any (·.force) then .ok ⟨false, s.history, []⟩
  else do
    let (d, bound) ← planChanges s policy operation origin now changes {}
    if d.plans = [] then pure ⟨false, bound.foldl bindFile s.history, bound⟩
    else do
      let h ← captureRecords s policy d
      pure ⟨true, bound.foldl bindFile h, bound⟩

variable {s : Store} {operation origin : Token} {now : ℕ}

/-- Capture is off while the policy is, unless a change forces it. -/
theorem capture_off {changes : List Change} (hp : (s.history.policy.getD {}).mode = .off)
    (hf : changes.any (·.force) = false) :
    capture s operation origin now changes = .ok ⟨false, s.history, []⟩ := by
  simp [capture, hp, hf]

theorem planChange_dir {policy : Policy} {d : Draft} {c : Change} (hk : c.kind s = some .dir) :
    planChange s policy operation origin now d c = .ok (d, { id := c.id, after := c.after.isSome }) := by
  simp only [planChange, hk, true_or, if_true]
  rfl

/-- A capture without planned records is not tracked. -/
theorem capture_no_plans {changes : List Change} {d : Draft} {bound : List Bound} {cap : Captured}
    (hp : planChanges s (s.history.policy.getD {}) operation origin now changes {} = .ok (d, bound))
    (hd : d.plans = []) (h : capture s operation origin now changes = .ok cap) :
    cap.tracked = false := by
  simp only [capture] at h
  split at h
  · cases h
    rfl
  · rw [hp] at h
    change (if d.plans = [] then _ else _) = Except.ok cap at h
    rw [if_pos hd] at h
    cases h
    rfl

/-- A change of a directory is never tracked. -/
theorem capture_dir {c : Change} {cap : Captured} (hk : c.kind s = some .dir)
    (h : capture s operation origin now [c] = .ok cap) : cap.tracked = false := by
  have hplan : planChanges s (s.history.policy.getD {}) operation origin now [c] {} =
      .ok ({}, [{ id := c.id, after := c.after.isSome }]) := by
    rw [planChanges, planChange_dir hk]
    rfl
  exact capture_no_plans hplan rfl h

end Afs.History
