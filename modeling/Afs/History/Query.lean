import Afs.Workspace.Store

/-!
# Listing the history

The three listings of `query.go`. Each is one script, which reads the live tree as well: the file
that is at a path now may have been captured under other names only, since renaming a directory
does not write to the histories of what is below it. A page has at most `limit` items; where the
script finds one more, the page has a cursor for the next one.

Records are kept as values here, the source keeps them as JSON. The cursor of `PathPage` is the value
that the source encodes as JSON in Base64. Names are normalized.
-/

namespace Afs.History

/-- `pageLimit`. -/
def pageLimit (limit : ℤ) : ℕ := if limit ≤ 0 then 50 else if 1000 < limit then 1000 else limit.toNat

theorem pageLimit_pos (limit : ℤ) : 0 < pageLimit limit := by
  unfold pageLimit
  split_ifs <;> omega

/-- `ZREVRANGEBYSCORE key (before -inf WITHSCORES LIMIT 0 count`; zero is no bound. -/
def ZSet.revRangeByScore {α : Type} (z : ZSet α) (before count : ℕ) : ZSet α :=
  (z.reverse.filter fun e => before = 0 ∨ e.2 < before).take count

/-- `ZRANGEBYSCORE key (after +inf WITHSCORES LIMIT 0 count`; zero is no bound. -/
def ZSet.rangeByScore {α : Type} (z : ZSet α) (after count : ℕ) : ZSet α :=
  (z.filter fun e => after = 0 ∨ after < e.2).take count

section Queries

variable (s : Store)

/-- `liveFile`: the lineage of the file that is at a path now. -/
def liveFile (path : Path) : Option LineageId :=
  (path.foldlM s.lookup rootInodeID).bind fun inode => (s.fields inode).historyId

/-! ## Lineages -/

/-- `LineagePage`; a cursor of zero is none. -/
structure LineagePage where
  files : List (LineageId × ℕ)
  nextBefore : ℕ := 0
  deriving DecidableEq, Repr

/-- `lineagesScript`: the lineages that had a version at the path, and the one that is there now. -/
def lineagesScript (path : Path) (before count : ℕ) : List (LineageId × ℕ) :=
  let values := (s.history.path path).revRangeByScore before (count + 1)
  match liveFile s path with
  | none => values
  | some file =>
    if ((s.history.path path).score file).isSome then values
    else
      match ((s.history.file file).bind (·.head)).bind s.history.retention.score with
      | none => values
      | some sequence =>
        if before = 0 ∨ sequence < before then
          values.takeWhile (fun e => ¬ e.2 < sequence) ++
            (file, sequence) :: values.dropWhile fun e => ¬ e.2 < sequence
        else values

/-- `Lineages`. -/
def lineages (path : Path) (limit : ℤ) (before : ℕ) : LineagePage :=
  let items := lineagesScript s path before (pageLimit limit)
  let files := items.take (pageLimit limit)
  { files := files
    nextBefore := if pageLimit limit < items.length then (files.getLast?.map Prod.snd).getD 0 else 0 }

/-! ## Versions of a lineage -/

/-- `Page`; a cursor of zero is none. -/
structure VersionPage where
  versions : List Record := []
  fileId : Option LineageId := none
  nextBefore : ℕ := 0
  deriving DecidableEq

/-- The lineage that a listing is about: the one that is asked for, if it is at the path or had a
version there; else the one that is at the path now, else the newest one that had a version there. -/
def selectLineage (path : Path) (file : Option LineageId) : Option LineageId :=
  match file with
  | none =>
    match liveFile s path with
    | some live => some live
    | none => (s.history.path path).getLast?.map Prod.fst
  | some file =>
    if some file ≠ liveFile s path ∧ ((s.history.path path).score file).isNone then none else some file

/-- `listScript`. -/
def listScript (path : Path) (file : Option LineageId) (before count : ℕ) :
    Option (LineageId × List Record) :=
  (selectLineage s path file).map fun file =>
    (file, ((s.history.versions file).revRangeByScore before (count + 1)).filterMap fun e =>
      s.history.records e.1)

/-- `List`. -/
def list (path : Path) (limit : ℤ) (before : ℕ) (file : Option LineageId) : VersionPage :=
  match listScript s path file before (pageLimit limit) with
  | none => {}
  | some (file, values) =>
    let versions := values.take (pageLimit limit)
    { versions := versions, fileId := some file
      nextBefore :=
        if pageLimit limit < values.length then (versions.getLast?.map Record.version).getD 0 else 0 }

/-! ## Everything that happened at a path -/

/-- `pathCursor`. -/
structure PathCursor where
  fileId : LineageId
  ordinal : ℕ
  sequence : ℕ := 0
  deriving DecidableEq, Repr

/-- `PathPageResult`. -/
structure PathPageResult where
  versions : List Record := []
  nextCursor : Option PathCursor := none
  deriving DecidableEq

/-- One of the two reads of `pathPageScript`. -/
def entriesFrom (newestFirst : Bool) (z : ZSet RecordId) (cursor limit : ℕ) : ZSet RecordId :=
  if newestFirst then z.revRangeByScore cursor (limit + 1) else z.rangeByScore cursor (limit + 1)

/-- The entries of `l` whose identities are not among `seen` nor earlier in `l`. -/
def unseen : List RecordId → ZSet RecordId → ZSet RecordId
  | _, [] => []
  | seen, e :: l => if e.1 ∈ seen then unseen seen l else e :: unseen (e.1 :: seen) l

/-- The order of a listing. -/
def sequenceOrder (newestFirst : Bool) (a b : Record × ℕ) : Bool :=
  if newestFirst then b.2 ≤ a.2 else a.2 ≤ b.2

/-- `pathPageScript`: what happened at the path, and everything that happened to the file that is
there now. -/
def pathPageScript (path : Path) (limit cursor : ℕ) (newestFirst : Bool) : List Record :=
  let values := entriesFrom newestFirst (s.history.index (.timeline path)) cursor limit
  let values := match liveFile s path with
    | some file =>
      values ++ entriesFrom newestFirst (s.history.index (.fileTimeline file)) cursor limit
    | none => values
  let items := (unseen [] values).filterMap fun e => (s.history.records e.1).map fun r => (r, e.2)
  ((items.mergeSort (sequenceOrder newestFirst)).map Prod.fst).take (limit + 1)

/-- The sequence number a cursor stands for; older cursors do not have it. -/
def PathCursor.resolve (c : PathCursor) : Option ℕ :=
  if c.ordinal = 0 then none
  else if c.sequence ≠ 0 then some c.sequence
  else do
    let e ← (s.history.versions c.fileId).find? fun e => e.2 = c.ordinal
    let record ← s.history.records e.1
    if record.sequence ≠ 0 then some record.sequence else s.history.retention.score record.id

/-- `PathPage`; `none` is an error. -/
def pathPage (path : Path) (limit : ℤ) (cursor : Option PathCursor) (newestFirst : Bool) :
    Option PathPageResult := do
  let before ← match cursor with
    | none => some 0
    | some c => c.resolve s
  let items := pathPageScript s path (pageLimit limit) before newestFirst
  let versions := items.take (pageLimit limit)
  return { versions := versions
           nextCursor := if pageLimit limit < items.length then
             versions.getLast?.map fun r => ⟨r.fileId, r.version, r.sequence⟩ else none }

end Queries

end Afs.History
