import Afs.Foundations.Table
import Afs.History.Record

/-!
# The sync state

`SyncEntry` and `SyncState`: for every path the daemon has seen, what it last knew of both sides.
Times are in milliseconds. The two strings that say which file an entry was read from are numbers,
`0` for the empty string.
-/

namespace Afs.Sync

/-- `SyncEntry`. -/
structure SyncEntry where
  type : Kind
  mode : ℕ := 0
  size : ℕ := 0
  localHash : Bytes := []
  localIdentity : ℕ := 0
  localMtimeMs : ℕ := 0
  remoteHash : Bytes := []
  remoteMtimeMs : ℕ := 0
  target : Bytes := []
  lastSyncedAt : ℕ := 0
  chunkSize : ℕ := 0
  chunkHashes : List Bytes := []
  version : ℕ := 0
  deleted : Bool := false
  deriving DecidableEq, Repr

/-- What a deleted file is found by when it comes back under another name: its identity, or else its
hash and size, or its target. -/
inductive CandidateKey
  | ident (type : Kind) (ident : ℕ)
  | hash (hash : Bytes) (size : ℕ)
  | target (target : Bytes)
  deriving DecidableEq, Repr

/-- `renameCandidate`. -/
structure RenameCandidate where
  key : CandidateKey
  path : Path
  entry : SyncEntry
  recordedAt : ℕ
  deriving DecidableEq, Repr

/-- `pendingSyncUpload`. -/
structure PendingUpload where
  count : ℕ := 0
  rescan : Bool := false
  deriving DecidableEq, Repr

/-- What the reconciler keeps: the entries and the counter of `SyncState`, which are written to disk,
the uploads under way and the candidates for a rename, and whether a full sweep is asked for. -/
structure SyncState where
  entries : Table Name SyncEntry := ∅
  nextVersion : ℕ := 0
  pending : Table Name PendingUpload := ∅
  candidates : List RenameCandidate := []
  sweep : Bool := false

namespace SyncState

variable (s : SyncState)

/-- `Entries[path]`. -/
def entry (p : Path) : Option SyncEntry := s.entries.lookup p

/-- `Entries[path] = entry`, with the version `nextVersion` hands out. -/
def put (p : Path) (e : SyncEntry) : SyncState :=
  { s with
    entries := s.entries.insert p { e with version := s.nextVersion }
    nextVersion := s.nextVersion + 1 }

/-- `delete(Entries, path)`. -/
def remove (p : Path) : SyncState := { s with entries := s.entries.erase p }

/-- `requestFullSweep`. -/
def requestFullSweep : SyncState := { s with sweep := true }

/-- Whether the entry of a path is still the one an operation was planned with. -/
def isCurrent (p : Path) (stored : Option SyncEntry) : Bool :=
  (s.entry p).map (·.version) = stored.map (·.version)

variable {p q : Path} {e : SyncEntry}

@[simp] theorem entry_put_self : (s.put p e).entry p = some { e with version := s.nextVersion } :=
  AList.lookup_insert ..

theorem entry_put_of_ne (h : q ≠ p) : (s.put p e).entry q = s.entry q := AList.lookup_insert_ne h

theorem entry_remove_of_ne (h : q ≠ p) : (s.remove p).entry q = s.entry q := AList.lookup_erase_ne h

@[simp] theorem entry_requestFullSweep : s.requestFullSweep.entry p = s.entry p := rfl

/-! ## Uploads under way -/

/-- One more upload of a path is under way. -/
def startUpload (p : Path) : SyncState :=
  let u := (s.pending.lookup p).getD {}
  { s with pending := s.pending.insert p { u with count := u.count + 1 } }

/-- `finishPendingUpload`. -/
def finishUpload (p : Path) : SyncState :=
  match s.pending.lookup p with
  | none => s
  | some u =>
    if u.count ≤ 1 then
      { s with pending := s.pending.erase p, sweep := s.sweep || u.rescan }
    else { s with pending := s.pending.insert p { u with count := u.count - 1 } }

/-- `deferScanForPendingUpload`: a path that is being uploaded is looked at again later. -/
def deferScan (p : Path) : SyncState :=
  match s.pending.lookup p with
  | none => s
  | some u => { s with pending := s.pending.insert p { u with rescan := true } }

@[simp] theorem entry_finishUpload : (s.finishUpload p).entry q = s.entry q := by
  unfold finishUpload
  split
  · rfl
  · split_ifs <;> rfl

@[simp] theorem entry_deferScan : (s.deferScan p).entry q = s.entry q := by
  unfold deferScan
  split <;> rfl

/-! ## Candidates for a rename -/

/-- How long a candidate is kept, in milliseconds. -/
def candidateAge : ℕ := 5000

/-- `rememberRenameCandidate`. -/
def remember (c : RenameCandidate) : SyncState :=
  { s with candidates := c :: s.candidates.filter fun d => d.key ≠ c.key }

/-- `forgetRenameCandidate`. -/
def forget (k : CandidateKey) : SyncState :=
  { s with candidates := s.candidates.filter fun d => d.key ≠ k }

/-- The candidate `takeRenameCandidate` returns. -/
def candidate (now : ℕ) (k : CandidateKey) : Option RenameCandidate :=
  (s.candidates.find? fun d => d.key = k).filter fun d => now - d.recordedAt ≤ candidateAge

/-- The candidates that are not too old. -/
def fresh (now : ℕ) : SyncState :=
  { s with candidates := s.candidates.filter fun d => now - d.recordedAt ≤ candidateAge }

/-- The candidate `takeFallbackRenameCandidate` returns: the only one of the type in the directory. -/
def fallback (now : ℕ) (p : Path) (type : Kind) : Option RenameCandidate :=
  match (s.fresh now).candidates.filter fun d =>
      d.entry.type = type ∧ d.path ≠ p ∧ parentOf d.path = parentOf p with
  | [d] => some d
  | _ => none

end SyncState

/-- `renameCandidateKey`. -/
def renameCandidateKey (e : SyncEntry) : Option CandidateKey :=
  if e.localIdentity ≠ 0 then some (.ident e.type e.localIdentity)
  else
    match e.type with
    | .file => if e.localHash ≠ [] then some (.hash e.localHash e.size) else none
    | .symlink => if e.target ≠ [] then some (.target e.target) else none
    | .dir => none

end Afs.Sync
