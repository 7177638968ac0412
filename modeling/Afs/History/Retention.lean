import Afs.History.Capture

/-!
# Retention

`pruneScript` of `retention.go`: one bounded sweep over the retention index, from the cursor the
last sweep left. A record that is neither its lineage's head nor its newest recoverable version
goes when its lineage has too many versions, when it is too old or while the bytes kept are over
the budget. The sweep checks the whole batch before it changes anything. It reads neither the
workspace's generation nor a session's lease.
-/

namespace Afs.History

/-- The protected pointers of a lineage and the number of its versions. -/
structure LineageState where
  id : LineageId
  head : RecordId
  recoverable : Option RecordId
  count : ℕ

/-- What a sweep has planned so far. -/
structure Sweep where
  retained : ℤ
  plans : List Record := []
  stale : List RecordId := []
  files : List LineageState := []
  /-- Planned counts of blobs, with their sizes. -/
  blobs : List (Bytes × ℤ × ℤ) := []

/-- A pointer of a lineage names a record of it that the version index lists. -/
def protectedOk (h : HistoryKeys) (l : LineageId) (recoverable : Option RecordId) (p : RecordId) :
    Except LuaError Unit :=
  match h.records p, (h.versions l).score p with
  | some r, some _ =>
    if r.fileId ≠ l ∨ r.id ≠ p ∨ (some p = recoverable ∧ r.deleted) then
      .error (.error "history retention protected record is inconsistent")
    else .ok ()
  | _, _ => .error (.error "history retention protected record is missing")

/-- The state of a lineage, read and checked the first time. -/
def lineageState (h : HistoryKeys) (w : Sweep) (l : LineageId) :
    Except LuaError (LineageState × Sweep) :=
  match w.files.find? (·.id = l) with
  | some st => .ok (st, w)
  | none => do
    let entry := (h.file l).getD {}
    match entry.head with
    | none => throw (.error "history retention lineage has no protected head")
    | some head =>
      protectedOk h l entry.recoverable head
      match entry.recoverable with
      | some r => protectedOk h l entry.recoverable r
      | none => pure ()
      let st : LineageState := ⟨l, head, entry.recoverable, (h.versions l).length⟩
      pure (st, { w with files := st :: w.files })

/-- Plan one reference to a blob less. -/
def releaseBlob (h : HistoryKeys) (w : Sweep) (r : Record) : Except LuaError Sweep :=
  match r.blobId with
  | none => .ok w
  | some id =>
    match w.blobs.find? (·.1 = id) with
    | some (_, count, size) =>
      if count ≤ 0 then .error (.error "invalid history blob ownership")
      else .ok { w with blobs := (id, count - 1, size) :: w.blobs.filter (·.1 ≠ id) }
    | none =>
      match h.blobrefs id, h.blobmeta id, h.blob id with
      | some count, some m, some body =>
        if count = 0 then .error (.error "invalid history blob ownership")
        else if m.size ≠ r.size then .error (.error "invalid history blob size")
        else
          let fits := match m.ref, body with
            | .ext, .str b => decide ((b.length : ℤ) = m.size)
            | .array, .array _ => true
            | _, _ => false
          if fits then .ok { w with blobs := (id, (count : ℤ) - 1, r.size) :: w.blobs }
          else .error (.error "invalid history blob backend")
      | _, _, _ => .error (.error "invalid history blob ownership")

/-- One candidate of a sweep. -/
def sweepOne (h : HistoryKeys) (policy : Policy) (cutoff : ℤ) (w : Sweep) (id : RecordId) :
    Except LuaError Sweep :=
  match h.records id with
  | none => .ok { w with stale := w.stale ++ [id] }
  | some r => do
    if r.id ≠ id ∨ (r.type ≠ some .file ∧ r.type ≠ some .symlink) ∨ r.size < 0 ∨ counterLimit ≤ r.size then
      throw (.error "invalid history retention record")
    let (st, w) ← lineageState h w r.fileId
    if st.recoverable.isNone ∧ r.type = some .file ∧ !r.deleted ∧ !r.metadataOnly then
      throw (.error "history retention lineage has no recoverable head")
    if (h.versions r.fileId).score id ≠ some r.version then
      throw (.error "history retention version index is inconsistent")
    let excess := 0 < policy.maxVersions ∧ policy.maxVersions < st.count
    let expired := 0 < policy.maxAgeDays ∧ (r.createdAt : ℤ) < cutoff
    let overBudget := 0 < policy.maxBytes ∧ (policy.maxBytes : ℤ) < w.retained
    if id ≠ st.head ∧ some id ≠ st.recoverable ∧ (excess ∨ expired ∨ overBudget) then
      let retained :=
        if r.type = some .file ∧ !r.deleted ∧ !r.metadataOnly then w.retained - r.size else w.retained
      if retained < 0 then throw (.error "history retention byte accounting is inconsistent")
      let w ← releaseBlob h { w with retained := retained, plans := w.plans ++ [r] } r
      pure { w with
        files := { st with count := st.count - 1 } :: w.files.filter (·.id ≠ r.fileId) }
    else pure w

/-- Publish the planned count of one blob. -/
def settleBlob (h : HistoryKeys) (b : Bytes × ℤ × ℤ) : HistoryKeys :=
  if b.2.1 = 0 then
    { h with
      blob := Function.update h.blob b.1 none
      blobrefs := Function.update h.blobrefs b.1 none
      blobmeta := Function.update h.blobmeta b.1 none }
  else { h with blobrefs := Function.update h.blobrefs b.1 (some b.2.1.toNat) }

/-- `pruneScript`, at the time `now` in milliseconds. -/
def prune (h : HistoryKeys) (now : ℤ) (limit : ℕ) : Except LuaError HistoryKeys :=
  match h.policy with
  | none => .ok h
  | some policy =>
    if policy.maxVersions = 0 ∧ policy.maxAgeDays = 0 ∧ policy.maxBytes = 0 then .ok h
    else if counterLimit ≤ (h.bytes.getD 0 : ℕ) then .error (.error "invalid history byte counter")
    else do
      let cutoff := now - policy.maxAgeDays * 86400000
      let cursor := h.pruneCursor.getD 0
      let candidates := (h.retention.filter fun e => cursor < e.2).take limit
      let w ← (candidates.map Prod.fst).foldlM (sweepOne h policy cutoff)
        { retained := (h.bytes.getD 0 : ℕ) }
      let released := ((w.blobs.filter fun b => b.2.1 = 0).map fun b => b.2.2).sum
      let physical : ℤ := h.physicalBytes.getD 0
      if physical < released then
        throw (.error "history physical byte accounting is inconsistent")
      else
        let h := w.plans.foldl dropRecord h
        let h := w.blobs.foldl settleBlob h
        let last := (candidates.getLast?.map Prod.snd).getD cursor
        pure { h with
          retention := w.stale.foldl ZSet.rem h.retention
          pruneCursor := some (if candidates.length < limit then 0 else last)
          bytes := some (max 0 w.retained).toNat
          physicalBytes := some (physical - released).toNat }

/-- The number of records a page may examine. -/
def pageSize (limit : ℤ) : ℕ :=
  if limit ≤ 0 then 128 else if 1000 < limit then 1000 else limit.toNat

/-- `PrunePage`. -/
def prunePage (h : HistoryKeys) (now limit : ℤ) : Except LuaError HistoryKeys :=
  prune h now (pageSize limit)

/-! ## What a sweep leaves -/

variable {h : HistoryKeys} {id : RecordId}

theorem dropRecord_records {r : Record} {v : Record} (hv : (dropRecord h r).records id = some v) :
    h.records id = some v := by
  simp only [dropRecord, Function.update_apply] at hv
  split at hv
  · cases hv
  · exact hv

theorem foldl_dropRecord_records {l : List Record} {v : Record}
    (hv : (l.foldl dropRecord h).records id = some v) : h.records id = some v := by
  induction l generalizing h with
  | nil => exact hv
  | cons r l ih => exact dropRecord_records (ih hv)

theorem settleBlobs_eq (l : List (Bytes × ℤ × ℤ)) (h : HistoryKeys) : ∃ blob blobrefs blobmeta,
    l.foldl settleBlob h = { h with blob, blobrefs, blobmeta } := by
  induction l generalizing h with
  | nil => exact ⟨_, _, _, rfl⟩
  | cons b l ih =>
    obtain ⟨_, _, _, heq⟩ := ih (settleBlob h b)
    rw [List.foldl_cons, heq, settleBlob]
    split <;> exact ⟨_, _, _, rfl⟩

variable {h' : HistoryKeys} {now : ℤ} {limit : ℕ}

/-- What a sweep has written when it returns. -/
theorem prune_cases (hp : prune h now limit = .ok h') : h' = h ∨
    ∃ policy cutoff ids w blob blobrefs blobmeta pruneCursor bytes physicalBytes,
      List.foldlM (sweepOne h policy cutoff) { retained := (h.bytes.getD 0 : ℕ) } ids = .ok w ∧
      h' = { w.plans.foldl dropRecord h with
        blob, blobrefs, blobmeta, pruneCursor, bytes, physicalBytes
        retention := w.stale.foldl ZSet.rem (w.plans.foldl dropRecord h).retention } := by
  unfold prune at hp
  split at hp
  · cases hp
    exact .inl rfl
  obtain ⟨-, hp⟩ | ⟨-, hp⟩ := ite_eq_iff.mp hp
  · cases hp
    exact .inl rfl
  obtain ⟨-, hp⟩ := of_ite_eq_ok hp
  obtain ⟨w, hfold, hp⟩ := bind_eq_ok hp
  obtain ⟨-, hp⟩ := of_ite_eq_ok hp
  cases hp
  obtain ⟨_, _, _, heq⟩ := settleBlobs_eq w.blobs (w.plans.foldl dropRecord h)
  rw [heq]
  exact .inr ⟨_, _, _, w, _, _, _, _, _, _, hfold, rfl⟩

/-- A sweep writes no record; it only removes some. -/
theorem prune_records (hp : prune h now limit = .ok h') {r : Record}
    (hr : h'.records id = some r) : h.records id = some r := by
  obtain rfl | ⟨_, _, _, _, _, _, _, _, _, _, -, rfl⟩ := prune_cases hp
  · exact hr
  · exact foldl_dropRecord_records hr

end Afs.History
