import Afs.Sync.Runs

/-!
# Uploading the chunks that changed

An upload of a large file sends the chunks whose hashes differ from those of the baseline, number by
number, and the live tree lays them over the bytes it has. The manifest of the baseline may have
been made with another chunk size; its hashes are then compared with those of other stretches of
the file.
-/

namespace Afs.Sync

/-! ## The bytes -/

section Bytes

variable {ref : ContentRef} {old new : Bytes} {c : ℕ} {places : List ℕ}

/-- A string does not grow over chunks that are not sent. -/
def Grows (ref : ContentRef) (old new : Bytes) (c : ℕ) (places : List ℕ) : Prop :=
  ref = .ext → old.length < new.length → (new.length - 1) / c ∈ places

/-- Some chunks of the new bytes laid over the old ones give the new bytes if and only if the old
bytes have the others. -/
theorem chunkBytes_eq_iff (hc : 0 < c) (hplaces : ∀ i ∈ places, i < chunkCount c new.length) :
    Remote.chunkBytes ref old old.length (chunksAt c new places) c new.length = new ↔
      (∀ i < chunkCount c new.length, i ∉ places →
        chunk c (resize 0 old new.length) i = chunk c new i) ∧ Grows ref old new c places := by
  rw [← resize_overlay_eq_iff hc (d := (0 : UInt8))]
  have hle : old.length ≤ (overlay 0 c old (chunksAt c new places)).length := le_length_overlay
  have hmax : (overlay 0 c old (chunksAt c new places)).length ≤ max old.length new.length :=
    length_overlay_le hc hplaces
  cases ref with
  | array => exact ⟨fun h => ⟨h, nofun⟩, And.left⟩
  | ext =>
    dsimp only [Remote.chunkBytes]
    by_cases hlt : new.length < old.length
    · rw [if_pos hlt, ← resize_of_le (d := (0 : UInt8)) (by omega)]
      exact ⟨fun h => ⟨h, fun _ hgrow => absurd hgrow (by omega)⟩, And.left⟩
    · rw [if_neg hlt]
      -- no byte is cut, so the length has to be right as it is
      constructor
      · intro h
        refine ⟨by rw [h, resize_length], fun _ hgrow => by_contra fun hlast => ?_⟩
        have hshort := length_overlay_lt (d := (0 : UInt8)) hc hplaces hlast hgrow
        rw [h] at hshort
        exact lt_irrefl _ hshort
      · rintro ⟨h, hgrows⟩
        have hlen : (overlay (0 : UInt8) c old (chunksAt c new places)).length = new.length := by
          rcases Nat.lt_or_ge old.length new.length with hgrow | hge
          · have hlast := le_length_overlay_of_last (d := (0 : UInt8)) (l := old) hc
              (hgrows rfl hgrow)
            omega
          · omega
        rw [← hlen, resize_length] at h
        exact h

end Bytes

/-! ## The upload -/

/-- An entry describes these bytes: by its hash, and by its chunk hashes under the chunk size it
records. -/
structure SyncEntry.Records (e : SyncEntry) (data : Bytes) : Prop where
  kept : e.deleted = false
  hash : e.remoteHash = e.hashOf data
  chunks : e.chunkHashes = if e.chunkSize = 0 then [] else uploadChunkHashes data e.chunkSize

theorem SyncEntry.Records.unique {e : SyncEntry} {a b : Bytes} (ha : e.Records a)
    (hb : e.Records b) : a = b := by
  have h := ha.hash.symm.trans hb.hash
  unfold SyncEntry.hashOf at h
  split_ifs at h
  · exact compositeHash_uploadChunkHashes_injective h
  · exact sha256Hex_injective h

/-- A local change on its way: it is staged, uploaded, and its result is applied. -/
def uploadLocalFile (cfg : Config) (p : Path) (info : FileInfo) : Act (Option UploadResult) := do
  match ← handleLocalFile cfg p info with
  | [] => pure none
  | op :: _ => do
    let res ← process cfg op
    let _ ← handleUploadResult cfg res
    pure (some res)

/-- What is there when a large file that has a baseline is about to be uploaded: the file at `p`
has the bytes `new`, and the live tree the bytes `old` that the entry records. -/
structure Pending (cfg : Config) (w : World) (p : Path) (d : DiskNode) (q : Path) (n : RemoteNode)
    (stored : SyncEntry) (old new : Bytes) : Prop where
  onDisk : w.disk.nodes.lookup p = some d
  newBytes : d.body = .file new
  large : cfg.chunkThreshold < new.length
  inTree : w.remote.resolvePath p false = .ok (q, n)
  oldBytes : n.body = .file old
  oldSize : n.size = old.length
  entry : w.state.entry p = some stored
  recorded : stored.Records old
  mtime : stored.remoteMtimeMs = n.mtime

section Upload

variable {cfg : Config} {w w' : World} {p q : Path} {d : DiskNode} {n : RemoteNode}
  {stored : SyncEntry} {old new : Bytes} {res : UploadResult}

namespace Pending

section

variable (h : Pending cfg w p d q n stored old new)

include h

theorem readFile : w.disk.readFile p = .ok new := by
  unfold Disk.readFile
  rw [h.onDisk]
  dsimp only
  rw [h.newBytes]

theorem size : d.info.size = new.length := by
  unfold DiskNode.info
  dsimp only
  rw [h.newBytes]

theorem fileUpload :
    fileUpload cfg p d.info new (some stored) = chunkedUpload cfg p d.info new (some stored) := by
  unfold Sync.fileUpload
  rw [if_pos]
  rw [h.size]
  exact h.large

end

end Pending

section

variable (h : Pending cfg w p d q n stored old new)

include h

/-- A large file is staged with the chunks that differ from those of its baseline. -/
theorem of_handleLocalFile {op : UploadOp}
    {ops : List UploadOp} (hrun : (handleLocalFile cfg p d.info).Alone Exec w (op :: ops) w') :
    op = { chunkedUpload cfg p d.info new (some stored) with tracked := true } ∧
      ∃ s, w' = { w with state := s } ∧ s.entry p = some stored := by
  unfold handleLocalFile at hrun
  have hrest := of_deferScan hrun
  split_ifs at hrest
  · cases (Prog.alone_ret hrest).1
  · cases (Prog.alone_ret hrest).1
  have hread := of_readFile (of_readState hrest)
  dsimp only at hread
  rw [h.readFile] at hread
  dsimp only at hread
  rw [SyncState.entry_deferScan, h.entry, h.fileUpload] at hread
  -- a path with an entry is not the end of a rename
  obtain ⟨c, w₁, htake, hlast⟩ := hread.of_bind
  obtain ⟨rfl, rfl⟩ := Prog.alone_ret htake
  dsimp only at hlast
  split_ifs at hlast
  · cases (Prog.alone_ret hlast).1
  · obtain ⟨hops, s, rfl, hs⟩ := of_enqueueTrackedUpload hlast
    obtain ⟨rfl, -⟩ := List.cons.inj hops
    refine ⟨rfl, s, rfl, ?_⟩
    rw [hs, SyncState.entry_deferScan, h.entry]

theorem Pending.with_state {s : SyncState}
    (hs : s.entry p = some stored) : Pending cfg { w with state := s } p d q n stored old new :=
  { h with entry := hs }

/-- The chunks that are sent. -/
def sent (cfg : Config) (stored : SyncEntry) (new : Bytes) : List ℕ :=
  (diffChunkManifests stored.chunkHashes (uploadChunkHashes new cfg.chunkSize)).1

/-- The upload as it is queued. -/
def queued (cfg : Config) (p : Path) (d : DiskNode) (stored : SyncEntry) (new : Bytes) : UploadOp :=
  { chunkedUpload cfg p d.info new (some stored) with tracked := true }

/-- The file in the live tree after the upload: with the bytes it had, if these are the new ones, or
with the chunks sent laid over them. -/
def Landed (cfg : Config) (w : World) (n : RemoteNode) (stored : SyncEntry) (old new : Bytes)
    (n' : RemoteNode) : Prop :=
  (old = new ∧ n'.body = .file new ∧ n'.mtime = n.mtime) ∨
    (old ≠ new ∧ n'.mtime = w.nowMs ∧ n'.body = .file (Remote.chunkBytes w.remote.ref old
      old.length (chunksAt cfg.chunkSize new (sent cfg stored new)) cfg.chunkSize new.length))

theorem of_publishDirtyChunks
    (hrun : (publishDirtyChunks (queued cfg p d stored new) (some n.toStat)
      (sent cfg stored new)).Alone Exec w res w') (hdone : res.outcome = .done) (hne : old ≠ new) :
    ∃ r n', w' = { w with remote := r } ∧ r.resolvePath p false = .ok (q, n') ∧
      res = ⟨queued cfg p d stored new, .done, some n'.toStat⟩ ∧
      Landed cfg w n stored old new n' := by
  have hdata : w.disk.readFile (queued cfg p d stored new).path = .ok new := h.readFile
  unfold publishDirtyChunks at hrun
  obtain ⟨r, w₁, hread, hpieces⟩ := hrun.of_bind
  obtain ⟨hr, rfl⟩ := alone_of_reads only_readDirtyChunks hread
  cases r with
  | error o =>
    obtain ⟨rfl, -⟩ := Prog.alone_ret hpieces
    exact absurd (congrArg Except.error hdone) hr
  | ok pieces =>
    obtain ⟨rfl, -⟩ := of_readDirtyChunks hdata hread
    have hpub := of_ifCurrent hpieces hdone
    obtain ⟨r, w₂, ⟨f, hexec⟩, hrest⟩ := of_issue hpub
    obtain ⟨rfl, hfinish⟩ := of_published hrest hdone
    obtain ⟨r', hr', rfl⟩ := remoteWrite_ok hexec
    have hq := Remote.resolvePath_writeChunks hr' h.inTree h.oldBytes
    obtain ⟨n', ⟨⟨r'', rfl⟩, ⟨mode, revision, rfl⟩, hn'⟩, rfl⟩ :=
      of_finishFileUpload hfinish hq rfl hdone
    refine ⟨r'', _, rfl, hn', rfl, .inr ⟨hne, rfl, ?_⟩⟩
    have hsize : orDefault (queued cfg p d stored new).chunkSize = cfg.chunkSize :=
      orDefault_of_pos cfg.chunkSize_pos
    rw [hsize, h.oldSize]
    rfl

theorem of_processChunkedFile
    (hrun : (processChunkedFile (queued cfg p d stored new)).Alone Exec w res w')
    (hdone : res.outcome = .done) :
    ∃ r n', w' = { w with remote := r } ∧ r.resolvePath p false = .ok (q, n') ∧
      res = ⟨queued cfg p d stored new, .done, some n'.toStat⟩ ∧
      Landed cfg w n stored old new n' := by
  unfold processChunkedFile at hrun
  have hstat := of_withStat (of_ifCurrent hrun hdone) (Remote.stat_eq h.inTree) hdone
  obtain ⟨r, w₁, ⟨f, hexec⟩, hmeta⟩ := of_issue hstat
  obtain ⟨rfl | rfl, rfl⟩ := remoteRead_eq hexec
  · rw [show w₁.remote.chunkMeta (queued cfg p d stored new).path = _ from
      Remote.chunkMeta_eq h.inTree h.oldBytes] at hmeta
    obtain ⟨r, w₂, ⟨f, hexec⟩, hcat⟩ := of_issue hmeta
    obtain ⟨rfl | rfl, rfl⟩ := remoteRead_eq hexec
    · rw [show w₂.remote.cat (queued cfg p d stored new).path = _ from
        Remote.cat_eq h.inTree h.oldBytes] at hcat
      have hlast := of_ifCurrent hcat hdone
      by_cases hmatch : compositeHash (uploadChunkHashes old (queued cfg p d stored new).chunkSize) =
          (queued cfg p d stored new).localHash
      · rw [if_pos hmatch] at hlast
        obtain rfl : old = new := compositeHash_uploadChunkHashes_injective hmatch
        obtain ⟨n', ⟨⟨r', rfl⟩, ⟨mode, revision, rfl⟩, hn'⟩, rfl⟩ :=
          of_finishMatchingFileUpload hlast h.inTree (by rw [h.oldBytes]; rfl) hdone
        exact ⟨r', _, rfl, hn', rfl, .inl ⟨rfl, h.oldBytes, rfl⟩⟩
      · rw [if_neg hmatch] at hlast
        have hne : old ≠ new := by
          rintro rfl
          exact hmatch rfl
        split_ifs at hlast
        · cases not_done hlast hdone
        · exact of_publishDirtyChunks h hlast hdone hne
    · cases not_done hcat hdone
  · cases not_done hmeta hdone

end

/-- The result of an upload is recorded, unless the entry has a later time. -/
theorem of_handleUploadResult {op : UploadOp} {stat : StatResult} {ops : List DownloadOp}
    (hrun : (handleUploadResult cfg ⟨op, .done, some stat⟩).Alone Exec w ops w')
    (hkind : op.kind = .file) (hstored : op.stored = some stored)
    (hentry : w.state.entry op.path = some stored) (hkept : stored.deleted = false) :
    w'.remote = w.remote ∧ w'.state.entry op.path =
      if stat.mtime < stored.remoteMtimeMs then some stored
      else some { uploadedEntry ⟨op, .done, some stat⟩ w.nowMs with
        version := w.state.nextVersion } := by
  unfold handleUploadResult at hrun
  rw [if_neg (by exact nofun)] at hrun
  obtain ⟨ops', w₁, happly, hrest⟩ := hrun.of_bind
  have hret := of_modifyState hrest
  obtain ⟨-, rfl⟩ := Prog.alone_ret hret
  unfold applyUploadResult at happly
  rw [if_pos hkind] at happly
  obtain ⟨obsolete, w₂, hobsolete, hput⟩ := happly.of_bind
  obtain ⟨hb, rfl⟩ := of_uploadResultObsolete hobsolete hentry hkept (by rw [hstored]; rfl)
  rw [Option.any_some] at hb
  dsimp only at hput
  by_cases hlate : stat.mtime < stored.remoteMtimeMs
  · rw [hb, decide_eq_true hlate, if_pos rfl] at hput
    have hret := of_modifyState hput
    obtain ⟨-, rfl⟩ := Prog.alone_ret hret
    exact ⟨rfl, by simp [hlate, hentry]⟩
  · rw [hb, decide_eq_false hlate, if_neg (by decide)] at hput
    have hput := of_modifyState (of_now hput)
    rw [if_neg (by rw [hkind]; exact fun h => by cases h.1)] at hput
    obtain ⟨-, rfl⟩ := Prog.alone_ret hput
    refine ⟨rfl, ?_⟩
    dsimp only
    rw [if_neg hlate, SyncState.entry_settle, SyncState.applyUpload]
    simp [hkind]

theorem of_process {op : UploadOp} (hrun : (process cfg op).Alone Exec w res w')
    (hkind : op.kind = .file) (hchunked : op.chunked) (hdone : res.outcome = .done) :
    (processChunkedFile op).Alone Exec w res w' := by
  unfold process at hrun
  by_cases hreadonly : cfg.readonly
  · rw [if_pos hreadonly] at hrun
    cases not_done hrun hdone
  · rw [if_neg hreadonly, hkind] at hrun
    dsimp only at hrun
    rw [processFile, if_pos hchunked] at hrun
    exact hrun

theorem records_uploadedEntry {stat : Option StatResult} {now version : ℕ} :
    ({ uploadedEntry ⟨queued cfg p d stored new, .done, stat⟩ now with version } :
      SyncEntry).Records new := by
  refine ⟨rfl, ?_, ?_⟩
  · exact (if_pos cfg.chunkSize_pos).symm
  · exact (if_neg cfg.chunkSize_pos.ne').symm

theorem mem_sent {i : ℕ} : i ∈ sent cfg stored new ↔ i < chunkCount cfg.chunkSize new.length ∧
    stored.chunkHashes[i]? ≠ some (sha256Hex (chunk cfg.chunkSize new i)) := by
  rw [sent, mem_diffChunkManifests, length_uploadChunkHashes, getElem?_uploadChunkHashes,
    orDefault_of_pos cfg.chunkSize_pos]
  refine and_congr_right fun hi => ?_
  rw [if_pos hi]

/-- A chunk is not sent if its hash stands under its number in the manifest of the baseline. -/
theorem notMem_sent_iff (cfg : Config) (stored : SyncEntry) (new : Bytes) {P : ℕ → Prop} :
    (∀ i < chunkCount cfg.chunkSize new.length, i ∉ sent cfg stored new → P i) ↔
      ∀ i < chunkCount cfg.chunkSize new.length,
        stored.chunkHashes[i]? = some (sha256Hex (chunk cfg.chunkSize new i)) → P i := by
  refine forall_congr' fun i => imp_congr_right fun hi => ?_
  rw [mem_sent, not_and, not_not]
  exact ⟨fun h heq => h fun _ => heq, fun h heq => h (heq hi)⟩

theorem grows_sent_iff (cfg : Config) (stored : SyncEntry) (ref : ContentRef) (old new : Bytes) :
    Grows ref old new cfg.chunkSize (sent cfg stored new) ↔
      (ref = .ext → old.length < new.length →
        stored.chunkHashes[(new.length - 1) / cfg.chunkSize]? ≠
          some (sha256Hex (chunk cfg.chunkSize new ((new.length - 1) / cfg.chunkSize)))) := by
  refine imp_congr_right fun _ => imp_congr_right fun hgrow => ?_
  rw [mem_sent, lt_chunkCount cfg.chunkSize_pos]
  refine and_iff_right ?_
  have hle := Nat.div_mul_le_self (new.length - 1) cfg.chunkSize
  omega

/-- What a successful upload leaves: the new bytes and their description, unless the chunks sent do
not make up for the old bytes, or the result is taken for one from before the baseline. -/
theorem uploadLocalFile_landed (h : Pending cfg w p d q n stored old new)
    (hrun : (uploadLocalFile cfg p d.info).Alone Exec w (some res) w')
    (hdone : res.outcome = .done) :
    (w'.remote.cat p = .ok new ∧ ∃ e, w'.state.entry p = some e ∧ e.Records new) ↔
      old = new ∨ stored.remoteMtimeMs ≤ w.nowMs ∧ Remote.chunkBytes w.remote.ref old old.length
        (chunksAt cfg.chunkSize new (sent cfg stored new)) cfg.chunkSize new.length = new := by
  unfold uploadLocalFile at hrun
  obtain ⟨ops, w₁, hstage, hrest⟩ := hrun.of_bind
  cases ops with
  | nil => cases (Prog.alone_ret hrest).1
  | cons op ops =>
    obtain ⟨rfl, s, rfl, hs⟩ := of_handleLocalFile h hstage
    obtain ⟨res', w₂, hprocess, hresult⟩ := hrest.of_bind
    obtain ⟨downloads, w₃, hhandle, hret⟩ := hresult.of_bind
    obtain ⟨hres, rfl⟩ := Prog.alone_ret hret
    cases hres
    obtain ⟨r, n', rfl, hn', rfl, hland⟩ :=
      of_processChunkedFile (h.with_state hs) (of_process hprocess rfl rfl hdone) hdone
    obtain ⟨hremote, hentry⟩ := of_handleUploadResult hhandle rfl rfl hs h.recorded.kept
    rw [hremote, show w'.state.entry p = _ from hentry]
    rcases hland with ⟨rfl, hbody, hmtime⟩ | ⟨hne, hmtime, hbody⟩
    · refine iff_of_true ⟨Remote.cat_eq hn' hbody, ?_⟩ (.inl rfl)
      rw [if_neg (by rw [h.mtime, ← hmtime]; exact lt_irrefl _)]
      exact ⟨_, rfl, records_uploadedEntry⟩
    · rw [Remote.cat_eq hn' hbody, or_iff_right hne, Except.ok.injEq]
      have hclock : (∃ e, (if n'.mtime < stored.remoteMtimeMs then some stored else
          some { uploadedEntry ⟨queued cfg p d stored new, .done, some n'.toStat⟩ w.nowMs with
            version := s.nextVersion }) = some e ∧ e.Records new) ↔
          stored.remoteMtimeMs ≤ w.nowMs := by
        by_cases hlate : n'.mtime < stored.remoteMtimeMs
        · rw [if_pos hlate]
          rw [hmtime] at hlate
          refine iff_of_false ?_ (not_le.mpr hlate)
          rintro ⟨e, he, hrec⟩
          cases he
          exact hne (h.recorded.unique hrec)
        · rw [if_neg hlate]
          rw [hmtime] at hlate
          exact iff_of_true ⟨_, rfl, records_uploadedEntry⟩ (not_lt.mp hlate)
      exact (and_congr_right' hclock).trans and_comm

/-- The chunks sent make up for the old bytes if and only if these have the others. -/
theorem chunkBytes_sent_iff (cfg : Config) (stored : SyncEntry) (ref : ContentRef)
    (old new : Bytes) :
    Remote.chunkBytes ref old old.length (chunksAt cfg.chunkSize new (sent cfg stored new))
        cfg.chunkSize new.length = new ↔
      (∀ i < chunkCount cfg.chunkSize new.length,
        stored.chunkHashes[i]? = some (sha256Hex (chunk cfg.chunkSize new i)) →
        chunk cfg.chunkSize (resize 0 old new.length) i = chunk cfg.chunkSize new i) ∧
      (ref = .ext → old.length < new.length →
        stored.chunkHashes[(new.length - 1) / cfg.chunkSize]? ≠
          some (sha256Hex (chunk cfg.chunkSize new ((new.length - 1) / cfg.chunkSize)))) :=
  (chunkBytes_eq_iff cfg.chunkSize_pos fun _ hi => (mem_sent.mp hi).1).trans
    (and_congr (notMem_sent_iff cfg stored new) (grows_sent_iff cfg stored ref old new))

/-- **The upload of the chunks of a large file is exact** — the live tree has the new bytes, and the
entry describes them — if and only if every chunk whose hash stands under its number in the manifest
of the baseline is in the old bytes at its place, the last chunk is sent when a string has to grow,
and the clock is not behind the time of the baseline. -/
theorem uploadLocalFile_exact_iff (h : Pending cfg w p d q n stored old new)
    (hrun : (uploadLocalFile cfg p d.info).Alone Exec w (some res) w')
    (hdone : res.outcome = .done) :
    (w'.remote.cat p = .ok new ∧ ∃ e, w'.state.entry p = some e ∧ e.Records new) ↔
      old = new ∨ stored.remoteMtimeMs ≤ w.nowMs ∧
        (∀ i < chunkCount cfg.chunkSize new.length,
          stored.chunkHashes[i]? = some (sha256Hex (chunk cfg.chunkSize new i)) →
          chunk cfg.chunkSize (resize 0 old new.length) i = chunk cfg.chunkSize new i) ∧
        (w.remote.ref = .ext → old.length < new.length →
          stored.chunkHashes[(new.length - 1) / cfg.chunkSize]? ≠
            some (sha256Hex (chunk cfg.chunkSize new ((new.length - 1) / cfg.chunkSize)))) := by
  rw [uploadLocalFile_landed h hrun hdone, chunkBytes_sent_iff]

end Upload

/-! ## Examples -/

section Example

/-- Chunks of four bytes, for every file of more than one. -/
def fours : Config where
  chunkSize := 4
  chunkThreshold := 1
  maxFileBytes := 100
  chunkSize_pos := by decide
  chunkThreshold_pos := by decide

/-- The entry of a file with the bytes `aabb`, uploaded in chunks of `c`. -/
def aabbEntry (c : ℕ) : SyncEntry where
  type := .file
  mode := 0o644
  size := 4
  localHash := compositeHash (uploadChunkHashes (text "aabb") c)
  remoteHash := compositeHash (uploadChunkHashes (text "aabb") c)
  remoteMtimeMs := 5
  localMtimeMs := 5
  chunkSize := c
  chunkHashes := uploadChunkHashes (text "aabb") c

/-- The file on disk, changed meanwhile. -/
def aaaabbFile : DiskNode := ⟨1, 0o644, 9000000, .file (text "aaaabb")⟩

/-- The file in the live tree. -/
def aabbNode : RemoteNode := ⟨2, 1, 0o644, 5, 4, .file (text "aabb"), 0, []⟩

/-- The live tree with that file as `f`. -/
def aabbTree : Remote where
  nodes := ((∅ : Table Name RemoteNode).insert [] ⟨1, 0, 0o755, 0, 0, .dir, 0, []⟩).insert
    [text "f"] aabbNode
  nextInode := 3
  nextRevision := 2
  ref := .array

/-- The file `f`, uploaded in chunks of `c` and then changed to `aaaabb`. -/
def changedSince (c : ℕ) : World where
  disk := ⟨(∅ : Table Name DiskNode).insert [text "f"] aaaabbFile, 2⟩
  remote := aabbTree
  state := { entries := (∅ : Table Name SyncEntry).insert [text "f"] (aabbEntry c) }
  now := 10000000

theorem pending_changedSince {c : ℕ} (hc : 0 < c) :
    Pending fours (changedSince c) [text "f"] aaaabbFile [text "f"] aabbNode (aabbEntry c)
      (text "aabb") (text "aaaabb") where
  onDisk := AList.lookup_insert ..
  newBytes := rfl
  large := by decide +kernel
  inTree := show aabbTree.resolvePath [text "f"] false = .ok ([text "f"], aabbNode) by
    decide +kernel
  oldBytes := rfl
  oldSize := by decide +kernel
  entry := AList.lookup_insert ..
  recorded := ⟨rfl, (if_pos hc).symm, (if_neg hc.ne').symm⟩
  mtime := rfl

/-- The upload of `f` in chunks of four. -/
def uploadChanged (c : ℕ) : Option UploadResult × World :=
  (uploadLocalFile fours [text "f"] aaaabbFile.info).alone (changedSince c)

/-- The baseline was made in chunks of two: its second hash is that of `bb`, the second chunk of the
new file is not sent, and the live tree gets zeros in its place. -/
theorem uploadChanged_two : Pending fours (changedSince 2) [text "f"] aaaabbFile [text "f"] aabbNode
      (aabbEntry 2) (text "aabb") (text "aaaabb") ∧
    ((uploadLocalFile fours [text "f"] aaaabbFile.info).Alone Exec (changedSince 2)
      (uploadChanged 2).1 (uploadChanged 2).2) ∧
    (uploadChanged 2).1.map (·.outcome) = some .done ∧
    (uploadChanged 2).2.remote.cat [text "f"] = .ok (text "aaaa" ++ [0, 0]) :=
  ⟨pending_changedSince (by decide), alone_alone _ _, by decide +kernel, by decide +kernel⟩

theorem uploadChanged_four :
    (uploadChanged 4).2.remote.cat [text "f"] = .ok (text "aaaabb") ∧
      ∃ e, (uploadChanged 4).2.state.entry [text "f"] = some e ∧ e.Records (text "aaaabb") := by
  have hsome : (uploadChanged 4).1.isSome = true := by decide +kernel
  obtain ⟨res, hres⟩ := Option.isSome_iff_exists.mp hsome
  have hdone : (uploadChanged 4).1.map (·.outcome) = some .done := by decide +kernel
  have hrun := alone_alone (uploadLocalFile fours [text "f"] aaaabbFile.info) (changedSince 4)
  rw [show ((uploadLocalFile fours [text "f"] aaaabbFile.info).alone (changedSince 4)).1 = some res
    from hres] at hrun
  rw [hres, Option.map_some, Option.some.injEq] at hdone
  refine (uploadLocalFile_exact_iff (pending_changedSince (by decide)) hrun hdone).mpr
    (.inr ⟨by decide +kernel, by decide +kernel, nofun⟩)

end Example

end Afs.Sync
