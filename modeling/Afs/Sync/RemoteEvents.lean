import Afs.Sync.Downloads

/-!
# Remote changes of paths without local ones

A remote event for a path whose local side is what its entry recorded, and when it is applied in
place: not taken for a conflict, with the path afterwards as in the live tree.

`detectConflict` compares the plain hash of the local file with the hash recorded, which for a file
that was recorded by its chunks is the composite one.
-/

namespace Afs.Sync

open AList

/-- A remote event, the download it queues, and the result of that, with whether a conflict
checkpoint is made. An event queues one download at most. -/
def remoteEvent (cfg : Config) (depth : ℕ) (p : Path) :
    Act (Option (DownloadOp × DownloadResult × Bool)) := do
  match ← handleRemoteEvent cfg p with
  | [] => pure none
  | op :: _ => do
    let res ← op.process cfg depth
    let checkpoint ← handleDownloadResult cfg res
    pure (some (op, res, checkpoint))

/-- The local node shows what the live tree has: its type, its bytes or target, and its mode. -/
def DiskNode.Shows (cfg : Config) (n : RemoteNode) (d : DiskNode) : Prop :=
  match n.body with
  | .file data => d.body = .file data ∧ d.mode = downloadMode cfg n.mode % 0o1000
  | .symlink target => d.body = .symlink target
  | .dir => d.body = .dir ∧ d.mode = n.mode % 0o1000

/-- The local path is what the live tree has there. -/
def Reflects (cfg : Config) (r : Remote) (p : Path) (k : Disk) : Prop :=
  match r.resolvePath p false with
  | .ok (_, n) => ∃ d, k.nodes.lookup p = some d ∧ d.Shows cfg n
  | .error _ => k.nodes.lookup p = none

/-- An event was applied in place. -/
structure AppliedInPlace (cfg : Config) (w : World) (p : Path)
    (out : Option (DownloadOp × DownloadResult × Bool)) (w' : World) : Prop where
  classified : ∀ op res checkpoint, out = some (op, res, checkpoint) → op.conflict = false
  noCopy : ∀ op res checkpoint, out = some (op, res, checkpoint) → res.conflictPath = none
  noCheckpoint : ∀ op res checkpoint, out = some (op, res, checkpoint) → checkpoint = false
  updated : Reflects cfg w.remote p w'.disk

/-- A path below the root that is not ignored, with everything at and under it as recorded. `depth`
bounds the walk through it. -/
structure Untouched (cfg : Config) (depth : ℕ) (w : World) (p : Path) (d : DiskNode)
    (e : SyncEntry) : Prop extends Place w p d where
  watched : cfg.ignored p = false
  entry : w.state.entry p = some e
  covered : Covered w w.state.entry p d e
  deep : ∀ r d', w.disk.nodes.lookup (p ++ r) = some d' → r.length < depth

section Event

variable {cfg : Config} {depth : ℕ} {w w' : World} {p q : Path} {d : DiskNode} {e : SyncEntry}
  {n : RemoteNode} {op : DownloadOp} {res : DownloadResult}

/-! ## Classification -/

/-- The local side counts as changed if and only if it was recorded by its chunks. -/
theorem does_detectConflict (he : e.Describes d) (hp : w.disk.nodes.lookup p = some d) :
    Does (detectConflict p (some e)) w (decide (0 < e.chunkSize)) w := by
  obtain ⟨-, he⟩ := he
  refine (does_lstat hp).bind ?_
  dsimp only
  rw [DiskNode.kind_info]
  cases hb : d.body with
  | file data =>
    rw [hb] at he
    obtain ⟨-, -, -, hhash, hlarge⟩ := he
    refine (does_readFile hp hb).bind ?_
    have hconflict : decide (e.localHash ≠ [] ∧ sha256Hex data ≠ e.localHash) =
        decide (0 < e.chunkSize) := by
      refine decide_eq_decide.mpr ?_
      rw [hhash, SyncEntry.hashOf]
      by_cases hc : 0 < e.chunkSize
      · rw [if_pos hc]
        have hne := compositeHash_ne_sha256Hex (c := e.chunkSize) (hlarge hc)
        refine iff_of_true ⟨?_, hne.symm⟩ hc
        unfold compositeHash
        split_ifs <;> exact sha256Hex_ne_nil _
      · rw [if_neg hc]
        exact iff_of_false (fun h => h.2 rfl) hc
    dsimp only
    rw [hconflict]
    exact .pure ..
  | symlink target =>
    rw [hb] at he
    refine (does_readlink hp hb).bind ?_
    dsimp only
    rw [he.2.2, show decide (e.type = .symlink ∧ e.target ≠ target) = false by simp [he.2.1]]
    exact .pure ..
  | dir =>
    rw [hb] at he
    rw [he.2.2]
    exact .pure ..

/-! ## Results -/

/-- A result without a conflict copy makes no checkpoint, and leaves the disk alone while the path
has no tombstone. -/
theorem does_handleDownloadResult (cfg : Config) (hcopy : res.conflictPath = none)
    (hkept : (w.state.entry res.op.path).any (·.deleted) = false) :
    ∃ s, Does (handleDownloadResult cfg res) w false { w with state := s } := by
  unfold handleDownloadResult
  rw [hcopy]
  dsimp only
  rw [if_neg (by decide)]
  cases res.outcome with
  | skipped => exact ⟨_, (does_modifyState _).bind (.pure ..)⟩
  | failed _ => exact ⟨w.state, .pure ..⟩
  | done =>
    dsimp only
    by_cases hkind : res.op.kind ≠ .delete
    · have hread : Does readState w w.state w := Ends.call rfl
      have hinfo : Does (Cmd.lstat res.op.path).issue w (w.disk.lstat res.op.path) w := Ends.call rfl
      have hnow : Does Cmd.now.issue w w.nowMs w := Ends.call rfl
      have hrecord : ∃ s, Does (recordDownload res) w () { w with state := s } := by
        refine ⟨w.state.applyDownload res
          (((w.disk.lstat res.op.path).toOption.map (·.ident)).getD 0) w.nowMs, hread.bind ?_⟩
        rw [hkept, if_neg (by decide)]
        exact hinfo.bind (hnow.bind (does_modifyState _))
      obtain ⟨s, hs⟩ := hrecord
      rw [if_pos hkind]
      exact ⟨s, hs.bind (.pure ..)⟩
    · rw [if_neg hkind]
      exact ⟨w.state, .pure ..⟩

/-! ## The downloads -/

theorem Remote.stat_root (r : Remote) : ∃ s, r.stat [] = .ok s := by
  unfold Remote.stat Remote.resolvePath resolveDepth walk
  cases r.nodes.lookup [] <;> exact ⟨_, rfl⟩

/-- What `process` does is what the operation of its kind does. -/
theorem does_process {x : Act DownloadResult} (hx : Does x w res w') (hop : (match op.kind with
      | .file => if op.chunked then op.processChunkedFile cfg depth else op.processWholeFile cfg depth
      | .symlink => op.processSymlink
      | .mkdir => op.processMkdir cfg
      | .delete => op.processDelete depth
      | .chmod => op.processChmod) = x) : Does (op.process cfg depth) w res w' := by
  obtain ⟨s, hs⟩ := w.remote.stat_root
  have hstat : Does (Cmd.stat []).issue w (.ok s) w := Ends.call (congrArg (·, w) hs)
  subst hop
  exact hstat.bind hx

section

variable (hq : w.remote.resolvePath p false = .ok (q, n))

include hq

theorem does_stat : Does (Cmd.stat p).issue w (.ok (some n.toStat)) w :=
  Ends.call (congrArg (·, w) (Remote.stat_eq hq))

theorem does_readlinkRemote {target : Bytes}
    (hn : n.body = .symlink target) : Does (Cmd.readlinkRemote p).issue w (.ok target) w := by
  have hread : w.remote.readlink p = .ok target := by
    unfold Remote.readlink
    rw [hq]
    dsimp only
    rw [hn]
  exact Ends.call (congrArg (·, w) hread)

theorem does_statOrNone :
    Does (statOrNone p) w (.ok (some n.toStat)) w := (does_stat hq).bind (.pure ..)

theorem does_cat {data : Bytes}
    (hn : n.body = .file data) : Does (Cmd.cat p).issue w (.ok data) w :=
  Ends.call (congrArg (·, w) (Remote.cat_eq hq hn))

end

theorem type_toStat : n.toStat.type = n.body.kind := rfl

/-- `processWholeFile` of a file is `replaceFile` with its bytes. -/
theorem does_processWholeFile {data : Bytes} (hp : w.disk.nodes.lookup p = some d)
    (hpath : op.path = p) (hstored : op.stored = some e)
    (hq : w.remote.resolvePath p false = .ok (q, n)) (hn : n.body = .file data)
    (hreplace : Does (op.replaceFile cfg (d.seen e.chunkSize) n.toStat data) w res w') :
    Does (op.processWholeFile cfg depth) w res w' := by
  unfold DownloadOp.processWholeFile
  rw [hpath, hstored]
  refine (does_snapshot hp e.chunkSize).bind ((does_statOrNone hq).bind ?_)
  dsimp only
  rw [type_toStat, hn]
  exact (does_cat hq hn).bind hreplace

/-! ## The event -/

section

variable (h : Untouched cfg depth w p d e)

include h

section

variable (hq : w.remote.resolvePath p false = .ok (q, n))

include hq

theorem does_handleRemoteEvent {ops : List DownloadOp}
    (hchanged : Does (remoteChanged p n.toStat (some e)) w ops w) :
    Does (handleRemoteEvent cfg p) w ops w := by
  have hread : Does readState w w.state w := Ends.call rfl
  unfold handleRemoteEvent
  rw [h.watched, if_neg (by decide)]
  refine hread.bind ?_
  dsimp only
  rw [h.entry, Option.any_some, h.covered.top.1, if_neg (by decide)]
  exact (does_stat hq).bind hchanged

omit hq in
/-- An event that queues an operation which settles the path. -/
theorem does_remoteEvent {P : DiskNode → Prop} (hhandle : Does (handleRemoteEvent cfg p) w [op] w)
    (hprocess : Does (op.process cfg depth) w res w') (hsettles : Settles p P w res w') :
    ∃ s, Does (remoteEvent cfg depth p) w (some (op, res, false)) { w' with state := s } := by
  have hkept : (w'.state.entry res.op.path).any (·.deleted) = false := by
    rw [hsettles.state, hsettles.path, h.entry, Option.any_some, h.covered.top.1]
  obtain ⟨s, hs⟩ := does_handleDownloadResult cfg hsettles.copy hkept
  exact ⟨s, hhandle.bind (hprocess.bind (hs.bind (.pure ..)))⟩

/-- The event is applied in place if what it leaves at the path shows what the live tree has. -/
theorem inPlace_iff_of {P : DiskNode → Prop} {b : Prop} (hconflict : op.conflict = false)
    (hhandle : Does (handleRemoteEvent cfg p) w [op] w)
    (hprocess : Does (op.process cfg depth) w res w') (hsettles : Settles p P w res w')
    (hP : ∀ d, P d → (d.Shows cfg n ↔ b)) :
    AppliedInPlace cfg w p ((remoteEvent cfg depth p).alone w).1
      ((remoteEvent cfg depth p).alone w).2 ↔ b := by
  obtain ⟨s, hs⟩ := does_remoteEvent h hhandle hprocess hsettles
  obtain ⟨d', hd', hPd⟩ := hsettles.node
  rw [show (remoteEvent cfg depth p).alone w = _ from hs]
  have hreflects : Reflects cfg w.remote p w'.disk ↔ b := by
    unfold Reflects
    rw [hq, ← hP d' hPd]
    refine ⟨?_, fun hshows => ⟨d', hd', hshows⟩⟩
    rintro ⟨d'', hd'', hshows⟩
    rw [hd'] at hd''
    cases hd''
    exact hshows
  refine ⟨fun hin => hreflects.mp hin.updated, fun hb => ⟨?_, ?_, ?_, hreflects.mpr hb⟩⟩
  · rintro _ _ _ ⟨⟩
    exact hconflict
  · rintro _ _ _ ⟨⟩
    exact hsettles.copy
  · rintro _ _ _ ⟨⟩
    rfl

omit hq in
omit h in
/-- An event that is classified as a conflict is not applied in place. -/
theorem not_inPlace_of (hconflict : op.conflict = true)
    (hhandle : Does (handleRemoteEvent cfg p) w [op] w) :
    ¬ AppliedInPlace cfg w p ((remoteEvent cfg depth p).alone w).1
      ((remoteEvent cfg depth p).alone w).2 := by
  have hprocess : Does (op.process cfg depth) w _ _ := rfl
  have hresult : Does (handleDownloadResult cfg ((op.process cfg depth).run (exec .none) w).1)
    ((op.process cfg depth).run (exec .none) w).2 _ _ := rfl
  have hrun : Does (remoteEvent cfg depth p) w _ _ :=
    hhandle.bind (hprocess.bind (hresult.bind (.pure ..)))
  rw [show (remoteEvent cfg depth p).alone w = _ from hrun]
  intro hin
  rw [hin.classified _ _ _ rfl] at hconflict
  cases hconflict

/-- When an event is applied in place: the path is gone from the live tree, or it is there, the
entry has the plain hash of the file, and the type does not change to or from a directory, unless an
empty one becomes a link. -/
def Applies (w : World) (p : Path) (d : DiskNode) (e : SyncEntry) : Prop :=
  match w.remote.resolvePath p false with
  | .error err => err = .redisNil
  | .ok (_, n) => e.chunkSize = 0 ∧
    match n.body with
    | .dir => d.body = .dir
    | .symlink _ => d.body = .dir → w.disk.nodes.names p = []
    | .file _ => d.body ≠ .dir

/-- The download of a directory. -/
def mkdirOp (p : Path) (n : RemoteNode) (e : SyncEntry) : DownloadOp :=
  { kind := .mkdir, path := p, mode := n.mode, stored := some e }

/-- The download of a link. -/
def linkOp (p : Path) (target : Bytes) (e : SyncEntry) : DownloadOp :=
  { kind := .symlink, path := p, symlink := target, stored := some e
    conflict := decide (0 < e.chunkSize) }

/-- The download of a file. -/
def fileOp (p : Path) (n : RemoteNode) (e : SyncEntry) : DownloadOp :=
  fileDownload p n.toStat (some e) (decide (0 < e.chunkSize)) (.ok (n.chunkSize, n.chunkHashes))

/-- A remote directory. -/
theorem inPlace_iff_dir (hn : n.body = .dir) :
    AppliedInPlace cfg w p ((remoteEvent cfg depth p).alone w).1
      ((remoteEvent cfg depth p).alone w).2 ↔ d.body = .dir := by
  have hhandle : Does (handleRemoteEvent cfg p) w [mkdirOp p n e] w := by
    refine does_handleRemoteEvent h hq ((does_detectConflict h.covered.top h.node).bind ?_)
    rw [type_toStat, hn]
    exact .pure ..
  have hprocess : ∀ {res w'}, Does ((mkdirOp p n e).processDir cfg) w res w' →
      Does ((mkdirOp p n e).process cfg depth) w res w' := by
    intro res w' hdir
    refine does_process ((does_stat hq).bind ?_) rfl
    dsimp only
    rw [type_toStat, hn, if_neg (by decide)]
    exact hdir
  by_cases hd : d.body = .dir
  · obtain ⟨res, w', hdir, hsettles⟩ : ∃ res w', Does ((mkdirOp p n e).processDir cfg) w res w' ∧
        Settles p (fun d => d.body = .dir ∧ d.mode = n.mode % 0o1000) w res w' :=
      h.does_processDir h.covered.top rfl rfl hd
    refine inPlace_iff_of h hq rfl hhandle (hprocess hdir) hsettles fun d' hd' => ?_
    unfold DiskNode.Shows
    rw [hn]
    exact iff_of_true hd' hd
  · refine inPlace_iff_of h hq rfl hhandle (hprocess (h.does_processDir_of_ne rfl hd))
      (P := fun d' => d' = d) ⟨rfl, rfl, rfl, rfl, d, h.node, rfl⟩ ?_
    rintro _ rfl
    unfold DiskNode.Shows
    rw [hn]
    exact iff_of_false (fun hs => hd hs.1) hd

/-- A remote link. -/
theorem inPlace_iff_link {target : Bytes} (hn : n.body = .symlink target) :
    AppliedInPlace cfg w p ((remoteEvent cfg depth p).alone w).1
      ((remoteEvent cfg depth p).alone w).2 ↔
      e.chunkSize = 0 ∧ (d.body = .dir → w.disk.nodes.names p = []) := by
  have hhandle : Does (handleRemoteEvent cfg p) w [linkOp p target e] w := by
    refine does_handleRemoteEvent h hq ((does_detectConflict h.covered.top h.node).bind ?_)
    rw [type_toStat, hn]
    exact (does_readlinkRemote hq hn).bind (.pure ..)
  by_cases hc : 0 < e.chunkSize
  · exact iff_of_false (not_inPlace_of (decide_eq_true hc) hhandle) fun hb => absurd hb.1 hc.ne'
  have hconflict : (linkOp p target e).conflict = false := decide_eq_false hc
  have hprocess : ∀ {res w'}, Does ((linkOp p target e).processLink (d.seen e.chunkSize)) w res w' →
      Does ((linkOp p target e).process cfg depth) w res w' := by
    intro res w' hlink
    refine does_process ((does_snapshot h.node e.chunkSize).bind ?_) rfl
    dsimp only
    by_cases ht : (linkOp p target e).symlink ≠ []
    · rw [if_pos ht]
      exact hlink
    · rw [if_neg ht]
      exact (does_readlinkRemote hq hn).bind hlink
  rw [and_iff_right (by omega)]
  by_cases hd : d.body = .dir → w.disk.nodes.names p = []
  · obtain ⟨res, w', hlink, hsettles⟩ := h.does_processLink h.covered.top rfl rfl hconflict hd
    refine inPlace_iff_of h hq hconflict hhandle (hprocess hlink) hsettles fun d' hd' => ?_
    unfold DiskNode.Shows
    rw [hn]
    exact iff_of_true hd' hd
  · obtain ⟨hdir, hnames⟩ := Classical.not_imp.mp hd
    obtain ⟨res, w', hlink, hsettles⟩ :=
      h.does_processLink_full h.covered.top rfl rfl hconflict hdir hnames
    refine inPlace_iff_of h hq hconflict hhandle (hprocess hlink) hsettles fun d' hd' => ?_
    unfold DiskNode.Shows
    rw [hn]
    refine iff_of_false (fun hs => ?_) hd
    rw [hd'] at hs
    cases hs

omit hq in
omit h in
theorem fileOp_spec : (fileOp p n e).path = p ∧ (fileOp p n e).stored = some e ∧
    (fileOp p n e).kind = .file ∧ (fileOp p n e).conflict = decide (0 < e.chunkSize) ∧
    ((fileOp p n e).chunked = true → 0 < (fileOp p n e).chunkSize) := by
  unfold fileOp fileDownload
  dsimp only
  split_ifs with hc
  · exact ⟨rfl, rfl, rfl, rfl, fun _ => hc.1⟩
  · exact ⟨rfl, rfl, rfl, rfl, nofun⟩

omit hq in
/-- Against a baseline without chunks, a file is always taken as a whole. -/
theorem does_fileOp (hc : e.chunkSize = 0) :
    ∃ op : DownloadOp, op.path = p ∧ op.stored = some e ∧ op.conflict = false ∧
      ∀ res w', Does (op.processWholeFile cfg depth) w res w' →
        Does ((fileOp p n e).process cfg depth) w res w' := by
  obtain ⟨hpath, hstored, hkind, hconflict, hpos⟩ := fileOp_spec (p := p) (n := n) (e := e)
  rw [hc, decide_eq_false (lt_irrefl 0)] at hconflict
  by_cases hchunked : (fileOp p n e).chunked = true
  · refine ⟨(fileOp p n e).whole, hpath, hstored, hconflict, fun res w' hwhole => ?_⟩
    refine does_process (x := (fileOp p n e).processChunkedFile cfg depth) ?_
      (by rw [hkind]; dsimp only; rw [if_pos hchunked])
    unfold DownloadOp.processChunkedFile
    rw [hconflict, if_neg (by decide), hpath, hstored]
    refine (does_snapshot h.node e.chunkSize).bind ?_
    have hdelta : (some e).all (fun s => s.chunkSize ≠ (fileOp p n e).chunkSize) = true :=
      decide_eq_true (by have := hpos hchunked; omega)
    dsimp only
    rw [if_pos (.inr hdelta)]
    exact hwhole
  · refine ⟨fileOp p n e, hpath, hstored, hconflict, fun res w' hwhole => ?_⟩
    exact does_process hwhole (by rw [hkind]; dsimp only; rw [if_neg hchunked])

/-- A remote file. -/
theorem inPlace_iff_file {data : Bytes} (hn : n.body = .file data) :
    AppliedInPlace cfg w p ((remoteEvent cfg depth p).alone w).1
      ((remoteEvent cfg depth p).alone w).2 ↔ e.chunkSize = 0 ∧ d.body ≠ .dir := by
  have hmeta : Does (Cmd.chunkMeta p).issue w (.ok (n.chunkSize, n.chunkHashes)) w :=
    Ends.call (congrArg (·, w) (Remote.chunkMeta_eq hq hn))
  have hhandle : Does (handleRemoteEvent cfg p) w [fileOp p n e] w := by
    refine does_handleRemoteEvent h hq ((does_detectConflict h.covered.top h.node).bind ?_)
    rw [type_toStat, hn]
    exact hmeta.bind (.pure ..)
  have hconflict := (fileOp_spec (p := p) (n := n) (e := e)).2.2.2.1
  by_cases hc : 0 < e.chunkSize
  · exact iff_of_false (not_inPlace_of (hconflict.trans (decide_eq_true hc)) hhandle)
      fun hb => absurd hb.1 hc.ne'
  rw [decide_eq_false hc] at hconflict
  obtain ⟨op, hpath, hstored, hop, hprocess⟩ := does_fileOp (n := n) h (by omega)
  rw [and_iff_right (by omega)]
  by_cases hd : d.body = .dir
  · obtain ⟨res, w', hreplace, hsettles⟩ :=
      Place.does_replaceFile_dir cfg h.toPlace h.covered.top hpath hstored hop hd n.toStat data
    refine inPlace_iff_of h hq hconflict hhandle
      (hprocess _ _ (does_processWholeFile h.node hpath hstored hq hn hreplace)) hsettles
      fun d' hd' => ?_
    unfold DiskNode.Shows
    rw [hn]
    refine iff_of_false (fun hs => ?_) fun hne => hne hd
    rw [hd'] at hs
    cases hs.1
  · obtain ⟨res, w', hreplace, hsettles⟩ :=
      Place.does_replaceFile cfg h.toPlace h.covered.top hpath hstored hop hd n.toStat data
    refine inPlace_iff_of h hq hconflict hhandle
      (hprocess _ _ (does_processWholeFile h.node hpath hstored hq hn hreplace)) hsettles
      fun d' hd' => ?_
    unfold DiskNode.Shows
    rw [hn]
    exact iff_of_true hd' hd

end

/-- The entry of a path whose deletion was confirmed. -/
def announced (w : World) (e : SyncEntry) : SyncEntry :=
  { e with lastSyncedAt := w.nowMs, version := w.state.nextVersion }

/-- The world after the entry was announced. -/
def World.announce (w : World) (p : Path) (e : SyncEntry) : World :=
  { w with state := w.state.put p { e with lastSyncedAt := w.nowMs } }

omit h in
theorem entry_announce : (w.announce p e).state.entry p = some (announced w e) :=
  SyncState.entry_put_self ..

/-- The download of a deletion. -/
def deleteOp (w : World) (p : Path) (e : SyncEntry) : DownloadOp :=
  { kind := .delete, path := p, stored := some (announced w e) }

theorem does_handleRemoteEvent_missing (hgone : Does (Cmd.stat p).issue w (.ok none) w) :
    Does (handleRemoteEvent cfg p) w [deleteOp w p e] (w.announce p e) := by
  have hread : Does readState w w.state w := Ends.call rfl
  have hnow : Does Cmd.now.issue w w.nowMs w := Ends.call rfl
  have hput : w.state.announceDelete p e w.nowMs = (w.announce p e).state := by
    unfold SyncState.announceDelete
    rw [h.entry]
    dsimp only
    rw [if_neg (by simp [h.covered.top.1])]
    rfl
  have hupdate : Does (Cmd.update (·.announceDelete p e w.nowMs)).issue w w.state
      (w.announce p e) := by
    refine Ends.call ?_
    show (w.state, { w with state := w.state.announceDelete p e w.nowMs }) = _
    rw [hput]
    rfl
  unfold handleRemoteEvent
  rw [h.watched, if_neg (by decide)]
  refine hread.bind ?_
  dsimp only
  rw [h.entry, Option.any_some, h.covered.top.1, if_neg (by decide)]
  refine hgone.bind (hgone.bind (hnow.bind (hupdate.bind ?_)))
  rw [h.entry]
  dsimp only
  rw [if_neg (by simp [h.covered.top.1])]
  exact .pure ..

theorem Untouched.announce : Untouched cfg depth (w.announce p e) p d (announced w e) where
  sound := h.sound
  ne := h.ne
  node := h.node
  free := h.free
  watched := h.watched
  entry := entry_announce
  covered := by
    refine ⟨h.node, h.covered.top, fun r d' hr hd' => ?_⟩
    obtain ⟨e', he', hdesc⟩ := h.covered.under r d' hr hd'
    refine ⟨e', ?_, hdesc⟩
    rw [← he']
    exact SyncState.entry_put_of_ne _ (by simpa using hr)
  deep := h.deep

/-- A path that is gone. -/
theorem inPlace_of_missing (hq : w.remote.resolvePath p false = .error .redisNil) :
    AppliedInPlace cfg w p ((remoteEvent cfg depth p).alone w).1
      ((remoteEvent cfg depth p).alone w).2 := by
  have hstat : w.remote.stat p = .ok none := by
    unfold Remote.stat
    rw [hq]
  have hgone : Does (Cmd.stat p).issue w (.ok none) w := Ends.call (congrArg (·, w) hstat)
  have hw := h.announce
  have hcurrent : (w.announce p e).state.isCurrent p (some (announced w e)) = true := by
    unfold SyncState.isCurrent
    rw [entry_announce]
    exact decide_eq_true rfl
  obtain ⟨k, hk, hdelete⟩ : ∃ k : Disk, k.nodes.lookup p = none ∧
      Does ((deleteOp w p e).processDelete depth) (w.announce p e)
        { op := deleteOp w p e, outcome := .done } ((w.announce p e).without p k) :=
    does_processDelete hw.toPlace rfl rfl hw.covered hw.deep hcurrent hstat
  have hkept : (((w.announce p e).without p k).state.entry p).any (·.deleted) = false := by
    rw [show ((w.announce p e).without p k).state.entry p = none from
      Table.lookup_removeAll.trans (if_pos (List.prefix_refl p))]
    rfl
  obtain ⟨s, hs⟩ : ∃ s, Does (handleDownloadResult cfg { op := deleteOp w p e, outcome := .done })
      ((w.announce p e).without p k) false { (w.announce p e).without p k with state := s } :=
    does_handleDownloadResult cfg rfl hkept
  have hrun : Does (remoteEvent cfg depth p) w _ _ := (does_handleRemoteEvent_missing h hgone).bind
    ((does_process hdelete rfl).bind (hs.bind (.pure ..)))
  rw [show (remoteEvent cfg depth p).alone w = _ from hrun]
  refine ⟨?_, ?_, ?_, ?_⟩
  · rintro _ _ _ ⟨⟩
    rfl
  · rintro _ _ _ ⟨⟩
    rfl
  · rintro _ _ _ ⟨⟩
    rfl
  · unfold Reflects
    rw [hq]
    exact hk

/-- A path whose parent is no directory any more, or whose links lead nowhere. -/
theorem not_inPlace_of_error {err : ClientErr}
    (hq : w.remote.resolvePath p false = .error err) (herr : err ≠ .redisNil) :
    ¬ AppliedInPlace cfg w p ((remoteEvent cfg depth p).alone w).1
      ((remoteEvent cfg depth p).alone w).2 := by
  have hread : Does readState w w.state w := Ends.call rfl
  have hstat : w.remote.stat p = .error err := by
    unfold Remote.stat
    rw [hq]
    cases err <;> first | rfl | exact absurd rfl herr
  have hfails : Does (Cmd.stat p).issue w (.error err) w := Ends.call (congrArg (·, w) hstat)
  have hhandle : Does (handleRemoteEvent cfg p) w [] w := by
    unfold handleRemoteEvent
    rw [h.watched, if_neg (by decide)]
    refine hread.bind ?_
    dsimp only
    rw [h.entry, Option.any_some, h.covered.top.1, if_neg (by decide)]
    refine hfails.bind ?_
    dsimp only
    rw [if_neg ((Remote.isMissing_resolvePath hq).not.mpr herr)]
    exact .pure ..
  have hrun : Does (remoteEvent cfg depth p) w none w := hhandle.bind (.pure ..)
  rw [show (remoteEvent cfg depth p).alone w = _ from hrun]
  intro hin
  have hgone := hin.updated
  unfold Reflects at hgone
  rw [hq] at hgone
  exact Option.some_ne_none _ (h.node.symm.trans hgone)

end

/-- **A remote event for a path that has no local change is applied in place** — not classified as a
conflict, without a conflict copy or checkpoint, and with the path as in the live tree afterwards —
if and only if the path is gone from the live tree, or the entry has the plain hash of the file and
the type does not change to or from a directory, unless an empty one becomes a link. -/
theorem remoteEvent_inPlace_iff (h : Untouched cfg depth w p d e) :
    AppliedInPlace cfg w p ((remoteEvent cfg depth p).alone w).1
      ((remoteEvent cfg depth p).alone w).2 ↔ Applies w p d e := by
  unfold Applies
  cases hq : w.remote.resolvePath p false with
  | error err =>
    dsimp only
    by_cases herr : err = .redisNil
    · subst herr
      exact iff_of_true (inPlace_of_missing h hq) rfl
    · exact iff_of_false (not_inPlace_of_error h hq herr) herr
  | ok found =>
    obtain ⟨q, n⟩ := found
    dsimp only
    cases hn : n.body with
    | file data => exact inPlace_iff_file h hq hn
    | symlink target => exact inPlace_iff_link h hq hn
    | dir =>
      refine (inPlace_iff_dir h hq hn).trans (iff_and_self.mpr fun hd => ?_)
      have htop := h.covered.top.2
      rw [hd] at htop
      exact htop.2.2

end Event

/-! ## Examples -/

section Example

/-- A daemon that ignores nothing. -/
def attentive : Config where
  chunkSize := 2
  chunkThreshold := 2
  maxFileBytes := 100
  chunkSize_pos := by decide
  chunkThreshold_pos := by decide

/-- The path of the only file. -/
def onlyPath : Path := [text "f"]

/-- The only file, as it was uploaded. -/
def onlyFile : DiskNode := ⟨1, 0o644, 5000000, .file (text "aabb")⟩

/-- A folder with one file. -/
def oneFile : Disk :=
  ⟨((∅ : Table Name DiskNode).insert [] ⟨0, 0o755, 0, .dir⟩).insert onlyPath onlyFile, 2⟩

theorem lookup_oneFile (p : Path) : oneFile.nodes.lookup p =
    if p = onlyPath then some onlyFile else if p = [] then some ⟨0, 0o755, 0, .dir⟩ else none := by
  unfold oneFile
  split_ifs with hp hroot
  · rw [hp, lookup_insert]
  · rw [lookup_insert_ne hp, hroot, lookup_insert]
  · rw [lookup_insert_ne hp, lookup_insert_ne hroot]
    rfl

/-- The entry of the file, recorded with a chunk size, or none. -/
def onlyEntry (c : ℕ) : SyncEntry where
  type := .file
  mode := 0o644
  size := 4
  localHash := if 0 < c then compositeHash (uploadChunkHashes (text "aabb") c)
    else sha256Hex (text "aabb")
  chunkSize := c

/-- The file was changed in the live tree. -/
def changedRemotely (c : ℕ) : World where
  disk := oneFile
  remote := {
    nodes := ((∅ : Table Name RemoteNode).insert [] ⟨1, 0, 0o755, 0, 0, .dir, 0, []⟩).insert
      onlyPath ⟨2, 3, 0o644, 9, 4, .file (text "ccdd"), 0, []⟩
    nextInode := 3
    nextRevision := 4
    ref := .array }
  state := { entries := (∅ : Table Name SyncEntry).insert onlyPath (onlyEntry c), nextVersion := 1 }
  now := 10000000

theorem untouched_changedRemotely (c : ℕ) :
    Untouched attentive 2 (changedRemotely c) onlyPath onlyFile (onlyEntry c) where
  sound := by
    intro p n hp hne
    rw [show (changedRemotely c).disk = oneFile from rfl, lookup_oneFile] at hp
    split_ifs at hp with honly
    rw [honly]
    exact ⟨⟨0, 0o755, 0, .dir⟩, lookup_oneFile [], rfl⟩
  ne := by decide +kernel
  node := lookup_insert ..
  free := by
    intro k _
    rw [show (changedRemotely c).disk = oneFile from rfl, lookup_oneFile, if_neg tempPath_ne,
      if_neg tempPath_ne_nil]
  watched := rfl
  entry := lookup_insert ..
  covered := by
    refine ⟨lookup_insert .., ⟨rfl, rfl, rfl, show 4 = (text "aabb").length by decide +kernel,
      rfl, ?_⟩, ?_⟩
    · exact fun _ => by decide +kernel
    · intro r d' hr hd'
      rw [show (changedRemotely c).disk = oneFile from rfl, lookup_oneFile, if_neg (by simpa using hr),
        if_neg (by simp [onlyPath])] at hd'
      cases hd'
  deep := by
    intro r d' hd'
    rw [show (changedRemotely c).disk = oneFile from rfl, lookup_oneFile] at hd'
    split_ifs at hd' with honly hroot
    · rw [show r = [] by simpa using honly]
      decide
    · simp [onlyPath] at hroot

/-- What the event leads to. -/
def eventOf (c : ℕ) : Option (DownloadOp × DownloadResult × Bool) × World :=
  (remoteEvent attentive 2 onlyPath).alone (changedRemotely c)

/-- The file was recorded in chunks of two bytes. It has not changed since, but its plain hash is not
the one recorded: the event is classified as a conflict, and the file moved to a conflict copy. -/
theorem eventOf_two : Untouched attentive 2 (changedRemotely 2) onlyPath onlyFile (onlyEntry 2) ∧
    ((eventOf 2).1.map fun x => (x.1.conflict, x.2.1.conflictPath, x.2.2)) =
      some (true, some [text "f.conflict-1"], true) ∧
    (eventOf 2).2.disk.readFile [text "f.conflict-1"] = .ok (text "aabb") :=
  ⟨untouched_changedRemotely 2, by decide +kernel, by decide +kernel⟩

theorem eventOf_zero :
    AppliedInPlace attentive (changedRemotely 0) onlyPath (eventOf 0).1 (eventOf 0).2 := by
  refine (remoteEvent_inPlace_iff (untouched_changedRemotely 0)).mpr ?_
  have hq : (changedRemotely 0).remote.resolvePath onlyPath false =
      .ok (onlyPath, ⟨2, 3, 0o644, 9, 4, .file (text "ccdd"), 0, []⟩) := by decide +kernel
  unfold Applies
  rw [hq]
  exact ⟨rfl, nofun⟩

end Example

end Afs.Sync
