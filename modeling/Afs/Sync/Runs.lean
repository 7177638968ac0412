import Afs.Sync.Events

/-!
# Runs without anyone else

What can be said of a run of one of the daemon's programs when nothing else happens meanwhile, but
calls may fail: which commands leave the world alone, and how the pieces of the uploader pass a
success on.
-/

namespace Afs.Sync

variable {w w' : World} {p : Path} {α : Type}

/-! ## Commands -/

/-- The commands that only look. -/
def Cmd.reads : Cmd → Prop
  | .lstat _ | .readFile _ | .readlink _ | .readDir _ | .stat _ | .cat _ | .readlinkRemote _
  | .lsLong _ | .chunkMeta _ | .readChunks _ _ _ | .now => True
  | _ => False

variable {f : Fault}

theorem remoteRead_eq {r s : Except ClientErr α} (h : remoteRead f w r = (s, w')) :
    (s = r ∨ s = .error .network) ∧ w' = w := by
  cases f with
  | none =>
    cases h
    exact ⟨.inl rfl, rfl⟩
  | refused =>
    cases h
    exact ⟨.inr rfl, rfl⟩
  | lost =>
    cases h
    exact ⟨.inr rfl, rfl⟩

variable {r : Except ClientErr Remote}

/-- A call that writes and returns did write. -/
theorem remoteWrite_ok (h : remoteWrite f w r = (.ok (), w')) :
    ∃ r', r = .ok r' ∧ w' = { w with remote := r' } := by
  cases f with
  | none =>
    cases r with
    | ok r' =>
      cases h
      exact ⟨r', rfl, rfl⟩
    | error e => cases h
  | refused => cases h
  | lost => cases r <;> cases h

/-- A call that writes either did or left everything as it was. -/
theorem remoteWrite_eq {s : Except ClientErr Unit} (h : remoteWrite f w r = (s, w')) :
    w' = w ∨ ∃ r', r = .ok r' ∧ w' = { w with remote := r' } := by
  cases f with
  | none | lost =>
    cases r with
    | ok r' =>
      cases h
      exact .inr ⟨r', rfl, rfl⟩
    | error e =>
      cases h
      exact .inl rfl
  | refused =>
    cases h
    exact .inl rfl

variable {c : Cmd}

theorem Exec.of_reads {r : c.Rep} (hc : c.reads) (h : Exec c w r w') : w' = w := by
  obtain ⟨f, h⟩ := h
  cases c with
  | lstat p => cases h; rfl
  | readFile p => cases h; rfl
  | readlink p => cases h; rfl
  | readDir p => cases h; rfl
  | stat p | cat p | readlinkRemote p | lsLong p | chunkMeta p | readChunks p indices chunkSize =>
    exact (remoteRead_eq h).2
  | now => cases h; rfl
  | _ => exact hc.elim

variable {a : α}

/-- A program that only looks leaves the world alone. -/
theorem alone_of_reads {Q : α → Prop} {x : Act α} (hx : x.Only Cmd.reads Q)
    (h : x.Alone Exec w a w') : Q a ∧ w' = w := by
  refine hx.alone (R := fun w w' => w' = w) (fun _ => rfl) (fun h₁ h₂ => h₂.trans h₁) ?_ h
  intro c w r w' hc hexec
  exact hexec.of_reads hc

theorem alone_alone (x : Act α) (w : World) : x.Alone Exec w (x.alone w).1 (x.alone w).2 :=
  Prog.alone_run (fun _ _ => ⟨.none, rfl⟩) x w

theorem only_issue {P : Cmd → Prop} {Q : α → Prop} {k : c.Rep → Act α} (hc : P c)
    (h : ∀ r, (k r).Only P Q) : (c.issue >>= k).Only P Q := ⟨hc, h⟩

theorem of_issue {k : c.Rep → Act α} (h : (c.issue >>= k).Alone Exec w a w') :
    ∃ r w₁, Exec c w r w₁ ∧ (k r).Alone Exec w₁ a w' := by
  obtain ⟨r, w₁, h₁, h₂⟩ := h.of_bind
  obtain ⟨r', w₂, hexec, hret⟩ := Prog.alone_ask h₁
  obtain ⟨rfl, rfl⟩ := Prog.alone_ret hret
  exact ⟨r, w₁, hexec, h₂⟩

theorem of_readFile {k : Except OsErr Bytes → Act α}
    (h : ((Cmd.readFile p).issue >>= k).Alone Exec w a w') :
    (k (w.disk.readFile p)).Alone Exec w a w' := by
  obtain ⟨r, w₁, ⟨f, hexec⟩, hrest⟩ := of_issue h
  cases hexec
  exact hrest

theorem of_now {k : ℕ → Act α} (h : (Cmd.now.issue >>= k).Alone Exec w a w') :
    (k w.nowMs).Alone Exec w a w' := by
  obtain ⟨r, w₁, ⟨f, hexec⟩, hrest⟩ := of_issue h
  cases hexec
  exact hrest

variable {f : SyncState → SyncState} {k : SyncState → Act α}

theorem of_update (h : ((Cmd.update f).issue >>= k).Alone Exec w a w') :
    (k w.state).Alone Exec { w with state := f w.state } a w' := by
  obtain ⟨r, w₁, ⟨f, hexec⟩, hrest⟩ := of_issue h
  cases hexec
  exact hrest

theorem of_readState (h : (readState >>= k).Alone Exec w a w') :
    (k w.state).Alone Exec w a w' := of_update h

theorem of_modifyState {k : Unit → Act α} (h : (modifyState f >>= k).Alone Exec w a w') :
    (k ()).Alone Exec { w with state := f w.state } a w' := of_update (k := fun _ => k ()) h

theorem of_deferScan {k : Bool → Act α}
    (h : (deferScanForPendingUpload p >>= k).Alone Exec w a w') :
    (k (w.state.pending.lookup p).isSome).Alone Exec { w with state := w.state.deferScan p } a w' :=
  of_update (k := fun s => k (s.pending.lookup p).isSome) h

/-- Queueing an upload leaves the entries alone. -/
theorem of_enqueueTrackedUpload {op : UploadOp} {ops : List UploadOp}
    (h : (enqueueTrackedUpload op).Alone Exec w ops w') : ops = [{ op with tracked := true }] ∧
      ∃ s, w' = { w with state := s } ∧ ∀ q, s.entry q = w.state.entry q := by
  unfold enqueueTrackedUpload at h
  have hret := of_modifyState h
  obtain ⟨rfl, rfl⟩ := Prog.alone_ret hret
  refine ⟨rfl, _, rfl, fun q => ?_⟩
  split_ifs <;> rfl

/-! ## The pieces of an upload -/

section Upload

variable {op : UploadOp} {res : UploadResult}

theorem only_queuedFileCurrent : (queuedFileCurrent op).Only Cmd.reads fun o => o ≠ some .done := by
  unfold queuedFileCurrent
  split
  · exact nofun
  refine only_issue trivial fun info => ?_
  rcases info with (_ | _) | info
  · exact nofun
  · exact nofun
  dsimp only
  split
  · exact nofun
  split
  · exact nofun
  refine only_issue trivial fun data => ?_
  rcases data with (_ | _) | data
  · exact nofun
  · exact nofun
  · show (if data = op.content then none else some Outcome.skipped) ≠ some .done
    split_ifs <;> exact nofun

theorem not_done {o : Outcome} {stat : Option StatResult}
    (h : (Prog.ret ⟨op, o, stat⟩ : Act UploadResult).Alone Exec w res w')
    (hdone : res.outcome = .done) : o = .done := by
  obtain ⟨rfl, -⟩ := Prog.alone_ret h
  exact hdone

variable {rest : Act UploadResult}

/-- A success behind a check of the staged file comes from what follows it. -/
theorem of_ifCurrent (h : (ifCurrent op rest).Alone Exec w res w')
    (hdone : res.outcome = .done) : rest.Alone Exec w res w' := by
  unfold ifCurrent at h
  obtain ⟨o, w₁, h₁, h₂⟩ := h.of_bind
  obtain ⟨ho, rfl⟩ := alone_of_reads only_queuedFileCurrent h₁
  cases o with
  | none => exact h₂
  | some o =>
    obtain ⟨rfl, rfl⟩ := Prog.alone_ret h₂
    exact absurd (congrArg some hdone) ho

variable {stat : Option StatResult}

/-- `Stat` shows what is there, or fails. -/
theorem of_statOrNone {r : Except ClientErr (Option StatResult)}
    (h : (statOrNone p).Alone Exec w r w') (hstat : w.remote.stat p = .ok stat) :
    (r = .ok stat ∨ ∃ e, r = .error e) ∧ w' = w := by
  unfold statOrNone at h
  obtain ⟨r', w₁, ⟨f, hexec⟩, hret⟩ := of_issue h
  obtain ⟨rfl | rfl, rfl⟩ := remoteRead_eq hexec
  · rw [hstat] at hret
    obtain ⟨rfl, rfl⟩ := Prog.alone_ret hret
    exact ⟨.inl rfl, rfl⟩
  · obtain ⟨rfl, rfl⟩ := Prog.alone_ret hret
    exact ⟨.inr ⟨.network, rfl⟩, rfl⟩

theorem of_withStat {rest : Option StatResult → Act UploadResult}
    (h : (withStat op rest).Alone Exec w res w') (hstat : w.remote.stat op.path = .ok stat)
    (hdone : res.outcome = .done) : (rest stat).Alone Exec w res w' := by
  unfold withStat at h
  obtain ⟨r, w₁, h₁, h₂⟩ := h.of_bind
  obtain ⟨rfl | ⟨e, rfl⟩, rfl⟩ := of_statOrNone h₁ hstat
  · exact h₂
  · cases not_done h₂ hdone

variable {r : Except ClientErr Unit}

theorem of_published (h : (published op r rest).Alone Exec w res w') (hdone : res.outcome = .done) :
    r = .ok () ∧ rest.Alone Exec w res w' := by
  unfold published at h
  split at h
  · exact ⟨rfl, h⟩
  · cases not_done h hdone
  · cases not_done h hdone

/-- The world after the mode of a file may have been published: the path leads to the same file. -/
structure Remoded (p : Path) (q : Path) (n : RemoteNode) (w w' : World) (n' : RemoteNode) :
    Prop where
  world : ∃ r, w' = { w with remote := r }
  node : ∃ mode revision, n' = { n with mode, revision }
  path : w'.remote.resolvePath p false = .ok (q, n')

variable {q : Path} {n : RemoteNode} {mode : ℕ}

theorem Remoded.refl (h : w.remote.resolvePath p false = .ok (q, n)) : Remoded p q n w w n :=
  ⟨⟨w.remote, rfl⟩, ⟨n.mode, n.revision, rfl⟩, h⟩

theorem remoded_of_chmod
    (h : Exec (.chmodRemote {} p mode) w r w') (hq : w.remote.resolvePath p false = .ok (q, n))
    (hn : n.body.isFile) : ∃ n', Remoded p q n w w' n' := by
  obtain ⟨f, h⟩ := h
  obtain rfl | ⟨r', hr, rfl⟩ := remoteWrite_eq h
  · exact ⟨n, .refl hq⟩
  · unfold Remote.chmod at hr
    rw [hq] at hr
    dsimp only at hr
    obtain ⟨-, hr⟩ := of_ite_eq_ok hr
    · cases hr
      exact ⟨_, ⟨_, rfl⟩, ⟨mode, w.remote.nextRevision, rfl⟩,
        Remote.resolvePath_publish (m := { n with mode }) hq hn hn⟩

/-- `finishFileUpload` reports the file it finds, which has the bytes it had. -/
theorem of_finishFileUpload (h : (finishFileUpload op mode).Alone Exec w res w')
    (hq : w.remote.resolvePath op.path false = .ok (q, n)) (hn : n.body.isFile)
    (hdone : res.outcome = .done) :
    ∃ n', Remoded op.path q n w w' n' ∧ res = ⟨op, .done, some n'.toStat⟩ := by
  unfold finishFileUpload at h
  obtain ⟨r, w₁, hchmod, h⟩ := of_issue h
  obtain ⟨n', hn'⟩ := remoded_of_chmod hchmod hq hn
  obtain ⟨r', w₂, ⟨f, hexec⟩, hret⟩ := of_issue h
  obtain ⟨rfl | rfl, rfl⟩ := remoteRead_eq hexec
  · rw [Remote.stat_eq hn'.path] at hret
    obtain ⟨rfl, rfl⟩ := Prog.alone_ret hret
    exact ⟨n', hn', rfl⟩
  · cases not_done hret hdone

theorem of_finishMatchingFileUpload (h : (finishMatchingFileUpload op mode).Alone Exec w res w')
    (hq : w.remote.resolvePath op.path false = .ok (q, n)) (hn : n.body.isFile)
    (hdone : res.outcome = .done) :
    ∃ n', Remoded op.path q n w w' n' ∧ res = ⟨op, .done, some n'.toStat⟩ := by
  unfold finishMatchingFileUpload at h
  obtain ⟨r, w₁, ⟨f, hexec⟩, hrest⟩ := of_issue h
  obtain ⟨rfl | rfl, rfl⟩ := remoteRead_eq hexec
  · rw [Remote.stat_eq hq] at hrest
    have hlast := of_ifCurrent hrest hdone
    dsimp only [finishMatching] at hlast
    split_ifs at hlast
    · cases not_done hlast hdone
    · cases not_done hlast hdone
    · cases not_done hlast hdone
    · exact of_finishFileUpload hlast hq hn hdone
  · cases not_done hrest hdone

theorem only_readDirtyChunks {places : List ℕ} :
    (readDirtyChunks op places).Only Cmd.reads fun r => r ≠ .error .done := by
  induction places with
  | nil => exact nofun
  | cons i places ih =>
    unfold readDirtyChunks
    refine only_issue trivial fun file => ?_
    cases file with
    | error e => exact nofun
    | ok file =>
      dsimp only
      split_ifs
      · exact nofun
      · refine ih.bind fun r hr => ?_
        cases r with
        | error o => exact hr
        | ok l => exact nofun

/-- The chunks read are those of the file, all of them. -/
theorem of_readDirtyChunks {data : Bytes} {pieces : List (ℕ × Bytes)} {places : List ℕ}
    (hdata : w.disk.readFile op.path = .ok data)
    (h : (readDirtyChunks op places).Alone Exec w (.ok pieces) w') :
    pieces = chunksAt (orDefault op.chunkSize) data places ∧ w' = w := by
  induction places generalizing pieces with
  | nil =>
    obtain ⟨hp, rfl⟩ := Prog.alone_ret h
    cases hp
    exact ⟨rfl, rfl⟩
  | cons i places ih =>
    unfold readDirtyChunks at h
    obtain ⟨r, w₁, ⟨f, hexec⟩, h⟩ := of_issue h
    cases hexec
    rw [hdata] at h
    dsimp only at h
    split_ifs at h
    · obtain ⟨hp, rfl⟩ := Prog.alone_ret h
      cases hp
    · obtain ⟨r, w₁, h₁, h₂⟩ := h.of_bind
      cases r with
      | error o =>
        obtain ⟨hp, rfl⟩ := Prog.alone_ret h₂
        cases hp
      | ok l =>
        obtain ⟨hp, rfl⟩ := Prog.alone_ret h₂
        cases hp
        obtain ⟨rfl, rfl⟩ := ih h₁
        exact ⟨rfl, rfl⟩

/-- A result is obsolete for an entry that has not changed meanwhile only if the entry is from a
later time. -/
theorem of_uploadResultObsolete {e : SyncEntry} {b : Bool}
    (h : (uploadResultObsolete res).Alone Exec w b w') (he : w.state.entry res.op.path = some e)
    (hkept : e.deleted = false) (hversion : e.version = (res.op.stored.map (·.version)).getD 0) :
    b = res.remoteStat.any (fun stat => stat.mtime < e.remoteMtimeMs) ∧ w' = w := by
  unfold uploadResultObsolete at h
  have hread := of_readState h
  rw [he] at hread
  dsimp only at hread
  rw [if_neg (by rw [hkept]; decide)] at hread
  by_cases hlate : res.remoteStat.any fun stat => stat.mtime < e.remoteMtimeMs
  · rw [if_pos hlate] at hread
    obtain ⟨rfl, rfl⟩ := Prog.alone_ret hread
    exact ⟨hlate.symm, rfl⟩
  · rw [if_neg hlate, if_pos (.inl hversion)] at hread
    obtain ⟨rfl, rfl⟩ := Prog.alone_ret hread
    exact ⟨(Bool.eq_false_iff.mpr hlate).symm, rfl⟩

end Upload

end Afs.Sync
