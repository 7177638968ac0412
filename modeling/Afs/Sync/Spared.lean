import Afs.Sync.Pending

/-!
# The tasks of the daemon spare a pending deletion

Whatever a task is about, as long as the deletion is pending it leaves the tombstone where it is, and
the work it asks for is of the same sort: nothing downloads the path of the tombstone, and what a
full reconciliation plans for it is to carry out the deletion.
-/

namespace Afs.Sync.Deletion

open List

variable {D : Deletion} {cfg : Config} {depth : ℕ} {q : Path}

/-- An entry of the version that was deleted. -/
def Describes (D : Deletion) (s : SyncEntry) : Prop :=
  s.IsOf D.node.body ∧ (s.mode ≠ 0 → D.node.mode % 0o1000 = s.mode % 0o1000)

/-- An upload of another path, or the deletion itself. -/
def AdmitsUpload (D : Deletion) (op : UploadOp) : Prop :=
  op.path ≠ D.path ∨ op.kind = .delete ∧ ∃ s, op.stored = some s ∧ D.Describes s

/-- An action on another path, or the deletion itself. -/
def AdmitsAction (D : Deletion) (a : SyncAction) : Prop :=
  a.path ≠ D.path ∨ a.kind = .deleteRemote ∧ ∃ s, a.stored = some s ∧ D.Describes s

/-- The work that can be done while the deletion is pending. -/
def Admits (D : Deletion) : Work → Prop
  | .upload op => D.AdmitsUpload op
  | .download op => op.path ≠ D.path
  | .carryOut plan => ∀ a ∈ plan, D.AdmitsAction a
  | _ => True

/-- The queues that are made while it is. -/
abbrev Uploads (D : Deletion) (ops : List UploadOp) : Prop := ∀ o ∈ ops, D.AdmitsUpload o

abbrev Downloads (D : Deletion) (ops : List DownloadOp) : Prop := ∀ o ∈ ops, o.path ≠ D.path

theorem describes_entry (D : Deletion) : D.Describes D.entry := ⟨D.isOf, D.mode⟩

/-! ## Local events -/

theorem keeps_enqueueTrackedUpload {op : UploadOp} (hop : op.path ≠ D.path) :
    D.Keeps D.Uploads (enqueueTrackedUpload op) := by
  refine (keeps_modifyState fun s h => ?_).bind fun _ _ => ?_
  · split_ifs <;> exact h
  · intro o ho
    rw [mem_singleton.mp ho]
    exact .inl hop

variable {e : SyncEntry}

theorem keeps_stageSyncEntry (hq : q ≠ D.path) : D.Leaves (stageSyncEntry q e) :=
  .ask trivial fun _ => under_ask (.inl fun _ h => h.put hq) fun _ _ => trivial

theorem keeps_takeRenameCandidate {type : Kind} {k : CandidateKey} (hasStored : Bool) :
    D.Leaves (takeRenameCandidate q type k hasStored) := by
  refine .ite trivial (.ask trivial fun now => ?_)
  refine under_ask (.inl fun _ h => h) fun s _ => ?_
  split
  · exact trivial
  · refine under_ask (.inl fun s h => ?_) fun _ _ => trivial
    dsimp only
    cases s.fallback now q type <;> exact h

theorem keeps_renameFile (hq : q ≠ D.path) (info : FileInfo) (data : Bytes) (c : RenameCandidate) :
    D.Keeps D.Uploads (renameFile cfg q info data c) := by
  have hpath : (fileUpload cfg q info data (some c.entry)).path = q := by
    unfold fileUpload
    split_ifs <;> rfl
  refine (keeps_stageSyncEntry hq).bind fun staged _ => ?_
  have hlast : ∀ moved : List UploadOp, (∀ o ∈ moved, D.AdmitsUpload o) →
      ∀ written : List UploadOp, (∀ o ∈ written, D.AdmitsUpload o) →
      D.Keeps D.Uploads (pure (moved ++ written)) := by
    intro moved hmoved written hwritten o ho
    exact (mem_append.mp ho).elim (hmoved o) (hwritten o)
  extract_lets rest
  have hrest : ∀ version, D.Keeps D.Uploads (rest version) := by
    intro version
    refine (keeps_enqueueTrackedUpload hq).bind fun moved hmoved => ?_
    refine .ite ?_ ?_
    · exact (keeps_enqueueTrackedUpload (by rwa [hpath])).bind (hlast moved hmoved)
    · exact hlast moved hmoved [] (forall_mem_nil _)
  refine .ite ?_ ?_
  · exact (keeps_stageSyncEntry hq).bind fun version _ => hrest version
  · exact hrest staged

theorem keeps_handleLocalFile (hq : q ≠ D.path) (info : FileInfo) :
    D.Keeps D.Uploads (handleLocalFile cfg q info) := by
  refine (keeps_deferScan q).bind fun _ _ => .ite (forall_mem_nil _) (.ite (forall_mem_nil _)
    (keeps_readState.bind fun s _ => .ask trivial fun r => ?_))
  cases r with
  | error e => exact forall_mem_nil _
  | ok data =>
    have hpath : (fileUpload cfg q info data (s.entry q)).path = q := by
      unfold fileUpload
      split_ifs <;> rfl
    refine (keeps_takeRenameCandidate _).bind fun c _ => ?_
    cases c with
    | some c => exact keeps_renameFile hq info data c
    | none => exact .ite (forall_mem_nil _) (keeps_enqueueTrackedUpload (by rwa [hpath]))

theorem keeps_handleLocalSymlink (hq : q ≠ D.path) : D.Keeps D.Uploads (handleLocalSymlink q) := by
  refine (keeps_deferScan q).bind fun _ _ => .ite (forall_mem_nil _) (.ask trivial fun r => ?_)
  cases r with
  | error e => exact forall_mem_nil _
  | ok target =>
    refine .ask trivial fun r => ?_
    cases r with
    | error e => exact forall_mem_nil _
    | ok info =>
      refine keeps_readState.bind fun s _ => (keeps_takeRenameCandidate _).bind fun c _ => ?_
      cases c with
      | some c =>
        exact (keeps_stageSyncEntry hq).bind fun version _ => keeps_enqueueTrackedUpload hq
      | none => exact .ite (forall_mem_nil _) (keeps_enqueueTrackedUpload hq)

/-- A path that was deleted is not deleted again. -/
theorem keeps_handleLocalDelete (q : Path) : D.Keeps D.Uploads (handleLocalDelete cfg q) := by
  refine .ite (forall_mem_nil _) (.ask trivial fun now => ?_)
  refine under_ask (.inl fun _ h => h.localDelete now) fun s hs => ?_
  split
  · exact forall_mem_nil _
  · rename_i e he
    refine .dite (fun _ => forall_mem_nil _) fun hlive o ho => ?_
    rw [mem_singleton.mp ho]
    exact .inl ((reply_update hs).ne he hlive)

theorem plain_missingLocally {l : List Path} : Act.Tame (missingLocally l) := by
  induction l with
  | nil => exact .pure trivial
  | cons p l ih =>
    refine .ask trivial fun info => .bind ih fun gone _ => ?_
    split <;> exact .pure trivial

theorem keeps_handleLocalDeletes (l : List Path) :
    D.Keeps D.Uploads (handleLocalDeletes cfg l) := by
  induction l with
  | nil => exact forall_mem_nil _
  | cons p l ih =>
    refine (keeps_handleLocalDelete p).bind fun ops hops => ih.bind fun more hmore o ho => ?_
    exact (mem_append.mp ho).elim (hops o) (hmore o)

theorem keeps_handleLocalDir (hq : q ≠ D.path) (o : MapOrder) (info : FileInfo) :
    D.Keeps D.Uploads (handleLocalDir cfg o q info) := by
  refine keeps_readState.bind fun s _ => ?_
  have hdeletes : D.Keeps D.Uploads
      (reconcileLocalDirDeletes cfg o q) :=
    keeps_readState.bind fun s _ => (keeps_of_plain plain_missingLocally).bind fun gone _ =>
      keeps_handleLocalDeletes gone
  have hqueue : D.Keeps D.Uploads
      (queueDirectory cfg q info.mode (s.entry q)) :=
    (keeps_deferScan q).bind fun _ _ => .ite (forall_mem_nil _) (keeps_enqueueTrackedUpload hq)
  refine hdeletes.bind fun deletes hd => hqueue.bind fun ops hops o ho => ?_
  exact (mem_append.mp ho).elim (hd o) (hops o)

/-- **Local events.** An event of the path finds nothing there. -/
theorem keeps_handleLocalEvent (o : MapOrder) (q : Path) :
    D.Keeps D.Uploads (handleLocalEvent cfg o q) := by
  refine .ite (forall_mem_nil _) (under_ask trivial fun r hr => ?_)
  rcases r with (_ | _) | info
  · exact keeps_handleLocalDelete q
  · exact forall_mem_nil _
  · have hq : q ≠ D.path := by
      rintro rfl
      cases reply_lstat hr
    dsimp only
    split
    · exact keeps_handleLocalSymlink hq
    · exact keeps_handleLocalDir hq o info
    · exact keeps_handleLocalFile hq info

/-! ## Remote events -/

variable {stored : Option SyncEntry}

theorem plain_detectConflict {p : Path} : Act.Tame (detectConflict p stored) := by
  cases stored with
  | none => exact .pure trivial
  | some s =>
    refine .ask trivial fun r => ?_
    cases r with
    | error e => exact .pure trivial
    | ok info =>
      dsimp only
      split
      · refine .ask trivial fun r => ?_
        cases r <;> exact .pure trivial
      · exact .pure trivial
      · refine .ask trivial fun r => ?_
        cases r <;> exact .pure trivial

theorem keeps_remoteChanged (hq : q ≠ D.path) {stat : StatResult} :
    D.Keeps D.Downloads (remoteChanged q stat stored) := by
  have hone : ∀ op : DownloadOp, op.path = q → ∀ o ∈ [op], o.path ≠ D.path := by
    rintro op rfl o ho
    rwa [mem_singleton.mp ho]
  refine (keeps_of_plain plain_detectConflict).bind fun conflict _ => ?_
  split
  · exact hone _ rfl
  · refine .ask trivial fun r => ?_
    cases r with
    | error e => exact forall_mem_nil _
    | ok target => exact hone _ rfl
  · refine .ask trivial fun r => hone _ ?_
    unfold fileDownload
    split
    · split_ifs <;> rfl
    · rfl

theorem keeps_remoteMissing (hq : q ≠ D.path) (stored : SyncEntry) :
    D.Keeps D.Downloads (remoteMissing q stored) := by
  have hconfirmed : D.Keeps D.Downloads
      (remoteMissing.confirmed q stored) := by
    refine .ask trivial fun now => ?_
    refine under_ask (.inl fun _ h => h.announceDelete stored now) fun s _ => ?_
    split
    · exact forall_mem_nil _
    · refine .dite (fun _ => forall_mem_nil _) fun _ o ho => ?_
      rwa [mem_singleton.mp ho]
  refine .ask trivial fun r => ?_
  split
  · exact keeps_remoteChanged hq
  · exact .ite hconfirmed (keeps_sweep.bind fun _ _ => forall_mem_nil _)
  · exact hconfirmed

/-- **Remote events.** An event of the path meets the tombstone. -/
theorem keeps_handleRemoteEvent (q : Path) : D.Keeps D.Downloads (handleRemoteEvent cfg q) := by
  refine .ite (forall_mem_nil _) (keeps_readState.bind fun s hs => ?_)
  refine .dite (fun _ => forall_mem_nil _) fun hlive => ?_
  have hq : q ≠ D.path := by
    rintro rfl
    rw [hs] at hlive
    exact hlive D.deleted
  have hmissing : D.Keeps D.Downloads
      ((s.entry q).elim (pure []) (remoteMissing q)) := by
    cases s.entry q with
    | none => exact forall_mem_nil _
    | some e => exact keeps_remoteMissing hq e
  refine .ask trivial fun r => ?_
  split
  · exact keeps_remoteChanged hq
  · exact hmissing
  · exact .ite hmissing (forall_mem_nil _)

/-! ## Uploads -/

section Uploads

variable {op : UploadOp} {res : UploadResult}

/-- What is read of the version is the baseline. -/
theorem keepsE_matchesStored (he : D.Describes e) :
    D.KeepsE (· = true) (syncRemoteMatchesStored D.path D.node.toStat (some e)) := by
  obtain ⟨hbody, hmode⟩ := he
  have htype : D.node.body.kind = e.type := by
    revert hbody
    cases D.node.body with
    | file data => exact fun h => h.1.symm
    | dir => exact fun h => Eq.symm h
    | symlink target => exact fun h => h.1.symm
  refine .dite (fun hno => ?_) fun _ => ?_
  · rcases hno with hno | hno
    · exact absurd htype hno
    · exact absurd (hmode hno.1) hno.2
  · dsimp only [RemoteNode.toStat]
    cases hb : D.node.body with
    | file data =>
      rw [hb] at hbody
      refine UnderE.bind (Q := (· = data)) (underE_ofClient (under_issue trivial
        fun r hr a ha => ?_)) fun a ha => ?_
      · rcases reply_cat hb hr with rfl | rfl
        · cases ha
          rfl
        · cases ha
      · rw [ha]
        exact UnderE.pure hbody.2
    | symlink target =>
      rw [hb] at hbody
      refine UnderE.bind (Q := (· = target)) (underE_ofClient (under_issue trivial
        fun r hr a ha => ?_)) fun a ha => ?_
      · rcases reply_readlinkRemote hb hr with rfl | rfl
        · cases ha
          rfl
        · cases ha
      · rw [ha]
        exact UnderE.pure (decide_eq_true hbody.2.symm)
    | dir => exact UnderE.pure rfl

/-- A result that leaves the tombstone alone. -/
def Harmless (D : Deletion) (res : UploadResult) : Prop :=
  (res.op.path ≠ D.path ∧
    (res.op.kind = .rename → res.op.prevPath = D.path → res.outcome ≠ .done)) ∨
  (res.op.kind = .delete ∧ res.outcome ≠ .done ∧ res.outcome ≠ .conflict)

/-- The deletion does not get through while it is pending. -/
theorem keeps_processDelete (hpath : op.path = D.path) (hkind : op.kind = .delete)
    (hstored : op.stored = some e) (he : D.Describes e) :
    D.Keeps D.Harmless (processDelete op) := by
  have hfail : ∀ o : Outcome, o ≠ .done → o ≠ .conflict → ∀ stat, D.Harmless ⟨op, o, stat⟩ :=
    fun o h₁ h₂ stat => .inr ⟨hkind, h₁, h₂⟩
  unfold processDelete
  rw [hpath, hstored]
  refine under_ask trivial fun r hr => ?_
  rw [reply_lstat hr]
  refine under_ask trivial fun r hr => ?_
  rcases reply_stat hr with rfl | rfl
  · refine (keepsE_matchesStored he).run.bind fun r hr => ?_
    rcases r with e | b
    · exact hfail (.failed e) nofun nofun none
    · rw [hr b rfl]
      unfold removeRemote
      rw [hpath]
      refine under_ask trivial fun r hr => ?_
      rw [reply_rm hr]
      exact hfail (.failed (.client .network)) nofun nofun none
  · exact hfail (.failed (.client .network)) nofun nofun none

/-- A move away from the path does not get through either. -/
theorem keeps_processRename (hpath : op.path ≠ D.path) (hprev : op.prevPath = D.path) :
    D.Keeps D.Harmless (processRename op) := by
  have hfail : ∀ o : Outcome, o ≠ .done → ∀ stat, D.Harmless ⟨op, o, stat⟩ :=
    fun o h stat => .inl ⟨hpath, fun _ _ => h⟩
  have hmove : ∀ before, D.Keeps D.Harmless (moveRemote op before) := by
    intro before
    unfold moveRemote
    rw [hprev]
    refine under_ask trivial fun r hr => ?_
    cases r with
    | error e => exact .ite (hfail .skipped nofun none) (hfail (.failed _) nofun none)
    | ok _ => exact absurd hr (reply_renameRemote hpath)
  refine (keeps_of_plain plain_statOrNone).bind fun r _ => ?_
  split
  · exact hfail (.failed _) nofun none
  · exact hmove _
  · refine (keepsE_of_plain plain_syncRemoteMatchesStored).run.bind fun r _ => ?_
    split
    · exact hfail (.failed _) nofun none
    · exact hfail .skipped nofun none
    · exact hmove _

theorem keeps_process (hop : D.AdmitsUpload op) : D.Keeps D.Harmless (process cfg op) := by
  rcases hop with hpath | ⟨hkind, e, hstored, he⟩
  · by_cases hmove : op.kind = .rename ∧ op.prevPath = D.path
    · refine .ite (.inl ⟨hpath, fun _ _ => nofun⟩) ?_
      rw [hmove.1]
      exact keeps_processRename hpath hmove.2
    · refine (keeps_of_plain plain_process).imp fun res hres => .inl ?_
      rw [show res.op = op from hres]
      exact ⟨hpath, fun h₁ h₂ => absurd ⟨h₁, h₂⟩ hmove⟩
  · by_cases hpath : op.path = D.path
    · refine .ite (.inr ⟨hkind, nofun, nofun⟩) ?_
      rw [hkind]
      exact keeps_processDelete hpath hkind hstored he
    · refine (keeps_of_plain plain_process).imp fun res hres => .inl ?_
      rw [show res.op = op from hres, hkind]
      exact ⟨hpath, nofun⟩

theorem keeps_uploadResultObsolete (res : UploadResult) : D.Leaves (uploadResultObsolete res) := by
  refine keeps_readState.bind fun s _ => ?_
  split
  · exact trivial
  · refine .ite trivial (.ite trivial (.ite trivial (.ask trivial fun r => ?_)))
    cases r with
    | error e => exact trivial
    | ok info =>
      refine .ite trivial (.ask trivial fun r => ?_)
      cases r <;> exact trivial

theorem Stands.applyUpload {s : SyncState} (h : D.Stands s) (hres : D.Harmless res)
    (hdone : res.outcome = .done) (now : ℕ) : D.Stands (s.applyUpload res now) := by
  obtain ⟨hpath, hprev⟩ | ⟨-, hno, -⟩ := hres
  swap
  · exact absurd hdone hno
  unfold SyncState.applyUpload
  dsimp only
  split
  · exact h.put hpath
  · exact h.put hpath
  · exact h.put hpath
  · have hforget : D.Stands ((res.op.stored.bind renameCandidateKey).elim s s.forget) := by
      cases res.op.stored.bind renameCandidateKey <;> exact h
    split
    · exact hforget
    · split_ifs
      · exact hforget.remove hpath
      · exact hforget
  · rename_i hkind
    exact (h.remove fun heq => hprev hkind heq hdone).put hpath
  · split
    · split_ifs
      · exact h
      · exact h.put hpath
    · exact h

theorem keeps_deleteConflict (hq : q ≠ D.path) : D.Keeps D.Downloads (deleteConflict cfg q) := by
  refine (keeps_modifyState fun s h => ?_).bind fun _ _ => keeps_handleRemoteEvent q
  split_ifs
  · exact h.remove hq
  · exact h

theorem plain_conflictKind : Act.Tame (conflictKind op) := by
  refine .ite (.pure trivial) (.ask trivial fun r => ?_)
  split
  · split <;> exact .pure trivial
  · exact .pure trivial

theorem keeps_uploadConflict (hop : op.path ≠ D.path) :
    D.Keeps D.Downloads (uploadConflict op) := by
  refine (keeps_of_plain plain_conflictKind).bind fun kind _ => ?_
  cases kind with
  | none => exact keeps_sweep.bind fun _ _ => forall_mem_nil _
  | some kind =>
    intro o ho
    rwa [mem_singleton.mp ho]

theorem keeps_applyUploadResult (hres : D.Harmless res) :
    D.Keeps D.Downloads (applyUploadResult cfg res) := by
  have hsweep : D.Keeps (fun ops : List DownloadOp => ∀ o ∈ ops, o.path ≠ D.path) (do
      modifyState (·.requestFullSweep)
      pure []) := keeps_sweep.bind fun _ _ => forall_mem_nil _
  unfold applyUploadResult
  extract_lets rest
  have hrest : ∀ obsolete, D.Keeps D.Downloads (rest obsolete) := by
    intro obsolete
    refine .ite hsweep ?_
    split
    · exact hsweep
    · exact hsweep
    · rename_i hconflict
      obtain ⟨hpath, -⟩ | ⟨-, -, hno⟩ := hres
      · exact .ite (keeps_deleteConflict hpath) (keeps_uploadConflict hpath)
      · exact absurd hconflict hno
    · rename_i hdone
      refine .ask trivial fun now => ?_
      refine (keeps_modifyState fun s h => h.applyUpload hres hdone now).bind fun _ _ => ?_
      exact .ite (keeps_handleRemoteEvent _) (forall_mem_nil _)
  refine .ite ?_ ?_
  · exact (keeps_uploadResultObsolete res).bind fun obsolete _ => hrest obsolete
  · exact hrest false

/-- **Upload results.** -/
theorem keeps_handleUploadResult (hres : D.Harmless res) :
    D.Keeps D.Downloads (handleUploadResult cfg res) := by
  have hrest : ∀ ops : List DownloadOp, (∀ o ∈ ops, o.path ≠ D.path) →
      D.Keeps D.Downloads (do
        modifyState (·.settle res.op)
        pure ops) := fun ops hops =>
    (keeps_modifyState fun s h => h.settle res.op).bind fun _ _ => hops
  refine .ite ?_ ?_
  · refine (keeps_modifyState fun s h => ?_).bind fun _ _ => hrest [] (forall_mem_nil _)
    exact h.discardPendingRename res.op
  · exact (keeps_applyUploadResult hres).bind hrest

end Uploads

/-! ## Downloads -/

section Downloads

variable {op : DownloadOp}

/-- No directory above the path is removed. -/
theorem keepsE_applyConfirmed {q : Path} :
    D.LeavesE (applyConfirmedSyncRemoteDelete depth q stored) := by
  have happly : ¬ q <+: D.path → D.LeavesE (applySyncRemoteDelete depth q stored) := by
    intro hq
    have hremove : D.LeavesE
        (liftM (Cmd.update (·.removeAll q)).issue : Try SyncState) :=
      .lift (under_issue (.inl fun _ h => h.removeAll hq) fun _ _ => trivial)
    refine .seq (.lift (under_issue (.inl fun _ h => h) fun _ _ => trivial)) fun s => ?_
    refine .ite (.pure trivial) ?_
    refine .seq (keepsE_of_plain still_snapshotDownloadLocal.plain) fun seen => ?_
    refine .seq (keepsE_of_plain plain_preserveLocalDeleteConflict) fun copy => ?_
    cases copy with
    | none =>
      refine .seq (keepsE_of_plain plain_removeLocal) fun removed => ?_
      exact .ite (.pure trivial) (.seq hremove fun _ => .pure trivial)
    | some copy =>
      refine .seq (keepsE_of_plain (.call trivial)) fun there => ?_
      split
      · exact .seq hremove fun _ => .pure trivial
      · exact .pure trivial
  refine UnderE.bind (.lift (under_issue trivial fun r hr => hr)) fun r hr => ?_
  by_cases hq : q <+: D.path
  · rcases reply_stat_above hq hr with ⟨stat, rfl⟩ | rfl
    · exact .pure trivial
    · exact .throw _
  · split
    · exact .ite (happly hq) (.throw _)
    · exact .pure trivial
    · exact happly hq

theorem keeps_processDelete_download (op : DownloadOp) : D.Keeps op.IsAt (op.processDelete depth) := by
  refine keepsE_applyConfirmed.run.bind fun r _ => ?_
  rcases r with e | ⟨copy, done⟩ <;> exact rfl

theorem keeps_processWholeFile (op : DownloadOp) : D.Keeps op.IsAt (op.processWholeFile cfg depth) := by
  refine (keepsE_of_plain still_snapshotDownloadLocal.plain).run.bind fun r _ => ?_
  cases r with
  | error e => exact rfl
  | ok seen =>
    refine (keeps_of_plain plain_statOrNone).bind fun r _ => ?_
    split
    · exact rfl
    · refine (keeps_of_plain still_unchanged.plain).bind fun same _ => ?_
      exact .ite rfl (keeps_processDelete_download { op with kind := .delete })
    · split
      · rename_i stat _ _
        exact keeps_of_plain
          (plain_processMkdir_download { op with kind := .mkdir, mode := stat.mode })
      · refine .ask trivial fun r => ?_
        cases r with
        | error e => exact rfl
        | ok target =>
          exact keeps_of_plain (still_processSymlink { op with symlink := target }).plain
      · refine .ask trivial fun r => ?_
        cases r with
        | error e => exact rfl
        | ok data => exact keeps_of_plain plain_replaceFile

theorem keeps_processChunkedFile : D.Keeps op.IsAt (op.processChunkedFile cfg depth) := by
  have hwhole : D.Keeps op.IsAt (op.whole.processWholeFile cfg depth) :=
    keeps_processWholeFile op.whole
  refine .ite hwhole ?_
  refine (keepsE_of_plain still_snapshotDownloadLocal.plain).run.bind fun r _ => ?_
  cases r with
  | error e => exact rfl
  | ok seen =>
    refine .ite hwhole (.ite rfl ?_)
    refine (keeps_of_plain plain_statOrNone).bind fun r _ => ?_
    split
    · exact rfl
    · refine (keeps_of_plain still_unchanged.plain).bind fun same _ => ?_
      exact .ite rfl (keeps_processDelete_download { op with kind := .delete })
    · refine .ask trivial fun r => ?_
      cases r with
      | error e => exact rfl
      | ok pieces => exact keeps_of_plain plain_patchFile

theorem keeps_process_download : D.Keeps op.IsAt (op.process cfg depth) := by
  refine .ask trivial fun r => ?_
  cases r with
  | error e => exact rfl
  | ok _ =>
    dsimp only
    split
    · exact .ite keeps_processChunkedFile (keeps_processWholeFile op)
    · exact keeps_of_plain (still_processSymlink op).plain
    · exact keeps_of_plain (plain_processMkdir_download op)
    · exact keeps_processDelete_download op
    · exact keeps_of_plain plain_processChmod_download

theorem Stands.applyDownload {s : SyncState} {res : DownloadResult} (h : D.Stands s)
    (hres : res.op.path ≠ D.path) (ident now : ℕ) : D.Stands (s.applyDownload res ident now) := by
  unfold SyncState.applyDownload
  split
  · exact h.put hres
  · exact h.put hres
  · exact h.put hres
  · split
    · exact h
    · exact h.put hres
  · exact h

theorem plain_localCandidateUnchanged (res : DownloadResult) :
    Act.Tame (localCandidateUnchanged res) := by
  unfold localCandidateUnchanged
  split
  · exact .pure trivial
  · refine .bind still_unchanged.plain fun first _ => .ite (.pure trivial) ?_
    refine .bind still_snapshotDownloadLocal.plain.run fun r _ => ?_
    cases r with
    | error e => exact .pure trivial
    | ok seen =>
      exact .bind still_unchanged.plain fun _ _ => .bind still_unchanged.plain fun _ _ =>
        .pure trivial

/-- **Download results.** -/
theorem keeps_handleDownloadResult {res : DownloadResult} (hres : res.op.path ≠ D.path) :
    D.Leaves (handleDownloadResult cfg res) := by
  have hrecord : D.Leaves (recordDownload res) := by
    refine keeps_readState.bind fun s _ => .ite ?_ ?_
    · refine (keeps_of_plain (plain_localCandidateUnchanged res)).bind fun mine _ => ?_
      exact .ite (.ask trivial fun _ => keeps_sweep) keeps_sweep
    · exact .ask trivial fun info => .ask trivial fun now =>
        keeps_modifyState fun s h => h.applyDownload hres _ now
  unfold handleDownloadResult
  extract_lets done rest
  have hrest : ∀ u, D.Leaves (rest u) := by
    intro u
    dsimp only [rest]
    split
    · exact keeps_sweep.bind fun _ _ => trivial
    · exact trivial
    · exact .ite (hrecord.bind fun _ _ => trivial) trivial
  exact .ite (keeps_sweep.bind fun _ _ => hrest ()) (hrest ())

end Downloads

end Afs.Sync.Deletion
