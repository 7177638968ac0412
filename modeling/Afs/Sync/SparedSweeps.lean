import Afs.Sync.Spared

/-!
# Full reconciliations spare a pending deletion

The local scan does not find the path, the remote scan finds the version with nothing under it, so
the plan for the path is to carry out the deletion. That ends with the removal, which would end the
pending deletion, or with an error, which leaves everything as it is.
-/

namespace Afs.Sync.Deletion

open List AList

variable {D : Deletion} {cfg : Config} {depth : ℕ} {q : Path}

/-! ## The scans -/

/-- The local scan does not find the path. -/
def NotFound (D : Deletion) (found : Scan) : Prop := found.lookup D.path = none

/-- The remote scan finds the version, and nothing under it. -/
structure FoundRemote (D : Deletion) (remote : Scan) : Prop where
  kind : ∀ r, remote.lookup D.path = some r → r.kind = D.node.body.kind
  below : ∀ q, D.path <+: q → q ≠ D.path → remote.lookup q = none

theorem keeps_observeLocal {q : Path} {listed : Kind} :
    D.Keeps (fun seen => q = D.path → seen = none) (observeLocal q listed) := by
  refine under_ask trivial fun r hr => ?_
  cases r with
  | error e => exact fun _ => rfl
  | ok info =>
    have hq : q ≠ D.path := by
      rintro rfl
      cases reply_lstat hr
    refine .ite (.ask trivial fun r => ?_) (.dite (fun _ h => absurd h hq) fun _ =>
      .dite (fun _ h => absurd h hq) fun _ _ => rfl)
    cases r with
    | error e => exact fun _ => rfl
    | ok target => exact fun h => absurd h hq

theorem keepsE_scanLocalDir {dir : Path} {out : Scan} (hout : D.NotFound out) :
    D.KeepsE D.NotFound (scanLocalDir cfg depth dir out) := by
  induction depth generalizing dir out with
  | zero => exact .throw _
  | succ depth ih =>
    unfold scanLocalDir
    refine .seq (keepsE_of_plain (.call trivial)) fun names => ?_
    split
    · exact .ite (.throw _) (.pure hout)
    · exact .throw _
    · refine UnderE.foldlM (fun out hout n _ => ?_) hout
      refine .ite (.pure hout) ?_
      refine UnderE.bind (.lift keeps_observeLocal) fun seen hseen => ?_
      have hnext : D.NotFound (seen.elim out (out.insert (joinPath dir n.1))) := by
        cases seen with
        | none => exact hout
        | some m =>
          have hne : D.path ≠ joinPath dir n.1 := fun h => by cases hseen h.symm
          exact (lookup_insert_ne hne).trans hout
      exact .ite (ih hnext) (.pure hnext)

theorem keepsE_scanLocalMeta : D.KeepsE D.NotFound (scanLocalMeta cfg depth) := by
  have hstat : D.LeavesE (ofOs (Cmd.lstat []).issue) :=
    keepsE_of_plain (.ofOs (.issue trivial))
  refine .seq hstat fun before => ?_
  extract_lets rest
  have hrest : ∀ u, D.KeepsE D.NotFound (rest u) := by
    refine fun _ => UnderE.bind (keepsE_scanLocalDir rfl) fun out hout => .seq hstat fun _ => ?_
    exact .ite (UnderE.bind (Q := fun _ => True) (.throw _) fun _ _ => .pure hout) (.pure hout)
  exact .ite (UnderE.bind (Q := fun _ => True) (.throw _) fun _ _ => hrest ()) (hrest ())

variable {p : Path}

theorem FoundRemote.insert {out : Scan} (hout : D.FoundRemote out) {m : ObservedMeta}
    (hself : p = D.path → m.kind = D.node.body.kind) (hbelow : D.path <+: p → p = D.path) :
    D.FoundRemote (out.insert p m) where
  kind r hr := by
    by_cases hp : D.path = p
    · rw [hp, lookup_insert] at hr
      cases hr
      exact hself hp.symm
    · rw [lookup_insert_ne hp] at hr
      exact hout.kind r hr
  below q hq hne := by
    have hqp : q ≠ p := by
      rintro rfl
      exact hne (hbelow hq)
    rw [lookup_insert_ne hqp]
    exact hout.below q hq hne

theorem plain_observeRemote {stat : StatResult} :
    Act.Plain (fun seen => ∀ m, seen = some m → m.kind = stat.type) (observeRemote p stat) := by
  unfold observeRemote
  split
  · rename_i h
    refine .pure ?_
    rintro m ⟨⟩
    exact h.symm
  · rename_i h
    refine .pure ?_
    rintro m ⟨⟩
    exact h.symm
  · rename_i h
    refine .ask trivial fun r => ?_
    cases r with
    | error e => exact .pure nofun
    | ok target =>
      refine .pure ?_
      rintro m ⟨⟩
      exact h.symm

/-- The scan goes into the path only if it is a directory, which is empty. -/
theorem keeps_scanRemoteDirMeta (dir : Path) (out : Scan) (hout : D.FoundRemote out)
    (hdir : D.path <+: dir → dir = D.path ∧ D.node.body = .dir) :
    D.Keeps (fun found => D.FoundRemote found.1) (scanRemoteDirMeta cfg depth dir out) := by
  induction depth generalizing dir out with
  | zero => exact hout
  | succ depth ih =>
    unfold scanRemoteDirMeta
    refine under_ask trivial fun r hr => ?_
    cases r with
    | error e => exact hout
    | ok names =>
      refine Prog.Under.foldlM (I := fun found : Scan × Option SyncErr => D.FoundRemote found.1)
        (fun found hfound n hn => ?_) hout
      refine .ite hfound ?_
      -- an entry at the path is the version, and there is no entry under it
      have hself : joinPath dir n.1 = D.path → n.2.type = D.node.body.kind := by
        intro h
        rw [reply_lsLong hr hn h]
        rfl
      have hbelow : D.path <+: joinPath dir n.1 → joinPath dir n.1 = D.path := by
        intro h
        rcases prefix_concat_iff.mp h with h | h
        · exact h.symm
        · obtain ⟨rfl, hb⟩ := hdir h
          rw [reply_lsLong_self hb hr] at hn
          cases hn
      refine (keeps_of_plain plain_observeRemote).bind fun seen hseen => ?_
      have hnext : D.FoundRemote (seen.elim found.1 (found.1.insert (joinPath dir n.1))) := by
        cases seen with
        | none => exact hfound
        | some m => exact hfound.insert (fun h => (hseen m rfl).trans (hself h)) hbelow
      refine .dite (fun htype => ih _ _ hnext fun h => ⟨hbelow h, ?_⟩) fun _ => hnext
      have hkind := (hself (hbelow h)).symm.trans htype
      cases hb : D.node.body with
      | dir => rfl
      | file data => rw [hb] at hkind; cases hkind
      | symlink target => rw [hb] at hkind; cases hkind

theorem keepsE_scanRemoteMeta : D.KeepsE D.FoundRemote (scanRemoteMeta cfg depth) := by
  refine UnderE.bind (.lift (keeps_scanRemoteDirMeta [] ∅ ⟨nofun, fun _ _ _ => rfl⟩ fun h =>
    absurd (prefix_nil.mp h) D.path_ne)) fun found hfound => ?_
  split
  · exact .pure hfound
  · exact .ite (.pure hfound) (.throw _)
  · exact .throw _

theorem keeps_detectOfflineDeletes (hcfg : cfg.readonly = false) (o : MapOrder) (found : Scan) :
    D.Leaves (detectOfflineDeletes cfg o found) := by
  refine keeps_readState.bind fun s _ => .ask trivial fun now => ?_
  refine .dite (fun h => by rw [hcfg] at h; cases h) fun _ => ?_
  refine (keeps_of_plain plain_missingLocally).bind fun gone _ => keeps_modifyState fun s h => ?_
  induction gone generalizing s with
  | nil => exact h
  | cons p gone ih => exact ih _ (h.markDeleted now)

/-! ## The plan -/

/-- What is planned for a path: the deletion, if it is the path of the tombstone. -/
def Plans (D : Deletion) (q : Path) (actions : List SyncAction) : Prop :=
  ∀ a ∈ actions, a.path = q ∧ (q = D.path → a.kind = .deleteRemote)

theorem plans_nil : D.Plans q [] := forall_mem_nil _

variable {a : SyncAction}

theorem plans_singleton (ha : a.path = q) (hq : q ≠ D.path) : D.Plans q [a] := by
  intro b hb
  rw [mem_singleton.mp hb]
  exact ⟨ha, fun h => absurd h hq⟩

theorem plans_delete : D.Plans q [{ kind := .deleteRemote, path := q }] := by
  intro b hb
  rw [mem_singleton.mp hb]
  exact ⟨rfl, fun _ => rfl⟩

theorem path_planDownload (r : ObservedMeta) (conflict : Bool) :
    (planDownload q r conflict).path = q := by
  unfold planDownload
  split <;> rfl

theorem plans_planUpload (hq : q ≠ D.path) (l : ObservedMeta) : D.Plans q (planUpload cfg q l) := by
  unfold planUpload
  split_ifs
  · exact plans_nil
  · split <;> exact plans_singleton rfl hq

theorem keeps_planLocalOnly (hq : q ≠ D.path) (l : ObservedMeta) (stored : Option SyncEntry) :
    D.Keeps (D.Plans q) (planLocalOnly cfg q l stored) := by
  refine .ite (plans_planUpload hq l) (.ask trivial fun r => ?_)
  split
  · exact plans_nil
  · exact plans_singleton rfl hq
  · exact .ite (plans_singleton rfl hq) (keeps_sweep.bind fun _ _ => plans_nil)

theorem keeps_refreshStateMeta (hq : q ≠ D.path) {l r : ObservedMeta} {stored : Option SyncEntry} :
    D.Keeps (D.Plans q) (refreshStateMeta q l r stored) := by
  refine .ask trivial fun now => (keeps_modifyState fun s h => ?_).bind fun _ _ => plans_nil
  unfold SyncState.refresh
  split_ifs
  · exact h.put hq
  · exact h

theorem keeps_planBoth (hq : q ≠ D.path) (l r : ObservedMeta) (stored : Option SyncEntry) :
    D.Keeps (D.Plans q) (planBoth cfg q l r stored) := by
  have hdown : ∀ conflict, D.Plans q [planDownload q r conflict] := fun conflict =>
    plans_singleton (path_planDownload r conflict) hq
  refine .ite (keeps_refreshStateMeta hq) ?_
  split
  · exact hdown true
  · refine .ite (.ite (hdown true) (plans_planUpload hq l))
      (.ite (hdown false) (keeps_refreshStateMeta hq))

variable {remote : Scan}

/-- A path that is on the remote side only: the tombstone is carried out. -/
theorem keeps_planRemoteOnly (hremote : D.FoundRemote remote) {r : ObservedMeta}
    (stored : Option SyncEntry) (hstored : q = D.path → stored = some D.entry) :
    D.Keeps (D.Plans q) (planRemoteOnly remote q r stored) := by
  by_cases hq : q = D.path
  · have hlive : ∀ s, hasLiveDescendants q remote s = false := by
      intro s
      refine any_eq_false.mpr fun c hc => ?_
      rw [decide_eq_true_iff]
      rintro ⟨hpre, hne, -⟩
      rw [hq] at hpre hne
      have := lookup_isSome.mpr (mem_keys.mpr hc)
      rw [hremote.below c hpre hne] at this
      cases this
    refine .dite (fun _ => .ite ?_ plans_delete) fun hno => ?_
    · refine keeps_readState.bind fun s _ => .dite (fun h => ?_) fun _ => plans_delete
      rw [hlive s] at h
      cases h
    · rw [hstored hq] at hno
      exact absurd D.deleted hno
  · have hdown := plans_singleton (path_planDownload (q := q) r false) hq
    refine .ite (.ite ?_ plans_delete) hdown
    exact keeps_readState.bind fun s _ => .ite hdown plans_delete

theorem keeps_planPath {found : Scan} (hfound : D.NotFound found) (hremote : D.FoundRemote remote)
    (stored : Option SyncEntry) (hstored : q = D.path → stored = some D.entry) :
    D.Keeps (D.Plans q) (planPath cfg remote q found stored) := by
  have hq : ∀ l, found.lookup q = some l → q ≠ D.path := by
    rintro l hl rfl
    rw [hfound] at hl
    cases hl
  refine (keeps_deferScan q).bind fun _ _ => .ite plans_nil ?_
  split
  · rename_i l hl _
    exact keeps_planLocalOnly (hq l hl) l stored
  · exact keeps_planRemoteOnly hremote stored hstored
  · rename_i l r hl _
    exact keeps_planBoth (hq l hl) l r stored
  · exact plans_nil

/-- **The plan.** For the path of the tombstone there is at most its deletion. -/
theorem keeps_buildPlan {found : Scan} (hfound : D.NotFound found)
    (hremote : D.FoundRemote remote) (o : MapOrder) :
    D.Keeps (fun plan => ∀ a ∈ plan, D.AdmitsAction a) (buildPlan cfg o found remote) := by
  refine keeps_readState.bind fun baseline hbase => ?_
  refine (Prog.Under.foldlM (I := fun plan : List SyncAction =>
    ∀ a ∈ plan, a.path = D.path → a.kind = .deleteRemote) (fun plan hplan q _ => ?_)
    fun _ h => absurd h not_mem_nil).bind fun plan hplan a ha => ?_
  · refine (keeps_planPath hfound hremote _ fun h => h ▸ hbase).bind fun actions hacts a ha => ?_
    intro hpath
    rcases mem_append.mp ha with ha | ha
    · exact hplan a ha hpath
    · exact (hacts a ha).2 ((hacts a ha).1.symm.trans hpath)
  · obtain ⟨b, hb, rfl⟩ := mem_map.mp ha
    by_cases hpath : b.path = D.path
    · refine .inr ⟨hplan b hb hpath, D.entry, ?_, D.describes_entry⟩
      show baseline.entry b.path = some D.entry
      rw [hpath]
      exact hbase
    · exact .inl hpath

theorem keeps_planWarmStart (hcfg : cfg.readonly = false) (o : MapOrder) :
    D.Keeps (fun r => ∀ plan, r = .ok plan → ∀ a ∈ plan, D.AdmitsAction a)
      (planWarmStart cfg depth o) := by
  have hscans : D.KeepsE (fun scans => D.NotFound scans.1 ∧ D.FoundRemote scans.2)
      (scanBoth cfg depth o) := by
    refine .seq (keepsE_of_plain (.ofClient (.issue trivial))) fun _ => ?_
    refine UnderE.bind keepsE_scanLocalMeta fun found hfound => ?_
    refine .seq (.lift (keeps_detectOfflineDeletes hcfg o found)) fun _ => ?_
    exact UnderE.bind keepsE_scanRemoteMeta fun remote hremote => .pure ⟨hfound, hremote⟩
  refine hscans.run.bind fun r hr => ?_
  rcases r with e | ⟨found, remote⟩
  · exact nofun
  · obtain ⟨hfound, hremote⟩ := hr _ rfl
    refine (keeps_buildPlan hfound hremote o).bind fun plan hplan => ?_
    rintro _ ⟨⟩
    exact hplan

/-! ## Actions -/

variable {s : SyncState}

section Actions

variable {a : SyncAction}

theorem keeps_actionStillCurrent (a : SyncAction) : D.Leaves (actionStillCurrent a) := by
  refine .ite trivial ((keeps_deferScan _).bind fun _ _ => ?_)
  refine .ite trivial (keeps_readState.bind fun s _ => ?_)
  refine .ite ?_ (keeps_orSweep false)
  exact (keeps_of_plain still_stillObserved.plain).bind fun _ _ => keeps_orSweep _

theorem Stands.record (h : D.Stands s) (ha : a.path ≠ D.path) (e : SyncEntry) :
    D.Stands (s.record a e) := by
  unfold SyncState.record
  split_ifs
  · exact h
  · exact h.put ha

section

variable (ha : a.path ≠ D.path)

include ha

theorem keepsE_updateActionState {e : SyncEntry} : D.LeavesE (updateActionState a e) :=
  .seq (keepsE_of_plain (.call trivial)) fun _ =>
    .lift (keeps_modifyState fun _ h => h.record ha _)

omit ha in
theorem keepsE_publishAction {c : Act (Except ClientErr Unit)} (hc : Act.Tame c) :
    D.LeavesE (publishAction c) := by
  refine .seq (.lift (keeps_of_plain hc)) fun r => ?_
  cases r with
  | ok _ => exact .pure trivial
  | error e => exact .seq (.lift (keeps_orSweep _)) fun _ => .throw _

theorem keepsE_execMkdirLocal : D.LeavesE (execMkdirLocal a) := by
  refine .seq (keepsE_of_plain (.ofOs (.issue trivial))) fun _ => ?_
  extract_lets rest
  have hrest : ∀ u, D.LeavesE (rest u) := fun _ =>
    .seq (keepsE_of_plain (.ofOs (.issue trivial))) fun _ => keepsE_updateActionState ha
  exact .ite (.seq (keepsE_of_plain (.ofOs (.issue trivial))) hrest) (hrest ())

theorem keepsE_recordFile (data : Bytes) : D.LeavesE (recordFile cfg a data) :=
  .seq (keepsE_of_plain (.call trivial)) fun _ => keepsE_updateActionState ha

theorem keepsE_execDownload : D.LeavesE (execDownload cfg a) := by
  refine UnderE.bind (.lift keeps_readState) fun s _ => .ite (.pure trivial) ?_
  refine .seq (keepsE_of_plain (.call trivial)) fun data => ?_
  cases data with
  | error e => exact .ite (.pure trivial) (.throw _)
  | ok data =>
    refine .seq (.lift (keeps_actionStillCurrent a)) fun _ =>
      .ite (.pure trivial) ?_
    refine .seq (.lift (keeps_of_plain still_localBytes.plain)) fun mode =>
      .ite (keepsE_recordFile ha data) ?_
    have hcommit : D.LeavesE (downloadStillCurrent a) :=
      .seq (.lift (keeps_actionStillCurrent a)) fun _ =>
        .ite (.pure trivial) (.throw _)
    refine .seq (.lift (under_writeLocalFile (fun _ h => spares_of_plain h.plain)
      (.pure trivial) hcommit)) fun written => .seq (.lift (keeps_orSweep _)) fun _ => ?_
    split
    · exact .pure trivial
    · exact .throw _
    · exact keepsE_recordFile ha data

theorem keepsE_execSymlinkDownload : D.LeavesE (execSymlinkDownload a) := by
  refine UnderE.bind (.lift (keeps_of_plain (still_processSymlink _).plain)) fun res _ => ?_
  split
  · exact .throw _
  · exact .lift keeps_sweep
  · refine .seq (.lift (keeps_orSweep _)) fun _ => ?_
    exact .seq (keepsE_of_plain (.call trivial)) fun _ => keepsE_updateActionState ha

theorem keepsE_executeDownload : D.LeavesE (executeDownload cfg a) := by
  refine .seq (.lift (keeps_actionStillCurrent a)) fun _ =>
    .ite (.pure trivial) ?_
  split
  · exact keepsE_execMkdirLocal ha
  · exact keepsE_execSymlinkDownload ha
  · exact keepsE_execDownload ha

variable {rest : Option StatResult → Try Unit}

omit ha in
theorem keepsE_ifRemoteCurrent {S : Option StatResult → Prop}
    (hstat : D.Keeps (fun r => ∀ stat, r = .ok stat → S stat) (statOrNone a.path))
    (h : ∀ stat, S stat → D.LeavesE (rest stat)) : D.LeavesE (ifRemoteCurrent a rest) := by
  refine UnderE.bind (Q := fun r : Option StatResult × Bool => S r.1) ?_ fun r hr =>
    .ite (h r.1 hr) (.pure trivial)
  exact UnderE.bind (underE_ofClient hstat) fun stat hs =>
    .seq (.lift (keeps_orSweep _)) fun _ => .pure hs

omit ha in
theorem keepsE_ifRemoteCurrent'
    (h : ∀ stat, D.LeavesE (rest stat)) : D.LeavesE (ifRemoteCurrent a rest) :=
  keepsE_ifRemoteCurrent (S := fun _ => True)
    ((keeps_of_plain plain_statOrNone).imp fun _ _ _ _ => trivial) fun stat _ => h stat

theorem keepsE_execMkdirRemote : D.LeavesE (execMkdirRemote a) := by
  refine keepsE_ifRemoteCurrent' fun stat => .seq (keepsE_publishAction ?_) fun _ =>
    keepsE_updateActionState ha
  cases stat with
  | none =>
    refine .ask trivial fun r => ?_
    split <;> exact .pure trivial
  | some stat => exact tame_issue trivial

theorem keepsE_execUpload : D.LeavesE (execUpload cfg a) := by
  refine .seq (keepsE_of_plain (.call trivial)) fun info => ?_
  split
  · exact .pure trivial
  · exact .throw _
  · refine .seq (keepsE_of_plain (.call trivial)) fun data => ?_
    split
    · exact .pure trivial
    · exact .throw _
    · refine .ite (.pure trivial) ?_
      refine .seq (.lift (keeps_actionStillCurrent a)) fun _ =>
        .ite (.pure trivial) (keepsE_ifRemoteCurrent' fun stat => ?_)
      refine .seq (keepsE_publishAction (.ite (tame_issue trivial) (tame_issue trivial)))
        fun _ => ?_
      refine .seq (keepsE_of_plain (.call trivial)) fun _ =>
        .seq (keepsE_of_plain (.ofClient (.issue trivial))) fun after => ?_
      cases after with
      | none => exact .throw _
      | some after => exact keepsE_updateActionState ha

theorem keepsE_execSymlinkUpload : D.LeavesE (execSymlinkUpload a) := by
  refine UnderE.bind (.lift (keepsE_of_plain plain_syncUploadSymlink).run) fun r _ => ?_
  cases r with
  | error e => exact .seq (.lift (keeps_orSweep _)) fun _ => .throw _
  | ok _ => exact keepsE_updateActionState ha

omit ha in
theorem Stands.confirmDelete (h : D.Stands s) (ha : a.path ≠ D.path) :
    D.Stands (s.confirmDelete a) := by
  unfold SyncState.confirmDelete
  split
  · exact h
  · split_ifs
    · exact h.remove ha
    · exact h

omit ha in
theorem Stands.unmarkDeleted (h : D.Stands s) (hq : q ≠ D.path) : D.Stands (s.unmarkDeleted q) := by
  unfold SyncState.unmarkDeleted
  split
  · exact h
  · split_ifs
    · exact h.put hq
    · exact h

/-- A deletion of another path. -/
theorem keepsE_execDeleteRemote_of_ne : D.LeavesE (execDeleteRemote cfg a) := by
  have hremove : ∀ stat, D.LeavesE (removeBaseline a stat) := by
    intro stat
    have hconfirm : D.LeavesE (liftM (modifyState (·.confirmDelete a)) : Try Unit) :=
      .lift (keeps_modifyState fun _ h => h.confirmDelete ha)
    refine .seq (keepsE_of_plain (.call trivial)) fun r => ?_
    cases r with
    | error e =>
      exact .ite hconfirm (.seq (.lift (keeps_orSweep _)) fun _ => .throw _)
    | ok _ => exact hconfirm
  refine keepsE_ifRemoteCurrent' fun stat => ?_
  cases stat with
  | none => exact hremove none
  | some stat =>
    refine .seq (keepsE_of_plain plain_syncRemoteMatchesStored) fun isBaseline =>
      .ite (hremove _) ?_
    refine UnderE.bind (Q := fun _ => True) (.lift (under_issue (.inl fun _ h => h.unmarkDeleted ha)
      fun _ _ => trivial)) fun s _ => keepsE_executeDownload ?_
    rwa [show (a.insteadOfDelete stat _).path = a.path from path_planDownload _ _]

end

/-- The deletion itself: it finds the version and does not get through. -/
theorem keepsE_execDeleteRemote_self {e : SyncEntry} (ha : a.path = D.path)
    (hstored : a.stored = some e) (he : D.Describes e) : D.LeavesE (execDeleteRemote cfg a) := by
  refine keepsE_ifRemoteCurrent (S := fun stat => stat = some D.node.toStat) ?_ ?_
  · rw [ha]
    refine under_ask trivial fun r hr => ?_
    rcases reply_stat hr with rfl | rfl
    · rintro stat ⟨⟩
      rfl
    · exact nofun
  · rintro _ rfl
    show D.KeepsE _ (syncRemoteMatchesStored a.path D.node.toStat a.stored >>= _)
    rw [ha, hstored]
    refine UnderE.bind (keepsE_matchesStored he) fun isBaseline hb => ?_
    rw [hb, if_pos rfl]
    unfold removeBaseline
    rw [ha]
    refine UnderE.bind (.lift (under_issue trivial fun r hr => reply_rm hr)) fun r hr => ?_
    rw [hr]
    exact .dite nofun fun _ =>
      .seq (.lift (keeps_orSweep _)) fun _ => .throw _

/-- **Actions.** -/
theorem keepsE_executeAction (ha : D.AdmitsAction a) : D.LeavesE (executeAction cfg depth a) := by
  refine .seq (.lift (keeps_actionStillCurrent a)) fun _ => .ite (.pure trivial) (.ite (.throw _) ?_)
  have hdelete : D.LeavesE (execDeleteLocal depth a) :=
    .seq keepsE_applyConfirmed fun _ =>
      .seq (.lift (keeps_orSweep _)) fun _ => .pure trivial
  rcases ha with ha | ⟨hkind, e, hstored, he⟩
  · split
    · exact keepsE_execMkdirLocal ha
    · exact keepsE_execMkdirRemote ha
    · exact keepsE_execDownload ha
    · exact keepsE_execUpload ha
    · exact keepsE_execSymlinkDownload ha
    · exact keepsE_execSymlinkUpload ha
    · exact keepsE_execDeleteRemote_of_ne ha
    · exact hdelete
  · rw [hkind]
    by_cases ha : a.path = D.path
    · exact keepsE_execDeleteRemote_self ha hstored he
    · exact keepsE_execDeleteRemote_of_ne ha

end Actions

/-! ## Passes -/

section Passes

variable {plan : List SyncAction}

theorem plain_open {m : DirectoryModes} : Act.Tame (m.open p) := by
  refine .ite (.pure trivial) (.ask trivial fun r => ?_)
  split
  · exact .pure trivial
  · exact .pure trivial
  · refine .ite (.pure trivial) (.ite (.pure trivial) (.ask trivial fun r => ?_))
    split <;> exact .pure trivial

theorem keeps_prepare (m : DirectoryModes) : D.Leaves (m.prepare p) := by
  unfold DirectoryModes.prepare
  refine Prog.Under.foldlM (I := fun _ => True) (fun r _ q _ => ?_) trivial
  exact .ite trivial (keeps_of_plain plain_open)

theorem keeps_restore {m : DirectoryModes} : D.Leaves m.restore := by
  unfold DirectoryModes.restore
  refine Prog.Under.foldlM (I := fun _ => True) (fun err _ d _ => ?_) trivial
  refine Prog.Under.bind (Q := fun _ => True) ?_ fun _ _ => trivial
  refine .ask trivial fun r => ?_
  split
  · exact keeps_sweep.bind fun _ _ => trivial
  · exact trivial
  · refine .ite (keeps_sweep.bind fun _ _ => trivial) ?_
    refine .ask trivial fun r => ?_
    split <;> exact trivial

theorem keeps_andThen (r : Phase) {next : DirectoryModes → Act Phase}
    (h : ∀ m, D.Leaves (next m)) : D.Leaves (r.andThen next) :=
  .ite trivial (h _)

theorem keeps_runAction (ha : D.AdmitsAction a) (m : DirectoryModes) :
    D.Leaves (runAction cfg depth m a) := by
  refine (keepsE_executeAction ha).run.bind fun r _ => ?_
  cases r <;> exact trivial

theorem keeps_makeDirectory (ha : D.AdmitsAction a) (m : DirectoryModes) :
    D.Leaves (makeDirectory cfg depth m a) :=
  .ite ((keeps_prepare m).bind fun r _ =>
    (keeps_andThen r (keeps_runAction ha)).bind fun r _ => keeps_andThen r fun m =>
      keeps_prepare m) (keeps_runAction ha m)

/-- **The second half of a full reconciliation.** -/
theorem keeps_finishWarmStart (hplan : ∀ a ∈ plan, D.AdmitsAction a) :
    D.Leaves (finishWarmStart cfg depth plan) := by
  unfold finishWarmStart
  extract_lets rest
  have hrest : ∀ err, D.Leaves (rest err) := fun err =>
    Prog.Under.bind (Q := fun _ => True) (.ask trivial fun now =>
      under_ask (.inr ⟨now, rfl⟩) fun _ _ => trivial) fun _ _ => trivial
  refine .ite (hrest none) (Prog.Under.bind (Q := fun _ => True) ?_ fun err _ => hrest err)
  have hphases : D.Leaves (executePhases cfg depth plan) := by
    refine (Prog.Under.foldlM (fun r _ a ha => keeps_andThen r (keeps_makeDirectory ?_)) trivial).bind
      fun r _ => ?_
    · exact hplan a (mem_of_mem_filter ((mem_insertionSort _).mp ha))
    refine (Prog.Under.foldlM (fun r _ a ha => keeps_andThen r fun m => keeps_prepare m)
      trivial).bind fun r _ => ?_
    refine (Prog.Under.foldlM (fun r _ a ha => keeps_andThen r (keeps_runAction ?_)) trivial).bind
      fun r _ => ?_
    · exact hplan a (mem_of_mem_filter ((mem_insertionSort _).mp ha))
    · exact Prog.Under.foldlM (fun r _ a ha => keeps_andThen r (keeps_runAction
        (hplan a (mem_of_mem_filter ha)))) trivial
  exact hphases.bind fun r _ => keeps_restore.bind fun _ _ => trivial

end Passes

end Afs.Sync.Deletion
