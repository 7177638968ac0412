import Afs.Sync.FullReconciler
import Afs.Sync.Runs

/-!
# Programs that leave the sync state alone

The workers of the daemon get all they need with their operation and send back a result. The uploader
never looks at the sync state; the downloader does for a remote deletion only. Either way the result
is about the path of the operation.
-/

namespace Afs.Sync

open Prog

variable {α β : Type} {Q Q' : α → Prop} {T : β → Prop}

/-! ## Rules -/

variable {c : Cmd} {b : Prop} {x : Act α}

section Rules

variable {R : (c : Cmd) → c.Rep → Prop} {P : Cmd → Prop}

theorem under_ask {k : c.Rep → Act α} (hc : P c) (hk : ∀ r, R c r → (k r).Under (S := sig) R P Q) :
    (c.issue >>= k).Under (S := sig) R P Q :=
  ⟨hc, hk⟩

theorem under_issue {Q : c.Rep → Prop} (hc : P c) (h : ∀ r, R c r → Q r) :
    c.issue.Under (S := sig) R P Q := ⟨hc, h⟩

theorem underE_ofOs {x : Act (Except OsErr α)}
    (hx : x.Under (S := sig) R P fun r => ∀ a, r = .ok a → Q a) :
    UnderE (S := sig) R P Q (ofOs x) := by
  refine Prog.Under.bind hx fun r hr => ?_
  cases r with
  | ok a =>
    rintro b ⟨⟩
    exact hr a rfl
  | error e => rintro b ⟨⟩

theorem underE_ofClient {x : Act (Except ClientErr α)}
    (hx : x.Under (S := sig) R P fun r => ∀ a, r = .ok a → Q a) :
    UnderE (S := sig) R P Q (ofClient x) := by
  refine Prog.Under.bind hx fun r hr => ?_
  cases r with
  | ok a =>
    rintro b ⟨⟩
    exact hr a rfl
  | error e => rintro b ⟨⟩

end Rules

end Afs.Sync

namespace Afs

open Sync

variable {α : Type} {R : (c : Cmd) → c.Rep → Prop} {P : Cmd → Prop} {c : Cmd} (hc : P c)

include hc in
theorem Prog.Under.issue : c.issue.Within (S := sig) R P :=
  under_issue hc fun _ _ => trivial

include hc in
theorem UnderE.call : WithinE (S := sig) R P (liftM c.issue : Try c.Rep) :=
  lift (.issue hc)

theorem UnderE.ofOs {x : Act (Except OsErr α)} (hx : x.Within (S := sig) R P) :
    WithinE (S := sig) R P (Sync.ofOs x) :=
  underE_ofOs (hx.imp fun _ _ _ _ => trivial)

theorem UnderE.ofClient {x : Act (Except ClientErr α)} (hx : x.Within (S := sig) R P) :
    WithinE (S := sig) R P (Sync.ofClient x) :=
  underE_ofClient (hx.imp fun _ _ _ _ => trivial)

end Afs

namespace Afs.Sync

open Prog

variable {α β : Type} {Q Q' : α → Prop} {T : β → Prop} {c : Cmd} {x : Act α}

/-- The commands that are no critical section. -/
def Cmd.Plain : Cmd → Prop
  | .update _ => False
  | _ => True

theorem Cmd.plain_of_reads (h : c.reads) : c.Plain := by
  cases c <;> trivial

/-- The program has no critical section, and returns what satisfies `Q`. -/
def Act.Plain (Q : α → Prop) (x : Act α) : Prop := x.Under (S := sig) (fun _ _ => True) Cmd.Plain Q

/-- Whatever it returns. -/
abbrev Act.Tame (x : Act α) : Prop := Act.Plain (fun _ => True) x

/-- The same of a program that may fail. -/
def Try.Plain (x : Try α) : Prop := UnderE (S := sig) (fun _ _ => True) Cmd.Plain (fun _ => True) x

section OfPlain

variable {R : (c : Cmd) → c.Rep → Prop} {P : Cmd → Prop}

theorem under_of_plain (hP : ∀ c : Cmd, c.Plain → P c) (hx : Act.Plain Q x) :
    x.Under (S := sig) R P Q := Prog.Under.mono hx (fun _ _ _ => trivial) hP fun _ h => h

theorem underE_of_plain (hP : ∀ c : Cmd, c.Plain → P c) {x : Try α} (hx : x.Plain) :
    WithinE (S := sig) R P x :=
  Prog.Under.mono hx (fun _ _ _ => trivial) hP fun _ h => h

end OfPlain

/-! ### The folder only -/

/-- The commands that neither look at the sync state nor write to the live tree. -/
def Cmd.Still : Cmd → Prop
  | .update _ | .echo _ _ _ | .writeChunks _ _ _ _ _ _ | .chmodRemote _ _ _ | .rm _ _
  | .mkdirMode _ _ _ | .ln _ _ _ | .renameRemote _ _ _ _ => False
  | _ => True

theorem Cmd.Still.plain (h : c.Still) : c.Plain := by
  cases c <;> trivial

/-- The program issues no others, and returns what satisfies `Q`. -/
def Act.Still (Q : α → Prop) (x : Act α) : Prop := x.Under (S := sig) (fun _ _ => True) Cmd.Still Q

/-- The same of a program that may fail. -/
def Try.Still (x : Try α) : Prop := UnderE (S := sig) (fun _ _ => True) Cmd.Still (fun _ => True) x

theorem Act.Still.plain (hx : Act.Still Q x) : Act.Plain Q x :=
  Prog.Under.mono hx (fun _ _ h => h) (fun _ h => h.plain) fun _ h => h

theorem Try.Still.plain {x : Try α} (hx : Try.Still x) : Try.Plain x :=
  Prog.Under.mono hx (fun _ _ h => h) (fun _ h => h.plain) fun _ h => h

theorem tame_issue (hc : c.Plain) : Act.Tame c.issue := .issue hc

section OfStill

variable {R : (c : Cmd) → c.Rep → Prop} {P : Cmd → Prop} (hP : ∀ c : Cmd, c.Still → P c)

include hP

theorem under_of_still (hx : Act.Still Q x) : x.Under (S := sig) R P Q :=
  Prog.Under.mono hx (fun _ _ _ => trivial) hP fun _ h => h

theorem underE_of_still {x : Try α} (hx : x.Still) : WithinE (S := sig) R P x :=
  Prog.Under.mono hx (fun _ _ _ => trivial) hP fun _ h => h

end OfStill

/-! ## Uploads -/

variable {stored : Option SyncEntry}

section Uploads

variable {op : UploadOp} {cfg : Config}

/-- The result of an upload is about the upload. -/
def UploadOp.IsOf (op : UploadOp) (res : UploadResult) : Prop := res.op = op

variable {p : Path}

theorem plain_statOrNone : Act.Tame (statOrNone p) := by
  refine .ask trivial fun r => ?_
  cases r <;> exact .pure trivial

theorem plain_ifCurrent {rest : Act UploadResult} (h : Act.Plain op.IsOf rest) :
    Act.Plain op.IsOf (ifCurrent op rest) := by
  refine .bind (Prog.Under.of_only only_queuedFileCurrent fun c => Cmd.plain_of_reads) fun o _ => ?_
  cases o with
  | none => exact h
  | some o => exact .pure rfl

theorem plain_withStat {rest : Option StatResult → Act UploadResult}
    (h : ∀ stat, Act.Plain op.IsOf (rest stat)) : Act.Plain op.IsOf (withStat op rest) := by
  refine .bind plain_statOrNone fun r _ => ?_
  cases r with
  | ok stat => exact h stat
  | error e => exact .pure rfl

theorem plain_finishFileUpload {mode : ℕ} : Act.Plain op.IsOf (finishFileUpload op mode) := by
  refine .ask trivial fun _ => .ask trivial fun r => ?_
  cases r <;> exact .pure rfl

theorem plain_finishMatchingFileUpload {mode : ℕ} :
    Act.Plain op.IsOf (finishMatchingFileUpload op mode) := by
  refine .ask trivial fun r => ?_
  cases r with
  | error e => exact .pure rfl
  | ok stat =>
    refine plain_ifCurrent ?_
    cases stat with
    | none => exact .pure rfl
    | some stat =>
      exact .ite (.pure rfl) (.ite (.ite (.pure rfl) (.pure rfl)) plain_finishFileUpload)

theorem plain_publishParent {parent : StatResult} {next : Path} :
    Try.Plain (publishParent parent next) := by
  refine .seq (.ofOs (.issue trivial)) fun info => ?_
  extract_lets look rest
  have hlook : ∀ u, Try.Plain (look u) := fun _ => .ofClient (.issue trivial)
  have hrest : ∀ u, Try.Plain (rest u) := by
    refine fun _ => .seq (.call trivial) fun made => ?_
    cases made with
    | ok _ => exact hlook ()
    | error e => exact .ite (.seq (.throw _) hlook) (hlook ())
  exact .ite (.seq (.throw _) hrest) (hrest ())

theorem plain_publishParents (cur : Path) (parent : StatResult) (rest : List Name) :
    Try.Plain (publishParents cur parent rest) := by
  induction rest generalizing cur parent with
  | nil => exact .ret _
  | cons c rest ih =>
    unfold publishParents
    refine .seq (.ofClient plain_statOrNone) fun found => ?_
    extract_lets goOn
    have hgoOn : ∀ next, Try.Plain (goOn next) := by
      intro next
      cases next with
      | none => exact .throw _
      | some stat => exact .ite (ih _ _) (.throw _)
    exact .ite (.seq plain_publishParent hgoOn) (.seq (.ret _) hgoOn)

theorem plain_prepareRemoteParent : Try.Plain (prepareRemoteParent p) := by
  refine .ite (.ret _) (.seq (.ofClient plain_statOrNone) fun found => ?_)
  cases found with
  | some parent => exact .ite (.ret _) (.throw _)
  | none =>
    refine .seq (.ofClient (.issue trivial)) fun root => ?_
    cases root with
    | none => exact .throw _
    | some root =>
      have hrest := UnderE.seq (plain_publishParents [] root (parentOf p)) fun parent =>
        .ret ({ parent := some (parentOf p, parent.inode) } : Condition)
      exact .ite (.seq (.throw _) fun _ => hrest) hrest

variable {rest : Condition → Act UploadResult}

theorem plain_inRemoteParent
    (h : ∀ c, Act.Plain op.IsOf (rest c)) : Act.Plain op.IsOf (inRemoteParent op rest) := by
  refine .bind plain_prepareRemoteParent.run fun r _ => ?_
  cases r with
  | ok c => exact h c
  | error e => exact .pure rfl

variable {stat : Option StatResult}

theorem plain_inParentIfMissing
    (h : ∀ c, Act.Plain op.IsOf (rest c)) : Act.Plain op.IsOf (inParentIfMissing op stat rest) := by
  cases stat with
  | some _ => exact h _
  | none => exact plain_inRemoteParent fun c => plain_ifCurrent (h c)

theorem plain_published {r : Except ClientErr Unit} {rest : Act UploadResult}
    (h : Act.Plain op.IsOf rest) : Act.Plain op.IsOf (published op r rest) := by
  unfold published
  split
  · exact h
  · exact .pure rfl
  · exact .pure rfl

theorem plain_publishFile (stat : Option StatResult) : Act.Plain op.IsOf (publishFile op stat) :=
  plain_ifCurrent (plain_inParentIfMissing fun _ => .ask trivial fun _ =>
    plain_published plain_finishFileUpload)

theorem plain_processWholeFile : Act.Plain op.IsOf (processWholeFile cfg op) := by
  refine plain_ifCurrent (.ite (.pure rfl) (plain_withStat fun stat => ?_))
  cases stat with
  | none => exact plain_publishFile none
  | some s =>
    refine .ask trivial fun r => ?_
    cases r with
    | error e => exact .pure rfl
    | ok data =>
      exact plain_ifCurrent (.ite plain_finishMatchingFileUpload
        (.ite (.pure rfl) (plain_publishFile _)))

theorem plain_publishDirtyChunks {dirty : List ℕ} :
    Act.Plain op.IsOf (publishDirtyChunks op stat dirty) := by
  refine .bind (Prog.Under.of_only only_readDirtyChunks fun c => Cmd.plain_of_reads) fun r _ => ?_
  cases r with
  | error o => exact .pure rfl
  | ok pieces =>
    exact plain_ifCurrent (plain_inParentIfMissing fun _ => .ask trivial fun _ =>
      plain_published plain_finishFileUpload)

theorem plain_processChunkedFile : Act.Plain op.IsOf (processChunkedFile op) := by
  refine plain_ifCurrent (plain_withStat fun stat => .ask trivial fun r => ?_)
  cases r with
  | error e => exact .ite plain_publishDirtyChunks (.pure rfl)
  | ok _ =>
    refine .ask trivial fun r => ?_
    cases r with
    | error e => exact .pure rfl
    | ok data =>
      exact plain_ifCurrent (.ite plain_finishMatchingFileUpload
        (.ite (.pure rfl) plain_publishDirtyChunks))

theorem plain_syncRemoteMatchesStored {stat : StatResult} :
    Try.Plain (syncRemoteMatchesStored p stat stored) := by
  unfold syncRemoteMatchesStored
  split
  · exact .ret _
  · refine .ite (.ret _) ?_
    split
    · exact .seq (.ofClient (.issue trivial)) fun _ => .ret _
    · exact .seq (.ofClient (.issue trivial)) fun _ => .ret _
    · exact .ret _

theorem plain_syncUploadSymlink {c : Condition} {target : Bytes} :
    Try.Plain (syncUploadSymlink c p target stored) := by
  have hlink : Try.Plain (syncUploadSymlink.link c p target) := by
    refine .seq (.call trivial) fun r => ?_
    cases r with
    | error e => exact .throw _
    | ok _ => exact .ofClient (.issue trivial)
  refine .seq (.ofClient plain_statOrNone) fun existing => ?_
  cases existing with
  | none => exact hlink
  | some stat =>
    have hsame : Try.Plain (syncUploadSymlink.isLink p target stat) :=
      .ite (.seq (.ofClient (.issue trivial)) fun _ => .ret _) (.ret _)
    refine .seq hsame fun same => .ite (.ret _) ?_
    refine .seq plain_syncRemoteMatchesStored fun isBaseline => ?_
    have hrest := UnderE.seq (.ofClient (.issue (c := .rm { c with stat := some (some stat) } p)
      trivial)) fun _ => hlink
    exact .ite (.seq (.throw _) fun _ => hrest) hrest

theorem plain_processSymlink : Act.Plain op.IsOf (processSymlink op) := by
  refine .ask trivial fun r => ?_
  cases r with
  | error e => exact .pure rfl
  | ok target =>
    refine .ite (.pure rfl) (plain_inRemoteParent fun c => ?_)
    refine .bind plain_syncUploadSymlink.run fun r _ => ?_
    split <;> exact .pure rfl

theorem plain_processMkdir : Act.Plain op.IsOf (processMkdir op) := by
  have hlook : Act.Plain op.IsOf (processMkdir.look op) := by
    refine .ask trivial fun r => ?_
    cases r <;> exact .pure rfl
  refine plain_inRemoteParent fun c => .ask trivial fun r => ?_
  cases r with
  | error e => exact .ite hlook (.pure rfl)
  | ok _ => exact hlook

theorem plain_removeRemote : Act.Plain op.IsOf (removeRemote op stat) := by
  refine .ask trivial fun r => ?_
  split <;> exact .pure rfl

theorem plain_processDelete : Act.Plain op.IsOf (processDelete op) := by
  refine .ask trivial fun r => ?_
  split
  · exact .pure rfl
  · exact .pure rfl
  · refine .ask trivial fun r => ?_
    split
    · exact .ite plain_removeRemote (.pure rfl)
    · exact plain_removeRemote
    · refine .bind plain_syncRemoteMatchesStored.run fun r _ => ?_
      split
      · exact .pure rfl
      · exact .pure rfl
      · exact plain_removeRemote

theorem plain_moveRemote {before : Option StatResult} : Act.Plain op.IsOf (moveRemote op before) := by
  refine .ask trivial fun r => ?_
  cases r with
  | error e => exact .ite (.pure rfl) (.pure rfl)
  | ok _ =>
    refine .ask trivial fun r => ?_
    cases r <;> exact .pure rfl

theorem plain_processRename : Act.Plain op.IsOf (processRename op) := by
  refine .bind plain_statOrNone fun r _ => ?_
  split
  · exact .pure rfl
  · exact plain_moveRemote
  · refine .bind plain_syncRemoteMatchesStored.run fun r _ => ?_
    split
    · exact .pure rfl
    · exact .pure rfl
    · exact plain_moveRemote

theorem plain_queuedDirectoryModeCurrent : Act.Tame (queuedDirectoryModeCurrent op) := by
  refine .ask trivial fun r => ?_
  cases r <;> exact .pure trivial

theorem plain_processChmod : Act.Plain op.IsOf (processChmod op) := by
  refine .bind plain_queuedDirectoryModeCurrent fun _ _ => .ite (.pure rfl) (.ask trivial fun r => ?_)
  split
  · exact .pure rfl
  · exact .pure rfl
  · split
    · exact .pure rfl
    · refine .ite (.pure rfl) (.bind plain_queuedDirectoryModeCurrent fun _ _ => ?_)
      exact .ite (.pure rfl) (.ite (.pure rfl) (.ask trivial fun _ => plain_published (.pure rfl)))

/-- **The uploader does not look at the sync state.** -/
theorem plain_process : Act.Plain op.IsOf (process cfg op) := by
  refine .ite (.pure rfl) ?_
  split
  · exact .ite plain_processChunkedFile plain_processWholeFile
  · exact plain_processSymlink
  · exact plain_processMkdir
  · exact plain_processDelete
  · exact plain_processChmod
  · exact plain_processRename

end Uploads

/-! ## Downloads -/

variable {seen : LocalSnapshot}

section Looking

variable {p : Path}

theorem still_snapshotDownloadLocal {chunkSize : ℕ} :
    Try.Still (snapshotDownloadLocal p chunkSize) := by
  refine .seq (.call trivial) fun info => ?_
  split
  · exact .ret _
  · exact .throw _
  · unfold snapshotNode
    split
    · exact .seq (.ofOs (.issue trivial)) fun _ => .ret _
    · refine .seq (.ofOs (.issue trivial)) fun data => .ite (.ret _) ?_
      exact .seq (.ofOs (.issue trivial)) fun _ => .ret _
    · exact .ret _

theorem still_unchanged {s : LocalSnapshot} :
    Act.Still (fun _ => True) (s.unchanged p) := .ask trivial fun _ => .pure trivial

theorem still_stillObserved {seen : Option ObservedMeta} :
    Act.Still (fun _ => True) (stillObserved p seen) := by
  refine .ask trivial fun r => ?_
  split
  · exact .pure trivial
  · split
    · exact .pure trivial
    · exact .pure trivial
    · exact .ask trivial fun _ => .pure trivial
  · exact .pure trivial

theorem still_localBytes {data : Bytes} : Act.Still (fun _ => True) (localBytes p data) := by
  refine .ask trivial fun bytes => .ask trivial fun info => ?_
  split <;> exact .pure trivial

theorem still_moveLocalToConflict (p : Path) : Try.Still (moveLocalToConflict p) := by
  refine .seq (.call trivial) fun info => ?_
  split
  · exact .ret _
  · exact .throw _
  · exact .seq (.call trivial) fun _ => .seq (.ofOs (.issue trivial)) fun _ =>
      .seq (.ofOs (.issue trivial)) fun _ => .ret _

section Writing

variable {R : (c : Cmd) → c.Rep → Prop} {P : Cmd → Prop} {p : Path} {mode : ℕ} {write : Try Bytes}
  {beforeCommit : Try Unit}

theorem underE_stageLocalFile (hP : ∀ c : Cmd, c.Still → P c)
    (hwrite : WithinE (S := sig) R P write)
    (hcommit : WithinE (S := sig) R P beforeCommit) :
    WithinE (S := sig) R P (stageLocalFile p mode write beforeCommit) := by
  have hgiveUp : ∀ temp e, WithinE (S := sig) R P (giveUp temp e : Try Path) :=
    fun temp e => .seq (.call (hP _ trivial)) fun _ => .throw e
  refine .seq (.ofOs (.issue (hP _ trivial))) fun _ => .seq (.call (hP _ trivial)) fun info => ?_
  extract_lets rest
  have hrest : ∀ before, WithinE (S := sig) R P (rest before) := by
    intro before
    refine .seq (.call (hP _ trivial)) fun n => .seq hwrite fun data => ?_
    refine .seq (.ofOs (.issue (hP _ trivial))) fun _ => .bind (.lift hcommit.run) fun ready _ => ?_
    cases ready with
    | error e => exact hgiveUp _ _
    | ok _ =>
      refine .seq (.lift (under_of_still hP still_unchanged)) fun _ => ?_
      exact .ite (.ret _) (hgiveUp _ _)
  split
  · exact .seq (.ret _) hrest
  · exact .seq (.ret _) hrest
  · exact .seq (.throw _) hrest

theorem under_writeLocalFile {conflict : Bool} (hP : ∀ c : Cmd, c.Still → P c)
    (hwrite : WithinE (S := sig) R P write)
    (hcommit : WithinE (S := sig) R P beforeCommit) :
    (writeLocalFile p conflict mode write beforeCommit).Within (S := sig) R P := by
  refine (underE_stageLocalFile hP hwrite hcommit).run.bind fun r _ => ?_
  cases r with
  | error e => exact trivial
  | ok temp =>
    have hclear : Try.Still (if conflict then moveLocalToConflict p else pure none) :=
      .ite (still_moveLocalToConflict p) (.ret _)
    refine (underE_of_still hP hclear).run.bind fun r _ => under_of_still hP ?_
    cases r with
    | error e => exact .ask trivial fun _ => .pure trivial
    | ok copy =>
      refine .ask trivial fun r => ?_
      cases r with
      | ok _ => exact .pure trivial
      | error e => exact .ask trivial fun _ => .pure trivial

end Writing

theorem plain_writeLocalFile {conflict : Bool} {mode : ℕ} {write : Try Bytes}
    {beforeCommit : Try Unit} (hwrite : write.Plain) (hcommit : beforeCommit.Plain) :
    Act.Tame (writeLocalFile p conflict mode write beforeCommit) :=
  under_writeLocalFile (fun _ => Cmd.Still.plain) hwrite hcommit

variable {lookup : Path → Option SyncEntry}

theorem plain_checkTree {depth : ℕ} {kind : Kind} :
    Try.Plain (checkTree lookup depth p kind stored) := by
  induction depth generalizing p kind stored with
  | zero => exact .throw _
  | succ depth ih =>
    unfold checkTree
    have hnode : Try.Plain (checkNode p stored) :=
      .seq still_snapshotDownloadLocal.plain fun _ => .seq (.lift still_unchanged.plain) fun _ =>
        .ret _
    refine .seq hnode fun same => .ite (.ret _) (.ite (.ret _) (.seq (.call trivial)
      fun names => ?_))
    split
    · exact .ret _
    · exact .throw _
    · exact UnderE.foldlM (fun _ _ n _ => UnderE.ite (ih) (.ret _)) trivial

theorem plain_preserveLocalDeleteConflict {depth : ℕ} :
    Try.Plain (preserveLocalDeleteConflict depth p stored lookup) := by
  refine .seq (.call trivial) fun info => ?_
  split
  · exact .ret _
  · exact .throw _
  · exact .seq plain_checkTree fun _ => .ite (.ret _) (still_moveLocalToConflict _).plain

theorem plain_removeLocal : Try.Plain (removeLocal p seen) := by
  refine .seq (.lift still_unchanged.plain) fun same => .ite (.ret _) ?_
  refine .seq (.lift (.ite (tame_issue trivial) (tame_issue trivial))) fun r => ?_
  split
  · exact .throw _
  · exact .ret _

end Looking

variable {stat : StatResult}

section Downloads

variable {op : DownloadOp} {cfg : Config}

/-- The result of a download is about its path. -/
def DownloadOp.IsAt (op : DownloadOp) (res : DownloadResult) : Prop := res.op.path = op.path

theorem plain_processMkdir_download (op : DownloadOp) : Act.Plain op.IsAt (op.processMkdir cfg) := by
  refine .ask trivial fun r => ?_
  split
  · exact .pure rfl
  · exact .pure rfl
  · refine .ite (.pure rfl) (.ask trivial fun before => ?_)
    split
    · exact .pure rfl
    · refine .ite (.pure rfl) ?_
      have hmake : ∀ op : DownloadOp, Try.Plain op.makeDir := fun op =>
        .seq (.ofOs (.issue trivial)) fun _ => .seq (.ofOs (.issue trivial)) fun _ =>
          .seq (.ofOs (.issue trivial)) fun _ => .ofOs (.issue trivial)
      refine .bind (hmake _).run fun r _ => ?_
      cases r <;> exact .pure rfl

theorem still_replaceLink {temp : Path} {wasDir : Bool} :
    Act.Still (fun _ => True) (op.replaceLink temp wasDir) := by
  have hclear : Try.Still (DownloadOp.replaceLink.clear op wasDir) :=
    .ite (still_moveLocalToConflict _) (.ite (.seq (.ofOs (.issue trivial)) fun _ => .ret _)
      (.ret _))
  refine .bind hclear.run fun r _ => ?_
  cases r with
  | error e => exact .pure trivial
  | ok copy =>
    refine .ask trivial fun r => ?_
    cases r with
    | error e => exact .pure trivial
    | ok _ =>
      refine .ask trivial fun r => ?_
      cases r <;> exact .pure trivial

theorem still_stageLink : Act.Still op.IsAt (op.stageLink seen) := by
  refine .ask trivial fun r => ?_
  cases r with
  | error e => exact .pure rfl
  | ok _ =>
    refine .ask trivial fun n => .ask trivial fun r => ?_
    cases r with
    | error e => exact .pure rfl
    | ok _ =>
      refine .ask trivial fun info => .bind still_unchanged fun same _ => ?_
      refine .ite (.ask trivial fun _ => .pure rfl) (.bind still_replaceLink fun r _ => ?_)
      rcases r with ⟨copy, e | info⟩
      · exact .ask trivial fun _ => .pure rfl
      · exact .pure rfl

theorem still_processLink (op : DownloadOp) (seen : LocalSnapshot) :
    Act.Still op.IsAt (op.processLink seen) := by
  refine .bind still_unchanged fun same _ => .ite (.pure rfl) ?_
  split
  · exact .pure rfl
  · exact .ite (.pure rfl) still_stageLink

theorem still_processSymlink (op : DownloadOp) : Act.Still op.IsAt op.processSymlink := by
  refine .bind still_snapshotDownloadLocal.run fun r _ => ?_
  cases r with
  | error e => exact .pure rfl
  | ok seen =>
    refine .ite (still_processLink _ _) (.ask trivial fun r => ?_)
    cases r with
    | error e => exact .pure rfl
    | ok target => exact still_processLink { op with symlink := target } seen

theorem plain_fileResult {hash : Bytes} {copy : Option Path} {mode size : ℕ} :
    Act.Plain op.IsAt (op.fileResult stat hash copy mode size) := by
  refine .ask trivial fun r => ?_
  cases r <;> exact .pure rfl

theorem plain_replaceFile {data : Bytes} :
    Act.Plain op.IsAt (op.replaceFile cfg seen stat data) := by
  refine .bind still_unchanged.plain fun same _ => .ite (.pure rfl) (.ite plain_fileResult
    (.ite (.pure rfl) (.bind (plain_writeLocalFile (.ret _) (.ret _)) fun r _ => ?_)))
  rcases r with ⟨copy, e | _⟩
  · exact plain_fileResult
  · exact .pure rfl

theorem plain_patchFile {pieces : List (ℕ × Bytes)} :
    Act.Plain op.IsAt (op.patchFile cfg seen stat pieces) := by
  have hpatch : Try.Plain (op.patch pieces) := by
    refine .seq (.call trivial) fun base => ?_
    split
    · exact .ret _
    · exact .throw _
    · exact .ret _
  refine .bind still_unchanged.plain fun same _ => .ite (.pure rfl) (.ite plain_fileResult
    (.bind (plain_writeLocalFile hpatch (.ret _)) fun r _ => ?_))
  rcases r with ⟨copy, e | _⟩
  · exact plain_fileResult
  · exact .pure rfl

theorem plain_processChmod_download : Act.Plain op.IsAt op.processChmod := by
  refine .ask trivial fun r => ?_
  cases r <;> exact .pure rfl

end Downloads

end Afs.Sync
