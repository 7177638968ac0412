import Afs.Sync.Calls
import Afs.Sync.Plain

/-!
# Programs that leave the live tree alone

The downloads of the daemon, whether an event or a full reconciliation asks for them, write to the
local folder and to the sync state only.
-/

namespace Afs.Sync

variable {α β : Type}

/-- No command of the program writes to the live tree. -/
def Act.Local (x : Act α) : Prop := x.Only Cmd.isLocal fun _ => True

/-- No command of the program writes to the live tree, whether it fails or not. -/
def Try.Local (x : Try α) : Prop := Act.Local x.run

/-! ## Composition -/

variable {x : Act α}

namespace Act.Local

theorem pure (a : α) : Act.Local (Pure.pure a : Act α) := trivial

theorem bind {f : α → Act β} (hx : Act.Local x) (hf : ∀ a, Act.Local (f a)) :
    Act.Local (x >>= f) := Prog.Only.bind hx fun a _ => hf a

theorem issue {c : Cmd} (hc : c.isLocal) : Act.Local c.issue := ⟨hc, fun _ => trivial⟩

theorem ite {b : Prop} [Decidable b] {y : Act α} (hx : Act.Local x) (hy : Act.Local y) :
    Act.Local (if b then x else y) := by
  split_ifs
  · exact hx
  · exact hy

theorem of_under {Q : α → Prop} (hx : x.Under (S := sig) (fun _ _ => True) Cmd.isLocal Q) :
    Act.Local x := by
  induction x with
  | ret a => trivial
  | ask c k ih => exact ⟨hx.1, fun r => ih r (hx.2 r trivial)⟩

end Act.Local

theorem Cmd.Still.isLocal {c : Cmd} (h : c.Still) : c.isLocal := by
  cases c <;> trivial

theorem Act.Still.isLocal {Q : α → Prop} (hx : Act.Still Q x) : Act.Local x :=
  .of_under (Prog.Under.mono hx (fun _ _ h => h) (fun _ h => h.isLocal) fun _ h => h)

namespace Try.Local

theorem pure (a : α) : Try.Local (Pure.pure a : Try α) := trivial

theorem throw (e : SyncErr) : Try.Local (MonadExcept.throw e : Try α) := trivial

theorem bind {x : Try α} {f : α → Try β} (hx : Try.Local x) (hf : ∀ a, Try.Local (f a)) :
    Try.Local (x >>= f) := by
  refine Act.Local.bind hx fun r => ?_
  cases r with
  | ok a => exact hf a
  | error e => exact Act.Local.pure _

theorem lift (hx : Act.Local x) : Try.Local (liftM x : Try α) :=
  Act.Local.bind hx fun _ => Act.Local.pure _

theorem under {x : Try α} (hx : Try.Local x) :
    UnderE (S := sig) (fun _ _ => True) Cmd.isLocal (fun _ => True) x :=
  (Prog.Under.of_only hx fun _ h => h).imp fun _ _ _ _ => trivial

theorem ofOs {x : Act (Except OsErr α)} (hx : Act.Local x) : Try.Local (Sync.ofOs x) := by
  refine Act.Local.bind hx fun r => ?_
  cases r <;> exact Act.Local.pure _

theorem ite {b : Prop} [Decidable b] {x y : Try α} (hx : Try.Local x) (hy : Try.Local y) :
    Try.Local (if b then x else y) := by
  split_ifs
  · exact hx
  · exact hy

end Try.Local

/-! ## The state -/

theorem local_modifyState {f : SyncState → SyncState} : Act.Local (modifyState f) :=
  .bind (.issue trivial) fun _ => .pure _

theorem local_readState : Act.Local readState := .issue trivial

variable {p : Path}

theorem local_deferScanForPendingUpload : Act.Local (deferScanForPendingUpload p) :=
  .bind (.issue trivial) fun _ => .pure _

theorem local_orSweep {ok : Bool} : Act.Local (orSweep ok) :=
  .ite (.pure _) (.bind local_modifyState fun _ => .pure _)

variable {a : SyncAction}

theorem local_updateActionState {e : SyncEntry} : Try.Local (updateActionState a e) :=
  .bind (.lift (.issue trivial)) fun _ => .lift local_modifyState

/-! ## Looking -/

theorem local_actionStillCurrent (a : SyncAction) : Act.Local (actionStillCurrent a) := by
  refine .ite (.pure _) (.bind local_deferScanForPendingUpload fun pending => ?_)
  refine .ite (.pure _) (.bind local_readState fun s => ?_)
  exact .ite (.bind still_stillObserved.isLocal fun _ => local_orSweep)
    (.bind (.pure _) fun _ => local_orSweep)

variable {beforeCommit : Try Unit}

theorem local_writeLocalFile {write : Try Bytes} {conflict : Bool} {mode : ℕ}
    (hwrite : Try.Local write) (hcommit : Try.Local beforeCommit) :
    Act.Local (writeLocalFile p conflict mode write beforeCommit) :=
  .of_under (under_writeLocalFile (fun _ => Cmd.Still.isLocal) hwrite.under hcommit.under)

/-! ## Actions -/

variable {cfg : Config} {data : Bytes}

theorem local_recordFile : Try.Local (recordFile cfg a data) :=
  .bind (.lift (.issue trivial)) fun _ => local_updateActionState

theorem local_downloadStillCurrent (a : SyncAction) : Try.Local (downloadStillCurrent a) :=
  .bind (.lift (local_actionStillCurrent a)) fun _ => .ite (.pure _) (.throw _)

theorem local_stageDownload {conflict : Bool} : Try.Local (stageDownload cfg a conflict data) := by
  refine .bind (.lift (local_writeLocalFile (.pure _) (local_downloadStillCurrent a)))
    fun written => .bind (.lift local_orSweep) fun _ => ?_
  split
  · exact .pure _
  · exact .throw _
  · exact local_recordFile

theorem local_execDownload (cfg : Config) (a : SyncAction) : Try.Local (execDownload cfg a) := by
  refine .bind (.lift local_readState) fun s => .ite (.pure _) ?_
  refine .bind (.lift (.issue trivial)) fun data => ?_
  split
  · exact .ite (.pure _) (.throw _)
  · refine .bind (.lift (local_actionStillCurrent a)) fun current => .ite (.pure _) ?_
    refine .bind (.lift still_localBytes.isLocal) fun mode => ?_
    exact .ite local_recordFile local_stageDownload

theorem local_execMkdirLocal (a : SyncAction) : Try.Local (execMkdirLocal a) := by
  refine .bind (.ofOs (.issue trivial)) fun _ => ?_
  extract_lets rest
  have hrest : ∀ u, Try.Local (rest u) := fun _ =>
    .bind (.ofOs (.issue trivial)) fun _ => local_updateActionState
  exact .ite (.bind (.ofOs (.issue trivial)) hrest) (hrest ())

theorem local_execSymlinkDownload (a : SyncAction) : Try.Local (execSymlinkDownload a) := by
  refine .bind (.lift (still_processSymlink _).isLocal) fun res => ?_
  split
  · exact .throw _
  · exact .lift local_modifyState
  · refine .bind (.lift local_orSweep) fun _ => .bind (.lift (.issue trivial)) fun info => ?_
    exact local_updateActionState

/-- **A download of a full reconciliation leaves the live tree alone.** -/
theorem local_executeDownload : Try.Local (executeDownload cfg a) := by
  refine .bind (.lift (local_actionStillCurrent a)) fun current => .ite (.pure _) ?_
  split
  · exact local_execMkdirLocal a
  · exact local_execSymlinkDownload a
  · exact local_execDownload cfg a

end Afs.Sync
