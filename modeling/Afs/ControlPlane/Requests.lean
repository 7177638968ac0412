import Afs.Foundations.Rely
import Afs.ControlPlane.Restore

/-!
# Requests

What the control plane is asked to do with a workspace, together with what else happens to it: the
commands of its clients, and the end of the import lock's time. Any number of requests are under
way at once; one that stops half-way is one whose next command never comes.
-/

namespace Afs.ControlPlane

open History Prog Option

/-- What happens to a workspace. -/
inductive Request
  /-- `SaveCheckpointFromLiveWithOptions`. -/
  | save (fuel : ℕ) (name : CheckpointId) (allowUnchanged : Bool)
  /-- `DeleteCheckpoint`. -/
  | delete (ref : CheckpointId)
  /-- `RestoreCheckpoint`. -/
  | restore (choices : RestoreChoices) (ref : CheckpointId)
  /-- `MaterializeWorkspace`. -/
  | materialize
  /-- `Service.DeleteWorkspace`. -/
  | deleteWorkspace (batches : List (List Key))
  /-- One command of a client. -/
  | client (ctx : Client.Ctx) (o : Client.Choice) (c : Client.Cmd)
  /-- The import lock's time is over. -/
  | expireLock

/-- What a request does; the result says whether it has stored a checkpoint. -/
def Request.op : Request → Op Bool
  | .save fuel name allowUnchanged => saveCheckpointFromLive fuel name allowUnchanged
  | .delete ref => do
    deleteCheckpoint ref
    pure false
  | .restore choices ref => do
    restoreCheckpoint choices ref
    pure false
  | .materialize => do
    materializeWorkspace
    pure false
  | .deleteWorkspace batches => do
    ControlPlane.deleteWorkspace batches
    pure false
  | .client ctx o c => do
    call (.client ctx o c)
    pure false
  | .expireLock => do
    call .expireLock
    pure false

/-- The requests under way on a workspace. -/
abbrev Operations := Team sig Request (Except Err Bool) Plane

/-- The requests that `ok` allows may be started. -/
def Starts (ok : Request → Prop) (r : Request) (p : Prog sig (Except Err Bool)) : Prop :=
  ok r ∧ p = r.op.run

/-- The exchanges that meet a condition on the state they find. -/
def ExecIf (clean : Cmd → Plane → Prop) (me : ℕ) (_ : Request) (c : Cmd) (p : Plane)
    (r : Except Err (Val c)) (p' : Plane) : Prop :=
  Exec me c p r p' ∧ clean c p

/-- A workspace nobody works on; the next request has number `n`. -/
def quiet (p : Plane) (n : ℕ) : Operations := ⟨p, n, fun _ => none⟩

/-- The next `n` exchanges of a request. -/
def steps (i n : ℕ) : List (Team.Move Request Choice) := List.replicate n (.step i {})

section Schedules

variable (ok : Request → Prop) [DecidablePred ok] (clean : Cmd → Plane → Prop)
  [∀ c p, Decidable (clean c p)]

/-- What a schedule of requests leads to; requests and exchanges that are not allowed are skipped. -/
def play (l : List (Team.Move Request Choice)) (T : Operations) : Operations :=
  Team.play (fun r => if ok r then some r.op.run else none)
    (fun me _ o c p => if clean c p then some (exec me o c p) else none) l T

theorem run_play (l : List (Team.Move Request Choice)) (T : Operations) :
    Team.Run (Starts ok) (ExecIf clean) T (play ok clean l T) := by
  refine Team.run_play (fun r q h => ?_) (fun me r o c p v p' h => ?_) l T
  · rw [ite_none_right_eq_some] at h
    exact ⟨h.1, (Option.some.inj h.2).symm⟩
  · rw [ite_none_right_eq_some] at h
    exact ⟨⟨o, Option.some.inj h.2⟩, h.1⟩

end Schedules

/-! ## Programs and their commands -/

section Only

variable {α β : Type} {P : Cmd → Prop} {Q : α → Prop} {R : β → Prop}

theorem only_call {c : Cmd} (hc : P c) : Issues P (call c) :=
  ⟨hc, fun _ _ _ => trivial⟩

theorem only_lift {x : Except Err α} (hx : ∀ a, x = .ok a → Q a) : OnlyE P Q (lift x) := hx

theorem only_required {x : Op (Option α)} {e : Err} (hx : OnlyE P (fun a => ∀ v, a = some v → Q v) x) :
    OnlyE P Q (required e x) := by
  refine hx.bind fun a ha => ?_
  cases a with
  | some v => exact .pure (ha v rfl)
  | none => exact .throw _

theorem only_onlyIf {b : Prop} [Decidable b] {x : Op Unit} (hx : Issues P x) :
    Issues P (onlyIf b x) := by
  unfold onlyIf
  split
  · exact hx
  · exact .pure trivial

end Only

/-- The commands that change nothing. -/
def Cmd.reads : Cmd → Bool
  | .newToken | .now | .lockLost | .getMeta | .getGeneration | .latestChange | .getLock
  | .getSavepoint _ | .getManifest _ | .listSavepoints | .getBlob _ | .getBlobRef _
  | .getRestoreBefore | .rootExists | .readInode _ | .readDirents _ | .getContent _
  | .getChunks _ _ _ | .preferredRef | .getPolicy | .hasHistory | .watch | .audit => true
  | _ => false

theorem effect_reads {c : Cmd} (hc : c.reads = true) (me : Token) (o : Choice) (p : Plane) :
    (effect me o p c).2 = p := by
  cases c <;> first | rfl | cases hc

theorem exec_reads {me : Token} {c : Cmd} {p p' : Plane} {r : Except Err (Val c)}
    (hc : c.reads = true) (h : Exec me c p r p') : p' = p :=
  h.of_effect (P := (· = p)) rfl fun o => effect_reads hc me o p

section Reading

variable {P : Cmd → Prop} (hP : ∀ c, c.reads = true → P c)
include hP

theorem only_read (c : Cmd) (hc : c.reads = true) : Issues P (call c) := only_call (hP c hc)

theorem only_resolve : Issues P resolveWorkspaceMeta :=
  only_required ((only_read hP .getMeta rfl).mono (fun _ h => h) fun _ _ _ _ => trivial)

omit hP in
theorem only_validateName (n : CheckpointId) : Issues P (validateName n) :=
  only_lift fun _ _ => trivial

theorem only_getManifest (n : CheckpointId) : Issues P (getManifest n) :=
  (only_resolve hP).bind fun _ _ => only_required
    ((only_read hP (.getManifest n) rfl).mono (fun _ h => h) fun _ _ _ _ => trivial)

theorem only_getSavepointMeta (n : CheckpointId) : Issues P (getSavepointMeta n) :=
  (only_resolve hP).bind fun _ _ => only_read hP (.getSavepoint n) rfl

theorem only_readSavepoints {l : List CheckpointId} : Issues P (readSavepoints l) := by
  induction l with
  | nil => exact .pure trivial
  | cons n l ih =>
    exact (only_read hP (.getSavepoint n) rfl).bind fun _ _ => ih.bind fun _ _ => .pure trivial

theorem only_listSavepoints (limit : ℕ) : Issues P (listSavepoints limit) :=
  (only_resolve hP).bind fun _ _ => (only_read hP .listSavepoints rfl).bind fun _ _ =>
    only_readSavepoints hP

theorem only_checkpointRef (ref : CheckpointId) : Issues P (checkpointRef ref) := by
  unfold checkpointRef
  split
  · refine (only_listSavepoints hP 1).bind fun l _ => ?_
    cases l with
    | nil => exact .throw _
    | cons cp _ => exact .pure trivial
  · exact .pure trivial

theorem only_findSavepoint (ref : CheckpointId) : Issues P (findSavepoint ref) := by
  refine (only_getSavepointMeta hP ref).bind fun cp _ => ?_
  cases cp with
  | some cp => exact .pure trivial
  | none =>
    exact (only_listSavepoints hP 0).bind fun _ _ => only_required (.pure fun _ _ => trivial)

theorem only_getCheckpoint (ref : CheckpointId) : Issues P (getCheckpoint ref) :=
  (only_resolve hP).bind fun _ _ => (only_checkpointRef hP ref).bind fun ref _ =>
    (only_validateName ref).bind fun _ _ => (only_findSavepoint hP ref).bind fun cp _ =>
      (only_getManifest hP cp.id).bind fun _ _ => .pure trivial

theorem only_checkLock {token : Option Token} : Issues P (checkLock token) := by
  refine (only_read hP .getLock rfl).bind fun t _ => ?_
  match token, t with
  | some _, none => exact .throw _
  | some t, some t' =>
    dsimp only
    split
    · exact .pure trivial
    · exact .throw _
  | none, some _ => exact .throw _
  | none, none => exact .pure trivial

theorem only_checkGeneration {g : Option Generation} : Issues P (checkGeneration g) := by
  cases g with
  | none => exact .pure trivial
  | some g =>
    refine OnlyE.bind (Q := fun _ => True) (only_required
      ((only_read hP .getGeneration rfl).mono (fun _ h => h) fun _ _ _ _ => trivial)) fun _ _ => ?_
    split
    · exact .pure trivial
    · exact .throw _

theorem only_checkChanges {id : Option ℕ} : Issues P (checkChanges id) := by
  cases id with
  | none => exact .pure trivial
  | some id =>
    refine (only_read hP .latestChange rfl).bind fun _ _ => ?_
    split
    · exact .pure trivial
    · exact .throw _

theorem only_readRefs {l : List (Hash × ℤ)} :
    OnlyE P (fun refs => refs.map Prod.fst = l.map Prod.fst) (readRefs l) := by
  induction l with
  | nil => exact .pure rfl
  | cons e l ih =>
    refine (only_read hP (.getBlobRef e.1) rfl).bind fun ref _ => ih.bind fun refs hrefs => .pure ?_
    simp [hrefs]

end Reading

end Afs.ControlPlane
