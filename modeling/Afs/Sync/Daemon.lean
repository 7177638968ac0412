import Afs.Sync.Events
import Afs.Sync.FullReconciler

/-!
# The daemon

The goroutines of the daemon as tasks over one world. An event, an operation of a worker with the
handling of its result, and the two halves of a full reconciliation are pieces of work; a task is one
that has begun, up to where it has come. Tasks take their steps in any order, and users, other
clients and the clock go on between them. The state is written to disk now and then. A restart loses
the tasks and the queue, and goes on from what was written last.
-/

namespace Afs.Sync

/-! ## Full reconciliations in two halves -/

section Halves

variable (cfg : Config) (depth : ℕ)

/-- The first half of `warmStart`: the plan. -/
def planWarmStart (o : MapOrder) : Act (Except SyncErr (List SyncAction)) := do
  match ← (scanBoth cfg depth o).run with
  | .error e => pure (.error e)
  | .ok (found, remote) => do
    let plan ← buildPlan cfg o found remote
    pure (.ok plan)

/-- The second half of `warmStart`. -/
def finishWarmStart (plan : List SyncAction) : Act (Option SyncErr) := do
  let err ← if plan = [] then pure none else executePlan cfg depth plan
  cleanupTombstones
  pure err

theorem warmStart_eq (o : MapOrder) : warmStart cfg depth o = (do
    match ← planWarmStart cfg depth o with
    | .error e => pure (some e)
    | .ok plan => finishWarmStart cfg depth plan) := by
  unfold warmStart planWarmStart finishWarmStart
  rw [Prog.bind_assoc]
  congr 1
  funext r
  match r with
  | .error e => rfl
  | .ok (found, remote) =>
    dsimp only
    rw [Prog.bind_assoc]
    rfl

end Halves

/-! ## Work -/

/-- A piece of work of the daemon. -/
inductive Work
  | localEvent (o : MapOrder) (p : Path)
  | remoteEvent (p : Path)
  | sweep (o : MapOrder)
  | upload (op : UploadOp)
  | download (op : DownloadOp)
  | carryOut (plan : List SyncAction)

/-- Whether the work comes from outside. -/
def Work.isEvent : Work → Bool
  | .localEvent _ _ | .remoteEvent _ | .sweep _ => true
  | _ => false

/-- Carry out a piece of work: what there is to do afterwards. -/
def Work.run (cfg : Config) (depth : ℕ) : Work → Act (List Work)
  | .localEvent o p => do
    let ops ← handleLocalEvent cfg o p
    pure (ops.map .upload)
  | .remoteEvent p => do
    let ops ← handleRemoteEvent cfg p
    pure (ops.map .download)
  | .sweep o => do
    match ← planWarmStart cfg depth o with
    | .error _ => pure []
    | .ok plan => pure [.carryOut plan]
  | .upload op => do
    let res ← process cfg op
    let ops ← handleUploadResult cfg res
    pure (ops.map .download)
  | .download op => do
    let res ← op.process cfg depth
    let _ ← handleDownloadResult cfg res
    pure []
  | .carryOut plan => do
    let _ ← finishWarmStart cfg depth plan
    pure []

/-! ## Runs -/

/-- The world, the state as it was written last, the work that waits, the tasks under way, and the
work that was ever begun. -/
structure Daemon where
  world : World
  saved : SyncState := {}
  queue : List Work := []
  tasks : List (Act (List Work)) := []
  begun : List Work := []

/-- What a step is: a command of a task, a restart, or anything else. -/
inductive Label
  | command (c : Cmd)
  | restart
  | other

/-- What is read back of a state that was written: its entries and its counter. -/
def SyncState.loaded (s : SyncState) : SyncState where
  entries := s.entries
  nextVersion := s.nextVersion

/-- The steps of the daemon and of the world around it. -/
inductive Daemon.Step (cfg : Config) (depth : ℕ) : Daemon → Label → Daemon → Prop
  | event (d : Daemon) {work : Work} (h : work.isEvent) :
      Step cfg depth d .other { d with queue := d.queue ++ [work] }
  | start (d : Daemon) {work : Work} {before after : List Work}
      (h : d.queue = before ++ work :: after) :
      Step cfg depth d .other
        { d with
          queue := before ++ after
          tasks := d.tasks ++ [work.run cfg depth]
          begun := work :: d.begun }
  | command (d : Daemon) {c : Cmd} {k : c.Rep → Act (List Work)} {r : c.Rep} {w : World}
      {before after : List (Act (List Work))} (h : d.tasks = before ++ .ask c k :: after)
      (hexec : Exec c d.world r w) :
      Step cfg depth d (.command c) { d with world := w, tasks := before ++ k r :: after }
  | finish (d : Daemon) {works : List Work} {before after : List (Act (List Work))}
      (h : d.tasks = before ++ .ret works :: after) :
      Step cfg depth d .other
        { d with queue := d.queue ++ works, tasks := before ++ after }
  | outside (d : Daemon) {w : World} (h : w.state = d.world.state) :
      Step cfg depth d .other { d with world := w }
  | save (d : Daemon) : Step cfg depth d .other { d with saved := d.world.state }
  | restart (d : Daemon) :
      Step cfg depth d .restart
        { d with world := { d.world with state := d.saved.loaded }, queue := [], tasks := [] }

end Afs.Sync
