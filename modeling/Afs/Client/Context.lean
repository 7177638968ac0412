import Afs.History.Capture

/-!
# What an operation carries

The Go context of a client operation: the workspace generation and session lease it is bound to,
the observation a conditional mutation expects, the directory handles it must stay under. All of
them are fixed for the whole operation.
-/

namespace Afs.Client

open History

/-- The errors of the client. -/
inductive Err
  /-- `redis.Nil`: a path component or a key does not exist. -/
  | redisNil
  | notFound
  | notFile
  | notDir
  | notSymlink
  | alreadyExists
  | dirNotEmpty
  | unsupported
  | cannotWriteRoot
  | cannotMoveRoot
  | cannotRemoveRoot
  | parentConflict
  | lockWouldBlock
  | writeConflict
  | workspaceChanged
  | nativeSessionLost
  /-- `redis.TxFailedErr`: a watched key changed. -/
  | txFailed
  /-- The internal `errNeedDirWatch`. -/
  | needDirWatch
  /-- The reply of a command was lost, or the command never reached Redis. -/
  | network
  /-- A script raised an error. -/
  | lua (e : LuaError)
  | message (text : String)
  /-- Not an error of the source: a loop without a bound of its own has not ended within the
  fuel it was given. -/
  | unfinished
  deriving DecidableEq, Repr

/-- `StatResult`. -/
structure Stat where
  inode : Id
  revision : Rev
  type : Kind
  mode : ℕ
  uid : ℕ
  gid : ℕ
  size : ℤ
  ctime : ℤ
  mtime : ℤ
  atime : ℤ
  deriving DecidableEq, Repr

/-- `toStat`. -/
def toStat (i : InodeData) : Stat :=
  ⟨i.id, i.revision, i.type, i.mode, i.uid, i.gid, i.size, i.ctimeMs, i.mtimeMs, i.atimeMs⟩

/-- The context of an operation, together with the fields of the client that runs it. -/
structure Ctx where
  /-- `WithWorkspaceGeneration`; `none` is an unmanaged client. -/
  generation : Option Generation := none
  /-- The lease of a native session. -/
  lease : Option Token := none
  /-- The session has checked the generation for the whole request. -/
  requestChecked : Bool := false
  /-- `WithExpectedStat`; `some none` expects an absent path. -/
  expectedStat : Option (Option Stat) := none
  /-- `WithExpectedParent`; the identity `0` conflicts with everything. -/
  expectedParents : List (Path × Id) := []
  /-- A range operation on an open handle. -/
  ranged : Bool := false
  metadata : Metadata := {}
  origin : Token := 0
  publishDisabled : Bool := false

/-- `WithExpectedStat`. -/
def Ctx.withExpectedStat (ctx : Ctx) (stat : Option Stat) : Ctx := { ctx with expectedStat := some stat }

/-- `WithExpectedParent`: a second identity for the same path conflicts. -/
def Ctx.withExpectedParent (ctx : Ctx) (path : Path) (inode : Id) : Ctx :=
  let prior := ctx.expectedParents.lookup path
  let inode := if prior.isSome ∧ prior ≠ some inode then 0 else inode
  { ctx with expectedParents := (path, inode) :: ctx.expectedParents.filter fun e => e.1 ≠ path }

/-- `checkWriteCondition`. -/
def checkWriteCondition (ctx : Ctx) (inode : InodeData) (creating : Bool) : Except Err Unit :=
  match ctx.expectedStat with
  | none => .ok ()
  | some none => if creating then .ok () else .error .writeConflict
  | some (some stat) =>
    if creating ∨ stat.inode ≠ inode.id ∨ stat.revision ≠ inode.revision then .error .writeConflict
    else .ok ()

/-- `checkExpectedParent`. -/
def checkExpectedParent (ctx : Ctx) (childPath : Path) (parent : Id) : Except Err Unit :=
  if ctx.expectedParents = [] then .ok ()
  else
    match ctx.expectedParents.lookup (parentOf childPath) with
    | none => .error .writeConflict
    | some expected =>
      if expected = 0 ∨ expected ≠ parent then .error .writeConflict else .ok ()

/-- The message argument of a publication, before the script completes it. -/
structure Payload where
  origin : Token
  op : InvalidateOp
  paths : List Path
  metadata : Option Metadata := none
  suppress : Bool := false
  deriving DecidableEq

/-- `invalidationPayload`; `none` is the empty string. -/
def invalidationPayload (ctx : Ctx) (op : InvalidateOp) (paths : List Path) : Option Payload :=
  if ctx.publishDisabled then none else some { origin := ctx.origin, op := op, paths := paths }

/-- `mutationPayload`: attribution travels even when notifications are off. -/
def mutationPayload (ctx : Ctx) (op : InvalidateOp) (paths : List Path) : Option Payload :=
  if ctx.metadata = {} then invalidationPayload ctx op paths
  else some { origin := ctx.origin, op := op, paths := paths, metadata := some ctx.metadata
              suppress := ctx.publishDisabled }

/-- A mutation that replaces `revision` of inode `id`, or creates, agrees with the observation the
operation is bound to. -/
def Ctx.Expects (ctx : Ctx) (creating : Bool) (id : Id) (revision : Rev) : Prop :=
  match ctx.expectedStat with
  | none => True
  | some none => creating = true
  | some (some stat) => creating = false ∧ stat.inode = id ∧ stat.revision = revision

theorem expects_of_check {ctx : Ctx} {inode : InodeData} {creating : Bool}
    (h : checkWriteCondition ctx inode creating = .ok ()) :
    ctx.Expects creating inode.id inode.revision := by
  unfold checkWriteCondition at h
  unfold Ctx.Expects
  split
  · trivial
  · next he =>
    rw [he] at h
    dsimp only at h
    split at h
    · assumption
    · cases h
  · next stat he =>
    rw [he] at h
    dsimp only at h
    split at h
    · cases h
    · next hc =>
      simp only [not_or, Bool.not_eq_true, not_not] at hc
      exact hc

end Afs.Client
