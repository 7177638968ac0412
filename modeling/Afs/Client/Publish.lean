import Afs.Client.Resolve

/-!
# Publishing a prepared change

`publication.go`: an operation stages its bytes, then one script publishes them against the
revision the operation saw. A script that needs hashes it was not given asks for a preparation
and is run again.
-/

namespace Afs.Client

open History

/-- `inodeFields` and the path hint: what a publication writes to the inode. -/
def inodeFieldsAtPath (i : InodeData) (p : Path) (includeContent : Bool) : InodeHash :=
  { type := some i.type, mode := some i.mode, uid := some i.uid, gid := some i.gid
    size := some i.size, ctimeMs := some i.ctimeMs, mtimeMs := some i.mtimeMs
    atimeMs := some i.atimeMs, parent := some i.parent, name := some i.name
    target := if i.type = .symlink then some i.target else none
    contentRef := i.contentRef
    content := if includeContent ∧ i.type = .file ∧ i.contentRef.isNone then some i.content else none
    path := some p }

/-- `selectContentRef`: files are written in the form the server prefers, but an Array stays
one. -/
def selectContentRef (i : InodeData) : Op InodeData := do
  if i.type ≠ .file then pure i
  else
    let preferred ← call .preferredRef
    pure { i with contentRef := some (if i.contentRef = some .array then .array else preferred) }

/-- The code a script returned; a raised error is an error of the command. -/
def Reply.toCode : Reply → Except Err ℤ
  | .code n => .ok n
  | .raised e => .error (.lua e)
  | .record _ => .error (.message "unexpected reply")
  | .refused name => .error (.message name)

@[inherit_doc Reply.toCode]
def scriptCode (script : Op Reply) : Op ℤ := do
  let r ← script
  lift r.toCode

/-- `runMutationScript`. -/
def runMutationScript (ctx : Ctx) (script : Op Reply) : Op ℤ :=
  if ctx.expectedParents = [] then scriptCode script else retryWatch (scriptCode script) watchAttempts

/-- The attempts of `runPreparedMutation`; `prepared` tells whether hashes were prepared. It
returns how it ended and whether there is a preparation to discard. -/
def preparedAttempts (script : Op ℤ) (operation : Token) (requests : List PrepareRequest) :
    ℕ → Bool → Op (Except Err ℤ × Bool)
  | 0, prepared =>
    pure (.error (.message "versioning policy changed repeatedly during publication; retry"), prepared)
  | attempts + 1, prepared => do
    match ← attempt script with
    | .error (.lua .preparationRequired) =>
      match ← attempt (call (.prepare operation requests)) with
      | .error e => pure (.error e, prepared)
      | .ok () => preparedAttempts script operation requests attempts true
    | r => pure (r, prepared)

/-- `runPreparedMutation`. -/
def runPreparedMutation (ctx : Ctx) (script : Op Reply) (operation : Token)
    (requests : List PrepareRequest) : Op ℤ := do
  let (r, prepared) ←
    preparedAttempts (runMutationScript ctx script) operation requests 3 false
  onlyIf (prepared = true) (ignore (call (.discardPreparation operation)))
  lift r

/-- The error a publication code stands for. -/
def codeError (code : ℤ) : Option Err :=
  if code = -1 then some .writeConflict
  else if code = -2 then some .workspaceChanged
  else if code = -4 then some (.message "workspace change journal has wrong Redis type")
  else if code = -5 then some .nativeSessionLost
  else none

/-- Whether a lost acknowledgement was a commit: the inode holds the operation's token. -/
def committed (id : Id) (revision : Rev) : Op Bool := do
  match ← attempt (call (.getRevision id)) with
  | .ok (some token) => pure (token = revision)
  | _ => pure false

/-- The arguments `publishStagedFile` gives its script. -/
def publishArgs (ctx : Ctx) (p : Path) (i : InodeData) (stage : Token) (creating : Bool)
    (extra : InodeHash) (revision : Rev) : PublishArgs :=
  let fields := (inodeFieldsAtPath i p false).merge extra
  { id := i.id, name := i.name, parent := i.parent, expected := i.revision, revision := revision
    create := creating, mtimeMs := i.mtimeMs, size := i.size, stage := stage
    payload := mutationPayload ctx .inode [p]
    -- the path of an open handle is only a hint and is not written back
    fields := if ctx.ranged then { fields with path := none } else fields }

/-- The publication itself: the code of the script, or `0` if its acknowledgement was lost and the
inode holds the operation's token. -/
def publishCode (ctx : Ctx) (args : PublishArgs) (request : PrepareRequest) : Op ℤ := do
  match ← attempt (runPreparedMutation ctx (call (.publishFile args)) args.revision [request]) with
  | .error e => do
    if ← committed args.id args.revision then pure 0 else throw e
  | .ok code => pure code

/-- `publishStagedFile`: the published inode, with its new revision. -/
def publishStagedFile (ctx : Ctx) (p : Path) (i : InodeData) (stage : Token) (creating : Bool)
    (extra : InodeHash) : Op InodeData := do
  lift (checkExpectedParent ctx p i.parent)
  lift (checkWriteCondition ctx i creating)
  let revision ← call .newOriginID
  let whole := extra.chunkSize.isNone && !ctx.ranged && (i.content.length : ℤ) == i.size
  let request : PrepareRequest :=
    { inode := i.id, expected := i.revision, path := p, afterType := some .file
      afterBody := some (.stage stage), afterRef := i.contentRef, afterSize := i.size
      known := if whole then some i.content else none }
  let code ← publishCode ctx (publishArgs ctx p i stage creating extra revision) request
  if code = -3 then throw (.message "staged file expired before publication")
  else
    match codeError code with
    | some e => throw e
    | none => do
      let i := { i with revision := revision }
      pruneHistory code
      onlyIf (ctx.ranged = false) (call (.cachePath p i))
      pure i

/-- `deletePublishedInode`. -/
def deletePublishedInode (ctx : Ctx) (p : Path) (i : InodeData) : Op Unit := do
  lift (checkExpectedParent ctx p i.parent)
  lift (checkWriteCondition ctx i false)
  let operation ← call .newOriginID
  let now ← call .nowMs
  let args : DeleteArgs :=
    { id := i.id, name := i.name, parent := i.parent, expected := i.revision, now := now
      operation := operation, path := p, payload := mutationPayload ctx .inode [p] }
  let request : PrepareRequest := { inode := i.id, expected := i.revision, path := p }
  let code ← runPreparedMutation ctx (call (.deleteInode args)) operation [request]
  if code = -3 then throw .dirNotEmpty
  else
    match codeError code with
    | some e => throw e
    | none => pruneHistory code

/-- `updatePublishedInode`: the inode with its new revision. -/
def updatePublishedInode (ctx : Ctx) (p : Path) (i : InodeData) (fields : InodeHash) :
    Op InodeData := do
  lift (checkExpectedParent ctx p i.parent)
  lift (checkWriteCondition ctx i false)
  let revision ← call .newOriginID
  let args : UpdateArgs :=
    { id := i.id, name := i.name, parent := i.parent, expected := i.revision, revision := revision
      payload := mutationPayload ctx .inode [p], fields := fields }
  let request : PrepareRequest :=
    { inode := i.id, expected := i.revision, path := p, afterType := some i.type }
  let code ← runPreparedMutation ctx (call (.updateInode args)) revision [request]
  match codeError code with
  | some e => throw e
  | none => do
    pruneHistory code
    pure { i with revision := revision }

/-- `saveInodeMeta`. -/
def saveInodeMeta (ctx : Ctx) (p : Path) (i : InodeData) : Op Unit := do
  let i ← updatePublishedInode ctx p i (inodeFieldsAtPath i p false)
  call (.cachePath p i)

/-- `discardStage`. -/
def discardStage (t : Token) : Op Unit := ignore (call (.stage t .del))

/-- Run `body` and discard the stage however it ends. -/
def withStage {α : Type} (t : Token) (body : Op α) : Op α := do
  let r ← attempt body
  discardStage t
  lift r

/-- `stageFullFile`: an empty file still has a stage to consume. -/
def stageFullFile (i : InodeData) : Op Token := do
  let t ← call .newOriginID
  let _ ← call (.stage t (if i.size = 0 then .set [] else .writeFull (i.contentRef.getD .ext) i.content))
  pure t

/-- `saveInode`. -/
def saveInode (ctx : Ctx) (p : Path) (i : InodeData) : Op Unit := do
  let i ← selectContentRef i
  if i.type ≠ .file then do
    let _ ← updatePublishedInode ctx p i (inodeFieldsAtPath i p true)
    pure ()
  else do
    lift (checkWriteCondition ctx i false)
    let t ← stageFullFile i
    withStage t do
      let _ ← publishStagedFile ctx p i t false {}
      pure ()

end Afs.Client
