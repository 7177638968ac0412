import Afs.Client.Scripts
import Afs.Foundations.JsonString

/-!
# The namespace scripts

Creating a directory or a symbolic link, renaming, and restoring a version of a file. The first
two run inside a `WATCH` transaction (`Client/Command.lean`) and check neither generation nor
lease themselves; a restore is one script that checks everything again, down to the directories
on the way to its parent.

The fields of a created inode, and the change of a restore, reach their script as JSON.
-/

namespace Afs

/-- The fields of a new inode after `json.Marshal` and `cjson.decode`: byte strings come back
with U+FFFD for what is not UTF-8. -/
def InodeHash.viaJson (h : InodeHash) : InodeHash :=
  { h with
    name := h.name.map Json.viaJson
    target := h.target.map Json.viaJson
    path := h.path.map (·.map Json.viaJson) }

namespace Client

open History Option

/-! ## Directories and symbolic links -/

/-- The arguments of `createMetadataScript`; `fields` is what `json.Marshal` was given. -/
structure CreateArgs where
  id : Id
  parent : Id
  path : Path
  fields : InodeHash
  payload : Option Payload

/-- The checks of `createMetadataScript`, after decoding. -/
def createMetadataCheck (a : CreateArgs) (s : Store) : Option ℤ :=
  let after := a.fields.viaJson
  let linked := s.lookup a.parent (after.name.getD [])
  if linked = some a.id ∧ (s.inode a.id).bind (·.revision) = after.revision then some 2
  else if linked.isSome then some (-1)
  else if s.kind a.parent ≠ some .dir then some (-1)
  else none

/-- What `createMetadataScript` has found when it goes on to publish. -/
structure CreateMetadataPassed (a : CreateArgs) (s : Store) : Prop where
  free : s.lookup a.parent (a.fields.viaJson.name.getD []) = none
  parent : s.kind a.parent = some .dir

theorem createMetadataCheck_passed {a : CreateArgs} {s : Store}
    (h : createMetadataCheck a s = none) : CreateMetadataPassed a s := by
  simp only [createMetadataCheck, ite_some_eq_none] at h
  obtain ⟨-, h2, h3, -⟩ := h
  exact ⟨by simpa using h2, by simpa using h3⟩

/-- One inode of the created kind more. -/
def Info.created (i : Info) (kind : Option Kind) : Info :=
  if kind = some .dir then { i with directories := i.directories + 1 }
  else { i with symlinks := i.symlinks + 1 }

/-- The writes of `createMetadataScript`. -/
def createMetadataWrite (a : CreateArgs) (s : Store) : Store :=
  let after := a.fields.viaJson
  let s := ((s.hset a.id after).link a.parent (after.name.getD []) a.id).hset a.parent
    (touched (after.ctimeMs.getD 0))
  let s := s.count fun i => Info.created i after.type
  { s with rootDirty := true }

/-- The change `createMetadataScript` captures. -/
def createMetadataChange (a : CreateArgs) : Change :=
  { id := a.id, path := a.path, after := some a.fields.viaJson, operation := .create }

/-- `createMetadataScript`. -/
def createMetadataScript (a : CreateArgs) (w : World) : Reply × World :=
  match createMetadataCheck a w.toStore with
  | some code => (.code code, w)
  | none =>
    let after := a.fields.viaJson
    let counter :=
      if after.type = some .dir then w.counters.directories else w.counters.symlinks
    if streamWrong w.toStore then (.raised streamError, w)
    else if ¬ counterOk counter 1 then (.raised accountingError, w)
    else
      publish w (after.revision.getD 0) a.payload [createMetadataChange a] (createMetadataWrite a)

theorem createMetadataScript_cases (a : CreateArgs) (w : World) :
    Scripted (createMetadataCheck a w.toStore) w (a.fields.viaJson.revision.getD 0) a.payload
      [createMetadataChange a] (createMetadataWrite a) (createMetadataScript a w) := by
  simp only [createMetadataScript]
  split
  · next code hc => exact .inl ⟨code, hc, rfl⟩
  · next hc =>
    refine .inr ⟨hc, ?_⟩
    split
    · exact .refused _
    · generalize (if a.fields.viaJson.type = some Kind.dir then w.counters.directories
        else w.counters.symlinks) = n
      split
      · exact .refused _
      · exact publish_cases

/-! ## Rename -/

/-- The arguments of `renameMetadataScript`. -/
structure RenameArgs where
  id : Id
  oldParent : Id
  oldName : Name
  newParent : Id
  newName : Name
  expected : Rev
  revision : Rev
  ctimeMs : ℤ
  /-- The inode the destination is expected to have, with its revision. -/
  replaced : Option (Id × Rev)
  /-- The destination path as the caller gave it. -/
  dst : Path
  /-- The resolved source path. -/
  src : Path
  payload : Option Payload

/-- The checks of `renameMetadataScript`. -/
def renameMetadataCheck (a : RenameArgs) (s : Store) : Option ℤ :=
  let linked := s.lookup a.newParent a.newName
  let revision := s.revision a.id
  if linked = some a.id ∧ revision = a.revision then some 2
  else if s.lookup a.oldParent a.oldName ≠ some a.id ∨ revision ≠ a.expected then some (-1)
  else if linked ≠ a.replaced.map Prod.fst then some (-1)
  else if s.kind a.oldParent ≠ some .dir ∨ s.kind a.newParent ≠ some .dir then some (-1)
  else
    match linked with
    | none => none
    | some id =>
      if s.revision id ≠ (a.replaced.map Prod.snd).getD 0 then some (-1)
      else if (s.kind id).isNone then some (-1)
      else none

/-- What `renameMetadataScript` has found when it goes on to publish. -/
structure RenameMetadataPassed (a : RenameArgs) (s : Store) : Prop where
  linked : s.lookup a.oldParent a.oldName = some a.id
  expected : s.revision a.id = a.expected
  destination : s.lookup a.newParent a.newName = a.replaced.map Prod.fst
  oldParent : s.kind a.oldParent = some .dir
  newParent : s.kind a.newParent = some .dir
  replaced : ∀ id, s.lookup a.newParent a.newName = some id → (s.kind id).isSome

theorem renameMetadataCheck_passed {a : RenameArgs} {s : Store}
    (h : renameMetadataCheck a s = none) : RenameMetadataPassed a s := by
  simp only [renameMetadataCheck, ite_some_eq_none] at h
  obtain ⟨-, h2, h3, h4, h⟩ := h
  simp only [not_or, not_not] at h2 h3 h4
  refine ⟨h2.1, h2.2, h3, h4.1, h4.2, fun id hid => ?_⟩
  simp only [hid, ite_some_eq_none] at h
  simpa [isSome_iff_ne_none] using h.2.1

/-- The fields a rename writes to its source. -/
def renamedFields (a : RenameArgs) : InodeHash :=
  { parent := some a.newParent, name := some a.newName, ctimeMs := some a.ctimeMs
    path := some a.dst, revision := some a.revision }

/-- The writes of `renameMetadataScript`. The replaced inode goes last. -/
def renameMetadataWrite (a : RenameArgs) (replaced : Option (Id × Option Kind × ℤ)) (s : Store) :
    Store :=
  let s := ((((s.unlink a.oldParent a.oldName).link a.newParent a.newName a.id).hset a.id
    (renamedFields a)).hset a.oldParent (touched a.ctimeMs)).hset a.newParent (touched a.ctimeMs)
  let s :=
    match replaced with
    | none => s
    | some (id, kind, size) => (s.del id).count fun i => (i.forget kind).release kind size
  { s with rootDirty := true }

/-- The changes a rename captures. -/
def renameChanges (a : RenameArgs) (s : Store) (linked : Option Id) : List Change :=
  let source : Change :=
    { id := a.id, path := a.src, after := some ((s.fields a.id).merge (renamedFields a))
      operation := .rename }
  match linked with
  | none => [source]
  | some id => [source, { id := id, path := a.dst, after := none, operation := .replace }]

/-- What a rename removes from its destination. -/
def replacedBy (a : RenameArgs) (s : Store) : Option (Id × Option Kind × ℤ) :=
  (s.lookup a.newParent a.newName).map fun id => (id, s.kind id, s.size id)

/-- `renameMetadataScript`. -/
def renameMetadataScript (a : RenameArgs) (w : World) : Reply × World :=
  match renameMetadataCheck a w.toStore with
  | some code => (.code code, w)
  | none =>
    let linked := w.lookup a.newParent a.newName
    let replaced := replacedBy a w.toStore
    let exhausted := replaced.any fun (_, kind, size) =>
      !(counterOk (w.counters.counter kind) (-1)) ||
        (kind == some .file && !(counterOk w.counters.totalDataBytes (-size)))
    if streamWrong w.toStore then (.raised streamError, w)
    else if exhausted then (.raised accountingError, w)
    else
      publish w a.revision a.payload (renameChanges a w.toStore linked)
        (renameMetadataWrite a replaced)

theorem renameMetadataScript_cases (a : RenameArgs) (w : World) :
    Scripted (renameMetadataCheck a w.toStore) w a.revision a.payload
      (renameChanges a w.toStore (w.lookup a.newParent a.newName))
      (renameMetadataWrite a (replacedBy a w.toStore)) (renameMetadataScript a w) := by
  simp only [renameMetadataScript]
  split
  · next code hc => exact .inl ⟨code, hc, rfl⟩
  · next hc =>
    refine .inr ⟨hc, ?_⟩
    split
    · exact .refused _
    · split
      · exact .refused _
      · exact publish_cases

/-! ## Restoring a version -/

/-- The arguments of `restoreVersionScript`. -/
structure RestoreArgs where
  /-- The inode that will hold the restored version. -/
  id : Id
  /-- The inode the path is expected to have; `none` expects it absent. -/
  expectedId : Option Id
  expected : Rev
  operation : Rev
  /-- The directories down to the parent. -/
  parentPath : Path
  path : Path
  fields : InodeHash
  /-- The inline content the caller saw, if it was inline. -/
  beforeContent : Option Bytes
  stage : Option Token
  beforeHash : Hash
  afterHash : Hash
  fileId : Option LineageId
  undelete : Bool
  origin : Token
  metadata : Metadata
  payload : Option Payload

/-- The directory the components lead to from `d`, if every step is an entry of a directory. -/
def descend (s : Store) : Path → Id → Option Id
  | [], d => some d
  | n :: ns, d =>
    match s.lookup d n with
    | some i => if s.kind i = some .dir then descend s ns i else none
    | none => none

/-- The staged value fits the restored file. -/
def stageFits (s : Store) (a : RestoreArgs) (size : ℤ) : Bool :=
  match a.stage.bind s.stage with
  | some (.str b) =>
    (size == 0 || a.fields.contentRef == some .ext) && (b.length : ℤ) == size
  | some (.array _) => size != 0 && a.fields.contentRef == some .array
  | none => false

/-- How `restoreVersionScript` refuses, or the current inode of the path when it goes on. -/
def restoreVersionCheck (g : Guard) (a : RestoreArgs) (s : Store) : Except Reply (Option Id) :=
  let conflict := Reply.refused "HISTORY_RESTORE_CONFLICT"
  let after := a.fields.viaJson
  if g.generation.isNone ∨ s.generation ≠ g.generation then
    .error (.refused "HISTORY_RESTORE_GENERATION")
  else if (s.inode a.id).bind (·.revision) = some a.operation then
    match s.history.records ⟨a.operation, a.id, .a⟩ with
    | some r => .error (.record r)
    | none => .error (.refused "HISTORY_RESTORE_RESULT_MISSING")
  else
    match descend s a.parentPath rootInodeID with
    | none => .error conflict
    | some parent =>
      if s.kind parent ≠ some .dir ∨ some parent ≠ after.parent then .error conflict
      else
        let current := s.lookup parent (after.name.getD [])
        if current ≠ a.expectedId then .error conflict
        else if current.any fun c => s.revision c != a.expected then .error conflict
        else if current.any fun c => s.kind c != some .file && s.kind c != some .symlink then
          .error conflict
        else if a.undelete ∧ ¬ (a.fileId.bind s.history.file |>.bind (·.head)
            |>.bind s.history.records).any (·.deleted) then .error conflict
        else if current.any fun c => s.kind c == some .file && (s.fields c).contentRef.isNone &&
            ((s.fields c).content.getD [] != a.beforeContent.getD []) then .error conflict
        else .ok current

/-- What `restoreVersionScript` has found when it goes on to publish. -/
structure RestoreVersionPassed (g : Guard) (a : RestoreArgs) (s : Store) (current : Option Id) :
    Prop where
  bound : g.generation.isSome ∧ s.generation = g.generation
  fresh : (s.inode a.id).bind (·.revision) ≠ some a.operation
  parent : ∃ d, a.fields.viaJson.parent = some d ∧ s.kind d = some .dir ∧
    s.lookup d (a.fields.viaJson.name.getD []) = current
  found : current = a.expectedId
  expected : ∀ c, current = some c → s.revision c = a.expected
  kind : ∀ c, current = some c → s.kind c = some .file ∨ s.kind c = some .symlink

theorem restoreVersionCheck_passed {g : Guard} {a : RestoreArgs} {s : Store} {current : Option Id}
    (h : restoreVersionCheck g a s = .ok current) : RestoreVersionPassed g a s current := by
  unfold restoreVersionCheck at h
  obtain ⟨hg, h⟩ := of_ite_eq_ok h
  split at h
  · split at h <;> cases h
  next hfresh =>
  split at h
  · cases h
  next d hd =>
  obtain ⟨hdir, h⟩ := of_ite_eq_ok h
  obtain ⟨hcur, h⟩ := of_ite_eq_ok h
  obtain ⟨hrev, h⟩ := of_ite_eq_ok h
  obtain ⟨hkind, h⟩ := of_ite_eq_ok h
  obtain ⟨-, h⟩ := of_ite_eq_ok h
  obtain ⟨-, h⟩ := of_ite_eq_ok h
  cases h
  simp only [not_or, not_not] at hg hdir hcur
  refine ⟨⟨by simpa [isSome_iff_ne_none] using hg.1, hg.2⟩, hfresh,
    ⟨d, hdir.2.symm, hdir.1, rfl⟩, hcur, fun c hc => ?_, fun c hc => ?_⟩
  · simpa [hc] using hrev
  · simp only [hc, any_some, Bool.and_eq_true, bne_iff_ne, not_and, not_not] at hkind
    exact or_iff_not_imp_left.mpr hkind

/-- The change a restore captures. -/
def restoreChange (a : RestoreArgs) (s : Store) (current : Option Id) : Change :=
  let before := current.map s.fields
  { id := a.id, path := a.path.map Json.viaJson, before := some before
    after := some a.fields.viaJson, body := a.stage.map .stage
    beforeBody := current.map .content
    beforeHash := some a.beforeHash, afterHash := some a.afterHash
    operation := if a.undelete then .undelete else .restore
    fileId := if a.undelete then a.fileId else before.bind (·.historyId)
    force := true, metadata := a.metadata }

/-- What a restore changes in the counters. -/
structure RestoreDelta where
  files : ℤ
  symlinks : ℤ
  bytes : ℤ

/-- The counters' changes of a restore that replaces `current`. -/
def restoreDelta (a : RestoreArgs) (s : Store) (current : Option Id) : RestoreDelta :=
  let one := fun (k : Kind) (kind : Option Kind) => if kind = some k then (1 : ℤ) else 0
  let before := current.bind s.kind
  let oldSize := if before = some .file then (current.map s.size).getD 0 else 0
  let newSize := if a.fields.type = some .file then a.fields.size.getD 0 else 0
  ⟨one .file a.fields.type - one .file before, one .symlink a.fields.type - one .symlink before,
    newSize - oldSize⟩

/-- The writes of `restoreVersionScript` up to the message. -/
def restoreVersionWrite (a : RestoreArgs) (current : Option Id) (delta : RestoreDelta) (s : Store) :
    Store :=
  let after := a.fields.viaJson
  let parent := after.parent.getD 0
  let s :=
    match current with
    | some c =>
      if c = a.id then s
      else
        { s with
          inode := Function.update s.inode c none
          content := Function.update s.content c none }
    | none => s
  let cleared : InodeHash :=
    { s.fields a.id with
      content := none, target := none, contentRef := none, chunkSize := none, chunkHashes := none }
  let s := { s with inode := Function.update s.inode a.id (some (cleared.merge after)) }
  let body :=
    if after.type = some .file ∧ 0 < after.size.getD 0 then a.stage.bind s.stage else none
  let s :=
    { s with
      content := Function.update s.content a.id body
      stage := match a.stage with
        | some t => Function.update s.stage t none
        | none => s.stage }
  let s := (s.link parent (after.name.getD []) a.id).hset parent
    { mtimeMs := after.mtimeMs, ctimeMs := after.ctimeMs }
  let s := s.count fun i =>
    { i with
      files := i.files + delta.files
      symlinks := i.symlinks + delta.symlinks
      totalDataBytes := i.totalDataBytes + delta.bytes }
  { s with rootDirty := true }

/-- `restoreVersionScript`. A forced change always has a record. -/
def restoreVersionScript (g : Guard) (a : RestoreArgs) (w : World) : Reply × World :=
  match restoreVersionCheck g a w.toStore with
  | .error r => (r, w)
  | .ok current =>
    let delta := restoreDelta a w.toStore current
    let size := a.fields.size.getD 0
    if streamWrong w.toStore then (.raised streamError, w)
    else if ¬ (counterOk w.counters.files delta.files ∧ counterOk w.counters.symlinks delta.symlinks ∧
        counterOk w.counters.totalDataBytes delta.bytes) then (.raised accountingError, w)
    else if a.fields.type = some .file ∧ ¬ stageFits w.toStore a size then
      (.refused "HISTORY_RESTORE_STAGE_MISSING", w)
    else
      let change := restoreChange a w.toStore current
      match capture w.toStore a.operation a.origin w.clock.toNat [change] with
      | .error e => (.raised e, w)
      | .ok cap =>
        let s := restoreVersionWrite a current delta (applyCapture w.toStore cap)
        match publicationPayload s a.payload change (cap.bound.head?.bind (·.record)) with
        | .error e => (.raised e, { w with toStore := s })
        | .ok m =>
          let s := announce s m
          match s.history.records ⟨a.operation, a.id, .a⟩ with
          | some r => (.record r, { w with toStore := s })
          | none => (.refused "missing record", { w with toStore := s })

/-- How `restoreVersionScript` ends: it changed nothing, or it wrote, whatever it then answered. -/
inductive Restored (g : Guard) (a : RestoreArgs) (w : World) : Reply × World → Prop
  | refused (r : Reply) : Restored g a w (r, w)
  | done (current : Option Id) (cap : Captured) (m : Option Message) (r : Reply)
      (hcheck : restoreVersionCheck g a w.toStore = .ok current)
      (hstage : a.fields.type = some .file → stageFits w.toStore a (a.fields.size.getD 0) = true)
      (hcap : capture w.toStore a.operation a.origin w.clock.toNat
        [restoreChange a w.toStore current] = .ok cap)
      (hr : r.applied = true) :
      Restored g a w (r, { w with
        toStore := announce (restoreVersionWrite a current (restoreDelta a w.toStore current)
          (applyCapture w.toStore cap)) m })

theorem restoreVersionScript_cases (g : Guard) (a : RestoreArgs) (w : World) :
    Restored g a w (restoreVersionScript g a w) := by
  simp only [restoreVersionScript]
  split
  · exact .refused _
  next current hcheck =>
  split
  · exact .refused _
  split
  · exact .refused _
  split
  · exact .refused _
  next hstage =>
  have hfits : a.fields.type = some .file → stageFits w.toStore a (a.fields.size.getD 0) = true :=
    fun ht => by
      by_contra hf
      exact hstage ⟨ht, hf⟩
  split
  · exact .refused _
  next cap hcap =>
  split
  · next e he =>
    exact .done current cap none _ hcheck hfits hcap (by
      simp [Reply.applied, publicationPayload_error he])
  · next m hm =>
    split
    · exact .done current cap m _ hcheck hfits hcap rfl
    · exact .done current cap m _ hcheck hfits hcap rfl

end Client

end Afs
