import Afs.Client.Context

/-!
# The publication scripts

The Lua scripts that publish changes of the tree. Redis runs a script atomically and does not
roll back what it wrote before an error, so each script is split as the source orders it: the
checks that return a code and write nothing, the history capture, the message for the change
stream, and the writes. A script that raises after its capture leaves the captured history behind.

Each script's arguments are a structure; the generation and the session lease it guards are those
of the operation's context.
-/

namespace Afs.Client

open History Option

/-- What a script answers. -/
inductive Reply
  | code (n : ℤ)
  /-- The record a restore returns. -/
  | record (r : Record)
  /-- An error reply, by its name. -/
  | refused (name : String)
  /-- A raised error. -/
  | raised (e : LuaError)
  deriving DecidableEq

/-- A script's reply other than one that sends the caller back: the script may have changed the
store. -/
def Reply.applied : Reply → Bool
  | .code n => n != -1
  | .record _ => true
  | .refused name => name == "missing record"
  | .raised e => e != .preparationRequired

/-- The lifetime guards of a script. -/
structure Guard where
  generation : Option Generation := none
  lease : Option Token := none
  deriving DecidableEq

/-- The guards an operation passes to its scripts. -/
def Ctx.guard (ctx : Ctx) : Guard := ⟨ctx.generation, ctx.lease⟩

/-- The script is bound to another generation than the stored one. -/
def Guard.fenced (g : Guard) (s : Store) : Bool :=
  g.generation.isSome && s.generation != g.generation

/-- The session of the script has lost its lease. -/
def Guard.leaseLost (g : Guard) (s : Store) : Bool := g.lease.any fun t => !s.session t

/-- `publication_counter`: the counter and the change together stay below the limit. -/
def counterOk (n delta : ℤ) : Bool := (n.natAbs + delta.natAbs : ℤ) < counterLimit

/-- The error `publication_counter` raises. -/
def accountingError : LuaError := .error "workspace accounting counter is invalid or exhausted"

/-- The key `changes` holds something else than a stream. -/
def streamWrong (s : Store) : Bool := s.changes == .wrongType

/-- The error of a script that finds the key `changes` of the wrong type. -/
def streamError : LuaError := .error "history key has wrong Redis type"

/-- What `publication_origin` adds to every change. -/
def withMetadata (payload : Option Payload) (c : Change) : Change :=
  match payload.bind (·.metadata) with
  | some m => { c with metadata := m }
  | none => c

/-- `publication_origin`. -/
def publicationOrigin (payload : Option Payload) : Token := (payload.map (·.origin)).getD 0

/-- The activity a publication announces. -/
def eventOp (c : Change) (fields : InodeHash) (record : Option Record) : EventOp :=
  if c.after.isNone then .delete
  else if c.operation = .metadata ∨ record.any (·.operation == .metadata) then .chmod
  else if c.operation = .rename then .rename
  else
    match fields.type with
    | some .symlink => .symlink
    | some .dir => .mkdir
    | _ => .put

/-- The path a change is announced at. -/
def eventPath (s : Store) (c : Change) (old : Path) : Except LuaError Path :=
  match c.after with
  | none => .ok old
  | some after =>
    if c.explicitPath then .ok (after.path.getD c.path) else historyPath s after c.path

/-- `publication_payload`: the message for the change stream, completed with what the change did.
No payload, or a suppressed one, sends nothing. -/
def publicationPayload (s : Store) (payload : Option Payload) (c : Change) (record : Option Record) :
    Except LuaError (Option Message) :=
  match payload with
  | none => .ok none
  | some p =>
    if p.suppress then .ok none
    else
      let before := c.beforeFields s
      match c.after <|> before with
      | none => .ok (some { origin := p.origin, op := p.op, paths := p.paths })
      | some fields =>
        if fields.type.isNone then .ok (some { origin := p.origin, op := p.op, paths := p.paths })
        else do
          let old ← c.oldPath s
          let path ← eventPath s c old
          let size := (c.after.bind (·.size)).getD 0
          let event : ChangeEvent :=
            { op := eventOp c fields record, path := path
              kind := if c.after.isSome then fields.type else none
              sizeBytes := size, deltaBytes := size - (before.bind (·.size)).getD 0
              mode := fields.mode.getD 0, metadata := c.metadata
              prevPath := if old = path then none else some old
              versionId := record.map (·.id) }
          pure (some { origin := p.origin, op := p.op, paths := p.paths, change := some event })

/-- What a capture leaves in the store: the history keys and the history fields of the inodes. -/
def applyCapture (s : Store) (cap : Captured) : Store :=
  let s := cap.bound.foldl
    (fun s b => if b.lineage.isSome ∧ b.after then s.hset b.id b.fields else s) s
  { s with history := cap.history }

/-- Send a message, if there is one. -/
def announce (s : Store) : Option Message → Store
  | some m => s.xadd m
  | none => s

/-- The second half of every publication: capture the changes, complete the message, write. -/
def publish (w : World) (operation : Rev) (payload : Option Payload) (changes : List Change)
    (write : Store → Store) : Reply × World :=
  let changes := changes.map (withMetadata payload)
  match capture w.toStore operation (publicationOrigin payload) w.clock.toNat changes with
  | .error e => (.raised e, w)
  | .ok cap =>
    let s := applyCapture w.toStore cap
    let message : Except LuaError (Option Message) := match changes with
      | [] => .ok none
      | c :: _ => publicationPayload s payload c (if cap.tracked then cap.bound.head?.bind (·.record) else none)
    match message with
    | .error e => (.raised e, { w with toStore := s })
    | .ok m => (.code (if cap.tracked then 3 else 1), { w with toStore := announce (write s) m })

/-- How `publish` ends: it captured nothing and changed nothing, it failed between the capture and
the writes, or it wrote. -/
inductive Published (w : World) (operation : Rev) (payload : Option Payload) (changes : List Change)
    (write : Store → Store) : Reply × World → Prop
  | refused (e : LuaError) : Published w operation payload changes write (.raised e, w)
  | torn (cap : Captured) (e : LuaError)
      (hcap : capture w.toStore operation (publicationOrigin payload) w.clock.toNat
        (changes.map (withMetadata payload)) = .ok cap) (he : e ≠ .preparationRequired) :
      Published w operation payload changes write
        (.raised e, { w with toStore := applyCapture w.toStore cap })
  | done (cap : Captured) (m : Option Message)
      (hcap : capture w.toStore operation (publicationOrigin payload) w.clock.toNat
        (changes.map (withMetadata payload)) = .ok cap) :
      Published w operation payload changes write
        (.code (if cap.tracked then 3 else 1),
          { w with toStore := announce (write (applyCapture w.toStore cap)) m })

/-- How a script ends: it sends back what its checks found, or it goes on to publish. -/
def Scripted (check : Option ℤ) (w : World) (operation : Rev) (payload : Option Payload)
    (changes : List Change) (write : Store → Store) (out : Reply × World) : Prop :=
  (∃ code, check = some code ∧ out = (.code code, w)) ∨
    check = none ∧ Published w operation payload changes write out

variable {s : Store} {e : LuaError}

theorem ancestors_error {fuel : ℕ} {id : Id} {parts : Path}
    (h : ancestors s fuel id parts = .error e) : e ≠ .preparationRequired := by
  induction fuel generalizing id parts with
  | zero =>
    cases h
    simp
  | succ fuel ih =>
    simp only [ancestors] at h
    split at h
    · cases h
    · split at h
      · exact ih h
      · cases h
        simp

theorem historyPath_error {fields : InodeHash} {fallback : Path}
    (h : historyPath s fields fallback = .error e) : e ≠ .preparationRequired := by
  simp only [historyPath] at h
  split at h
  · exact ancestors_error h
  · cases h

theorem bind_eq_error {ε α β : Type} {x : Except ε α} {f : α → Except ε β} {e : ε}
    (h : (x >>= f) = .error e) : x = .error e ∨ ∃ a, x = .ok a ∧ f a = .error e := by
  cases x with
  | error e' =>
    cases h
    exact .inl rfl
  | ok a => exact .inr ⟨a, rfl, h⟩

variable {payload : Option Payload}

/-- A failing message is never a request for a preparation. -/
theorem publicationPayload_error {c : Change} {record : Option Record}
    (h : publicationPayload s payload c record = .error e) : e ≠ .preparationRequired := by
  simp only [publicationPayload] at h
  split at h
  · cases h
  split at h
  · cases h
  split at h
  · cases h
  split at h
  · cases h
  obtain h | ⟨old, -, h⟩ := bind_eq_error h
  · simp only [Change.oldPath] at h
    repeat' split at h
    all_goals first
      | exact historyPath_error h
      | cases h
  · obtain h | ⟨path, -, h⟩ := bind_eq_error h
    · simp only [eventPath] at h
      repeat' split at h
      all_goals first
        | exact historyPath_error h
        | cases h
    · cases h

theorem publish_cases {w : World} {operation : Rev}
    {changes : List Change} {write : Store → Store} :
    Published w operation payload changes write (publish w operation payload changes write) := by
  simp only [publish]
  split
  · exact .refused _
  · next cap hcap =>
    split
    · next e he =>
      refine .torn cap e hcap ?_
      split at he
      · cases he
      · exact publicationPayload_error he
    · exact .done cap _ hcap

/-- The times a directory gets when an entry of it changes. -/
def touched (ms : ℤ) : InodeHash := { mtimeMs := some ms, ctimeMs := some ms }

/-! ## Files -/

/-- The arguments of `publishFileScript`. -/
structure PublishArgs where
  id : Id
  name : Name
  parent : Id
  /-- The revision the publication replaces. -/
  expected : Rev
  revision : Rev
  create : Bool
  mtimeMs : ℤ
  size : ℤ
  stage : Token
  payload : Option Payload
  fields : InodeHash

/-- The checks of `publishFileScript`: a code, or nothing when it goes on to publish. -/
def publishFileCheck (g : Guard) (a : PublishArgs) (s : Store) : Option ℤ :=
  let current := s.revision a.id
  let linked := s.lookup a.parent a.name
  if g.fenced s then some (-2)
  else if g.leaseLost s then some (-5)
  else if current = a.revision ∧ linked = some a.id then some 2
  else if streamWrong s then some (-4)
  else if (s.inode a.parent).isNone then some (-1)
  else if a.create ∧ linked.isSome then some (-1)
  else if ¬ a.create ∧ (linked ≠ some a.id ∨ current ≠ a.expected) then some (-1)
  else if ¬ a.create ∧ (s.inode a.id).isNone then some (-1)
  else if (s.stage a.stage).isNone then some (-3)
  else if s.kind a.parent ≠ some .dir then some (-1)
  else none

/-- What `publishFileScript` has found when it goes on to publish. -/
structure PublishFilePassed (g : Guard) (a : PublishArgs) (s : Store) : Prop where
  unfenced : g.fenced s = false
  parent : s.kind a.parent = some .dir
  free : a.create = true → s.lookup a.parent a.name = none
  linked : a.create = false → s.lookup a.parent a.name = some a.id ∧ s.revision a.id = a.expected
  staged : (s.stage a.stage).isSome

variable {g : Guard}

theorem publishFileCheck_passed {a : PublishArgs} (h : publishFileCheck g a s = none) :
    PublishFilePassed g a s := by
  simp only [publishFileCheck, ite_some_eq_none] at h
  obtain ⟨h1, -, -, -, -, h6, h7, -, h9, h10, -⟩ := h
  refine ⟨by simpa using h1, by simpa using h10, fun hc => by simpa [hc] using h6, fun hc => ?_,
    by simpa [isSome_iff_ne_none] using h9⟩
  simpa [hc] using h7

/-- The writes of `publishFileScript`. -/
def publishFileWrite (a : PublishArgs) (previous : ℤ) (s : Store) : Store :=
  let s :=
    if a.size = 0 then
      { s with
        stage := Function.update s.stage a.stage none
        content := Function.update s.content a.id none }
    else
      { s with
        stage := Function.update s.stage a.stage none
        content := Function.update s.content a.id (s.stage a.stage) }
  let fields := ((s.fields a.id).merge a.fields).merge { revision := some a.revision }
  let s := { s with inode := Function.update s.inode a.id (some { fields with content := none }) }
  let s :=
    if a.create then
      ((s.link a.parent a.name a.id).count fun i => { i with files := i.files + 1 }).hset a.parent
        (touched a.mtimeMs)
    else s
  let s := s.count fun i => { i with totalDataBytes := i.totalDataBytes + (a.size - previous) }
  { s with rootDirty := true }

/-- The change `publishFileScript` captures. -/
def publishFileChange (a : PublishArgs) : Change :=
  let after := a.fields.merge { revision := some a.revision }
  { id := a.id, path := after.path.getD [], after := some after, body := some (.stage a.stage)
    operation := if a.create then .create else .write }

/-- `publishFileScript`. -/
def publishFileScript (g : Guard) (a : PublishArgs) (w : World) : Reply × World :=
  match publishFileCheck g a w.toStore with
  | some code => (.code code, w)
  | none =>
    let previous := w.size a.id
    if ¬ (counterOk w.counters.files 1 ∧ counterOk w.counters.totalDataBytes (a.size - previous)) then
      (.raised accountingError, w)
    else publish w a.revision a.payload [publishFileChange a] (publishFileWrite a previous)

theorem publishFileScript_cases (g : Guard) (a : PublishArgs) (w : World) :
    Scripted (publishFileCheck g a w.toStore) w a.revision a.payload [publishFileChange a]
      (publishFileWrite a (w.size a.id)) (publishFileScript g a w) := by
  simp only [publishFileScript]
  split
  · next code hc => exact .inl ⟨code, hc, rfl⟩
  · next hc =>
    refine .inr ⟨hc, ?_⟩
    split
    · exact .refused _
    · exact publish_cases

/-! ## Removal -/

/-- The arguments of `deleteInodeScript`. -/
structure DeleteArgs where
  id : Id
  name : Name
  parent : Id
  expected : Rev
  now : ℤ
  operation : Rev
  path : Path
  payload : Option Payload

/-- Some entry of the directory leads to an inode key. -/
def hasChildren (s : Store) (d : Id) : Bool :=
  (s.dirents d).entries.any fun e => (s.inode e.2).isSome

/-- The checks of `deleteInodeScript`. -/
def deleteInodeCheck (g : Guard) (a : DeleteArgs) (s : Store) : Option ℤ :=
  let linked := s.lookup a.parent a.name
  if g.fenced s then some (-2)
  else if g.leaseLost s then some (-5)
  else if streamWrong s then some (-4)
  else if linked.isNone ∧ (s.inode a.id).isNone then some 2
  else if linked ≠ some a.id ∨ s.revision a.id ≠ a.expected then some (-1)
  else if s.kind a.id = some .dir ∧ hasChildren s a.id then some (-3)
  else none

/-- What `deleteInodeScript` has found when it goes on to publish. -/
structure DeleteInodePassed (g : Guard) (a : DeleteArgs) (s : Store) : Prop where
  unfenced : g.fenced s = false
  linked : s.lookup a.parent a.name = some a.id
  expected : s.revision a.id = a.expected
  childless : s.kind a.id = some .dir → hasChildren s a.id = false

theorem deleteInodeCheck_passed {a : DeleteArgs} (h : deleteInodeCheck g a s = none) :
    DeleteInodePassed g a s := by
  simp only [deleteInodeCheck, ite_some_eq_none] at h
  obtain ⟨h1, -, -, -, h5, h6, -⟩ := h
  simp only [not_or, not_not] at h5
  exact ⟨by simpa using h1, h5.1, h5.2, fun hk => by simpa [hk] using h6⟩

/-- The writes of `deleteInodeScript`. -/
def deleteInodeWrite (a : DeleteArgs) (kind : Option Kind) (size : ℤ) (s : Store) : Store :=
  let s := (((s.del a.id).unlink a.parent a.name).hset a.parent (touched a.now)).count fun i =>
    (i.forget kind).release kind size
  { s with rootDirty := true }

/-- The change `deleteInodeScript` captures. -/
def deleteInodeChange (a : DeleteArgs) : Change :=
  { id := a.id, path := a.path, after := none, operation := .delete }

/-- `deleteInodeScript`. -/
def deleteInodeScript (g : Guard) (a : DeleteArgs) (w : World) : Reply × World :=
  match deleteInodeCheck g a w.toStore with
  | some code => (.code code, w)
  | none =>
    let kind := w.kind a.id
    let size := w.size a.id
    if ¬ (counterOk (w.counters.counter kind) (-1) ∧ counterOk w.counters.totalDataBytes (-size)) then
      (.raised accountingError, w)
    else publish w a.operation a.payload [deleteInodeChange a] (deleteInodeWrite a kind size)

theorem deleteInodeScript_cases (g : Guard) (a : DeleteArgs) (w : World) :
    Scripted (deleteInodeCheck g a w.toStore) w a.operation a.payload [deleteInodeChange a]
      (deleteInodeWrite a (w.kind a.id) (w.size a.id)) (deleteInodeScript g a w) := by
  simp only [deleteInodeScript]
  split
  · next code hc => exact .inl ⟨code, hc, rfl⟩
  · next hc =>
    refine .inr ⟨hc, ?_⟩
    split
    · exact .refused _
    · exact publish_cases

/-! ## Attributes -/

/-- The arguments of `updateInodeScript`. -/
structure UpdateArgs where
  id : Id
  name : Name
  parent : Id
  expected : Rev
  revision : Rev
  payload : Option Payload
  fields : InodeHash

/-- The checks of `updateInodeScript`; the root has no entry to check. -/
def updateInodeCheck (g : Guard) (a : UpdateArgs) (s : Store) : Option ℤ :=
  if g.fenced s then some (-2)
  else if g.leaseLost s then some (-5)
  else if streamWrong s then some (-4)
  else if s.revision a.id = a.revision then some 2
  else if (s.inode a.id).isNone then some (-1)
  else if a.id ≠ rootInodeID ∧ s.lookup a.parent a.name ≠ some a.id then some (-1)
  else if s.revision a.id ≠ a.expected then some (-1)
  else none

/-- What `updateInodeScript` has found when it goes on to publish. -/
structure UpdateInodePassed (g : Guard) (a : UpdateArgs) (s : Store) : Prop where
  unfenced : g.fenced s = false
  present : (s.inode a.id).isSome
  linked : a.id ≠ rootInodeID → s.lookup a.parent a.name = some a.id
  expected : s.revision a.id = a.expected

theorem updateInodeCheck_passed {a : UpdateArgs} (h : updateInodeCheck g a s = none) :
    UpdateInodePassed g a s := by
  simp only [updateInodeCheck, ite_some_eq_none] at h
  obtain ⟨h1, -, -, -, h5, h6, h7, -⟩ := h
  exact ⟨by simpa using h1, by simpa [isSome_iff_ne_none] using h5,
    fun hid => by simpa [hid] using h6, by simpa using h7⟩

/-- The writes of `updateInodeScript`. -/
def updateInodeWrite (a : UpdateArgs) (s : Store) : Store :=
  (s.hset a.id a.fields).hset a.id { revision := some a.revision }

/-- The change `updateInodeScript` captures. -/
def updateInodeChange (a : UpdateArgs) (s : Store) : Change :=
  let after := ((s.fields a.id).merge a.fields).merge { revision := some a.revision }
  { id := a.id, path := after.path.getD [], after := some after, operation := .metadata }

/-- `updateInodeScript`. -/
def updateInodeScript (g : Guard) (a : UpdateArgs) (w : World) : Reply × World :=
  match updateInodeCheck g a w.toStore with
  | some code => (.code code, w)
  | none =>
    publish w a.revision a.payload [updateInodeChange a w.toStore] (updateInodeWrite a)

theorem updateInodeScript_cases (g : Guard) (a : UpdateArgs) (w : World) :
    Scripted (updateInodeCheck g a w.toStore) w a.revision a.payload
      [updateInodeChange a w.toStore] (updateInodeWrite a) (updateInodeScript g a w) := by
  simp only [updateInodeScript]
  split
  · next code hc => exact .inl ⟨code, hc, rfl⟩
  · next hc => exact .inr ⟨hc, publish_cases⟩

end Afs.Client
