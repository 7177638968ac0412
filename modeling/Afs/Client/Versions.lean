import Afs.Client.Effects
import Afs.Workspace.ArrayContent

/-!
# The versions of a file

What a reader can find of a file belongs to one revision: the size, the layout and the stored
value. A command leaves the version of a file alone or gives it a revision of its own, so two looks
at a file that find the same revision have found the same bytes.

The stages on which operations prepare their bytes are private: a command writes to no stage but
those of its own operation.
-/

namespace Afs.Client

open Function (update update_of_ne update_self)

open History LinkTree Option

/-! ## Versions -/

/-- What a publication fixes of a file. -/
structure Version where
  revision : Rev
  size : ℤ
  ref : Option ContentRef
  inline : Option Bytes
  body : Option Body

/-- The chunks of a stored value. -/
def chunksOf : Option Body → List (Option Bytes)
  | some (.array chunks) => chunks
  | _ => []

/-- The bytes of a version, read in the layout it has. -/
def Version.bytes (v : Version) : Bytes :=
  match v.ref, v.body with
  | none, _ => v.inline.getD []
  | some .ext, some (.str b) => b
  | some .ext, _ => []
  | some .array, body => window 0 arrayChunkBytes (chunksOf body) 0 v.size.toNat

/-- The version a hash and a stored value make. -/
def versionOf (f : InodeHash) (body : Option Body) : Option Version :=
  if f.type = some .file then
    some ⟨f.revision.getD 0, f.size.getD 0, f.contentRef, f.content, body⟩
  else none

/-- The version of a file. -/
def fileVersion (s : Store) (id : Id) : Option Version :=
  (s.inode id).bind fun f => versionOf f (s.content id)

variable {s : Store} {id : Id} {v : Version}

theorem fileVersion_eq_some :
    fileVersion s id = some v ↔ ∃ f, s.inode id = some f ∧ f.type = some .file ∧
      v = ⟨f.revision.getD 0, f.size.getD 0, f.contentRef, f.content, s.content id⟩ := by
  constructor
  · intro hv
    obtain ⟨f, hf, hv⟩ := bind_eq_some_iff.mp hv
    unfold versionOf at hv
    split_ifs at hv with hfile
    exact ⟨f, hf, hfile, (Option.some.inj hv).symm⟩
  · rintro ⟨f, hf, hfile, rfl⟩
    rw [fileVersion, hf, bind_some, versionOf, if_pos hfile]

/-- The node of a file. -/
theorem node_of_version (hv : fileVersion s id = some v) :
    ∃ y, (treeOf s).node id = some y ∧ y.kind = .file ∧ y.size = v.size ∧
      s.revision id = v.revision := by
  obtain ⟨f, hf, hfile, rfl⟩ := fileVersion_eq_some.mp hv
  refine ⟨_, by simp [treeOf, hf, InodeHash.node, hfile]; rfl, rfl, rfl, ?_⟩
  simp [Store.revision, hf]

/-- The form of the content of an inode. -/
def refOf (s : Store) (id : Id) : Option ContentRef := (s.fields id).contentRef

theorem refOf_of_version (hv : fileVersion s id = some v) : refOf s id = v.ref := by
  obtain ⟨f, hf, -, rfl⟩ := fileVersion_eq_some.mp hv
  simp [refOf, Store.fields, hf]

theorem version_of_node {x : Node Id Name} (hx : (treeOf s).node id = some x)
    (hfile : x.kind = .file) : ∃ v, fileVersion s id = some v ∧ v.revision = x.revision := by
  have hkind := kind_of_node hx
  have hrev := revision_of_node hx
  rw [hfile] at hkind
  obtain ⟨f, hf, htype⟩ := bind_eq_some_iff.mp hkind
  refine ⟨_, fileVersion_eq_some.mpr ⟨f, hf, htype, rfl⟩, ?_⟩
  rw [← hrev, Store.revision, hf]
  rfl

/-- Every file a command leaves is as it was, or has the command's revision `t`. -/
def VersionSteps (t : Option Token) (s s' : Store) : Prop :=
  ∀ id v, fileVersion s' id = some v → fileVersion s id = some v ∨ some v.revision = t

section Versions

variable {t : Option Token} {s s' s'' : Store}

theorem fileVersion_congr (hi : s'.inode id = s.inode id) (hc : s'.content id = s.content id) :
    fileVersion s' id = fileVersion s id := by
  rw [fileVersion, fileVersion, hi, hc]

theorem VersionSteps.of_same (h : ∀ id, fileVersion s' id = fileVersion s id) :
    VersionSteps t s s' := fun id _ hv => .inl ((h id).symm.trans hv)

theorem VersionSteps.refl (t : Option Token) (s : Store) : VersionSteps t s s := .of_same fun _ => rfl

theorem VersionSteps.trans (h : VersionSteps t s s') (h' : VersionSteps t s' s'') :
    VersionSteps t s s'' := by
  intro id v hv
  obtain hv | hv := h' id v hv
  · exact h id v hv
  · exact .inr hv

theorem fileVersion_hset_beside {f : InodeHash} (hf : f.Beside) (id j : Id) :
    fileVersion (s.hset id f) j = fileVersion s j := by
  by_cases hj : j = id
  · subst hj
    have hinode : (s.hset j f).inode j = some ((s.fields j).merge f) := update_self j _ _
    rw [fileVersion, fileVersion, hinode, bind_some]
    cases hs : s.inode j with
    | none => simp [versionOf, Store.fields, InodeHash.merge, hs, hf.type]
    | some g =>
      simp [versionOf, Store.fields, InodeHash.merge, hs, hf.type, hf.size, hf.revision, hf.contentRef,
        hf.content, Store.hset]
  · exact fileVersion_congr (update_of_ne hj _ _) rfl

theorem fileVersion_applyCapture {s : Store} {cap : Captured} (j : Id) :
    fileVersion (applyCapture s cap) j = fileVersion s j :=
  applyCapture_rec (R := fun s s' => fileVersion s' j = fileVersion s j) (fun _ => rfl)
    (fun _ _ _ h h' => h'.trans h) (fun _ id _ hf => fileVersion_hset_beside hf id j)
    (fun _ _ => rfl) s cap

theorem fileVersion_announce {s : Store} {m : Option Message} (j : Id) :
    fileVersion (announce s m) j = fileVersion s j := by cases m <;> rfl

theorem fileVersion_del (id j : Id) : fileVersion (s.del id) j = if j = id then none else fileVersion s j := by
  split_ifs with hj
  · subst hj
    simp [fileVersion, Store.del]
  · exact fileVersion_congr (update_of_ne hj _ _) (update_of_ne hj _ _)

end Versions

/-! ## The scripts -/

section Scripts

variable {s : Store}

/-- The version a publication makes. -/
def PublishArgs.version (a : PublishArgs) (s : Store) : Version :=
  ⟨a.revision, a.size, a.fields.contentRef <|> (s.fields a.id).contentRef, none,
    if a.size = 0 then none else s.stage a.stage⟩

/-- A publication gives its file a new version and leaves all others alone. -/
theorem fileVersion_publishFileWrite {a : PublishArgs} (ha : a.Fields) (previous : ℤ) (j : Id) :
    fileVersion (publishFileWrite a previous s) j =
      if j = a.id then some (a.version s) else fileVersion s j := by
  unfold publishFileWrite
  extract_lets s₁ f s₂ s₃ s₄
  have h₃ : fileVersion s₃ j = fileVersion s₂ j := by
    dsimp only [s₃]
    split
    · exact fileVersion_hset_beside {} _ _
    · rfl
  have h₄ : fileVersion { s₄ with rootDirty := true } j = fileVersion s₂ j := h₃
  have hfields : s₁.fields a.id = s.fields a.id := by
    dsimp only [s₁]
    split <;> rfl
  have hcontent : ∀ j, s₁.content j = if j = a.id then (a.version s).body else s.content j := by
    intro j
    dsimp only [s₁, PublishArgs.version]
    by_cases hj : j = a.id
    · subst hj
      rw [if_pos rfl]
      split <;> exact update_self a.id _ _
    · rw [if_neg hj]
      split <;> exact update_of_ne hj _ _
  rw [h₄]
  split_ifs with hj
  · subst hj
    have hinode : s₂.inode a.id = some { f with content := none } := update_self a.id _ _
    have hbody : s₂.content a.id = (a.version s).body := (hcontent a.id).trans (if_pos rfl)
    refine fileVersion_eq_some.mpr ⟨_, hinode, by simp [f, InodeHash.merge, ha.type], ?_⟩
    rw [hbody]
    simp [f, InodeHash.merge, PublishArgs.version, ha.size, hfields]
  · have hinode : s₂.inode j = s.inode j := by
      have hs₁ : s₁.inode = s.inode := by
        dsimp only [s₁]
        split <;> rfl
      dsimp only [s₂]
      rw [update_of_ne hj, hs₁]
    refine fileVersion_congr hinode ?_
    have hc := hcontent j
    rwa [if_neg hj] at hc

theorem fileVersion_deleteInodeWrite (a : DeleteArgs) (kind : Option Kind) (size : ℤ) (j : Id) :
    fileVersion (deleteInodeWrite a kind size s) j =
      if j = a.id then none else fileVersion s j := by
  have hunlink : ∀ s : Store, fileVersion (s.unlink a.parent a.name) j = fileVersion s j :=
    fun _ => rfl
  have htouch := fileVersion_hset_beside (s := (s.del a.id).unlink a.parent a.name)
    (f := touched a.now) {} a.parent j
  exact htouch.trans ((hunlink _).trans (fileVersion_del a.id j))

/-- An update gives its inode a revision and leaves all others alone. -/
theorem fileVersion_updateInodeWrite (a : UpdateArgs) {j : Id} (hj : j ≠ a.id) :
    fileVersion (updateInodeWrite a s) j = fileVersion s j := by
  refine fileVersion_congr ?_ rfl
  simp only [updateInodeWrite, Store.hset]
  rw [update_of_ne hj, update_of_ne hj]

theorem inode_updateInodeWrite (a : UpdateArgs) : (updateInodeWrite a s).inode a.id =
    some (((s.fields a.id).merge a.fields).merge { revision := some a.revision }) := by
  simp [updateInodeWrite, Store.hset, Store.fields]

theorem versionSteps_updateInodeWrite (a : UpdateArgs) :
    VersionSteps (some a.revision) s (updateInodeWrite a s) := by
  intro j v hv
  by_cases hj : j = a.id
  · subst hj
    right
    rw [fileVersion, inode_updateInodeWrite, bind_some, versionOf] at hv
    split_ifs at hv
    cases hv
    rfl
  · rw [fileVersion_updateInodeWrite a hj] at hv
    exact .inl hv

/-- A created directory or link is not a file. -/
theorem fileVersion_createMetadataWrite {a : CreateArgs}
    (hkind : a.fields.type = some .dir ∨ a.fields.type = some .symlink) (j : Id) :
    fileVersion (createMetadataWrite a s) j = if j = a.id then none else fileVersion s j := by
  have hbase : fileVersion (createMetadataWrite a s) j = fileVersion (s.hset a.id a.fields.viaJson) j :=
    fileVersion_hset_beside (s := (s.hset a.id a.fields.viaJson).link a.parent
      (a.fields.viaJson.name.getD []) a.id) {} a.parent j
  rw [hbase]
  split_ifs with hj
  · subst hj
    have hinode : (s.hset a.id a.fields.viaJson).inode a.id =
        some ((s.fields a.id).merge a.fields.viaJson) := update_self a.id _ _
    rw [fileVersion, hinode, bind_some, versionOf, if_neg]
    obtain hk | hk := hkind <;> simp [InodeHash.merge, InodeHash.viaJson, hk]
  · exact fileVersion_congr (update_of_ne hj _ _) rfl

/-- A rename keeps the bytes of what it moves. -/
theorem fileVersion_renameMetadataWrite (a : RenameArgs)
    (replaced : Option (Id × Option Kind × ℤ)) (j : Id) :
    fileVersion (renameMetadataWrite a replaced s) j =
      if replaced.map Prod.fst = some j then none
      else if j = a.id then (fileVersion s j).map fun v => { v with revision := a.revision }
      else fileVersion s j := by
  let linked := (s.unlink a.oldParent a.oldName).link a.newParent a.newName a.id
  have hlinked : fileVersion linked j = fileVersion s j := rfl
  have hmoved : fileVersion (linked.hset a.id (renamedFields a)) j =
      if j = a.id then (fileVersion s j).map fun v => { v with revision := a.revision }
      else fileVersion s j := by
    split_ifs with hj
    · subst hj
      have hinode : (linked.hset a.id (renamedFields a)).inode a.id =
          some ((s.fields a.id).merge (renamedFields a)) := update_self a.id _ _
      rw [fileVersion, hinode, bind_some, fileVersion]
      cases hs : s.inode a.id with
      | none => simp [versionOf, Store.fields, InodeHash.merge, renamedFields, hs]
      | some f =>
        by_cases hf : f.type = some .file
        · simp [versionOf, Store.fields, InodeHash.merge, renamedFields, hs, hf, linked, Store.hset,
            Store.link, Store.unlink]
        · simp [versionOf, Store.fields, InodeHash.merge, renamedFields, hs, hf]
    · have hother : fileVersion (linked.hset a.id (renamedFields a)) j = fileVersion linked j :=
        fileVersion_congr (update_of_ne hj _ _) rfl
      exact hother.trans hlinked
  have htouched : fileVersion (((linked.hset a.id (renamedFields a)).hset a.oldParent
      (touched a.ctimeMs)).hset a.newParent (touched a.ctimeMs)) j = _ :=
    (fileVersion_hset_beside {} _ _).trans
      ((fileVersion_hset_beside {} _ _).trans hmoved)
  cases replaced with
  | none => exact htouched
  | some r =>
    refine (fileVersion_del r.1 j).trans ?_
    by_cases hr : j = r.1
    · rw [if_pos hr, if_pos (by rw [hr]; rfl)]
    · rw [if_neg hr, if_neg (by simpa using Ne.symm hr)]
      exact htouched

theorem fileVersion_refreshWrite {paths : List (Id × Path)} (j : Id) :
    fileVersion (refreshWrite paths s) j = fileVersion s j := by
  unfold refreshWrite
  induction paths generalizing s with
  | nil => rfl
  | cons e l ih =>
    rw [List.foldl_cons, ih]
    exact fileVersion_hset_beside {} _ _

/-- The version a restore makes. -/
def RestoreArgs.version (a : RestoreArgs) (kind : Kind) (size : ℤ) (s : Store) : Option Version :=
  if kind = .file then
    some ⟨a.operation, size, a.fields.contentRef, none,
      if 0 < size then a.stage.bind s.stage else none⟩
  else none

/-- A restore gives its inode the restored version, removes what was there, and leaves all others
alone. -/
theorem fileVersion_restoreVersionWrite {a : RestoreArgs} {kind : Kind} {size : ℤ}
    (ha : a.Fields kind size) (hinline : a.fields.content = none) (current : Option Id)
    (delta : RestoreDelta) (j : Id) : fileVersion (restoreVersionWrite a current delta s) j =
      if j = a.id then a.version kind size s
      else if current = some j then none else fileVersion s j := by
  unfold restoreVersionWrite
  extract_lets after parent s₁ f cleared s₂ body s₃ s₄ s₅
  have h₁ : s₁.stage = s.stage ∧ ∀ j, j ≠ a.id →
      s₁.inode j = (if current = some j then none else s.inode j) ∧
      s₁.content j = if current = some j then none else s.content j := by
    dsimp only [s₁]
    cases current with
    | none => exact ⟨rfl, fun j _ => ⟨rfl, rfl⟩⟩
    | some c =>
      dsimp only
      by_cases hc : c = a.id
      · rw [if_pos hc]
        refine ⟨rfl, fun j hj => ?_⟩
        rw [if_neg (by simpa [hc] using Ne.symm hj), if_neg (by simpa [hc] using Ne.symm hj)]
        exact ⟨rfl, rfl⟩
      · rw [if_neg hc]
        refine ⟨rfl, fun j _ => ?_⟩
        by_cases hj : j = c
        · subst hj
          simp
        · dsimp only
          rw [update_of_ne hj, update_of_ne hj,
            if_neg (by simpa using Ne.symm hj), if_neg (by simpa using Ne.symm hj)]
          exact ⟨rfl, rfl⟩
  have h₄ : fileVersion { s₅ with rootDirty := true } j = fileVersion s₃ j :=
    fileVersion_hset_beside (s := s₃.link parent (after.name.getD []) a.id)
      {} parent j
  rw [h₄]
  split_ifs with hj hcur
  · subst hj
    have hinode : s₃.inode a.id = some (cleared.merge after) := update_self a.id _ _
    have hbody : s₃.content a.id = body := update_self a.id _ _
    rw [fileVersion, hinode, hbody, bind_some, RestoreArgs.version, versionOf]
    have htype : (cleared.merge after).type = some kind := by
      simp [after, InodeHash.merge, InodeHash.viaJson, ha.type]
    by_cases hk : kind = .file
    · rw [if_pos hk, if_pos (by rw [htype, hk])]
      have hstage : s₂.stage = s.stage := h₁.1
      simp [body, after, cleared, InodeHash.merge, InodeHash.viaJson, ha.type, ha.size, ha.revision,
        hinline, hk, hstage]
    · rw [if_neg hk, if_neg (by rw [htype]; simpa using hk)]
  · have hinode : s₃.inode j = none := by
      dsimp only [s₃, s₂]
      rw [update_of_ne hj, (h₁.2 j hj).1, if_pos hcur]
    rw [fileVersion, hinode]
    rfl
  · refine fileVersion_congr ?_ ?_
    · dsimp only [s₃, s₂]
      rw [update_of_ne hj, (h₁.2 j hj).1, if_neg hcur]
    · dsimp only [s₃, s₂]
      rw [update_of_ne hj, (h₁.2 j hj).2, if_neg hcur]

end Scripts

/-! ## Commands -/

variable {t : Option Token}

section Commands

variable {ctx : Ctx} {o : Choice} {w w' : World} {c : Cmd} {h : Memory} {passed : Prop}
  {write : Store → Store}

theorem Outcome.versions (ho : Outcome w passed write w')
    (hw : passed → ∀ s, VersionSteps t s (write s)) : VersionSteps t w.toStore w'.toStore := by
  cases ho with
  | same => exact .refl _ _
  | torn cap hp => exact .of_same fun j => fileVersion_applyCapture j
  | done cap m hp =>
    have hcap : VersionSteps t w.toStore (applyCapture w.toStore cap) :=
      .of_same fun j => fileVersion_applyCapture j
    exact (hcap.trans (hw hp _)).trans (.of_same fun j => fileVersion_announce j)

/-- The commands that publish nothing touch no file. -/
theorem effect_versions_still (ctx : Ctx) (o : Choice) (w : World) (ht : c.token = none)
    (hroot : ∀ now, c ≠ .createRoot now) (hdel : ∀ a, c ≠ .deleteInode a)
    (hmeta : ∀ n a, c ≠ .createMetadata n a) (j : Id) :
    fileVersion (effect ctx o w c).2.toStore j = fileVersion w.toStore j := by
  have haside := effect_aside (c := c) ctx o w
  cases c with
  | createRoot now => exact absurd rfl (hroot now)
  | deleteInode a => exact absurd rfl (hdel a)
  | createMetadata n a => exact absurd rfl (hmeta n a)
  | refreshPaths paths =>
    obtain h | h := effect_refreshPaths ctx o w paths
    · rw [h]
    · rw [h]
      exact fileVersion_refreshWrite j
  | newOriginID => rfl
  | cachePath p d => rfl
  | incrNextInode => rfl
  | stage t op => rfl
  | _ =>
    first
    | (cases ht; done)
    | exact fileVersion_congr (congrFun (haside rfl).inode j) (congrFun (haside rfl).content j)

theorem fileVersion_createRootWrite (now : ℤ) (j : Id) :
    fileVersion (createRootWrite now w).toStore j =
      if j = rootInodeID then none else fileVersion w.toStore j := by
  split_ifs with hj
  · subst hj
    simp [fileVersion, createRootWrite, Store.hset, versionOf, InodeHash.merge]
  · exact fileVersion_congr (update_of_ne hj _ _) rfl

theorem VersionSteps.of_removed {s' : Store}
    (hs : ∀ j, fileVersion s' j = if j = id then none else fileVersion s j) :
    VersionSteps t s s' := by
  intro j v hv
  rw [hs j] at hv
  split_ifs at hv
  exact .inl hv

/-- **A command leaves a file alone or gives it its own revision.** -/
theorem effect_versions (ctx : Ctx) (o : Choice) (w : World) (hj : Justified h c) :
    VersionSteps c.token w.toStore (effect ctx o w c).2.toStore := by
  cases c with
  | publishFile a =>
    obtain ⟨-, -, -, ⟨h₁, h₂, h₃, h₄⟩, -⟩ := hj
    refine (publishFile_outcome ctx o w a).versions fun _ s j v hv => ?_
    rw [fileVersion_publishFileWrite ⟨h₁, h₂, h₃, h₄⟩] at hv
    split_ifs at hv with hja
    · cases hv
      exact .inr rfl
    · exact .inl hv
  | updateInode a =>
    exact (updateInode_outcome ctx o w a).versions fun _ _ => versionSteps_updateInodeWrite a
  | renameMetadata a replaced noReplace watched =>
    refine (renameMetadata_outcome ctx o w a replaced noReplace watched).versions
      fun _ s j v hv => ?_
    rw [fileVersion_renameMetadataWrite] at hv
    split_ifs at hv with hrep hja
    · obtain ⟨v', -, rfl⟩ := map_eq_some_iff.mp hv
      exact .inr rfl
    · exact .inl hv
  | restoreVersion a =>
    obtain ⟨-, -, hinline, hrev, ⟨kind, size, htype, hsize, -⟩, hparent, hname⟩ := hj
    obtain ⟨current, ho⟩ := restoreVersion_outcome ctx o w a
    refine ho.versions fun _ s j v hv => ?_
    rw [fileVersion_restoreVersionWrite ⟨htype, hsize, hrev, hparent, hname⟩ hinline] at hv
    split_ifs at hv with hja hcur
    · unfold RestoreArgs.version at hv
      by_cases hk : kind = .file
      · rw [if_pos hk] at hv
        cases hv
        exact .inr rfl
      · rw [if_neg hk] at hv
        cases hv
    · exact .inl hv
  | createMetadata name a =>
    obtain ⟨-, -, hkind, -⟩ := hj
    exact (createMetadata_outcome ctx o w name a).versions fun _ s =>
      .of_removed (fileVersion_createMetadataWrite hkind)
  | deleteInode a =>
    exact (deleteInode_outcome ctx o w a).versions fun _ s =>
      .of_removed (fileVersion_deleteInodeWrite a _ _)
  | createRoot now =>
    simp only [effect]
    split_ifs
    · exact .refl _ _
    · exact .of_removed (fileVersion_createRootWrite now)
  | _ =>
    refine .of_same (effect_versions_still ctx o w rfl ?_ ?_ ?_)
    all_goals intros; exact Cmd.noConfusion

theorem exec_versions (hj : Justified h c) {r : Except Err (Val c)}
    (hexec : exec ctx o c w = (r, w')) : VersionSteps c.token w.toStore w'.toStore := by
  have heffect := effect_versions ctx o w hj
  obtain heff | ⟨-, -, rfl | rfl⟩ := exec_cases hexec
  · rwa [heff] at heffect
  · exact .refl _ _
  · exact heffect

end Commands

/-! ## Stages -/

/-- The stage a command writes to or takes. -/
def Cmd.staged : Cmd → Option Token
  | .stage t _ => some t
  | .publishFile a => some a.stage
  | .restoreVersion a => a.stage
  | _ => none

/-- What a command can do to stored values: it writes to its own stage only, and what it stores it
has taken from there. -/
structure BodySteps (c : Cmd) (s s' : Store) : Prop where
  stage : ∀ t, c.staged ≠ some t → s'.stage t = s.stage t
  content : ∀ id b, s'.content id = some b →
    s.content id = some b ∨ ∃ t, c.staged = some t ∧ s.stage t = some b
  left : ∀ t b, s'.stage t = some b → s.stage t = some b ∨ ∃ op, c = .stage t op

section Stages

variable {ctx : Ctx} {o : Choice} {w w' : World} {c : Cmd} {h : Memory} {passed : Prop}
  {write : Store → Store} {s s' s'' : Store}

theorem BodySteps.of_same (hs : s'.stage = s.stage) (hc : s'.content = s.content) :
    BodySteps c s s' where
  stage t _ := congrFun hs t
  content id b hb := .inl (by rwa [hc] at hb)
  left t b hb := .inl (by rwa [hs] at hb)

theorem BodySteps.refl (c : Cmd) (s : Store) : BodySteps c s s := .of_same rfl rfl

/-- A removed inode takes its value with it. -/
theorem BodySteps.of_removed (hs : s'.stage = s.stage)
    (hc : s'.content = update s.content id none) : BodySteps c s s' where
  stage t _ := congrFun hs t
  content j b hb := by
    rw [hc] at hb
    by_cases hj : j = id
    · rw [hj, update_self] at hb
      cases hb
    · rw [update_of_ne hj] at hb
      exact .inl hb
  left t b hb := .inl (by rwa [hs] at hb)

theorem stage_applyCapture (s : Store) (cap : Captured) :
    (applyCapture s cap).stage = s.stage ∧ (applyCapture s cap).content = s.content :=
  applyCapture_rec (R := fun s s' => s'.stage = s.stage ∧ s'.content = s.content)
    (fun _ => ⟨rfl, rfl⟩) (fun _ _ _ h h' => ⟨h'.1.trans h.1, h'.2.trans h.2⟩)
    (fun _ _ _ _ => ⟨rfl, rfl⟩) (fun _ _ => ⟨rfl, rfl⟩) s cap

theorem Outcome.bodies (ho : Outcome w passed write w') (hw : ∀ s, BodySteps c s (write s)) :
    BodySteps c w.toStore w'.toStore := by
  cases ho with
  | same => exact .refl c _
  | torn cap hp => exact .of_same (stage_applyCapture _ _).1 (stage_applyCapture _ _).2
  | done cap m hp =>
    obtain ⟨hstage, hcontent⟩ := stage_applyCapture w.toStore cap
    have h := hw (applyCapture w.toStore cap)
    have hm : ∀ s, (announce s m).stage = s.stage ∧ (announce s m).content = s.content := by
      cases m <;> exact fun _ => ⟨rfl, rfl⟩
    constructor
    · intro t ht
      dsimp only
      rw [(hm _).1, h.stage t ht, hstage]
    · intro id b hb
      dsimp only at hb
      rw [(hm _).2] at hb
      have hb := h.content id b hb
      rwa [hstage, hcontent] at hb
    · intro t b hb
      dsimp only at hb
      rw [(hm _).1] at hb
      have hb := h.left t b hb
      rwa [hstage] at hb

theorem stage_refreshWrite {paths : List (Id × Path)} {s : Store} :
    (refreshWrite paths s).stage = s.stage ∧ (refreshWrite paths s).content = s.content := by
  unfold refreshWrite
  induction paths generalizing s with
  | nil => exact ⟨rfl, rfl⟩
  | cons e l ih =>
    rw [List.foldl_cons]
    exact ih

/-- A command that moves the stage it takes into the content of an inode, or nothing. -/
theorem BodySteps.of_take {B : Option Body} (ht : c.staged = t)
    (hbody : ∀ b, B = some b → ∃ t', t = some t' ∧ s.stage t' = some b)
    (hs : ∀ t', s'.stage t' = if t = some t' then none else s.stage t')
    (hc : ∀ j b, s'.content j = some b → s.content j = some b ∨ B = some b) : BodySteps c s s' where
  stage t' ht' := by
    rw [hs, if_neg (ht ▸ ht')]
  content j b hb := by
    obtain hb | hb := hc j b hb
    · exact .inl hb
    · rw [ht]
      exact .inr (hbody b hb)
  left t' b hb := by
    rw [hs] at hb
    split_ifs at hb
    exact .inl hb

/-- Deleting a stage. -/
theorem update_stage (t t' : Token) :
    update s.stage t none t' = if some t = some t' then none else s.stage t' := by
  by_cases ht : t' = t
  · rw [ht, update_self, if_pos rfl]
  · rw [update_of_ne ht, if_neg (by simpa using Ne.symm ht)]

theorem bodies_publishFileWrite (a : PublishArgs) {previous : ℤ} :
    BodySteps (.publishFile a) s (publishFileWrite a previous s) := by
  have hcontent : (publishFileWrite a previous s).content = update s.content a.id
      (if a.size = 0 then none else s.stage a.stage) := by
    unfold publishFileWrite
    dsimp only [Store.count, Store.hset, Store.link]
    split_ifs <;> rfl
  refine .of_take (t := some a.stage) (B := if a.size = 0 then none else s.stage a.stage) rfl
    (fun b hb => ⟨a.stage, rfl, ?_⟩) ?_ fun j b hb => ?_
  · split_ifs at hb
    exact hb
  · intro t'
    rw [← update_stage]
    unfold publishFileWrite
    dsimp only [Store.count, Store.hset, Store.link]
    split_ifs <;> rfl
  · rw [hcontent] at hb
    by_cases hj : j = a.id
    · rw [hj, update_self] at hb
      exact .inr hb
    · rw [update_of_ne hj] at hb
      exact .inl hb

theorem bodies_restoreVersionWrite (a : RestoreArgs) {current : Option Id} {delta : RestoreDelta} :
    BodySteps (.restoreVersion a) s (restoreVersionWrite a current delta s) := by
  unfold restoreVersionWrite
  extract_lets after parent s₁ f cleared s₂ body s₃ s₄ s₅
  have hstage : s₁.stage = s.stage := by
    dsimp only [s₁]
    cases current with
    | none => rfl
    | some cur =>
      dsimp only
      split <;> rfl
  have hcontent : ∀ j b, s₁.content j = some b → s.content j = some b := by
    intro j b hb
    dsimp only [s₁] at hb
    cases current with
    | none => exact hb
    | some cur =>
      dsimp only at hb
      split at hb
      · exact hb
      · dsimp only at hb
        by_cases hj : j = cur
        · rw [hj, update_self] at hb
          cases hb
        · rwa [update_of_ne hj] at hb
  refine .of_take (t := a.stage) (B := body) rfl (fun b hb => ?_) ?_ fun j b hb => ?_
  · dsimp only [body] at hb
    split_ifs at hb
    obtain ⟨t, ht, hb⟩ := bind_eq_some_iff.mp hb
    refine ⟨t, ht, ?_⟩
    rw [← hstage]
    exact hb
  · intro t'
    show s₃.stage t' = _
    dsimp only [s₃, s₂]
    rw [hstage]
    cases a.stage with
    | none => rfl
    | some t => exact update_stage t t'
  · have hb : update s₁.content a.id body j = some b := hb
    by_cases hj : j = a.id
    · rw [hj, update_self] at hb
      exact .inr hb
    · rw [update_of_ne hj] at hb
      exact .inl (hcontent j b hb)

/-- **What a command does to stored values.** -/
theorem effect_bodies (ctx : Ctx) (o : Choice) (w : World) (c : Cmd) :
    BodySteps c w.toStore (effect ctx o w c).2.toStore := by
  have haside := effect_aside (c := c) ctx o w
  cases c with
  | stage t op =>
    refine ⟨fun t' ht' => ?_, fun _ _ hb => .inl hb, fun t' b hb => ?_⟩
    · exact update_of_ne (fun he => ht' (congrArg some he.symm)) _ _
    · by_cases ht' : t' = t
      · exact .inr ⟨op, by rw [ht']⟩
      · exact .inl ((update_of_ne ht' _ _).symm.trans hb)
  | publishFile a => exact (publishFile_outcome ctx o w a).bodies fun _ => bodies_publishFileWrite a
  | restoreVersion a =>
    obtain ⟨current, ho⟩ := restoreVersion_outcome ctx o w a
    exact ho.bodies fun _ => bodies_restoreVersionWrite a
  | updateInode a => exact (updateInode_outcome ctx o w a).bodies fun _ => .of_same rfl rfl
  | deleteInode a => exact (deleteInode_outcome ctx o w a).bodies fun _ => .of_removed rfl rfl
  | createMetadata name a =>
    exact (createMetadata_outcome ctx o w name a).bodies fun _ => .of_same rfl rfl
  | renameMetadata a replaced noReplace watched =>
    refine (renameMetadata_outcome ctx o w a replaced noReplace watched).bodies fun s => ?_
    cases hr : replacedBy a w.toStore with
    | none => exact .of_same rfl rfl
    | some r => exact .of_removed rfl rfl
  | createRoot now =>
    simp only [effect]
    split_ifs
    · exact .refl _ _
    · exact .of_same rfl rfl
  | refreshPaths paths =>
    obtain h | h := effect_refreshPaths ctx o w paths
    · rw [h]
      exact .refl _ _
    · rw [h]
      exact .of_same stage_refreshWrite.1 stage_refreshWrite.2
  | newOriginID => exact .refl _ _
  | cachePath p d => exact .refl _ _
  | incrNextInode => exact .of_same rfl rfl
  | _ => exact .of_same (haside rfl).stage (haside rfl).content

theorem exec_bodies {r : Except Err (Val c)} (hexec : exec ctx o c w = (r, w')) :
    BodySteps c w.toStore w'.toStore := by
  have heffect := effect_bodies ctx o w c
  obtain heff | ⟨-, -, rfl | rfl⟩ := exec_cases hexec
  · rwa [heff] at heffect
  · exact .refl _ _
  · exact heffect

/-- A stage is the operation's own. -/
theorem owns_of_staged (hj : Justified h c) {t : Token} (ht : c.staged = some t) : Owns h t := by
  cases c with
  | stage t' op =>
    cases ht
    exact hj.1
  | publishFile a =>
    cases ht
    exact hj.2.1
  | restoreVersion a => exact hj.2.1 t ht
  | _ => cases ht

end Stages

end Afs.Client
