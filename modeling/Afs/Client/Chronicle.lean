import Afs.Client.Interleavings

/-!
# What a call can rely on

A call of a client is a few exchanges with a store that all clients change in between. What it can
rely on nevertheless (`Between`, `Own`): a file it has read and that is again, or still, at the
revision it has read was so all the time, with the same bytes; and its stages are its own.

`chronicle` says so of every call among any other requests.
-/

namespace Afs.Client

open Function (update update_of_ne update_self)

open History LinkTree List Prog

/-! ## Stored values -/

/-- Inline content, which only former versions of the program wrote, belongs to files and is no
longer than the file. -/
def InlineFits (s : Store) : Prop :=
  ∀ id f b, s.inode id = some f → f.content = some b →
    f.type = some .file ∧ (b.length : ℤ) ≤ f.size.getD 0

/-- What holds of stored values in every workspace: chunks fit, and nothing is staged under a token
of the future. -/
structure Contents (w : World) : Prop where
  stored : ∀ id l, w.content id = some (.array l) → Fitting l
  staged : ∀ t l, w.stage t = some (.array l) → Fitting l
  drawn : ∀ t, (w.stage t).isSome → t ≤ w.tokens
  inline : InlineFits w.toStore

variable {l : List (Option Bytes)} {id : Id} {f : InodeHash} {passed : Prop}
  {write : Store → Store} {s : Store}

section Contents

variable {ctx : Ctx} {o : Choice} {w w' : World} {c : Cmd} {h : Memory} {L : Set Claim}
  {mem : ℕ → Option Memory} {i : ℕ} {r : Except Err (Val c)}

theorem fitting_arset (hl : Fitting l) (first : ℕ) {values : List Bytes}
    (hv : ∀ v ∈ values, v.length ≤ arrayChunkBytes) : Fitting (arset l first values) := by
  intro j raw hraw
  rw [getD_arset] at hraw
  split_ifs at hraw with hj
  · have hlen : j - first < values.length := by omega
    rw [getD_eq_getElem _ _ (by simpa using hlen), getElem_map] at hraw
    cases hraw
    exact hv _ (getElem_mem hlen)
  · exact hl j raw hraw

theorem fitting_ardelrange (hl : Fitting l) (first last : ℕ) :
    Fitting (ardelrange l first last) := by
  intro j raw hraw
  rw [getD_ardelrange] at hraw
  split_ifs at hraw
  exact hl j raw hraw

theorem fitting_nil : Fitting [] := nofun

/-- Commands on a stage keep chunks short. -/
theorem fitting_execStage {content : Id → Option Body} {op : StageOp} {body : Option Body}
    (hop : op.Fits) (hc : ∀ id l, content id = some (.array l) → Fitting l)
    (hb : ∀ l, body = some (.array l) → Fitting l)
    (hl : (execStage content op body).2 = some (.array l)) : Fitting l := by
  cases op with
  | writeFull ref data =>
    simp only [execStage, Afs.writeFull] at hl
    split at hl
    · cases hl
    · split_ifs at hl
      cases hl
      rw [← queueArrayWriteFull_eq]
      exact fitting_writeFull data
  | copy id =>
    simp only [execStage] at hl
    split at hl
    · next b hcontent => exact hc id l (hcontent.trans hl)
    · exact hb l hl
  | set data => cases hl
  | expire => exact hb l hl
  | del => cases hl
  | arset first chunks =>
    simp only [execStage] at hl
    split at hl
    · cases hl
      exact fitting_arset fitting_nil first hop
    · next l' =>
      cases hl
      exact fitting_arset (hb l' rfl) first hop
    · cases hl
  | argetrange first last =>
    simp only [execStage] at hl
    split at hl
    · cases hl
    · exact hb l hl
    · cases hl
  | ardelrange first last =>
    simp only [execStage] at hl
    split at hl
    · cases hl
    · next l' =>
      cases hl
      exact fitting_ardelrange (hb l' rfl) first last
    · cases hl
  | setrange off data =>
    simp only [execStage] at hl
    split at hl
    · split_ifs at hl
      cases hl
    · cases hl
    · exact hb l hl
  | shrink size =>
    simp only [execStage] at hl
    split at hl
    · cases hl
    · cases hl
    · exact hb l hl

/-! ### Inline content -/

/-- Inline content stays with its kind and size, or goes. -/
def KeepsInline (s s' : Store) : Prop :=
  ∀ i f' b, s'.inode i = some f' → f'.content = some b →
    ∃ f, s.inode i = some f ∧ f.content = some b ∧ f'.type = f.type ∧ f'.size = f.size

section Inline

variable {s s' s'' : Store}

theorem KeepsInline.of_inode (hs : s'.inode = s.inode) : KeepsInline s s' := fun i f' b hf hb =>
  ⟨f', by rwa [hs] at hf, hb, rfl, rfl⟩

theorem KeepsInline.trans (h : KeepsInline s s') (h' : KeepsInline s' s'') : KeepsInline s s'' := by
  intro i f'' b hf hb
  obtain ⟨f', hf', hb', ht', hs'⟩ := h' i f'' b hf hb
  obtain ⟨f, hf, hb, ht, hs⟩ := h i f' b hf' hb'
  exact ⟨f, hf, hb, ht'.trans ht, hs'.trans hs⟩

/-- One hash written, without inline content or with that which was there. -/
theorem KeepsInline.set {f' : Option InodeHash} (hs : s'.inode = update s.inode id f')
    (hf : ∀ g b, f' = some g → g.content = some b →
      ∃ f, s.inode id = some f ∧ f.content = some b ∧ g.type = f.type ∧ g.size = f.size) :
    KeepsInline s s' := by
  intro i g b hg hb
  rw [hs] at hg
  by_cases hi : i = id
  · subst hi
    rw [update_self] at hg
    exact hf g b hg hb
  · rw [update_of_ne hi] at hg
    exact ⟨g, hg, hb, rfl, rfl⟩

theorem KeepsInline.hset (id : Id) (ht : f.type = none) (hz : f.size = none)
    (hc : f.content = none) : KeepsInline s (s.hset id f) := by
  refine .set rfl fun g b hg hb => ?_
  cases hg
  cases hs : s.inode id with
  | none => simp [Store.fields, InodeHash.merge, hs, hc] at hb
  | some f₀ =>
    refine ⟨f₀, rfl, ?_, ?_, ?_⟩
    · simpa [Store.fields, InodeHash.merge, hs, hc] using hb
    · simp [Store.fields, InodeHash.merge, hs, ht]
    · simp [Store.fields, InodeHash.merge, hs, hz]

theorem KeepsInline.applyCapture (cap : Captured) : KeepsInline s (applyCapture s cap) :=
  applyCapture_rec (fun _ => .of_inode rfl) (fun _ _ _ h h' => h.trans h')
    (fun _ _ _ hf => .hset _ hf.type hf.size hf.content) (fun _ _ => .of_inode rfl) s cap

theorem KeepsInline.del (id : Id) : KeepsInline s (s.del id) :=
  .set rfl fun _ _ hg => (by cases hg)

theorem KeepsInline.touched (id : Id) (ms : ℤ) : KeepsInline s (s.hset id (touched ms)) :=
  .hset id rfl rfl rfl

theorem keepsInline_publishFileWrite (a : PublishArgs) {previous : ℤ} :
    KeepsInline s (publishFileWrite a previous s) := by
  unfold publishFileWrite
  extract_lets s₁ f s₂ s₃ s₄
  have h₁ : KeepsInline s s₁ := by
    dsimp only [s₁]
    split <;> exact .of_inode rfl
  have h₂ : KeepsInline s₁ s₂ := .set rfl fun g b hg hb => by
    cases hg
    cases hb
  have h₃ : KeepsInline s₂ s₃ := by
    dsimp only [s₃]
    split
    · exact .trans (.of_inode rfl) (.touched _ _)
    · exact .of_inode rfl
  exact ((h₁.trans h₂).trans h₃).trans (.of_inode rfl)

theorem keepsInline_renameMetadataWrite (a : RenameArgs)
    {replaced : Option (Id × Option Kind × ℤ)} :
    KeepsInline s (renameMetadataWrite a replaced s) := by
  let linked := (s.unlink a.oldParent a.oldName).link a.newParent a.newName a.id
  have hlinked : KeepsInline s linked := .of_inode rfl
  have hmoved : KeepsInline linked (linked.hset a.id (renamedFields a)) := .hset _ rfl rfl rfl
  have h₁ := ((hlinked.trans hmoved).trans (.touched a.oldParent a.ctimeMs)).trans
    (.touched a.newParent a.ctimeMs)
  cases replaced with
  | none => exact h₁.trans (.of_inode rfl)
  | some r => exact (h₁.trans (.del r.1)).trans (.of_inode rfl)

theorem keepsInline_restoreVersionWrite {a : RestoreArgs} (hinline : a.fields.content = none)
    {current : Option Id} {delta : RestoreDelta} :
    KeepsInline s (restoreVersionWrite a current delta s) := by
  unfold restoreVersionWrite
  extract_lets after parent s₁ f cleared s₂ body s₃ s₄ s₅
  have h₁ : KeepsInline s s₁ := by
    dsimp only [s₁]
    split
    · split
      · exact .of_inode rfl
      · exact .set rfl fun _ _ hg => (by cases hg)
    · exact .of_inode rfl
  have h₂ : KeepsInline s₁ s₂ := .set rfl fun g b hg hb => by
    cases hg
    simp [after, cleared, InodeHash.merge, InodeHash.viaJson, hinline] at hb
  have h₃ : KeepsInline s₂ s₄ := .trans (.of_inode rfl) (.hset _ rfl rfl rfl)
  exact ((h₁.trans h₂).trans h₃).trans (.of_inode rfl)

theorem keepsInline_refreshWrite (paths : List (Id × Path)) :
    KeepsInline s (refreshWrite paths s) := by
  unfold refreshWrite
  induction paths generalizing s with
  | nil => exact .of_inode rfl
  | cons e l ih =>
    rw [foldl_cons]
    exact .trans (.hset _ rfl rfl rfl) ih

theorem Outcome.inline (ho : Outcome w passed write w')
    (hw : passed → ∀ s, KeepsInline s (write s)) : KeepsInline w.toStore w'.toStore := by
  cases ho with
  | same => exact .of_inode rfl
  | torn cap hp => exact .applyCapture cap
  | done cap m hp =>
    refine (KeepsInline.applyCapture cap).trans ((hw hp _).trans ?_)
    cases m <;> exact .of_inode rfl

end Inline

theorem KeepsInline.fits {s' : Store} (hk : KeepsInline s s') (hs : InlineFits s) :
    InlineFits s' := by
  intro id f' b hf' hb
  obtain ⟨f, hf, hb, htype, hsize⟩ := hk id f' b hf' hb
  rw [htype, hsize]
  exact hs id f b hf hb

/-- The node of a hash with inline content. -/
theorem InlineFits.node (hs : InlineFits s) {b : Bytes} (hf : s.inode id = some f)
    (hb : f.content = some b) :
    ∃ y, (treeOf s).node id = some y ∧ y.kind = .file ∧ y.size = f.size.getD 0 := by
  obtain ⟨htype, -⟩ := hs id f b hf hb
  refine ⟨_, by simp [treeOf, hf, InodeHash.node, htype]; rfl, rfl, rfl⟩

theorem inlineFits_updateInodeWrite {a : UpdateArgs} (hL : Ledger L w mem) (hi : mem i = some h)
    (hj : Justified h (.updateInode a)) (hexpected : w.revision a.id = a.expected)
    (htree : treeOf s = treeOf w.toStore) (hs : InlineFits s) :
    InlineFits (updateInodeWrite a s) := by
  obtain ⟨-, ⟨d, hd, hid, hrev, htype, hsize, -⟩, -, -, -, -, hcontent⟩ := hj
  intro j g b hg hb
  by_cases hja : j = a.id
  · subst hja
    rw [inode_updateInodeWrite] at hg
    cases hg
    have hold : (s.fields a.id).content = some b := by simpa [InodeHash.merge, hcontent] using hb
    cases hf : s.inode a.id with
    | none => simp [Store.fields, hf] at hold
    | some f =>
      have hfields : s.fields a.id = f := by simp [Store.fields, hf]
      rw [hfields] at hold ⊢
      obtain ⟨y, hy, hkind, hysize⟩ := hs.node hf hold
      obtain ⟨hft, hlen⟩ := hs a.id f b hf hold
      rw [htree] at hy
      have hsame := hL.shows.same hL.coherent hy ((hL.faithful i h hi).seen d hd) hid
        (hexpected.trans hrev.symm)
      have hdfile : d.type = .file := hsame.1.symm.trans hkind
      refine ⟨?_, ?_⟩
      · cases ht : a.fields.type with
        | none => simpa [InodeHash.merge, ht] using hft
        | some k => simp [InodeHash.merge, ht, htype k ht, hdfile]
      · cases hz : a.fields.size with
        | none => simpa [InodeHash.merge, hz] using hlen
        | some n =>
          have hn : n = f.size.getD 0 := by rw [hsize n hz, ← (hsame.2 hdfile).1, hysize]
          simpa [InodeHash.merge, hz, hn] using hlen
  · have hinode : (updateInodeWrite a s).inode j = s.inode j := by
      simp only [updateInodeWrite, Store.hset]
      rw [update_of_ne hja, update_of_ne hja]
    rw [hinode] at hg
    exact hs j g b hg hb

/-- A hash that is overwritten with fields of another kind had no inline content. -/
theorem inlineFits_hset (hs : InlineFits s)
    (hnode : ∀ y, (treeOf s).node id = some y → y.kind ≠ .file) (hf : f.content = none) :
    InlineFits (s.hset id f) := by
  intro j g b hg hb
  by_cases hj : j = id
  · subst hj
    have hg : some ((s.fields j).merge f) = some g := (update_self j _ s.inode).symm.trans hg
    cases hg
    have hold : (s.fields j).content = some b := by simpa [InodeHash.merge, hf] using hb
    cases hfj : s.inode j with
    | none => simp [Store.fields, hfj] at hold
    | some f₀ =>
      obtain ⟨y, hy, hkind, -⟩ := hs.node hfj (by simpa [Store.fields, hfj] using hold)
      exact absurd hkind (hnode y hy)
  · exact hs j g b ((update_of_ne hj _ _).symm.trans hg) hb

theorem Outcome.inlineFits (ho : Outcome w passed write w') (hs : InlineFits w.toStore)
    (hw : passed → ∀ s, treeOf s = treeOf w.toStore → InlineFits s → InlineFits (write s)) :
    InlineFits w'.toStore := by
  cases ho with
  | same => exact hs
  | torn cap hp => exact (KeepsInline.applyCapture cap).fits hs
  | done cap m hp =>
    have hdone := hw hp (applyCapture w.toStore cap) (treeOf_applyCapture _ _)
      ((KeepsInline.applyCapture cap).fits hs)
    cases m <;> exact hdone

theorem inlineFits_effect (ctx : Ctx) (o : Choice) (hL : Ledger L w mem) (hi : mem i = some h)
    (hj : Justified h c) (hs : InlineFits w.toStore) : InlineFits (effect ctx o w c).2.toStore := by
  have hkeep : KeepsInline w.toStore (effect ctx o w c).2.toStore →
      InlineFits (effect ctx o w c).2.toStore := fun hk => hk.fits hs
  have haside := effect_aside (c := c) ctx o w
  cases c with
  | publishFile a =>
    exact hkeep ((publishFile_outcome ctx o w a).inline fun _ _ => keepsInline_publishFileWrite a)
  | updateInode a =>
    refine (updateInode_outcome ctx o w a).inlineFits hs fun hcheck s htree hfits => ?_
    exact inlineFits_updateInodeWrite hL hi hj (updateInodeCheck_passed hcheck).expected htree hfits
  | renameMetadata a replaced noReplace watched =>
    exact hkeep ((renameMetadata_outcome ctx o w a replaced noReplace watched).inline fun _ _ =>
      keepsInline_renameMetadataWrite a)
  | restoreVersion a =>
    obtain ⟨current, ho⟩ := restoreVersion_outcome ctx o w a
    exact hkeep (ho.inline fun _ _ => keepsInline_restoreVersionWrite hj.2.2.1)
  | createMetadata name a =>
    obtain ⟨-, hv, -, -, -, hcontent⟩ := hj
    refine (createMetadata_outcome ctx o w name a).inlineFits hs fun _ s htree hfits => ?_
    have hfresh := (hL.shows.fresh ((hL.supplied i h hi).vacant a.id hv)).1
    have hset : InlineFits (s.hset a.id a.fields.viaJson) := by
      refine inlineFits_hset hfits (fun y hy => ?_) hcontent
      rw [htree, hfresh] at hy
      cases hy
    have hlink : KeepsInline (s.hset a.id a.fields.viaJson) ((s.hset a.id a.fields.viaJson).link
        a.parent (a.fields.viaJson.name.getD []) a.id) := .of_inode rfl
    exact ((hlink.trans (.touched a.parent _)).trans (.of_inode rfl)).fits hset
  | deleteInode a =>
    refine hkeep ((deleteInode_outcome ctx o w a).inline fun _ s => ?_)
    have hunlink : KeepsInline s ((s.del a.id).unlink a.parent a.name) :=
      .trans (.del a.id) (.of_inode rfl)
    exact (hunlink.trans (.touched a.parent a.now)).trans (.of_inode rfl)
  | createRoot now =>
    simp only [effect]
    split_ifs
    · exact hs
    · refine inlineFits_hset hs (fun y hy hfile => ?_) rfl
      have hdir : y.kind = .dir := hL.coherent.root _ (hL.shows.node _ y hy) rfl
      rw [hdir] at hfile
      cases hfile
  | refreshPaths paths =>
    obtain h | h := effect_refreshPaths ctx o w paths
    · rwa [h]
    · rw [h]
      exact (keepsInline_refreshWrite paths).fits hs
  | newOriginID => exact hs
  | cachePath p d => exact hs
  | incrNextInode => exact hs
  | stage t op => exact hs
  | _ => exact hkeep (.of_inode (haside rfl).inode)

theorem Outcome.tokens (ho : Outcome w passed write w') :
    w'.tokens = w.tokens := by cases ho <;> rfl

/-- Tokens are drawn, never given back. -/
theorem tokens_le_effect (ctx : Ctx) (o : Choice) (w : World) (c : Cmd) :
    w.tokens ≤ (effect ctx o w c).2.tokens := by
  have haside := effect_aside (c := c) ctx o w
  cases c with
  | newOriginID => exact Nat.le_succ _
  | publishFile a => exact (publishFile_outcome ctx o w a).tokens.ge
  | updateInode a => exact (updateInode_outcome ctx o w a).tokens.ge
  | deleteInode a => exact (deleteInode_outcome ctx o w a).tokens.ge
  | createMetadata n a => exact (createMetadata_outcome ctx o w n a).tokens.ge
  | renameMetadata a r n wt => exact (renameMetadata_outcome ctx o w a r n wt).tokens.ge
  | restoreVersion a => exact (restoreVersion_outcome ctx o w a).choose_spec.tokens.ge
  | createRoot now =>
    simp only [effect]
    split_ifs <;> exact le_rfl
  | refreshPaths paths => obtain h | h := effect_refreshPaths ctx o w paths <;> rw [h]
  | cachePath p d => exact le_rfl
  | incrNextInode => exact le_rfl
  | stage t op => exact le_rfl
  | _ => exact (haside rfl).tokens.ge

theorem Contents.effect (ctx : Ctx) (o : Choice) (hc : Contents w) (hL : Ledger L w mem)
    (hi : mem i = some h) (hj : Justified h c) : Contents (effect ctx o w c).2 where
  stored id l hl := by
    obtain hl | ⟨t, -, hl⟩ := (effect_bodies ctx o w c).content id _ hl
    · exact hc.stored id l hl
    · exact hc.staged t l hl
  staged t l hl := by
    obtain hl' | ⟨op, rfl⟩ := (effect_bodies ctx o w c).left t _ hl
    · exact hc.staged t l hl'
    · have hl : update w.stage t (execStage w.content op (w.stage t)).2 t =
          some (.array l) := hl
      rw [update_self] at hl
      exact fitting_execStage hj.2 hc.stored (hc.staged t) hl
  drawn t ht := by
    obtain ⟨b, hb⟩ := Option.isSome_iff_exists.mp ht
    have hle := tokens_le_effect ctx o w c
    obtain hb | ⟨op, rfl⟩ := (effect_bodies ctx o w c).left t b hb
    · exact (hc.drawn t (by simp [hb])).trans hle
    · exact ((hL.supplied i h hi).drawn t (drawn_iff.mpr hj.1)).2.trans hle
  inline := inlineFits_effect ctx o hL hi hj hc.inline

theorem Contents.exec (hc : Contents w) (hL : Ledger L w mem) (hi : mem i = some h)
    (hj : Justified h c) (hexec : exec ctx o c w = (r, w')) : Contents w' := by
  have heffect := hc.effect ctx o hL hi hj
  obtain heff | ⟨-, -, rfl | rfl⟩ := exec_cases hexec
  · rwa [heff] at heffect
  · exact hc
  · exact heffect

end Contents

/-! ## Between two exchanges -/

/-- The tree allows whatever the clients do. -/
def unruly : Habits Id Name := ⟨fun _ _ _ => True, True, True⟩

theorem within_unruly (c : Cmd) (w : World) : Within unruly c w where
  ownSlot _ _ _ _ _ _ _ _ := trivial
  moves _ _ _ _ _ _ _ := trivial
  resets _ _ := trivial

/-- The revision stored for an inode. -/
def storedRev (s : Store) (id : Id) : Option Rev := (s.inode id).bind (·.revision)

/-- What an operation can rely on while others act: a file it has read and that has the revision it
has read has not changed, and neither have its stages; and nobody else writes its tokens. -/
structure Between (h : Memory) (w w' : World) : Prop where
  version : ∀ d, Seen h d → ∀ v, fileVersion w'.toStore d.id = some v → v.revision = d.revision →
    fileVersion w.toStore d.id = some v
  stage : ∀ t, Owns h t → w'.stage t = w.stage t
  token : ∀ t, Owns h t → ∀ id, storedRev w'.toStore id = some t → storedRev w.toStore id = some t

theorem Between.refl (h : Memory) (w : World) : Between h w w :=
  ⟨fun _ _ _ hv _ => hv, fun _ _ => rfl, fun _ _ _ ht => ht⟩

theorem Between.trans (h : Memory) (w w' w'' : World) (hb : Between h w w') (hb' : Between h w' w'') :
    Between h w w'' where
  version d hd v hv hr := hb.version d hd v (hb'.version d hd v hv hr) hr
  stage t ht := (hb'.stage t ht).trans (hb.stage t ht)
  token t ht id hid := hb.token t ht id (hb'.token t ht id hid)

/-- What an operation knows of an exchange of its own. -/
structure Own (h : Memory) (e : Exchange sig World) : Prop where
  admissible : Admissible h e.cmd e.reply
  justified : Justified h e.cmd
  contents : Contents e.before
  version : ∀ d, Seen h d → ∀ v, fileVersion e.after.toStore d.id = some v →
    v.revision = d.revision → fileVersion e.before.toStore d.id = some v
  kind : ∀ d, Seen h d → ∀ k, e.before.kind d.id = some k → k = d.type
  same : ∀ d, Seen h d → ∀ v, fileVersion e.before.toStore d.id = some v →
    v.revision = d.revision → v.size = d.size ∧ v.ref = d.contentRef
  bodies : BodySteps e.cmd e.before.toStore e.after.toStore
  token : ∀ t id, storedRev e.after.toStore id = some t →
    storedRev e.before.toStore id = some t ∨ e.cmd.token = some t
  fresh : ∀ t, Event.draws ⟨e.cmd, e.reply⟩ = some t →
    e.after.stage t = none ∧ ∀ id, storedRev e.after.toStore id ≠ some t

variable {d : InodeData} {v : Version}

section Exchanges

variable {ctx : Ctx} {w w' : World} {c : Cmd} {h h' : Memory} {L : Set Claim}
  {mem : ℕ → Option Memory} {i j : ℕ} {r : Except Err (Val c)}

theorem held_of_token (hj : Justified h c) {t : Token} (ht : c.token = some t) : Held h t := by
  cases c with
  | publishFile a =>
    cases ht
    exact hj.1
  | updateInode a =>
    cases ht
    exact hj.1
  | renameMetadata a replaced noReplace watched =>
    cases ht
    exact hj.1
  | restoreVersion a =>
    cases ht
    exact hj.1
  | createMetadata name a =>
    obtain ⟨⟨t', ht', hheld⟩, -⟩ := hj
    have hte : some t' = some t := ht'.symm.trans ht
    cases hte
    exact hheld
  | _ => cases ht

/-- No command brings a known revision of a file back. -/
theorem Ledger.unchanged (hL : Ledger L w mem) (hj : mem j = some h') (hjust : Justified h' c)
    (hexec : Exec ctx c w r w') (hd : claimOf d ∈ L) (hv : fileVersion w'.toStore d.id = some v)
    (hr : v.revision = d.revision) : fileVersion w.toStore d.id = some v := by
  obtain ⟨o, hexec⟩ := hexec
  obtain hv | ht := exec_versions hjust hexec d.id v hv
  · exact hv
  · have hheld := held_of_token hjust ht.symm
    exact absurd hr.symm (((hL.supplied j h' hj).held _ hheld).1 _ hd)

section

variable (hL : Ledger L w mem) (hlinks : (treeOf w.toStore).Linked rootInodeID)

include hL hlinks

/-- A command writes no revision but its own. -/
theorem Ledger.stored
    (hi : mem i = some h) (hjust : Justified h c) (hexec : Exec ctx c w r w') {t : Token}
    (ht : storedRev w'.toStore id = some t) : storedRev w.toStore id = some t ∨ c.token = some t :=
  stored_cases (hL.exchange hi hlinks hjust (within_unruly c w) hexec).2.hashes ht

/-- What the others do, seen from operation `i`. -/
theorem Ledger.between
    (hij : i ≠ j) (hi : mem i = some h) (hj : mem j = some h') (hjust : Justified h' c)
    (hexec : Exec ctx c w r w') : Between h w w' where
  version d hd v hv hr := hL.unchanged hj hjust hexec ((hL.faithful i h hi).seen d hd) hv hr
  stage t ht := by
    obtain ⟨o, hexec⟩ := hexec
    refine (exec_bodies hexec).stage t fun hstaged => ?_
    have hown := owns_of_staged hjust hstaged
    exact (hL.apart i j h h' hij hi hj).1 t (drawn_iff.mpr ht) (drawn_iff.mpr hown)
  token t ht id hid := by
    refine (hL.stored hlinks hj hjust hexec hid).resolve_right fun htok => ?_
    have hown := (held_of_token hjust htok).1
    exact (hL.apart i j h h' hij hi hj).1 t (drawn_iff.mpr ht) (drawn_iff.mpr hown)

/-- What operation `i` does itself. -/
theorem Ledger.own
    (hc : Contents w) (hi : mem i = some h) (hadm : Admissible h c r) (hjust : Justified h c)
    (hexec : Exec ctx c w r w') : Own h ⟨w, c, r, w'⟩ where
  admissible := hadm
  justified := hjust
  contents := hc
  version d hd v hv hr := hL.unchanged hi hjust hexec ((hL.faithful i h hi).seen d hd) hv hr
  kind d hd k hk := by
    obtain ⟨y, hy, rfl⟩ := node_of_kind hk
    exact hL.shows.kind hL.coherent hy ((hL.faithful i h hi).seen d hd) rfl
  same d hd v hv hr := by
    obtain ⟨y, hy, hkind, hsize, hrev⟩ := node_of_version hv
    obtain ⟨hdtype, hsame⟩ := hL.shows.same hL.coherent hy ((hL.faithful i h hi).seen d hd) rfl
      (hrev.trans hr)
    obtain ⟨hdsize, hdref⟩ := hsame (hdtype.symm.trans hkind)
    exact ⟨hsize.symm.trans hdsize, (refOf_of_version hv).symm.trans hdref⟩
  bodies := by
    obtain ⟨o, hexec⟩ := hexec
    exact exec_bodies hexec
  token t id ht := hL.stored hlinks hi hjust hexec ht
  fresh t ht := by
    cases draws_eq_some ht
    obtain ⟨o, hexec⟩ := hexec
    have heff := exec_ok hexec
    simp only [effect, Prod.mk.injEq, Except.ok.injEq] at heff
    obtain ⟨rfl, rfl⟩ := heff
    refine ⟨?_, fun id hid => Nat.not_succ_le_self _ (hL.shows.stored id _ hid)⟩
    dsimp only
    cases hs : w.stage (w.tokens + 1) with
    | none => rfl
    | some b => exact absurd (hc.drawn _ (by simp [hs])) (Nat.not_succ_le_self _)

end

end Exchanges

variable {h : Memory} {w : World} {tr : List (Exchange sig World)} {e : Exchange sig World}

/-- A file that an operation has read and that is at the revision it has read, some time later, was
so all the time. -/
theorem steady (hs : Pool.Spaced provenance Between Own h w tr) (hd : Seen h d) (he : e ∈ tr)
    (hv : fileVersion e.before.toStore d.id = some v) (hr : v.revision = d.revision) :
    fileVersion w.toStore d.id = some v := by
  induction tr generalizing h w with
  | nil => cases he
  | cons x tr ih =>
    obtain ⟨hbetween, hown, hrest⟩ := hs
    obtain rfl | he := mem_cons.mp he
    · exact hbetween.version d hd v hv hr
    · have hafter := ih hrest (hd.mono (subset_cons_self _ _)) he
      exact hbetween.version d hd v (hown.version d hd v hafter hr) hr

/-- Operations forget nothing. -/
theorem subset_after (h : Memory) (tr : List (Exchange sig World)) : h ⊆ provenance.after h tr := by
  induction tr generalizing h with
  | nil => exact List.Subset.refl h
  | cons e tr ih => exact List.Subset.trans (subset_cons_self _ h) (ih _)

theorem mem_after (h : Memory) (he : e ∈ tr) : ⟨e.cmd, e.reply⟩ ∈ provenance.after h tr := by
  induction tr generalizing h with
  | nil => cases he
  | cons x tr ih =>
    obtain rfl | he := mem_cons.mp he
    · exact subset_after _ tr mem_cons_self
    · exact ih _ he

variable {e' : Exchange sig World}

/-- The same for a file that the operation had read before one of its exchanges. -/
theorem steady_at {l : List (Exchange sig World)}
    (hs : Pool.Spaced provenance Between Own h w (l ++ e :: tr))
    (hd : Seen (provenance.after h l) d) (he : e' ∈ e :: tr)
    (hv : fileVersion e'.before.toStore d.id = some v) (hr : v.revision = d.revision) :
    fileVersion e.before.toStore d.id = some v := by
  obtain rfl | he := mem_cons.mp he
  · exact hv
  · obtain ⟨hown, hrest⟩ := hs.drop
    have hd' : Seen (provenance.after h (l ++ [e])) d := by
      rw [Monitor.after_append]
      exact hd.mono (subset_after _ _)
    exact hown.version d hd v (steady hrest hd' he hv hr) hr

/-- All that an operation does before an exchange at which a file it knows is at the revision it
knows meets one version of the file. -/
theorem steady_all {l t : List (Exchange sig World)}
    (hs : Pool.Spaced provenance Between Own h w (l ++ (t ++ e' :: tr)))
    (hd : Seen (provenance.after h l) d) (hv : fileVersion e'.before.toStore d.id = some v)
    (hr : v.revision = d.revision) :
    ∀ e ∈ t, fileVersion e.before.toStore d.id = some v ∧ Contents e.before := by
  intro e he
  obtain ⟨t₁, t₂, rfl⟩ := append_of_mem he
  rw [append_assoc, cons_append, ← append_assoc] at hs
  refine ⟨steady_at hs ?_ ?_ hv hr, hs.drop.1.contents⟩
  · rw [Monitor.after_append]
    exact hd.mono (subset_after _ _)
  · exact mem_cons_of_mem e (mem_append_right t₂ mem_cons_self)

/-- What holds in every state clients reach. -/
def Sound (w : World) (mem : ℕ → Option Memory) : Prop :=
  (∃ L, Ledger L w mem) ∧ (treeOf w.toStore).Linked rootInodeID ∧ Contents w

theorem Sound.start (w : World) (mem : ℕ → Option Memory) (i : ℕ) (h : Sound w mem) :
    Sound w (update mem i (some [])) := by
  obtain ⟨⟨L, hL⟩, hrest⟩ := h
  exact ⟨⟨L, hL.start i⟩, hrest⟩

theorem Sound.step (ctx : Ctx) (w : World) (mem : ℕ → Option Memory) (i : ℕ) (h : Memory) (c : Cmd)
    (r : Except Err (Val c)) (w' : World) (hs : Sound w mem) (hi : mem i = some h)
    (hj : Justified h c) (hexec : Exec ctx c w r w') :
    Admissible h c r ∧ Sound w' (update mem i (some (⟨c, r⟩ :: h))) := by
  obtain ⟨⟨L, hL⟩, hlinks, hc⟩ := hs
  obtain ⟨hadm, ⟨L', -, hL'⟩, ⟨new, hstep⟩, -⟩ := hL.exchange hi hlinks hj (within_unruly c w) hexec
  obtain ⟨o, ho⟩ := hexec
  exact ⟨hadm, ⟨L', hL'⟩, hstep.linked hlinks, hc.exec hL hi hj ho⟩

section Chronicle

variable {starts : Ctx → Prog sig (Except Err Unit) → Prop}
  {Exec' : Ctx → (c : Cmd) → World → Except Err (Val c) → World → Prop}
  {I : World → (ℕ → Option Memory) → Prop} {P Q : Clients} {i : ℕ} {ctx : Ctx} {β : Type}
  {p p' : Prog sig β} {tr : List (Exchange sig World)}

/-- What a call can rely on in a system of clients with an invariant `I`. -/
theorem chronicle_of (hstarts : ∀ ctx p, starts ctx p → Starts ctx p)
    (hexec : ∀ ctx c w r w', Exec' ctx c w r w' → Exec ctx c w r w')
    (hsound : ∀ w mem, I w mem → Sound w mem)
    (hstart : ∀ w mem i, I w mem → I w (update mem i (some [])))
    (hstep : ∀ ctx w mem i h c r w', I w mem → mem i = some h → Justified h c →
      Exec' ctx c w r w' → I w' (update mem i (some (⟨c, r⟩ :: h))))
    (hobs : Pool.Observed provenance I P) (hp : Track provenance (fun _ _ => True) [] p)
    (hcall : Pool.Call starts Exec' i ctx P p tr p' Q) :
    Pool.Spaced provenance Between (fun h e => Own h e ∧ ∃ mem, I e.before mem) [] P.store tr := by
  have hadm : ∀ ctx w mem i h c r w', I w mem → mem i = some h → Justified h c →
      Exec' ctx c w r w' → Admissible h c r := fun ctx w mem i h c r w' hI hi hj he =>
    (Sound.step ctx w mem i h c r w' (hsound w mem hI) hi hj (hexec ctx c w r w' he)).1
  refine hcall.spaced (fun ctx p hq => proper_of_starts (hstarts ctx p hq)) hstart
    (fun ctx w mem i h c r w' hI hi hj he =>
      ⟨hadm ctx w mem i h c r w' hI hi hj he, hstep ctx w mem i h c r w' hI hi hj he⟩)
    Between.refl Between.trans
    (fun ctx' w mem j h h' c r w' hij hI hi hj hjust he => ?_)
    (fun w mem h c r w' hI hi hjust he => ⟨?_, mem, hI⟩)
    (hobs.beside hstart i) hp (Between.refl _ _)
  · obtain ⟨⟨L, hL⟩, hlinks, -⟩ := hsound w mem hI
    exact hL.between hlinks hij hi hj hjust (hexec ctx' c w r w' he)
  · obtain ⟨⟨L, hL⟩, hlinks, hc⟩ := hsound w mem hI
    exact hL.own hlinks hc hi (hadm ctx w mem i h c r w' hI hi hjust he) hjust
      (hexec ctx c w r w' he)

theorem sound_of_run (hw : WellFormed w) (hc : Contents w) (h : Pool.Run Starts Exec (idle w) P) :
    Pool.Observed provenance Sound P :=
  Pool.invariant (fun _ _ => proper_of_starts) Sound.start Sound.step
    ⟨⟨_, hw.ledger⟩, hw.whole.toLinked, hc⟩ h

/-- **What a call can rely on**, whatever requests other clients run. -/
theorem chronicle (hw : WellFormed w) (hc : Contents w) (hrun : Pool.Run Starts Exec (idle w) P)
    (hp : Track provenance (fun _ _ => True) [] p)
    (hcall : Pool.Call Starts Exec i ctx P p tr p' Q) :
    Pool.Spaced provenance Between Own [] P.store tr := by
  have hobs := sound_of_run hw hc hrun
  refine (chronicle_of (fun _ _ h => h) (fun _ _ _ _ _ h => h) (fun _ _ h => h) Sound.start
    (fun ctx w mem i h c r w' hs hi hj he => ?_) hobs hp hcall).mono fun _ _ h => h.1
  exact (Sound.step ctx w mem i h c r w' hs hi hj he).2

end Chronicle

end Afs.Client
