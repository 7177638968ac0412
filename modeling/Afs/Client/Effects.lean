import Afs.Client.Refinement
import Afs.Client.Provenance

/-!
# What commands leave alone

The tree shows which inodes there are. This module is about the rest of what operations rely on:
where stored revisions come from, that hashes without a type carry no size, and the counters from
which tokens and inode numbers are drawn.
-/

namespace Afs.Client

open History

/-! ## Hashes -/

/-- What a command that writes the revision `t`, if any, makes of a hash. -/
structure HashStep (t : Option Token) (f f' : InodeHash) : Prop where
  revision : f'.revision = none ∨ f'.revision = f.revision ∨ f'.revision = t
  typed : f'.type.isSome ∨ (f'.size = none ∧ f'.contentRef = none) ∨
    f'.type = f.type ∧ f'.size = f.size ∧ f'.contentRef = f.contentRef

/-- What such a command makes of the hashes. -/
def HashSteps (t : Option Token) (s s' : Store) : Prop :=
  ∀ i f', s'.inode i = some f' → HashStep t (s.fields i) f'

variable {id : Id}

section Hashes

variable {t : Option Token} {s s' s'' : Store}

theorem HashStep.refl (f : InodeHash) : HashStep t f f := ⟨.inr (.inl rfl), .inr (.inr ⟨rfl, rfl, rfl⟩)⟩

theorem HashSteps.of_inode (h : s'.inode = s.inode) : HashSteps t s s' := by
  intro i f' hf
  rw [h] at hf
  have hfields : s.fields i = f' := by simp [Store.fields, hf]
  rw [hfields]
  exact .refl f'

theorem HashSteps.trans (h : HashSteps t s s') (h' : HashSteps t s' s'') : HashSteps t s s'' := by
  intro i f'' hf''
  obtain ⟨hrev, htyped⟩ := h' i f'' hf''
  cases hf' : s'.inode i with
  | none =>
    have hfields : s'.fields i = {} := by simp [Store.fields, hf']
    rw [hfields] at hrev htyped
    refine ⟨?_, ?_⟩
    · obtain hr | hr | hr := hrev
      · exact .inl hr
      · exact .inl hr
      · exact .inr (.inr hr)
    · obtain ht | ht | ⟨-, ht⟩ := htyped
      · exact .inl ht
      · exact .inr (.inl ht)
      · exact .inr (.inl ht)
  | some f' =>
    have hfields : s'.fields i = f' := by simp [Store.fields, hf']
    rw [hfields] at hrev htyped
    obtain ⟨hrev', htyped'⟩ := h i f' hf'
    refine ⟨?_, ?_⟩
    · obtain hr | hr | hr := hrev
      · exact .inl hr
      · rw [hr]
        exact hrev'
      · exact .inr (.inr hr)
    · obtain ht | ht | ⟨ht, hs, hr⟩ := htyped
      · exact .inl ht
      · exact .inr (.inl ht)
      · rw [ht, hs, hr]
        exact htyped'

/-- A command that writes no revision may as well be one that does. -/
theorem HashSteps.weaken (h : HashSteps none s s') : HashSteps t s s' := by
  intro i f' hf
  obtain ⟨hrev, htyped⟩ := h i f' hf
  refine ⟨?_, htyped⟩
  obtain hr | hr | hr := hrev
  · exact .inl hr
  · exact .inr (.inl hr)
  · exact .inl hr

/-- A hash written as a whole. -/
theorem HashSteps.setInode {f : Option InodeHash} (hs : s'.inode = Function.update s.inode id f)
    (hf : ∀ f', f = some f' → HashStep t (s.fields id) f') : HashSteps t s s' := by
  intro i f' hf'
  rw [hs] at hf'
  by_cases hi : i = id
  · subst hi
    rw [Function.update_self] at hf'
    exact hf f' hf'
  · rw [Function.update_of_ne hi] at hf'
    have hfields : s.fields i = f' := by simp [Store.fields, hf']
    rw [hfields]
    exact .refl f'

theorem HashSteps.hset (id : Id) {f : InodeHash} (hrev : f.revision = none ∨ f.revision = t)
    (htyped : f.type.isSome ∨ f.size = none ∧ f.contentRef = none) :
    HashSteps t s (s.hset id f) := by
  refine .setInode rfl fun f' hf' => ?_
  cases hf'
  refine ⟨?_, ?_⟩
  · obtain hr | hr := hrev
    · exact .inr (.inl (by simp [InodeHash.merge, hr]))
    · cases ht : t with
      | none => exact .inr (.inl (by simp [InodeHash.merge, hr, ht]))
      | some t' => exact .inr (.inr (by simp [InodeHash.merge, hr, ht]))
  · cases htype : f.type with
    | some k => exact .inl (by simp [InodeHash.merge, htype])
    | none =>
      obtain ⟨hs, hr⟩ : f.size = none ∧ f.contentRef = none := by simpa [htype] using htyped
      exact .inr (.inr ⟨by simp [InodeHash.merge, htype], by simp [InodeHash.merge, hs],
        by simp [InodeHash.merge, hr]⟩)

theorem HashSteps.hset_beside {f : InodeHash} (hf : f.Beside) : HashSteps t s (s.hset id f) :=
  .hset id (.inl hf.revision) (.inr ⟨hf.size, hf.contentRef⟩)

theorem HashSteps.del : HashSteps t s (s.del id) :=
  .setInode rfl fun f' hf' => (by cases hf')

theorem HashSteps.applyCapture (cap : Captured) : HashSteps t s (applyCapture s cap) :=
  applyCapture_rec (fun _ => .of_inode rfl) (fun _ _ _ h h' => h.trans h')
    (fun _ _ _ hf => .hset_beside hf) (fun _ _ => .of_inode rfl) s cap

end Hashes

/-! ## The scripts -/

variable {paths : List (Id × Path)}

section Scripts

variable {s : Store} {h : Memory}

theorem hashSteps_publishFileWrite {a : PublishArgs} (ha : a.Fields) {previous : ℤ} :
    HashSteps (some a.revision) s (publishFileWrite a previous s) := by
  unfold publishFileWrite
  extract_lets s₁ f s₂ s₃ s₄
  have h₁ : HashSteps (some a.revision) s s₁ := by
    dsimp only [s₁]
    split <;> exact .of_inode rfl
  have h₂ : HashSteps (some a.revision) s₁ s₂ := by
    refine .setInode rfl fun f' hf' => ?_
    cases hf'
    exact ⟨.inr (.inr (by simp [f, InodeHash.merge])), .inl (by simp [f, InodeHash.merge, ha.type])⟩
  have h₃ : HashSteps (some a.revision) s₂ s₃ := by
    dsimp only [s₃]
    split
    · exact .trans (.of_inode rfl) (.hset_beside {})
    · exact .of_inode rfl
  exact ((h₁.trans h₂).trans h₃).trans (.of_inode rfl)

theorem hashSteps_deleteInodeWrite (a : DeleteArgs) {kind : Option Kind} {size : ℤ} :
    HashSteps none s (deleteInodeWrite a kind size s) := by
  have h₁ : HashSteps none s ((s.del a.id).unlink a.parent a.name) := .trans .del (.of_inode rfl)
  exact (h₁.trans (.hset_beside {})).trans (.of_inode rfl)

theorem hashSteps_updateInodeWrite {a : UpdateArgs}
    (hsized : a.fields.size.isSome = a.fields.type.isSome)
    (hformed : a.fields.type = none → a.fields.contentRef = none) :
    HashSteps (some a.revision) s (updateInodeWrite a s) := by
  have hinode : (updateInodeWrite a s).inode =
      Function.update s.inode a.id (some (updatedHash a s)) := by
    simp [updateInodeWrite, Store.hset, Store.fields, updatedHash]
  refine .setInode hinode fun f' hf' => ?_
  cases hf'
  refine ⟨.inr (.inr (by simp [updatedHash, InodeHash.merge])), ?_⟩
  cases ht : a.fields.type with
  | some k => exact .inl (by simp [updatedHash, InodeHash.merge, ht])
  | none =>
    have hs : a.fields.size = none := by simpa [ht] using hsized
    exact .inr (.inr ⟨by simp [updatedHash, InodeHash.merge, ht],
      by simp [updatedHash, InodeHash.merge, hs], by simp [updatedHash, InodeHash.merge, hformed ht]⟩)

theorem hashSteps_createMetadataWrite {a : CreateArgs} (ht : a.fields.type.isSome) :
    HashSteps a.fields.revision s (createMetadataWrite a s) := by
  have h₁ : HashSteps a.fields.revision s (s.hset a.id a.fields.viaJson) :=
    .hset _ (.inr rfl) (.inl ht)
  have h₂ : HashSteps a.fields.revision s ((s.hset a.id a.fields.viaJson).link a.parent
      (a.fields.viaJson.name.getD []) a.id) := h₁.trans (.of_inode rfl)
  exact (h₂.trans (.hset_beside {})).trans (.of_inode rfl)

theorem hashSteps_renameMetadataWrite (a : RenameArgs) {replaced : Option (Id × Option Kind × ℤ)} :
    HashSteps (some a.revision) s (renameMetadataWrite a replaced s) := by
  let linked := (s.unlink a.oldParent a.oldName).link a.newParent a.newName a.id
  have hlinked : HashSteps (some a.revision) s linked := .of_inode rfl
  have hmoved : HashSteps (some a.revision) linked (linked.hset a.id (renamedFields a)) :=
    .hset _ (.inr rfl) (.inr ⟨rfl, rfl⟩)
  have h₁ : HashSteps (some a.revision) s (renameMoves a s) :=
    ((hlinked.trans hmoved).trans (.hset_beside {})).trans
      (.hset_beside {})
  cases replaced with
  | none => exact h₁.trans (.of_inode rfl)
  | some r => exact (h₁.trans .del).trans (.of_inode rfl)

theorem hashSteps_restoreVersionWrite {a : RestoreArgs} {kind : Kind} {size : ℤ}
    (ha : a.Fields kind size) {current : Option Id} {d : RestoreDelta} :
    HashSteps (some a.operation) s (restoreVersionWrite a current d s) := by
  unfold restoreVersionWrite
  extract_lets after parent s₁ f cleared s₂ body s₃ s₄ s₅
  have h₁ : HashSteps (some a.operation) s s₁ := by
    dsimp only [s₁]
    split
    · split
      · exact .of_inode rfl
      · exact .setInode rfl fun f' hf' => (by cases hf')
    · exact .of_inode rfl
  have h₂ : HashSteps (some a.operation) s₁ s₂ := by
    refine .setInode rfl fun f' hf' => ?_
    cases hf'
    exact ⟨.inr (.inr (by simp [after, InodeHash.merge, InodeHash.viaJson, ha.revision])),
      .inl (by simp [after, InodeHash.merge, InodeHash.viaJson, ha.type])⟩
  have h₃ : HashSteps (some a.operation) s₂ s₄ :=
    .trans (.of_inode rfl) (.hset_beside {})
  exact ((h₁.trans h₂).trans h₃).trans (.of_inode rfl)

theorem hashSteps_refreshWrite : HashSteps none s (refreshWrite paths s) := by
  unfold refreshWrite
  induction paths generalizing s with
  | nil => exact .of_inode rfl
  | cons e l ih =>
    rw [List.foldl_cons]
    exact .trans (.hset_beside {}) ih

theorem treeOf_refreshWrite {s : Store} : treeOf (refreshWrite paths s) = treeOf s := by
  unfold refreshWrite
  induction paths generalizing s with
  | nil => rfl
  | cons e l ih => rw [List.foldl_cons, ih, treeOf_hset_beside _ _ {}]

end Scripts

/-! ## Publications -/

/-- How a publication leaves the world: as it was, with history captured and nothing published, or
published. -/
inductive Outcome (w : World) (passed : Prop) (write : Store → Store) : World → Prop
  | same : Outcome w passed write w
  | torn (cap : Captured) (h : passed) :
      Outcome w passed write { w with toStore := applyCapture w.toStore cap }
  | done (cap : Captured) (m : Option Message) (h : passed) :
      Outcome w passed write
        { w with toStore := announce (write (applyCapture w.toStore cap)) m }

section Outcome

variable {ctx : Ctx} {o : Choice} {w w' : World} {passed : Prop} {write : Store → Store}

theorem Scripted.outcome {check : Option ℤ} {operation : Rev} {payload : Option Payload}
    {changes : List Change} {out : Reply × World}
    (h : Scripted check w operation payload changes write out) (hp : check = none → passed) :
    Outcome w passed write out.2 := by
  obtain ⟨code, -, rfl⟩ | ⟨hc, h⟩ := h
  · exact .same
  cases h with
  | refused e => exact .same
  | torn cap e hcap he => exact .torn cap (hp hc)
  | done cap m hcap => exact .done cap m (hp hc)

theorem mutation_outcome {script : World → Reply × World}
    (h : Outcome w passed write (script w).2) :
    Outcome w passed write (mutation ctx o w script).2 := by
  obtain hm | hm := mutation_world ctx o w script
  · rw [hm]
    exact .same
  · rw [hm]
    exact h

theorem watch_outcome {block : World → Except Err Reply × World}
    (h : Outcome w passed write (block w).2) : Outcome w passed write (watch ctx o w block).2 := by
  obtain hm | hm := watch_world ctx o w block
  · rw [hm]
    exact .same
  · rw [hm]
    exact h

variable (ctx o w)

theorem publishFile_outcome (a : PublishArgs) :
    Outcome w (publishFileCheck ctx.guard a w.toStore = none) (publishFileWrite a (w.size a.id))
      (effect ctx o w (.publishFile a)).2 :=
  mutation_outcome ((publishFileScript_cases ctx.guard a w).outcome id)

theorem deleteInode_outcome (a : DeleteArgs) :
    Outcome w (deleteInodeCheck ctx.guard a w.toStore = none)
      (deleteInodeWrite a (w.kind a.id) (w.size a.id)) (effect ctx o w (.deleteInode a)).2 :=
  mutation_outcome ((deleteInodeScript_cases ctx.guard a w).outcome id)

theorem updateInode_outcome (a : UpdateArgs) :
    Outcome w (updateInodeCheck ctx.guard a w.toStore = none) (updateInodeWrite a)
      (effect ctx o w (.updateInode a)).2 :=
  mutation_outcome ((updateInodeScript_cases ctx.guard a w).outcome id)

theorem createMetadata_outcome (name : Name) (a : CreateArgs) :
    Outcome w (createMetadataCheck a w.toStore = none) (createMetadataWrite a)
      (effect ctx o w (.createMetadata name a)).2 := by
  refine watch_outcome ?_
  unfold createBlock
  split
  · exact .same
  split
  · exact .same
  exact (createMetadataScript_cases a w).outcome id

theorem renameMetadata_outcome (a : RenameArgs) (replaced : Option (Id × Option InodeData))
    (noReplace : Bool) (watched : Option Id) :
    Outcome w (renameGuard a replaced noReplace watched w.toStore = .ok () ∧
        renameMetadataCheck a w.toStore = none)
      (renameMetadataWrite a (replacedBy a w.toStore))
      (effect ctx o w (.renameMetadata a replaced noReplace watched)).2 := by
  refine watch_outcome ?_
  unfold renameBlock
  split
  · exact .same
  · next hg => exact (renameMetadataScript_cases a w).outcome fun hc => ⟨hg, hc⟩

theorem restoreVersion_outcome (a : RestoreArgs) :
    ∃ current, Outcome w (restoreVersionCheck ctx.guard a w.toStore = .ok current)
      (restoreVersionWrite a current (restoreDelta a w.toStore current))
      (effect ctx o w (.restoreVersion a)).2 := by
  have h := restoreVersionScript_cases ctx.guard a w
  have heff : (effect ctx o w (.restoreVersion a)).2 = (restoreVersionScript ctx.guard a w).2 := rfl
  rw [heff]
  generalize restoreVersionScript ctx.guard a w = out at h
  cases h with
  | refused r => exact ⟨none, .same⟩
  | done current cap m r hcheck hstage hcap hr => exact ⟨current, .done cap m hcheck⟩

variable {ctx o w}

/-! ## What the clients share -/

/-- Tokens, cache and inode numbers are as they were. -/
structure Side (w w' : World) : Prop where
  tokens : w'.tokens = w.tokens
  cached : w'.cached = w.cached
  nextInode : w'.nextInode = w.nextInode

theorem Side.refl (w : World) : Side w w := ⟨rfl, rfl, rfl⟩

theorem nextInode_applyCapture (s : Store) (cap : Captured) :
    (applyCapture s cap).nextInode = s.nextInode :=
  applyCapture_rec (R := fun s s' => s'.nextInode = s.nextInode) (fun _ => rfl)
    (fun _ _ _ h h' => h'.trans h) (fun _ _ _ _ => rfl) (fun _ _ => rfl) s cap

theorem Outcome.side (h : Outcome w passed write w')
    (hw : ∀ s, (write s).nextInode = s.nextInode) : Side w w' := by
  cases h with
  | same => exact .refl w
  | torn cap hp => exact ⟨rfl, rfl, nextInode_applyCapture _ _⟩
  | done cap m hp =>
    refine ⟨rfl, rfl, ?_⟩
    have hm : ∀ s : Store, (announce s m).nextInode = s.nextInode := by cases m <;> exact fun _ => rfl
    dsimp only
    rw [hm, hw, nextInode_applyCapture]

theorem nextInode_publishFileWrite (a : PublishArgs) (previous : ℤ) (s : Store) :
    (publishFileWrite a previous s).nextInode = s.nextInode := by
  unfold publishFileWrite
  dsimp only
  split_ifs <;> rfl

theorem nextInode_renameMetadataWrite (a : RenameArgs)
    (replaced : Option (Id × Option Kind × ℤ)) (s : Store) :
    (renameMetadataWrite a replaced s).nextInode = s.nextInode := by
  cases replaced <;> rfl

theorem nextInode_restoreVersionWrite (a : RestoreArgs) (current : Option Id) (d : RestoreDelta)
    (s : Store) : (restoreVersionWrite a current d s).nextInode = s.nextInode := by
  cases current with
  | none => rfl
  | some c =>
    unfold restoreVersionWrite
    dsimp only [Store.count, Store.hset, Store.link]
    split_ifs <;> rfl

theorem nextInode_refreshWrite {s : Store} : (refreshWrite paths s).nextInode = s.nextInode := by
  unfold refreshWrite
  induction paths generalizing s with
  | nil => rfl
  | cons e l ih =>
    rw [List.foldl_cons, ih]
    rfl

end Outcome

end Afs.Client
