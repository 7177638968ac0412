import Afs.Client.Request

/-!
# What commands answer

One inversion lemma for `exec`: the errors each command can return (`exec_error`), and what its
reply says about the store it met. Proofs about programs read replies through these lemmas and
never unfold `exec`.
-/

namespace Afs.Client

open History

/-- The errors of a block under `WATCH` before it runs. -/
def GuardError (ctx : Ctx) (e : Err) : Prop :=
  e = .txFailed ∨ e = .nativeSessionLost ∨ e = .workspaceChanged ∨
    (e = .writeConflict ∧ ctx.expectedParents ≠ [])

/-- The errors of a command that is not local, besides a network fault. -/
def Cmd.MayFail (ctx : Ctx) : Cmd → Err → Prop
  | .inodePath _, e => e = .workspaceChanged ∨ e = .nativeSessionLost ∨ e = .notFound
  | .getContent _, e | .getRange _ _ _, e | .getChunks _ _ _, e | .stage _ _, e =>
    e = .message "WRONGTYPE"
  | .createRoot _, e => e = .workspaceChanged
  | .markRootDirty, e => e = .workspaceChanged ∨ e = .nativeSessionLost
  | .prune, e => ∃ l, e = .lua l
  | .prepare _ _, e => e = .writeConflict ∨ (∃ text, e = .message text) ∨ ∃ l, e = .lua l
  | .publishFile _, e | .deleteInode _, e | .updateInode _, e | .refreshPaths _, e
  | .unlockAll _ _, e => GuardError ctx e
  | .createMetadata _ _, e => GuardError ctx e ∨ e = .writeConflict ∨ e = .alreadyExists
  | .renameMetadata _ _ _ _, e =>
    GuardError ctx e ∨ e = .writeConflict ∨ e = .notFound ∨ e = .notDir ∨ e = .notFile ∨
      e = .alreadyExists ∨ e = .needDirWatch ∨ e = .dirNotEmpty
  | .setLock _ _ _, e => GuardError ctx e ∨ e = .notFound ∨ e = .notFile ∨ e = .lockWouldBlock
  | _, _ => False

variable {α : Type}

theorem mapM_error {β ε : Type} {P : ε → Prop} {f : α → Except ε β} {l : List α} {e : ε}
    (hf : ∀ a ∈ l, ∀ {e}, f a = .error e → P e) (h : l.mapM f = .error e) : P e := by
  induction l with
  | nil => cases h
  | cons a l ih =>
    rw [List.mapM_cons] at h
    cases ha : f a with
    | error e' =>
      rw [ha] at h
      cases h
      exact hf a (by simp) ha
    | ok b =>
      rw [ha] at h
      cases hl : l.mapM f with
      | error e' =>
        rw [hl] at h
        cases h
        exact ih (fun a ha => hf a (by simp [ha])) hl
      | ok bs =>
        rw [hl] at h
        cases h

/-! ## Guards -/

variable {a : CreateArgs} {body : Option Body} {s : Store} {r : PrepareRequest}

section Guards

variable {ctx : Ctx} {o : Choice} {w w' : World} {α : Type} {e : Err}

theorem watchGuard_error (h : watchGuard ctx w.toStore = .error e) : GuardError ctx e := by
  simp only [watchGuard] at h
  split_ifs at h with hl hf hp <;> cases h
  · exact .inr (.inl rfl)
  · exact .inr (.inr (.inl rfl))
  · refine .inr (.inr (.inr ⟨rfl, fun hnil => hp ?_⟩))
    simp [parentsHold, hnil]

theorem watch_error {block : World → Except Err α × World}
    (h : (watch ctx o w block).1 = .error e) : GuardError ctx e ∨ (block w).1 = .error e := by
  simp only [watch] at h
  split at h
  · cases h
    exact .inl (.inl rfl)
  · split at h
    · next hg =>
      cases h
      exact .inl (watchGuard_error hg)
    · exact .inr h

theorem mutation_error {script : World → Reply × World}
    (h : (mutation ctx o w script).1 = .error e) : GuardError ctx e := by
  simp only [mutation] at h
  split at h
  · cases h
  · obtain h | h := watch_error h
    · exact h
    · cases h

theorem createBlock_error {name : Name} (h : (createBlock name a w).1 = .error e) :
    e = .writeConflict ∨ e = .alreadyExists := by
  simp only [createBlock] at h
  split_ifs at h <;> cases h
  · exact .inl rfl
  · exact .inr rfl

theorem renameBlock_error {a : RenameArgs} {replaced : Option (Id × Option InodeData)}
    {noReplace : Bool} {watched : Option Id}
    (h : (renameBlock a replaced noReplace watched w).1 = .error e) :
    e = .txFailed ∨ e = .writeConflict ∨ e = .notFound ∨ e = .notDir ∨ e = .notFile ∨
      e = .alreadyExists ∨ e = .needDirWatch ∨ e = .dirNotEmpty := by
  simp only [renameBlock] at h
  split at h
  · next hg =>
    cases h
    simp only [renameGuard] at hg
    repeat' split at hg
    all_goals cases hg
    all_goals simp
  · cases h

theorem setLockBlock_error {seen : Token → Bool} {i : Id} {owner : LockOwner} {lk : FileLock}
    (h : (setLockBlock seen i owner lk w).1 = .error e) :
    e = .notFound ∨ e = .notFile ∨ e = .lockWouldBlock := by
  simp only [setLockBlock] at h
  split at h
  · cases h
    exact .inl rfl
  · split at h <;> cases h
    exact .inr (.inr rfl)
  · cases h
    exact .inr (.inl rfl)

theorem execStage_error {content : Id → Option Body} {op : StageOp}
    (h : (execStage content op body).1 = .error e) : e = .message "WRONGTYPE" := by
  cases op <;> simp only [execStage] at h <;> (try split at h) <;> cases h <;> rfl

theorem readString_error {f : Bytes → Bytes} (h : readString f body = .error e) :
    e = .message "WRONGTYPE" := by
  unfold readString at h
  split at h <;> cases h
  rfl

theorem readArray_error {first last : ℕ} (h : readArray first last body = .error e) :
    e = .message "WRONGTYPE" := by
  unfold readArray at h
  split at h <;> cases h
  rfl

theorem hashContent_error {ref : ContentRef} {size : ℤ} (h : hashContent ref size body = .error e) :
    ∃ text, e = .message text := by
  unfold hashContent at h
  repeat' split at h
  all_goals cases h
  all_goals exact ⟨_, rfl⟩

theorem prepareBefore_error (h : prepareBefore s r = .error e) : ∃ text, e = .message text := by
  unfold prepareBefore at h
  dsimp only at h
  split at h
  · cases h
  · split at h
    · cases h
    · exact hashContent_error h
  · cases h

theorem prepareAfter_error {before : Hash} (h : prepareAfter s r before = .error e) :
    ∃ text, e = .message text := by
  unfold prepareAfter at h
  split at h
  · cases h
  · exact hashContent_error h
  · cases h

theorem prepareOne_error {policy : Policy} (h : prepareOne s policy r = .error e) :
    e = .writeConflict ∨ (∃ text, e = .message text) ∨ ∃ l, e = .lua l := by
  simp only [prepareOne] at h
  split at h
  · cases h
    exact .inl rfl
  split at h
  · cases h
    exact .inr (.inr ⟨_, rfl⟩)
  split at h
  · cases h
    exact .inr (.inl ⟨_, rfl⟩)
  split at h
  · cases h
  split at h
  · next hbefore =>
    cases h
    exact .inr (.inl (prepareBefore_error hbefore))
  · split at h
    · next hafter =>
      cases h
      exact .inr (.inl (prepareAfter_error hafter))
    · cases h

theorem prepare_error {operation : Token} {requests : List PrepareRequest}
    (h : (prepare s operation requests).1 = .error e) :
    e = .writeConflict ∨ (∃ text, e = .message text) ∨ ∃ l, e = .lua l := by
  simp only [prepare] at h
  split at h
  · cases h
  · split at h
    · next hm =>
      cases h
      exact mapM_error (P := fun e => e = .writeConflict ∨ (∃ text, e = .message text) ∨ ∃ l, e = .lua l)
        (fun r _ => prepareOne_error) hm
    · cases h

end Guards

/-! ## Errors -/

variable {ctx : Ctx} {o : Choice} {w w' : World} {c : Cmd} {e : Err}

theorem effect_error (h : (effect ctx o w c).1 = .error e) :
    c.isLocal = false ∧ c.MayFail ctx e := by
  cases c with
  | inodePath id =>
    refine ⟨rfl, ?_⟩
    simp only [effect] at h
    simp only [Cmd.MayFail]
    repeat' split at h
    all_goals cases h
    all_goals simp
  | getContent id => exact ⟨rfl, readString_error (f := fun b => b) h⟩
  | getRange id first last =>
    exact ⟨rfl, readString_error (f := fun b => (b.drop first).take (last + 1 - first)) h⟩
  | getChunks id first last => exact ⟨rfl, readArray_error h⟩
  | stage t op => exact ⟨rfl, execStage_error h⟩
  | createRoot now =>
    simp only [effect] at h
    split at h <;> cases h
    exact ⟨rfl, rfl⟩
  | markRootDirty =>
    refine ⟨rfl, ?_⟩
    simp only [effect] at h
    simp only [Cmd.MayFail]
    split_ifs at h <;> cases h
    all_goals simp
  | prune =>
    simp only [effect] at h
    split at h <;> cases h
    exact ⟨rfl, _, rfl⟩
  | prepare operation requests => exact ⟨rfl, prepare_error h⟩
  | publishFile a | deleteInode a | updateInode a => exact ⟨rfl, mutation_error h⟩
  | createMetadata name a => exact ⟨rfl, (watch_error h).imp_right createBlock_error⟩
  | renameMetadata a replaced noReplace watched =>
    refine ⟨rfl, ?_⟩
    obtain h | h := watch_error h
    · exact .inl h
    · obtain rfl | h := renameBlock_error h
      · exact .inl (.inl rfl)
      · exact .inr h
  | refreshPaths paths | unlockAll i owner =>
    obtain h | h := watch_error h
    · exact ⟨rfl, h⟩
    · cases h
  | setLock i owner lk => exact ⟨rfl, (watch_error h).imp_right setLockBlock_error⟩
  | _ => cases h

/-- How a command ends: it has its effect and answers, or its request or its reply is lost. -/
theorem exec_cases {r : Except Err (Val c)} (h : exec ctx o c w = (r, w')) :
    effect ctx o w c = (r, w') ∨
      c.isLocal = false ∧ r = .error .network ∧ (w' = w ∨ w' = (effect ctx o w c).2) := by
  simp only [exec] at h
  split at h
  · exact .inl h
  · next hl =>
    split at h
    · exact .inl h
    · obtain ⟨rfl, rfl⟩ := Prod.mk.inj h
      exact .inr ⟨by simpa using hl, rfl, .inl rfl⟩
    · obtain ⟨rfl, rfl⟩ := Prod.mk.inj h
      exact .inr ⟨by simpa using hl, rfl, .inr rfl⟩

/-- **The errors of a command.** A local command does not fail; any other one may meet a network
fault or one of its own errors. -/
theorem exec_error (h : exec ctx o c w = (.error e, w')) :
    c.isLocal = false ∧ (e = .network ∨ c.MayFail ctx e) := by
  obtain h | ⟨hl, he, -⟩ := exec_cases h
  · exact (effect_error (congrArg Prod.fst h)).imp_right .inr
  · cases he
    exact ⟨hl, .inl rfl⟩

/-- A command that answers had its effect. -/
theorem exec_ok {v : Val c} (h : exec ctx o c w = (.ok v, w')) : effect ctx o w c = (.ok v, w') := by
  obtain h | ⟨-, hv, -⟩ := exec_cases h
  · exact h
  · cases hv

/-- A block under `WATCH` that answers has run. -/
theorem watch_ok {block : World → Except Err α × World} {v : α}
    (h : watch ctx o w block = (.ok v, w')) : block w = (.ok v, w') := by
  simp only [watch] at h
  split at h
  · cases h
  · split at h
    · cases h
    · exact h

/-- A block under `WATCH` runs, or fails and leaves everything as it was. -/
theorem watch_cases (ctx : Ctx) (o : Choice) (w : World) (block : World → Except Err α × World) :
    (∃ e, watch ctx o w block = (.error e, w)) ∨ watch ctx o w block = block w := by
  simp only [watch]
  split
  · exact .inl ⟨_, rfl⟩
  · split
    · exact .inl ⟨_, rfl⟩
    · exact .inr rfl

theorem watch_world (ctx : Ctx) (o : Choice) (w : World) (block : World → Except Err α × World) :
    (watch ctx o w block).2 = w ∨ watch ctx o w block = block w :=
  (watch_cases ctx o w block).imp_left fun ⟨_, h⟩ => congrArg Prod.snd h

theorem mutation_cases (ctx : Ctx) (o : Choice) (w : World) (script : World → Reply × World) :
    (∃ e, mutation ctx o w script = (.error e, w)) ∨
      mutation ctx o w script = (.ok (script w).1, (script w).2) := by
  simp only [mutation]
  split
  · exact .inr rfl
  · exact watch_cases _ _ _ _

theorem mutation_world (ctx : Ctx) (o : Choice) (w : World) (script : World → Reply × World) :
    (mutation ctx o w script).2 = w ∨
      mutation ctx o w script = (.ok (script w).1, (script w).2) :=
  (mutation_cases ctx o w script).imp_left fun ⟨_, h⟩ => congrArg Prod.snd h

/-- The commands that leave tree, contents and numbers alone. -/
def Cmd.aside : Cmd → Bool
  | .newOriginID | .cachePath _ _ | .createRoot _ | .incrNextInode | .stage _ _ | .publishFile _
  | .deleteInode _ | .updateInode _ | .createMetadata _ _ | .renameMetadata _ _ _ _
  | .refreshPaths _ | .restoreVersion _ => false
  | _ => true

/-- What such a command keeps. -/
structure Aside (c : Cmd) (w w' : World) : Prop where
  inode : w'.inode = w.inode
  dirents : w'.dirents = w.dirents
  content : w'.content = w.content
  stage : w'.stage = w.stage
  info : w'.info = w.info
  nextInode : w'.nextInode = w.nextInode
  tokens : w'.tokens = w.tokens
  cached : w'.cached = w.cached
  records : c ≠ .prune → w'.history.records = w.history.records

theorem Aside.refl (c : Cmd) (w : World) : Aside c w w :=
  ⟨rfl, rfl, rfl, rfl, rfl, rfl, rfl, rfl, fun _ => rfl⟩

theorem effect_aside (ctx : Ctx) (o : Choice) (w : World) (hc : c.aside = true) :
    Aside c w (effect ctx o w c).2 := by
  cases c with
  | markRootDirty =>
    simp only [effect]
    split_ifs <;> exact ⟨rfl, rfl, rfl, rfl, rfl, rfl, rfl, rfl, fun _ => rfl⟩
  | prune =>
    simp only [effect]
    split
    · exact ⟨rfl, rfl, rfl, rfl, rfl, rfl, rfl, rfl, fun h => absurd rfl h⟩
    · exact .refl _ _
  | prepare operation requests =>
    simp only [effect, prepare]
    split
    · exact .refl _ _
    · split <;> exact ⟨rfl, rfl, rfl, rfl, rfl, rfl, rfl, rfl, fun _ => rfl⟩
  | setLock inode owner lk =>
    simp only [effect]
    obtain hm | hm := watch_world ctx o w
      (setLockBlock (fun t => w.session t || o.lingering.contains t) inode owner lk)
    · rw [hm]
      exact .refl _ _
    · rw [hm, setLockBlock]
      split
      · exact .refl _ _
      · split <;> exact ⟨rfl, rfl, rfl, rfl, rfl, rfl, rfl, rfl, fun _ => rfl⟩
      · exact .refl _ _
  | unlockAll inode owner =>
    simp only [effect]
    obtain hm | hm := watch_world ctx o w fun w => ((.ok () : Except Err Unit),
      { w with locks := Function.update w.locks inode ((w.locks inode).erase owner) })
    · rw [hm]
      exact .refl _ _
    · rw [hm]
      exact ⟨rfl, rfl, rfl, rfl, rfl, rfl, rfl, rfl, fun _ => rfl⟩
  | _ => first | (cases hc; done) | exact ⟨rfl, rfl, rfl, rfl, rfl, rfl, rfl, rfl, fun _ => rfl⟩

/-- The refresh of paths, if it gets through. -/
theorem effect_refreshPaths (ctx : Ctx) (o : Choice) (w : World) (paths : List (Id × Path)) :
    (effect ctx o w (.refreshPaths paths)).2 = w ∨ (effect ctx o w (.refreshPaths paths)).2 =
      { w with toStore := refreshWrite paths w.toStore } :=
  (watch_world ctx o w _).imp_right (congrArg Prod.snd)

/-! ## Scripts that were sent back -/

variable {check : Option ℤ} {operation : Rev} {payload : Option Payload} {changes : List Change}
  {write : Store → Store} {out : Reply × World}

theorem Scripted.kept (h : Scripted check w operation payload changes write out)
    (ha : out.1.applied = false) : out.2 = w := by
  obtain ⟨code, -, rfl⟩ | ⟨-, h⟩ := h
  · rfl
  cases h with
  | refused e => rfl
  | torn cap e hcap he => simp [Reply.applied, he] at ha
  | done cap m hcap =>
    dsimp only at ha
    split at ha <;> cases ha

/-- A script changes the world only past its checks. -/
theorem Scripted.same_or (h : Scripted check w operation payload changes write out) :
    out.2 = w ∨ check = none :=
  h.imp (fun ⟨_, _, h⟩ => by rw [h]) And.left

/-- A script that changes the world has answered that it did. -/
theorem mutation_kept {script : World → Reply × World}
    (hs : (script w).1.applied = false → (script w).2 = w)
    (ha : ∀ v, (mutation ctx o w script).1 = .ok v → v.applied = false) :
    (mutation ctx o w script).2 = w := by
  obtain h | h := mutation_world ctx o w script
  · exact h
  · rw [h] at ha ⊢
    exact hs (ha _ rfl)

theorem watch_kept {block : World → Except Err Reply × World}
    (hb : (∀ v, (block w).1 = .ok v → v.applied = false) → (block w).2 = w)
    (ha : ∀ v, (watch ctx o w block).1 = .ok v → v.applied = false) :
    (watch ctx o w block).2 = w := by
  obtain h | h := watch_world ctx o w block
  · exact h
  · rw [h] at ha ⊢
    exact hb ha

theorem createBlock_kept {name : Name}
    (ha : ∀ v, (createBlock name a w).1 = .ok v → v.applied = false) :
    (createBlock name a w).2 = w := by
  unfold createBlock at ha ⊢
  split
  · rfl
  split
  · rfl
  · next h₁ h₂ =>
    rw [if_neg h₁, if_neg h₂] at ha
    exact (createMetadataScript_cases a w).kept (ha _ rfl)

theorem renameBlock_kept {a : RenameArgs} {replaced : Option (Id × Option InodeData)}
    {noReplace : Bool} {watched : Option Id}
    (ha : ∀ v, (renameBlock a replaced noReplace watched w).1 = .ok v → v.applied = false) :
    (renameBlock a replaced noReplace watched w).2 = w := by
  unfold renameBlock at ha ⊢
  split
  · rfl
  · next hg =>
    rw [hg] at ha
    exact (renameMetadataScript_cases a w).kept (ha _ rfl)

theorem restoreVersionScript_kept {a : RestoreArgs}
    (ha : (restoreVersionScript ctx.guard a w).1.applied = false) :
    (restoreVersionScript ctx.guard a w).2 = w := by
  have h := restoreVersionScript_cases ctx.guard a w
  generalize restoreVersionScript ctx.guard a w = out at h ha ⊢
  cases h with
  | refused r => rfl
  | done current cap m r hcheck hstage hcap hr =>
    rw [hr] at ha
    cases ha

/-- Creating a directory writes no history. -/
theorem createMetadataScript_dir (ht : a.fields.type = some .dir) (w : World) :
    (createMetadataScript a w).1 ≠ .code 3 := by
  obtain ⟨code, hc, h⟩ | ⟨-, h⟩ := createMetadataScript_cases a w
  · rw [h]
    simp only [createMetadataCheck] at hc
    split_ifs at hc <;> cases hc <;> simp
  · generalize createMetadataScript a w = out at h
    cases h with
    | refused e => simp
    | torn cap e => simp
    | done cap m hcap =>
      have ht : cap.tracked = false := by
        refine capture_dir ?_ hcap
        simp only [withMetadata]
        split <;> simp [createMetadataChange, Change.kind, InodeHash.viaJson, ht]
      simp [ht]

end Afs.Client
