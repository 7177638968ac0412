import Afs.Client.Discipline

/-!
# Generation fencing

Once the stored generation is not the one an operation is bound to, no command of the operation
changes an inode, a directory entry, content, a counter or a lock. The history records can only
lose members: retention runs outside the publication scripts and checks no generation. An
operation that still has a guarded command to issue fails.

## Main results

* `exec_untouched`: what one command leaves alone when it meets another generation;
* `exec_declined`: how a guarded command answers then.
-/

namespace Afs.Client

open History List Prog

/-! ## What fencing protects -/

/-- What fencing protects. -/
structure Protected where
  inode : Id → Option InodeHash
  dirents : Id → Dirents
  content : Id → Option Body
  info : Option Info
  locks : Id → LockTable

/-- The protected keys of a store. -/
def protectedOf (s : Store) : Protected := ⟨s.inode, s.dirents, s.content, s.info, s.locks⟩

/-- What a command that meets another generation leaves: everything protected, and the history
records except for those that retention removes. -/
structure Untouched (c : Cmd) (s s' : Store) : Prop where
  tree : protectedOf s' = protectedOf s
  within : ∀ id r, s'.history.records id = some r → s.history.records id = some r
  records : c ≠ .prune → s'.history.records = s.history.records

theorem Untouched.of_eq {c : Cmd} {s s' : Store} (ht : protectedOf s' = protectedOf s)
    (hr : s'.history.records = s.history.records) : Untouched c s s' :=
  ⟨ht, fun id r h => by rwa [hr] at h, fun _ => hr⟩

theorem Untouched.refl (c : Cmd) (s : Store) : Untouched c s s := .of_eq rfl rfl

theorem Untouched.of_same {c : Cmd} {w w' : World} (h : w' = w) :
    Untouched c w.toStore w'.toStore := h ▸ .refl _ _

section Commands

variable {ctx : Ctx} {o : Choice} {w : World} {g : Generation} {c : Cmd}

theorem fenced_of_ne (hg : ctx.generation = some g) (hw : w.generation ≠ some g) :
    ctx.guard.fenced w.toStore = true := by
  simp [Guard.fenced, Ctx.guard, hg, hw]

/-! ## One command -/

theorem watch_fenced {α : Type} (block : World → Except Err α × World)
    (hf : ctx.guard.fenced w.toStore = true) :
    (watch ctx o w block).2 = w ∧ ∃ e, (watch ctx o w block).1 = .error e ∧ e.declines = true := by
  simp only [watch]
  split
  · exact ⟨rfl, _, rfl, rfl⟩
  · simp only [watchGuard, hf, if_true]
    split
    · next e he =>
      refine ⟨rfl, e, rfl, ?_⟩
      split at he <;> cases he <;> rfl
    · next he => split at he <;> cases he

theorem mutation_fenced {script : World → Reply × World} (hf : ctx.guard.fenced w.toStore = true)
    (hs : script w = (.code (-2), w)) : (mutation ctx o w script).2 = w ∧
      ((mutation ctx o w script).1 = .ok (.code (-2)) ∨
        ∃ e, (mutation ctx o w script).1 = .error e ∧ e.declines = true) := by
  simp only [mutation]
  split
  · rw [hs]
    exact ⟨rfl, .inl rfl⟩
  · exact ⟨(watch_fenced _ hf).1, .inr (watch_fenced _ hf).2⟩

theorem publishFileScript_fenced (a : PublishArgs) (hf : ctx.guard.fenced w.toStore = true) :
    publishFileScript ctx.guard a w = (.code (-2), w) := by
  simp [publishFileScript, publishFileCheck, hf]

theorem deleteInodeScript_fenced (a : DeleteArgs) (hf : ctx.guard.fenced w.toStore = true) :
    deleteInodeScript ctx.guard a w = (.code (-2), w) := by
  simp [deleteInodeScript, deleteInodeCheck, hf]

theorem updateInodeScript_fenced (a : UpdateArgs) (hf : ctx.guard.fenced w.toStore = true) :
    updateInodeScript ctx.guard a w = (.code (-2), w) := by
  simp [updateInodeScript, updateInodeCheck, hf]

theorem restoreVersionScript_fenced (a : RestoreArgs) (hg : ctx.generation = some g)
    (hw : w.generation ≠ some g) :
    restoreVersionScript ctx.guard a w = (.refused "HISTORY_RESTORE_GENERATION", w) := by
  simp [restoreVersionScript, restoreVersionCheck, Ctx.guard, hg, hw]

theorem prepare_untouched (s : Store) (operation : Token) (requests : List PrepareRequest) :
    protectedOf (prepare s operation requests).2 = protectedOf s ∧
      (prepare s operation requests).2.history.records = s.history.records := by
  simp only [prepare]
  split
  · exact ⟨rfl, rfl⟩
  · split <;> exact ⟨rfl, rfl⟩

section

variable (hg : ctx.generation = some g) (hw : w.generation ≠ some g)

include hg hw

theorem effect_untouched : Untouched c w.toStore (effect ctx o w c).2.toStore := by
  have hf := fenced_of_ne hg hw
  cases c with
  | createRoot now =>
    simp only [effect, hg, Option.isSome_some, if_true]
    exact .refl _ _
  | markRootDirty =>
    simp only [effect, hf, if_true]
    exact .refl _ _
  | prune =>
    simp only [effect]
    split
    · next h hp => exact ⟨rfl, fun id r hr => prune_records hp hr, fun h => absurd rfl h⟩
    · exact .refl _ _
  | prepare operation requests => exact .of_eq (prepare_untouched _ _ _).1 (prepare_untouched _ _ _).2
  | publishFile a => exact .of_same (mutation_fenced hf (publishFileScript_fenced a hf)).1
  | deleteInode a => exact .of_same (mutation_fenced hf (deleteInodeScript_fenced a hf)).1
  | updateInode a => exact .of_same (mutation_fenced hf (updateInodeScript_fenced a hf)).1
  | restoreVersion a => exact .of_same (congrArg Prod.snd (restoreVersionScript_fenced a hg hw))
  | createMetadata name a => exact .of_same (watch_fenced _ hf).1
  | renameMetadata a replaced noReplace watched => exact .of_same (watch_fenced _ hf).1
  | refreshPaths paths => exact .of_same (watch_fenced _ hf).1
  | setLock inode owner lk => exact .of_same (watch_fenced _ hf).1
  | unlockAll inode owner => exact .of_same (watch_fenced _ hf).1
  | _ => exact .of_eq rfl rfl

/-- **Fencing of one command.** -/
theorem exec_untouched : Untouched c w.toStore (exec ctx o c w).2.toStore := by
  simp only [exec]
  split
  · exact effect_untouched hg hw
  · split
    · exact effect_untouched hg hw
    · exact .refl _ _
    · exact effect_untouched hg hw

theorem effect_declined (hc : c.guarded = true) : declined g c (effect ctx o w c).1 = true := by
  have hf := fenced_of_ne hg hw
  have script : ∀ {s : World → Reply × World}, s w = (.code (-2), w) →
      (∃ e, (mutation ctx o w s).1 = .error e ∧ e.declines = true) ∨
        (mutation ctx o w s).1 = .ok (.code (-2)) := fun hs => (mutation_fenced hf hs).2.symm
  cases c with
  | getGeneration => simpa [effect, declined] using hw
  | getGenerationAndLease t => simpa [effect, declined] using hw
  | inodePath id | markRootDirty => simp [effect, hf, declined, Err.declines]
  | publishFile a =>
    obtain ⟨e, he, hd⟩ | h := script (publishFileScript_fenced a hf)
    · simp only [effect, he, declined, hd]
    · simp [effect, h, declined]
  | deleteInode a =>
    obtain ⟨e, he, hd⟩ | h := script (deleteInodeScript_fenced a hf)
    · simp only [effect, he, declined, hd]
    · simp [effect, h, declined]
  | updateInode a =>
    obtain ⟨e, he, hd⟩ | h := script (updateInodeScript_fenced a hf)
    · simp only [effect, he, declined, hd]
    · simp [effect, h, declined]
  | restoreVersion a => simp [effect, restoreVersionScript_fenced a hg hw, declined]
  | createMetadata name a =>
    obtain ⟨e, he, hd⟩ := (watch_fenced (o := o) (createBlock name a) hf).2
    simp only [effect, he, declined, hd]
  | renameMetadata a replaced noReplace watched =>
    obtain ⟨e, he, hd⟩ :=
      (watch_fenced (o := o) (renameBlock a replaced noReplace watched) hf).2
    simp only [effect, he, declined, hd]
  | setLock inode owner lk | refreshPaths paths | unlockAll inode owner =>
    simp only [effect]
    obtain ⟨e, he, hd⟩ := (watch_fenced (o := o) _ hf).2
    rw [he]
    exact hd
  | _ => cases hc

/-- A guarded command that meets another generation does not show the operation's. -/
theorem exec_declined (hc : c.guarded = true) : declined g c (exec ctx o c w).1 = true := by
  simp only [exec]
  split
  · exact effect_declined hg hw hc
  · split
    · exact effect_declined hg hw hc
    all_goals rfl

end

end Commands

/-! ## Whole operations -/

variable {tr : List (Exchange sig World)}

section Operations

variable {ctx : Ctx} {g : Generation} {w w' : World} {c : Cmd} {r : Except Err (Val c)}

section

variable (hg : ctx.generation = some g)

include hg

/-- Once a guarded command has declined, an operation that meets no other generation again and
does not read its own publication back stays refused. -/
theorem refused_after {l : List (Exchange sig World)}
    (hl : ∀ e ∈ l, Exec ctx e.cmd e.before e.reply e.after ∧ e.before.generation ≠ some g ∧
      confirms e.cmd e.reply = false) {s : Standing} (hs : s.refused = true) :
    ((standing ctx g).after s l).refused = true := by
  induction l generalizing s with
  | nil => exact hs
  | cons e l ih =>
    obtain ⟨⟨o, ho⟩, hw, hc⟩ := hl e (by simp)
    refine ih (fun e' he' => hl e' (by simp [he'])) ?_
    simp only [standing]
    split
    · next hguard =>
      have := exec_declined (o := o) hg hw hguard
      rwa [ho] at this
    · simp [hs, hc]

/-- An operation whose guarded command met another generation, and that met only other generations
from then on, fails. -/
theorem fails_of_refused {x : Op Unit} (hx : Ends ctx g false x)
    {l l' : List (Exchange sig World)} {e : Exchange sig World} {a : Except Err Unit}
    (h : x.run.Trace (Exec ctx) (l ++ e :: l') a) (hguard : e.cmd.guarded = true)
    (he : e.before.generation ≠ some g)
    (hl : ∀ e' ∈ l', e'.before.generation ≠ some g ∧ confirms e'.cmd e'.reply = false) :
    ∃ err, a = .error err := by
  obtain ⟨⟨hheeds, -⟩, -⟩ := hx.sound h fun l₁ e' l₂ heq =>
    admits_of_exec (h.mem (e := e') (by rw [heq]; simp)) _
  have hrefused : ((standing ctx g).after ⟨false, false⟩ (l ++ e :: l')).refused = true := by
    rw [Monitor.after, foldl_append, foldl_cons]
    refine refused_after hg (fun e' he' => ⟨h.mem (by simp [he']), hl e' he'⟩) ?_
    obtain ⟨o, ho⟩ := h.mem (e := e) (by simp)
    have := exec_declined (o := o) hg he hguard
    rw [ho] at this
    simp only [standing, hguard, if_true, this]
  obtain ⟨err, ha, -⟩ := hheeds hrefused
  exact ⟨err, ha⟩

omit hg in
/-- A check that goes wrong when it has not read `g` and passes has read `g`. -/
theorem eq_of_check_ok {v : Option Generation} {bad : Prop} [Decidable bad] {k : Op Unit}
    {m : Ctx} (hbad : v ≠ some g → bad)
    (h : ((if bad then throw Err.workspaceChanged else k : Op Unit)).run.Trace (Exec m) tr (.ok ())) :
    v = some g ∧ k.run.Trace (Exec m) tr (.ok ()) := by
  split at h
  · cases h
  · next hb =>
    refine ⟨?_, h⟩
    by_contra hv
    exact hb (hbad hv)

/-- A generation check that passes has met the operation's generation. -/
theorem checkGeneration_trace (hc : ctx.requestChecked = false)
    {m : Ctx} (h : (checkGeneration ctx).run.Trace (Exec m) tr (.ok ())) :
    ∃ e, tr = [e] ∧ e.before.generation = some g := by
  simp only [checkGeneration, hc, hg, Bool.false_eq_true, if_false] at h
  split at h
  · next h' => cases h'
  · next g' lease hg' hl =>
    cases hg'
    cases h with
    | @ask _ _ w w' r tr _ hexec htr =>
      cases r with
      | error e => cases htr
      | ok v =>
        obtain ⟨o, ho⟩ := hexec
        obtain ⟨hv, -⟩ := Prod.mk.inj (exec_ok ho)
        cases hv
        obtain ⟨hw, htr⟩ := eq_of_check_ok Or.inl htr
        split at htr <;> cases htr
        exact ⟨_, rfl, hw⟩
  · next g' hg' hl =>
    cases hg'
    cases h with
    | @ask _ _ w w' r tr _ hexec htr =>
      cases r with
      | error e => cases htr
      | ok v =>
        obtain ⟨o, ho⟩ := hexec
        obtain ⟨hv, -⟩ := Prod.mk.inj (exec_ok ho)
        cases hv
        obtain ⟨hw, htr⟩ := eq_of_check_ok Or.inl htr
        cases htr
        exact ⟨_, rfl, hw⟩

/-- A request of a session that succeeds found the session's generation at its end. -/
theorem inSession_last (r : Request) (h : (r.inSession ctx).run.Trace (Exec ctx) tr (.ok ())) :
    ∃ l e, tr = l ++ [e] ∧ e.before.generation = some g := by
  obtain ⟨t₁, t, _, rfl, -, h⟩ := Trace.of_exceptBind h
  obtain ⟨t₂, t₃, _, rfl, -, h⟩ := Trace.of_exceptBind h
  have hg' : ({ ctx with requestChecked := false } : Ctx).generation = some g := hg
  obtain ⟨e, rfl, he⟩ := checkGeneration_trace hg' rfl h
  exact ⟨t₁ ++ t₂, e, by simp, he⟩

end

end Operations

/-! ## A sweep of a stale client -/

/-- A version of the symbolic link `/l`. -/
def oldVersion : Record :=
  { id := ⟨1, 2, .a⟩, fileId := ⟨1, 2⟩, path := [[108]], operation := .create, type := some .symlink
    mode := 0o777, size := 1, target := some [120], deleted := false, createdAt := 0, origin := 0
    contentRef := some .ext, contentHash := .symlink [120], prevHash := .empty, deltaBytes := 1
    metadata := {}, metadataOnly := false, version := 1, sequence := 1 }

/-- A workspace of generation `live 1` that holds `/l` and keeps one version of each file. -/
def oneVersionWorld : World :=
  { generation := some (.live 1)
    inode := fun id =>
      if id = 1 then some { type := some .dir, parent := some 0, name := some [] }
      else if id = 2 then
        some { type := some .symlink, mode := some 0o777, size := some 1, target := some [120]
               parent := some 1, name := some [108], revision := some 1
               historyId := some ⟨1, 2⟩, historyRevision := some 1
               historyHash := some (.symlink [120]) }
      else none
    dirents := fun id => if id = 1 then AList.insert [108] 2 ∅ else ∅
    info := some { directories := 1, symlinks := 1 }
    nextInode := some 2
    history :=
      { policy := some { mode := .all, maxVersions := 1 }
        records := fun id => if id = oldVersion.id then some oldVersion else none
        file := fun l =>
          if l = ⟨1, 2⟩ then
            some { next := 1, head := some oldVersion.id, recoverable := some oldVersion.id
                   inodeId := some 2 }
          else none
        versions := fun l => if l = ⟨1, 2⟩ then [(oldVersion.id, 1)] else []
        retention := [(oldVersion.id, 1)]
        sequence := some 1 }
    tokens := 1 }

/-- A client bound to the generation `live 1`. -/
def liveOne : Ctx := { generation := some (.live 1) }

/-- A restore fences the workspace just before the client's fourteenth command. -/
def fenceLate : List (World → World) :=
  List.replicate 13 id ++ [fun w => { w with generation := some (.fencing 2) }]

/-- `chmod /l` while a restore begins: the thirteenth command publishes, the fourteenth is the
retention sweep. -/
def fencedChmod : List (Exchange sig World) × Except Err Unit :=
  interleave (seqExec liveOne) fenceLate ((Request.chmod [47, 108] 0o600).op liveOne).run
    oneVersionWorld

theorem fencedChmod_trace : ((Request.chmod [47, 108] 0o600).op liveOne).run.Trace (Exec liveOne)
    fencedChmod.1 fencedChmod.2 := trace_interleave (fun _ _ => ⟨{}, rfl⟩) _ _ _

end Afs.Client
