import Afs.Client.Discipline

/-!
# Expected-stat compare and swap

A mutation under `WithExpectedStat` is bound to an observation of its path: an inode at a
revision, or nothing. The client compares the observation with the inode it has found, perhaps in
its cache, and the script compares the revision and the directory entry once more. Together they
leave no gap: what the operation publishes is published only while the entry through which the
inode was found holds the observation.

The entry is one of a directory, not of a path. The directory may be moved while the operation is
under way, and directories missing above a path are created before the observation is compared.

## Main results

* `exec_kept`: a publication that reports a conflict, or asks for hashes, has changed nothing;
* `exec_holds`: one that changes something has found the revision it replaces at its entry.
-/

namespace Afs.Client

open History List Prog

/-! ## What a publication changes -/

/-- The inodes, entries, contents, counters and history records are as they were. -/
structure Kept (s s' : Store) : Prop where
  inode : s'.inode = s.inode
  dirents : s'.dirents = s.dirents
  content : s'.content = s.content
  info : s'.info = s.info
  records : s'.history.records = s.history.records

theorem Kept.refl (s : Store) : Kept s s := ⟨rfl, rfl, rfl, rfl, rfl⟩

theorem Kept.of_same {w w' : World} (h : w' = w) : Kept w.toStore w'.toStore := h ▸ .refl _

/-- The commands that create what an operation finds missing above its path. -/
def Cmd.incidental : Cmd → Bool
  | .createRoot _ => true
  | .createMetadata _ a => a.fields.type == some .dir
  | _ => false

/-- The commands that follow a publication. -/
def Cmd.follows : Cmd → Bool
  | .prune | .refreshPaths _ => true
  | _ => false

section Commands

variable {ctx : Ctx} {o : Choice} {w w' : World} {c : Cmd} {r : Except Err (Val c)}

/-! ## Publications that were sent back -/

/-- The commands that publish. -/
def Cmd.publishes : Cmd → Bool
  | .publishFile _ | .deleteInode _ | .updateInode _ | .renameMetadata _ _ _ _
  | .restoreVersion _ => true
  | .createMetadata _ a => a.fields.type != some .dir
  | _ => false

theorem effect_kept_of_plain (hp : c.publishes = false) (hi : c.incidental = false)
    (hf : c.follows = false) : Kept w.toStore (effect ctx o w c).2.toStore := by
  have haside := effect_aside (c := c) ctx o w
  cases c with
  | createMetadata name a =>
    simp only [Cmd.publishes, Cmd.incidental] at hp hi
    simp only [bne, hi, Bool.not_false] at hp
    cases hp
  | newOriginID => exact .refl _
  | cachePath p d => exact .refl _
  | incrNextInode => exact ⟨rfl, rfl, rfl, rfl, rfl⟩
  | stage t op => exact ⟨rfl, rfl, rfl, rfl, rfl⟩
  | createRoot now => cases hi
  | prune => cases hf
  | refreshPaths l => cases hf
  | _ =>
    first
    | (cases hp; done)
    | exact ⟨(haside rfl).inode, (haside rfl).dirents, (haside rfl).content, (haside rfl).info,
        (haside rfl).records nofun⟩

variable {script : World → Reply × World}

theorem effect_kept_of_publishes (hp : c.publishes = true)
    (hs : soils c (effect ctx o w c).1 = false) : (effect ctx o w c).2 = w := by
  cases c with
  | publishFile a =>
    exact mutation_kept (publishFileScript_cases _ a w).kept fun v hv => by
      simpa only [effect, hv, soils] using hs
  | deleteInode a =>
    exact mutation_kept (deleteInodeScript_cases _ a w).kept fun v hv => by
      simpa only [effect, hv, soils] using hs
  | updateInode a =>
    exact mutation_kept (updateInodeScript_cases _ a w).kept fun v hv => by
      simpa only [effect, hv, soils] using hs
  | restoreVersion a => exact restoreVersionScript_kept hs
  | renameMetadata a replaced noReplace watched =>
    exact watch_kept renameBlock_kept fun v hv => by simpa only [effect, hv, soils] using hs
  | createMetadata name a =>
    have hdir : (a.fields.type != some .dir) = true := hp
    exact watch_kept createBlock_kept fun v hv => by
      simpa only [effect, hv, soils, hdir, Bool.and_true] using hs
  | _ => cases hp

/-- **A publication that was sent back changed nothing.** Neither did any other command, except
those that create directories and those that belong after a publication. -/
theorem exec_kept (h : exec ctx o c w = (r, w')) (hs : soils c r = false)
    (hi : c.incidental = false) (hf : c.follows = false) : Kept w.toStore w'.toStore := by
  obtain heff | ⟨-, rfl, rfl | rfl⟩ := exec_cases h
  · cases hp : c.publishes with
    | false =>
      have : Kept w.toStore (effect ctx o w c).2.toStore := effect_kept_of_plain hp hi hf
      rwa [heff] at this
    | true =>
      have : (effect ctx o w c).2 = w := effect_kept_of_publishes hp (by rwa [heff])
      rw [heff] at this
      exact .of_same this
  · exact .refl _
  · refine effect_kept_of_plain ?_ hi hf
    -- a publication whose reply was lost may have gone through
    cases c <;> first | rfl | cases hs | skip
    simp_all [soils, Cmd.publishes]

/-! ## Publications that went through -/

/-- The inode at an entry and its revision, or the absence of the entry, are as observed. -/
def Observed (stat : Option Stat) (s : Store) (d : Id) (n : Name) : Prop :=
  match stat with
  | none => s.lookup d n = none
  | some stat => s.lookup d n = some stat.inode ∧ s.revision stat.inode = stat.revision

/-- The entry a command publishes through is as observed. The root has no entry. -/
def Holds (stat : Option Stat) (s : Store) : Cmd → Prop
  | .publishFile a => Observed stat s a.parent a.name
  | .deleteInode a => Observed stat s a.parent a.name
  | .updateInode a => Observed stat s a.parent a.name ∨
    ∃ root, stat = some root ∧ root.inode = rootInodeID ∧ s.revision rootInodeID = root.revision
  | .renameMetadata a _ _ _ => Observed stat s a.oldParent a.oldName
  | _ => True

variable {stat : Option Stat} {s : Store}

/-- A publication that creates finds its entry free, any other one finds the revision it replaces;
if it also agrees with the observation, the entry is as observed. -/
theorem observed_of_expects {creating : Bool} {id d : Id} {n : Name} {revision : Rev}
    (hs : ctx.expectedStat = some stat) (he : ctx.Expects creating id revision)
    (hnew : creating = true → s.lookup d n = none)
    (hold : creating = false → s.lookup d n = some id ∧ s.revision id = revision) :
    Observed stat s d n := by
  unfold Ctx.Expects at he
  rw [hs] at he
  cases stat with
  | none => exact hnew he
  | some stat =>
    obtain ⟨hc, rfl, rfl⟩ := he
    exact hold hc

theorem PublishFilePassed.observed {g : Guard} {a : PublishArgs} (h : PublishFilePassed g a s)
    (hs : ctx.expectedStat = some stat) (he : ctx.Expects a.create a.id a.expected) :
    Observed stat s a.parent a.name :=
  observed_of_expects hs he h.free h.linked

theorem DeleteInodePassed.observed {g : Guard} {a : DeleteArgs} (h : DeleteInodePassed g a s)
    (hs : ctx.expectedStat = some stat) (he : ctx.Expects false a.id a.expected) :
    Observed stat s a.parent a.name :=
  observed_of_expects hs he nofun fun _ => ⟨h.linked, h.expected⟩

theorem UpdateInodePassed.observed {g : Guard} {a : UpdateArgs} (h : UpdateInodePassed g a s)
    (hs : ctx.expectedStat = some stat) (he : ctx.Expects false a.id a.expected) :
    Observed stat s a.parent a.name ∨
      ∃ root, stat = some root ∧ root.inode = rootInodeID ∧
        s.revision rootInodeID = root.revision := by
  by_cases hid : a.id = rootInodeID
  · unfold Ctx.Expects at he
    rw [hs] at he
    cases stat with
    | none => cases he
    | some root =>
      obtain ⟨-, hi, hrev⟩ := he
      exact .inr ⟨root, rfl, hi.trans hid, by rw [← hid, h.expected, hrev]⟩
  · exact .inl (observed_of_expects hs he nofun fun _ =>
      ⟨h.linked hid, h.expected⟩)

theorem RenameMetadataPassed.observed {a : RenameArgs} (h : RenameMetadataPassed a s)
    (hs : ctx.expectedStat = some stat) (he : ctx.Expects false a.id a.expected) :
    Observed stat s a.oldParent a.oldName :=
  observed_of_expects hs he nofun fun _ => ⟨h.linked, h.expected⟩

/-- A script under `runMutationScript` changes the world only past its checks. -/
theorem mutation_holds {P : Prop}
    (hs : (script w).2 = w ∨ P) : (mutation ctx o w script).2 = w ∨ P := by
  obtain h | h := mutation_world ctx o w script
  · exact .inl h
  · rwa [h]

theorem effect_holds (hs : ctx.expectedStat = some stat) {d : Standing} {g : Generation}
    (ha : (standing ctx g).allows d c) : (effect ctx o w c).2 = w ∨ Holds stat w.toStore c := by
  cases c with
  | publishFile a =>
    exact mutation_holds ((publishFileScript_cases _ a w).same_or.imp_right fun h =>
      (publishFileCheck_passed h).observed hs ha)
  | deleteInode a =>
    exact mutation_holds ((deleteInodeScript_cases _ a w).same_or.imp_right fun h =>
      (deleteInodeCheck_passed h).observed hs ha)
  | updateInode a =>
    exact mutation_holds ((updateInodeScript_cases _ a w).same_or.imp_right fun h =>
      (updateInodeCheck_passed h).observed hs ha)
  | renameMetadata a replaced noReplace watched =>
    obtain h | h := watch_world ctx o w (renameBlock a replaced noReplace watched)
    · exact .inl h
    · simp only [effect, h, renameBlock]
      split
      · exact .inl rfl
      · exact (renameMetadataScript_cases a w).same_or.imp_right fun h =>
          (renameMetadataCheck_passed h).observed hs ha
  | _ => exact .inr trivial

/-- **A publication that changes something finds what was observed.** -/
theorem exec_holds (hs : ctx.expectedStat = some stat) {d : Standing} {g : Generation}
    (ha : (standing ctx g).allows d c) (h : exec ctx o c w = (r, w')) :
    w' = w ∨ Holds stat w.toStore c := by
  have heff : (effect ctx o w c).2 = w ∨ Holds stat w.toStore c := effect_holds hs ha
  obtain h | ⟨-, -, rfl | rfl⟩ := exec_cases h
  · rwa [h] at heff
  · exact .inl rfl
  · exact heff

end Commands

/-! ## Whole operations -/

section Operations

variable {ctx : Ctx} {g : Generation}

/-- Only an operation bound to directories can be refused the refresh of its paths. -/
theorem not_excused {w w' : World} {c : Cmd} {r : Except Err (Val c)}
    (hp : ctx.expectedParents = []) (h : Exec ctx c w r w') : excuses c r = false := by
  obtain ⟨o, ho⟩ := h
  cases r with
  | ok v => rfl
  | error e =>
    cases c with
    | refreshPaths l =>
      obtain ⟨-, rfl | rfl | rfl | rfl | ⟨-, hne⟩⟩ := exec_error ho
      · rfl
      · rfl
      · rfl
      · rfl
      · exact absurd hp hne
    | _ => rfl

/-- If no publication has gone through by the end of an operation, none had at any point of it. -/
theorem clean_exchanges (hp : ctx.expectedParents = []) {tr : List (Exchange sig World)}
    (hexec : ∀ e ∈ tr, Exec ctx e.cmd e.before e.reply e.after) {s : Standing}
    (hd : ((standing ctx g).after s tr).dirty = false) :
    s.dirty = false ∧ ∀ l e l', tr = l ++ e :: l' →
      ((standing ctx g).after s l).dirty = false ∧ soils e.cmd e.reply = false := by
  induction tr generalizing s with
  | nil => exact ⟨hd, fun l e l' h => by simp at h⟩
  | cons e tr ih =>
    obtain ⟨hnext, htr⟩ := ih (fun e he => hexec e (by simp [he])) hd
    have hx := not_excused hp (hexec e (by simp))
    simp only [standing, hx, Bool.not_false, Bool.and_true, Bool.or_eq_false_iff] at hnext
    refine ⟨hnext.1, fun l e' l' heq => ?_⟩
    cases l with
    | nil =>
      simp only [nil_append, List.cons.injEq] at heq
      obtain ⟨rfl, -⟩ := heq
      exact hnext
    | cons e'' l =>
      simp only [cons_append, List.cons.injEq] at heq
      obtain ⟨rfl, heq⟩ := heq
      exact htr l e' l' heq

/-- What follows a publication is not allowed before one. -/
theorem not_follows {c : Cmd} {s : Standing} (ha : (standing ctx g).allows s c)
    (hd : s.dirty = false) : c.follows = false := by
  cases c with
  | prune | refreshPaths l => exact absurd (hd.symm.trans ha) (by simp)
  | _ => rfl

end Operations

/-! ## Where path and entry part -/

/-- A workspace with the directory `/a` and the empty file `/a/f`. -/
def smallWorld : World :=
  { inode := fun id =>
      if id = 1 then some { type := some .dir, parent := some 0, name := some [] }
      else if id = 2 then some { type := some .dir, parent := some 1, name := some [97] }
      else if id = 3 then some { type := some .file, parent := some 2, name := some [102] }
      else none
    dirents := fun id =>
      if id = 1 then AList.insert [97] 2 ∅ else if id = 2 then AList.insert [102] 3 ∅ else ∅
    info := some { files := 1, directories := 2 }
    nextInode := some 3 }

/-- What a caller has seen at `/a/f`. -/
def seenFile : Stat :=
  { inode := 3, revision := 0, type := .file, mode := 0, uid := 0, gid := 0, size := 0, ctime := 0
    mtime := 0, atime := 0 }

/-- A client bound to that observation. -/
def boundToFile : Ctx := { expectedStat := some (some seenFile) }

/-- Another client moves `/a` to `/b`. -/
def moveAway (w : World) : World :=
  (((Request.rename [47, 97] [47, 98] {} 8).op {}).run.run (seqExec {}) w).2

/-- `chmod /a/f` while `/a` is moved away before the client's sixteenth command, the
publication. -/
def movedChmod : List (Exchange sig World) × Except Err Unit :=
  interleave (seqExec boundToFile) (List.replicate 15 id ++ [moveAway])
    ((Request.chmod [47, 97, 47, 102] 0o600).op boundToFile).run smallWorld

/-- A write of `/d/f` bound to the same observation. -/
def missingParent : List (Exchange sig World) × Except Err Unit :=
  interleave (seqExec boundToFile) []
    ((Request.echoCreate [47, 100, 47, 102] [] 0o644).op boundToFile).run smallWorld

theorem movedChmod_trace : ((Request.chmod [47, 97, 47, 102] 0o600).op boundToFile).run.Trace
    (Exec boundToFile) movedChmod.1 movedChmod.2 := trace_interleave (fun _ _ => ⟨{}, rfl⟩) _ _ _

theorem missingParent_trace : ((Request.echoCreate [47, 100, 47, 102] [] 0o644).op boundToFile).run.Trace
    (Exec boundToFile) missingParent.1 missingParent.2 := trace_interleave (fun _ _ => ⟨{}, rfl⟩) _ _ _

end Afs.Client
