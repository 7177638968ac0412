import Afs.Sync.SparedSweeps

/-!
# Tombstones of pending deletions

A tombstone is what keeps a full reconciliation from downloading a file that was deleted locally. It
stands in every state of the daemon for as long as the deletion is pending, whatever fails and
however often the daemon is restarted, provided that nothing else was under way for the path when it
was recorded, that it is saved before the first restart, and that no full reconciliation ends more
than five minutes later. That last condition is real: `cleanupTombstones` goes by the age alone, and
what comes after it brings the file back.
-/

namespace Afs.Sync

open List Relation

variable {w w' : World}

/-- A command that is no critical section leaves the sync state alone. -/
theorem Exec.state_eq {c : Cmd} {r : c.Rep} (h : Exec c w r w') (hc : c.Plain) :
    w'.state = w.state := by
  have hdisk : ∀ {x : Except OsErr Disk} {s : Except OsErr Unit}, diskWrite w x = (s, w') →
      w'.state = w.state := by
    intro x s h
    cases x <;> cases h <;> rfl
  have hremote : ∀ {f : Fault} {x : Except ClientErr Remote} {s : Except ClientErr Unit},
      remoteWrite f w x = (s, w') → w'.state = w.state := by
    intro f x s h
    obtain rfl | ⟨r, -, rfl⟩ := remoteWrite_eq h <;> rfl
  by_cases hr : c.reads
  · rw [h.of_reads hr]
  obtain ⟨f, h⟩ := h
  cases c with
  | mkdirAll | chmod | make | rename | remove => exact hdisk h
  | removeAll => exact hdisk (x := .ok _) h
  | unique =>
    cases h
    rfl
  | echo => exact hremote h
  | writeChunks => exact hremote h
  | chmodRemote => exact hremote h
  | rm => exact hremote h
  | mkdirMode => exact hremote h
  | ln => exact hremote h
  | renameRemote => exact hremote h
  | update => cases hc
  | _ => exact absurd trivial hr

/-- Whether the work brings what is remote at a path to the local folder. -/
def Work.downloads (p : Path) : Work → Prop
  | .download op => op.path = p
  | .carryOut plan => ∃ a ∈ plan, a.path = p ∧
      (a.kind = .mkdirLocal ∨ a.kind = .download ∨ a.kind = .symlinkDownload)
  | _ => False

/-- The command does not touch the entry of a path. -/
def Cmd.Leaves (p : Path) : Cmd → Prop
  | .update f => ∀ s, (f s).entry p = s.entry p
  | _ => True

namespace Deletion

variable (D : Deletion) (cfg : Config) (depth : ℕ)

/-- The deletion was recorded while nothing but the deletion was under way for the path. -/
structure Recorded (d : Daemon) : Prop where
  pending : D.Pending d.world
  stands : D.Stands d.world.state
  tasks : ∀ t ∈ d.tasks, t.Only (Cmd.Leaves D.path) fun works => ∀ work ∈ works, D.Admits work
  queue : ∀ work ∈ d.queue, D.Admits work

/-- What a step must not do: drop the tombstone for its age, or go back to a state that was saved
before it. -/
structure Permits (d : Daemon) (l : Label) : Prop where
  age : ∀ now, l = .command (.update (·.cleanup now)) → now - D.entry.lastSyncedAt ≤ tombstoneAge
  saved : l = .restart → D.Stands d.saved

/-- A step that is permitted, after which the deletion is still pending. -/
def Step (d d' : Daemon) : Prop :=
  ∃ l, Daemon.Step cfg depth d l d' ∧ D.Permits d l ∧ D.Pending d'.world

/-- What holds from then on. -/
structure Kept (d₀ d : Daemon) : Prop where
  pending : D.Pending d.world
  stands : D.Stands d.world.state
  tasks : ∀ t ∈ d.tasks, D.Keeps (fun works => ∀ work ∈ works, D.Admits work) t
  queue : ∀ work ∈ d.queue, D.Admits work
  begun : ∀ work ∈ d.begun, work ∈ d₀.begun ∨ D.Admits work

variable {D cfg depth} {d₀ d d' : Daemon}

/-- **Every piece of work** spares the tombstone, and so does what it asks for. -/
theorem keeps_run (hcfg : cfg.readonly = false) {work : Work} (hwork : D.Admits work) :
    D.Keeps (fun works => ∀ work ∈ works, D.Admits work) (work.run cfg depth) := by
  have huploads : ∀ ops : List UploadOp, (∀ o ∈ ops, D.AdmitsUpload o) →
      ∀ work ∈ ops.map Work.upload, D.Admits work := by
    intro ops hops work hwork
    obtain ⟨op, hop, rfl⟩ := mem_map.mp hwork
    exact hops op hop
  have hdownloads : ∀ ops : List DownloadOp, (∀ o ∈ ops, o.path ≠ D.path) →
      ∀ work ∈ ops.map Work.download, D.Admits work := by
    intro ops hops work hwork
    obtain ⟨op, hop, rfl⟩ := mem_map.mp hwork
    exact hops op hop
  cases work with
  | localEvent o p => exact (keeps_handleLocalEvent o p).bind huploads
  | remoteEvent p => exact (keeps_handleRemoteEvent p).bind hdownloads
  | sweep o =>
    refine (keeps_planWarmStart hcfg o).bind fun r hr => ?_
    cases r with
    | error e => exact forall_mem_nil _
    | ok plan =>
      intro work hwork
      rw [mem_singleton.mp hwork]
      exact hr plan rfl
  | upload op =>
    exact (keeps_process hwork).bind fun res hres => (keeps_handleUploadResult hres).bind hdownloads
  | download op =>
    refine keeps_process_download.bind fun res hres => ?_
    have hpath : res.op.path ≠ D.path := by
      rw [show res.op.path = op.path from hres]
      exact hwork
    exact (keeps_handleDownloadResult hpath).bind fun _ _ => forall_mem_nil _
  | carryOut plan => exact (keeps_finishWarmStart hwork).bind fun _ _ => forall_mem_nil _

theorem Stands.cleanup {s : SyncState} (h : D.Stands s) {now : ℕ}
    (hage : now - D.entry.lastSyncedAt ≤ tombstoneAge) : D.Stands (s.cleanup now) := by
  show (s.entries.only _).lookup D.path = some D.entry
  rw [Table.lookup_only, show s.entries.lookup D.path = some D.entry from h]
  simpa [Option.filter] using fun _ => hage

/-- A command of a task that keeps its word. -/
theorem Stands.exec {c : Cmd} {r : c.Rep} (h : D.Stands w.state) (hc : D.Spares c)
    (hage : ∀ now, c = .update (·.cleanup now) → now - D.entry.lastSyncedAt ≤ tombstoneAge)
    (hexec : Exec c w r w') : D.Stands w'.state := by
  cases c with
  | update f =>
    obtain ⟨_, hexec⟩ := hexec
    cases hexec
    rcases hc with hkeep | ⟨now, rfl⟩
    · exact hkeep _ h
    · exact h.cleanup (hage now rfl)
  | _ =>
    rw [hexec.state_eq trivial]
    exact h

theorem Recorded.kept (h : D.Recorded d) : D.Kept d d where
  pending := h.pending
  stands := h.stands
  tasks t ht := by
    refine Prog.Under.of_only (h.tasks t ht) fun c hc => ?_
    cases c with
    | update f => exact .inl fun s hs => (hc s).trans hs
    | _ => trivial
  queue := h.queue
  begun _ hwork := .inl hwork

/-- One step. -/
theorem Kept.step (hcfg : cfg.readonly = false) (h : D.Kept d₀ d) (hstep : D.Step cfg depth d d') :
    D.Kept d₀ d' := by
  obtain ⟨l, hstep, hpermits, hpending⟩ := hstep
  obtain ⟨hbefore, hstands, htasks, hqueue, hbegun⟩ := h
  cases hstep with
  | @event work hwork =>
    refine ⟨hpending, hstands, htasks, fun work' hwork' => ?_, hbegun⟩
    rcases mem_append.mp hwork' with hold | hnew
    · exact hqueue _ hold
    · rw [mem_singleton.mp hnew]
      cases work <;> trivial
  | @start work before after heq =>
    have hmem : ∀ x, x ∈ before ++ after → x ∈ d.queue := by
      intro x hx
      rw [heq]
      simp only [mem_append, mem_cons] at hx ⊢
      tauto
    have hwork : D.Admits work := hqueue work (by rw [heq]; simp)
    refine ⟨hpending, hstands, fun t ht => ?_, fun x hx => hqueue x (hmem x hx), fun x hx => ?_⟩
    · rcases mem_append.mp ht with hold | hnew
      · exact htasks t hold
      · rw [mem_singleton.mp hnew]
        exact keeps_run hcfg hwork
    · rcases mem_cons.mp hx with rfl | hold
      · exact .inr hwork
      · exact hbegun x hold
  | @command c k r w before after heq hexec =>
    obtain ⟨hspares, hnext⟩ : D.Keeps (fun works => ∀ work ∈ works, D.Admits work) (.ask c k) :=
      htasks _ (by rw [heq]; simp)
    have hreply : D.Reply c r := ⟨d.world, w, hbefore, hstands, hexec, hpending⟩
    have hage : ∀ now, c = .update (·.cleanup now) → now - D.entry.lastSyncedAt ≤ tombstoneAge :=
      fun now hc => hpermits.age now (congrArg _ hc)
    refine ⟨hpending, hstands.exec hspares hage hexec, fun t ht => ?_, hqueue, hbegun⟩
    rcases mem_append.mp ht with hfirst | hrest
    · exact htasks t (by rw [heq]; simp [hfirst])
    · rcases mem_cons.mp hrest with rfl | hlast
      · exact hnext r hreply
      · exact htasks t (by rw [heq]; simp [hlast])
  | @finish works before after heq =>
    have hworks : ∀ work ∈ works, D.Admits work := htasks (.ret works) (by rw [heq]; simp)
    refine ⟨hpending, hstands, fun t ht => ?_, fun x hx => ?_, hbegun⟩
    · refine htasks t ?_
      rw [heq]
      simp only [mem_append, mem_cons] at ht ⊢
      tauto
    · exact (mem_append.mp hx).elim (hqueue x) (hworks x)
  | @outside w heq =>
    refine ⟨hpending, ?_, htasks, hqueue, hbegun⟩
    show D.Stands w.state
    rwa [heq]
  | save => exact ⟨hpending, hstands, htasks, hqueue, hbegun⟩
  | restart => exact ⟨hpending, hpermits.saved rfl, nofun, nofun, hbegun⟩

/-- **A run.** -/
theorem Kept.run (hcfg : cfg.readonly = false) (h : D.Kept d₀ d)
    (hrun : ReflTransGen (D.Step cfg depth) d d') : D.Kept d₀ d' := by
  induction hrun with
  | refl => exact h
  | tail _ hstep ih => exact ih.step hcfg hstep

theorem Admits.not_downloads {work : Work} (h : D.Admits work) : ¬ work.downloads D.path := by
  cases work with
  | download op => exact h
  | carryOut plan =>
    rintro ⟨a, ha, hpath, hkind⟩
    obtain hne | ⟨hdelete, -⟩ := h a ha
    · exact hne hpath
    · rw [hdelete] at hkind
      rcases hkind with hkind | hkind | hkind <;> cases hkind
  | _ => exact id

/-- **A pending deletion is not forgotten.** In every run whose steps are permitted and which leaves
the deletion pending, the tombstone stands in every state, and no work that was begun since downloads
the path. -/
theorem stands_of_run (hcfg : cfg.readonly = false) (h : D.Recorded d)
    (hrun : ReflTransGen (D.Step cfg depth) d d') :
    D.Stands d'.world.state ∧ ∀ work ∈ d'.begun, work ∈ d.begun ∨ ¬ work.downloads D.path := by
  have hkept := h.kept.run hcfg hrun
  exact ⟨hkept.stands, fun work hwork => (hkept.begun work hwork).imp_right Admits.not_downloads⟩

end Deletion

section Example

/-- The deletion of `d/f` with the version of the baseline. -/
def deletionInD : Deletion where
  path := inD
  entry := oneByte.entry
  node := byteNode 3 1
  path_ne := by decide +kernel
  deleted := rfl
  isOf := oneByte.isOf
  mode := fun _ => rfl

/-- The network is up for everything but removals. -/
def keepingRemote : (c : Cmd) → World → c.Rep × World
  | .rm cond p, w => exec .refused (.rm cond p) w
  | c, w => exec .none c w

/-- The local folder, five minutes and a millisecond after the deletion. -/
def longAgo : World := { deletedLocally 1 with now := 300001 * 1000000 }

/-- After a full reconciliation whose removal fails. -/
def forgotten : World := ((warmStart smallFiles 4 .asIs).run keepingRemote longAgo).2

/-- After another one, with the network up. -/
def restored : World := ((warmStart smallFiles 4 .asIs).alone forgotten).2

/-- The version is still remote, but the tombstone is gone, and the file comes back. -/
theorem forgotten_restored :
    longAgo.state.entry inD = some oneByte.entry ∧ longAgo.disk.readFile inD = .error .notExist ∧
    bodyAt inD longAgo = some oneByte.body ∧ bodyAt inD forgotten = some oneByte.body ∧
    forgotten.state.entry inD = none ∧ forgotten.disk.readFile inD = .error .notExist ∧
    restored.disk.readFile inD = .ok [1] := by
  decide +kernel

theorem pending_deletedLocally : deletionInD.Pending (deletedLocally 1) where
  gone := by decide +kernel
  there := by decide +kernel
  above q hq hne := by
    have hcases : q = [] ∨ q = [text "d"] := by
      rcases prefix_cons_iff.mp hq with rfl | ⟨a, rfl, ha⟩
      · exact .inl rfl
      rcases prefix_cons_iff.mp ha with rfl | ⟨b, rfl, hb⟩
      · exact .inr rfl
      · exact absurd (by rw [prefix_nil.mp hb]; rfl) hne
    rcases hcases with rfl | rfl
    · exact ⟨dirNode 1, by decide +kernel, rfl⟩
    · exact ⟨dirNode 2, by decide +kernel, rfl⟩
  below q hq hne := by
    have hkeys : ∀ k ∈ (deletedLocally 1).remote.nodes.keys, inD <+: k → k = inD := by
      decide +kernel
    refine AList.lookup_eq_none.mpr fun hmem => hne (hkeys q ?_ hq)
    exact AList.mem_keys.mp hmem

/-- The daemon with the deletion in its queue, and its state saved. -/
def waiting : Daemon where
  world := deletedLocally 1
  saved := (deletedLocally 1).state
  queue := [.upload deleteInD]

/-- The daemon after it began the deletion and was restarted. -/
def restarted : Daemon where
  world := { deletedLocally 1 with state := (deletedLocally 1).state.loaded }
  saved := (deletedLocally 1).state
  begun := [.upload deleteInD]

theorem recorded_waiting : deletionInD.Recorded waiting where
  pending := pending_deletedLocally
  stands := show (deletedLocally 1).state.entry inD = some oneByte.entry by decide +kernel
  tasks := nofun
  queue work hwork := by
    rw [mem_singleton.mp hwork]
    exact .inr ⟨rfl, oneByte.entry, rfl, deletionInD.describes_entry⟩

theorem run_restarted : ReflTransGen (deletionInD.Step smallFiles 4) waiting restarted := by
  have hqueue : waiting.queue = [] ++ .upload deleteInD :: [] := rfl
  refine .tail (.single ⟨.other, .start waiting hqueue, ⟨nofun, nofun⟩, pending_deletedLocally⟩)
    ⟨.restart, .restart _, ⟨nofun, fun _ => ?_⟩, ?_⟩
  · exact recorded_waiting.stands
  · exact ⟨pending_deletedLocally.gone, pending_deletedLocally.there, pending_deletedLocally.above,
      pending_deletedLocally.below⟩

theorem restarted_stands : deletionInD.Stands restarted.world.state ∧
    ∀ work ∈ restarted.begun, work ∈ waiting.begun ∨ ¬ work.downloads inD :=
  Deletion.stands_of_run (D := deletionInD) rfl recorded_waiting run_restarted

end Example

end Afs.Sync
