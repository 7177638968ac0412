import Afs.Client.Interleavings
import Afs.History.Consistency
import Afs.History.Origins
import Afs.History.Sweep

/-!
# Runs of a workspace, as its history sees them

Whatever the clients of a workspace, its sweeper and its administrator do, a step leaves the
history keys alone, is a capture or is a page of a sweep. Captures have one change for every inode
but for one case: a rename whose destination is the entry of the renamed inode itself captures a
rename and a removal of the same inode.
-/

namespace Afs.Client

open History List

/-- What may happen to a workspace. -/
inductive Act
  /-- A command of any client, with any outcome on the network. -/
  | command (ctx : Ctx) (o : Choice) (c : Cmd)
  /-- `PrunePage`. -/
  | prunePage (limit : ℤ)
  /-- `SetPolicy` and `UpdatePolicy`: a new policy, and the sweep starts anew. -/
  | setPolicy (policy : Policy)
  /-- `captureWorkspaceHistory`: the changes of a checkpoint that is restored or forked, one for
  every path. -/
  | captureWorkspace (operation origin : Token) (changes : List Change)
      (hids : (changes.map (·.id)).Nodup)
  /-- The clock of the server is read as `now` from here on. -/
  | tick (now : ℤ)

/-- What it does. -/
def Act.run (w : World) : Act → World
  | .command ctx o c => (exec ctx o c w).2
  | .prunePage limit =>
    match History.prunePage w.history w.clock limit with
    | .ok h => { w with history := h }
    | .error _ => w
  | .setPolicy policy =>
    { w with history := { w.history with policy := some policy, pruneCursor := none } }
  | .captureWorkspace operation origin changes _ =>
    match capture w.toStore operation origin w.clock.toNat changes with
    | .ok cap => { w with toStore := applyCapture w.toStore cap }
    | .error _ => w
  | .tick now => { w with clock := now }

/-- The act is not a rename that history follows and that finds the renamed inode itself at its
destination. -/
def Act.Clean (w : World) : Act → Prop
  | .command _ _ (.renameMetadata a _ _ _) =>
    (w.history.policy.getD {}).mode ≠ .off → renameMetadataCheck a w.toStore = none →
      w.lookup a.newParent a.newName ≠ some a.id
  | _ => True

/-- The state after some acts. -/
def runActs (w : World) (acts : List Act) : World := acts.foldl Act.run w

/-- Every act is clean in the state it meets. -/
def CleanRun : World → List Act → Prop
  | _, [] => True
  | w, act :: acts => act.Clean w ∧ CleanRun (act.run w) acts

/-! ## One step -/

/-- What a step makes of the history keys; a clean one captures changes of distinct inodes. -/
inductive HistoryStep (clean : Prop) (w : World) : HistoryKeys → Prop
  | same (policy : Option Policy) (cursor : Option ℕ) (prepared : Token → List Prepared) :
      HistoryStep clean w
        { w.history with policy := policy, pruneCursor := cursor, prepared := prepared }
  | captured (operation origin : Token) (now : ℕ) (changes : List Change) (cap : Captured)
      (hids : clean → (changes.map (·.id)).Nodup)
      (hcap : capture w.toStore operation origin now changes = .ok cap) :
      HistoryStep clean w cap.history
  | pruned (now : ℤ) (limit : ℕ) (h : HistoryKeys) (hp : prune w.history now limit = .ok h) :
      HistoryStep clean w h

section Step

variable {clean : Prop} {ctx : Ctx} {o : Choice} {w : World}

theorem HistoryStep.refl (w : World) : HistoryStep clean w w.history :=
  .same w.history.policy w.history.pruneCursor w.history.prepared

theorem announce_history (s : Store) (m : Option Message) : (announce s m).history = s.history := by
  cases m <;> rfl

theorem map_withMetadata_id (payload : Option Payload) (changes : List Change) :
    (changes.map (withMetadata payload)).map (·.id) = changes.map (·.id) := by
  rw [map_map]
  refine map_congr_left fun c _ => ?_
  unfold withMetadata
  dsimp only [Function.comp_apply]
  split <;> rfl

/-- A publication whose writes leave the history alone is a capture, if it is anything. -/
theorem Scripted.historyStep {check : Option ℤ} {operation : Rev} {payload : Option Payload}
    {changes : List Change} {write : Store → Store} {out : Reply × World}
    (h : Scripted check w operation payload changes write out)
    (hwrite : ∀ s, (write s).history = s.history) (hforce : changes.any (·.force) = false)
    (hids : check = none → clean → (w.history.policy.getD {}).mode ≠ .off →
      (changes.map (·.id)).Nodup) : HistoryStep clean w out.2.history := by
  obtain ⟨code, -, rfl⟩ | ⟨hcheck, h⟩ := h
  · exact .refl w
  have hcapture : ∀ cap, capture w.toStore operation (publicationOrigin payload) w.clock.toNat
      (changes.map (withMetadata payload)) = .ok cap → HistoryStep clean w cap.history := by
    intro cap hcap
    by_cases hoff : (w.history.policy.getD {}).mode = .off
    · have hforce' : (changes.map (withMetadata payload)).any (·.force) = false := by
        rw [any_map, ← hforce]
        refine any_congr rfl fun c => ?_
        unfold withMetadata
        dsimp only [Function.comp_apply]
        split <;> rfl
      rw [capture_off hoff hforce'] at hcap
      cases hcap
      exact .refl w
    · exact .captured _ _ _ _ cap (fun hc => by rw [map_withMetadata_id]; exact hids hcheck hc hoff) hcap
  cases h with
  | refused e => exact .refl w
  | torn cap e hcap he => exact hcapture cap hcap
  | done cap m hcap =>
    dsimp only
    rw [announce_history, hwrite]
    exact hcapture cap hcap

theorem restoreVersionWrite_history (a : RestoreArgs) (current : Option Id) (delta : RestoreDelta)
    (s : Store) : (restoreVersionWrite a current delta s).history = s.history := by
  unfold restoreVersionWrite
  cases current with
  | none => rfl
  | some c => by_cases hc : c = a.id <;> simp only [hc, if_true, if_false] <;> rfl

theorem Restored.historyStep {g : Guard} {a : RestoreArgs} {out : Reply × World}
    (h : Restored g a w out) : HistoryStep clean w out.2.history := by
  cases h with
  | refused r => exact .refl w
  | done current cap m r hcheck hstage hcap hr =>
    dsimp only
    rw [announce_history, restoreVersionWrite_history]
    exact .captured _ _ _ [restoreChange a w.toStore current] cap (fun _ => nodup_singleton _) hcap

theorem mutation_historyStep {script : World → Reply × World}
    (h : HistoryStep clean w (script w).2.history) :
    HistoryStep clean w (mutation ctx o w script).2.history := by
  obtain hm | hm := mutation_world ctx o w script
  · rw [hm]
    exact .refl w
  · rw [hm]
    exact h

theorem watch_historyStep {α : Type} {block : World → Except Err α × World}
    (h : HistoryStep clean w (block w).2.history) : HistoryStep clean w (watch ctx o w block).2.history := by
  obtain hm | hm := watch_world ctx o w block
  · rw [hm]
    exact .refl w
  · rw [hm]
    exact h

theorem publishFileWrite_history (a : PublishArgs) (previous : ℤ) (s : Store) :
    (publishFileWrite a previous s).history = s.history := by
  unfold publishFileWrite
  by_cases hz : a.size = 0 <;> cases a.create <;> simp only [hz, if_true, if_false] <;> rfl

theorem renameMetadataWrite_history (a : RenameArgs) (replaced : Option (Id × Option Kind × ℤ))
    (s : Store) : (renameMetadataWrite a replaced s).history = s.history := by
  cases replaced <;> rfl

theorem refreshWrite_history (paths : List (Id × Path)) (s : Store) :
    (refreshWrite paths s).history = s.history := by
  unfold refreshWrite
  induction paths generalizing s with
  | nil => rfl
  | cons e paths ih => exact ih _

theorem prepare_historyStep (operation : Token) (requests : List PrepareRequest) :
    HistoryStep clean w (prepare w.toStore operation requests).2.history := by
  unfold prepare
  dsimp only
  split
  · exact .refl w
  · split
    · exact .refl w
    · exact .same _ _ _

theorem renameChanges_ids {a : RenameArgs} {s : Store} {linked : Option Id}
    (h : linked ≠ some a.id) : ((renameChanges a s linked).map (·.id)).Nodup := by
  cases linked with
  | none => exact nodup_singleton _
  | some id =>
    have hne : a.id ≠ id := fun he => h (congrArg some he.symm)
    simp [renameChanges, hne]

theorem setLockBlock_history (seen : Token → Bool) (inode : Id) (owner : LockOwner) (lk : FileLock) :
    (setLockBlock seen inode owner lk w).2.history = w.history := by
  unfold setLockBlock
  repeat' split
  all_goals rfl

/-- What a command makes of the history keys. -/
theorem effect_historyStep (c : Cmd) :
    HistoryStep ((Act.command ctx o c).Clean w) w (effect ctx o w c).2.history := by
  cases c with
  | prune =>
    simp only [effect]
    split
    · next h hp => exact .pruned _ _ h hp
    · exact .refl w
  | prepare operation requests => exact prepare_historyStep operation requests
  | discardPreparation operation => exact .same _ _ _
  | publishFile a =>
    exact mutation_historyStep <| (publishFileScript_cases ctx.guard a w).historyStep
      (publishFileWrite_history a _) rfl fun _ _ _ => nodup_singleton _
  | deleteInode a =>
    exact mutation_historyStep <| (deleteInodeScript_cases ctx.guard a w).historyStep
      (fun _ => rfl) rfl fun _ _ _ => nodup_singleton _
  | updateInode a =>
    exact mutation_historyStep <| (updateInodeScript_cases ctx.guard a w).historyStep
      (fun _ => rfl) rfl fun _ _ _ => nodup_singleton _
  | createMetadata name a =>
    refine watch_historyStep ?_
    unfold createBlock
    split
    · exact .refl w
    split
    · exact .refl w
    exact (createMetadataScript_cases a w).historyStep (fun _ => rfl) rfl fun _ _ _ =>
      nodup_singleton _
  | renameMetadata a replaced noReplace watched =>
    refine watch_historyStep ?_
    unfold renameBlock
    split
    · exact .refl w
    refine (renameMetadataScript_cases a w).historyStep (renameMetadataWrite_history a _) ?_
      fun hcheck hclean hoff => renameChanges_ids (hclean hoff hcheck)
    unfold renameChanges
    split <;> rfl
  | refreshPaths paths =>
    refine watch_historyStep ?_
    dsimp only
    rw [refreshWrite_history]
    exact .refl w
  | restoreVersion a =>
    change HistoryStep _ w (restoreVersionScript ctx.guard a w).2.history
    exact (restoreVersionScript_cases ctx.guard a w).historyStep
  | setLock inode owner lk =>
    refine watch_historyStep ?_
    rw [setLockBlock_history]
    exact .refl w
  | unlockAll inode owner => exact watch_historyStep (.refl w)
  | createRoot now =>
    simp only [effect]
    split <;> exact .refl w
  | markRootDirty =>
    simp only [effect]
    repeat' split
    all_goals exact .refl w
  | _ => exact .refl w

end Step

/-- **What any act makes of the history keys.** -/
theorem Act.historyStep (w : World) (act : Act) : HistoryStep (act.Clean w) w (act.run w).history := by
  cases act with
  | command ctx o c =>
    have heffect := @effect_historyStep ctx o w c
    simp only [run, exec]
    split
    · exact heffect
    · split
      · exact heffect
      · exact .refl w
      · exact heffect
  | prunePage limit =>
    simp only [run]
    split
    · next h hp => exact .pruned _ _ h hp
    · exact .refl w
  | setPolicy policy => exact .same _ _ _
  | captureWorkspace operation origin changes hids =>
    simp only [run]
    split
    · next cap hcap => exact .captured _ _ _ changes cap (fun _ => hids) hcap
    · exact .refl w
  | tick now => exact .refl w

variable {clean : Prop} {w : World} {h : HistoryKeys}

theorem HistoryStep.turn {rs : List Record} (hs : HistoryStep clean w h) (hclean : clean)
    (hrep : Represents w.history rs) : ∃ out ns, Turn w.history rs out ns h := by
  cases hs with
  | same policy cursor prepared => exact ⟨[], [], (Turn.refl hrep).relabel policy cursor prepared⟩
  | captured operation origin now changes cap hids hcap =>
    exact capture_turn hrep (hids hclean) hcap
  | pruned now limit h hp =>
    obtain ⟨out, hturn⟩ := prune_turn hrep hp
    exact ⟨out, [], hturn⟩

/-- A step stores backed versions only. -/
theorem HistoryStep.backed (hs : HistoryStep clean w h)
    (hold : ∀ id r, w.history.records id = some r → r.Backed) :
    ∀ id r, h.records id = some r → r.Backed := by
  intro id r hr
  cases hs with
  | same policy cursor prepared => exact hold id r hr
  | captured operation origin now changes cap hids hcap =>
    obtain hr | ⟨c, -, p, hdrawn, hnum⟩ := (capture_origin hcap).1 id r hr
    · exact hold id r hr
    · exact hdrawn.backed hnum
  | pruned now limit h hp => exact hold id r (prune_records hp hr)

theorem HistoryStep.indexed (hs : HistoryStep clean w h) (hold : Indexed w.history) :
    Indexed h := by
  cases hs with
  | same policy cursor prepared => exact hold.of_same rfl rfl
  | captured operation origin now changes cap hids hcap => exact capture_indexed hold hcap
  | pruned now limit h hp => exact prune_indexed hold hp

/-! ## Whole runs -/

section Runs

variable {w : World} {acts pre post : List Act} {rs : List Record}

theorem runActs_append : runActs w (pre ++ post) = runActs (runActs w pre) post :=
  foldl_append ..

theorem cleanRun_append : CleanRun w (pre ++ post) ↔ CleanRun w pre ∧ CleanRun (runActs w pre) post := by
  induction pre generalizing w with
  | nil => exact (true_and _).symm.to_iff
  | cons act pre ih =>
    rw [cons_append, CleanRun, CleanRun, ih, and_assoc]
    rfl

/-- **What a clean run makes of a represented history.** -/
theorem CleanRun.extends (hrep : Represents w.history rs) (hclean : CleanRun w acts) :
    (∃ rs', Represents (runActs w acts).history rs') ∧
      Extends w.history (runActs w acts).history := by
  induction acts generalizing w rs with
  | nil => exact ⟨⟨rs, hrep⟩, hrep.extends⟩
  | cons act acts ih =>
    obtain ⟨out, ns, hturn⟩ := (act.historyStep w).turn hclean.1 hrep
    obtain ⟨hrest, hext⟩ := ih hturn.represents hclean.2
    exact ⟨hrest, (hturn.extends hrep).trans hext⟩

theorem runActs_backed (acts : List Act) (hold : ∀ id r, w.history.records id = some r → r.Backed) :
    ∀ id r, (runActs w acts).history.records id = some r → r.Backed := by
  induction acts generalizing w with
  | nil => exact hold
  | cons act acts ih => exact ih ((act.historyStep w).backed hold)

theorem runActs_indexed (acts : List Act) (hold : Indexed w.history) :
    Indexed (runActs w acts).history := by
  induction acts generalizing w with
  | nil => exact hold
  | cons act acts ih => exact ih ((act.historyStep w).indexed hold)

/-- The history has a policy, maybe, and nothing else. -/
def EmptyHistory (w : World) : Prop := w.history = { policy := w.history.policy }

theorem EmptyHistory.represents (h : EmptyHistory w) : Represents w.history [] := by
  rw [h]
  exact .empty _

/-- The record is stored. -/
def Stored (w : World) (r : Record) : Prop := w.history.records r.id = some r

/-- What a program does to the world is a run. -/
theorem runActs_program {α : Type} (ctx : Ctx) (p : Prog sig α) (w : World) :
    ∃ acts, runActs w acts = (p.run (seqExec ctx) w).2 := by
  induction p generalizing w with
  | ret a => exact ⟨[], rfl⟩
  | ask c k ih =>
    obtain ⟨acts, h⟩ := ih (seqExec ctx c w).1 (seqExec ctx c w).2
    exact ⟨.command ctx {} c :: acts, h⟩

theorem runActs_requests (rs : List Request) (w : World) : ∃ acts, runActs w acts = runRequests w rs := by
  induction rs generalizing w with
  | nil => exact ⟨[], rfl⟩
  | cons r rs ih =>
    obtain ⟨acts, h⟩ := runActs_program {} (r.op {}).run w
    obtain ⟨acts', h'⟩ := ih (runActs w acts)
    refine ⟨acts ++ acts', ?_⟩
    rw [runActs_append, h', h]
    rfl

/-- A workspace with nothing but its root, whose history keeps five bytes. -/
def trackedWorld : World :=
  { bareWorld with history := { policy := some { mode := .all, maxBytes := 5 } } }

/-- A client creates `/d` and a file `/d/a` of one byte. -/
def oneFile : List Request := [.mkdir [47, 100] 0o755, .echo [47, 100, 47, 97] [120]]

/-- Then it renames `/d` to `/e`, makes a link `/l` to it, and renames `/l/a` to `/e/a`, which is
the same entry. -/
def ontoItself : List Request :=
  [.rename [47, 100] [47, 101] {} 8, .ln [47, 101] [47, 108],
    .rename [47, 108, 47, 97] [47, 101, 47, 97] {} 8]

theorem emptyHistory_trackedWorld : EmptyHistory trackedWorld := rfl

/-- A link is created and the history is swept. -/
def oneLink : List Act :=
  [.command {} {} (.createMetadata [108]
      { id := 2, parent := 1, path := [[108]], payload := none
        fields := { type := some .symlink, size := some 1, target := some [97], parent := some 1
                    name := some [108], revision := some 1 } }),
   .prunePage 10]

theorem clean_oneLink : CleanRun trackedWorld oneLink := ⟨trivial, trivial, trivial⟩

/-- **The history is consistent in every state of a clean run**, and what is captured later has
greater numbers. -/
theorem history_consistent (hempty : EmptyHistory w) (hclean : CleanRun w acts) :
    Consistent (runActs w acts).history ∧
    ∀ pre post, acts = pre ++ post → ∀ r r', Stored (runActs w pre) r → Stored (runActs w acts) r' →
      ¬ Stored (runActs w pre) r' →
      r.sequence < r'.sequence ∧ (r.fileId = r'.fileId → r.version < r'.version) := by
  constructor
  · obtain ⟨⟨rs, hrep⟩, -⟩ := hclean.extends hempty.represents
    exact hrep.consistent
  · rintro pre post rfl r r' hr hr' hnot
    obtain ⟨hpre, hpost⟩ := cleanRun_append.mp hclean
    obtain ⟨⟨rs, hrep⟩, -⟩ := hpre.extends hempty.represents
    obtain ⟨-, hext⟩ := hpost.extends hrep
    rw [runActs_append] at hr'
    obtain ⟨hseq, hver⟩ := (hext.new _ _ hr').resolve_left hnot
    obtain ⟨hseq₀, hver₀⟩ := hext.old _ _ hr
    refine ⟨hseq₀.trans_lt hseq, fun hl => ?_⟩
    rw [hl] at hver₀
    exact hver₀.trans_lt hver

theorem oneLink_consistent : (runActs trackedWorld oneLink).history.retention.length = 1 ∧
    Consistent (runActs trackedWorld oneLink).history :=
  ⟨by decide +kernel, (history_consistent emptyHistory_trackedWorld clean_oneLink).1⟩

/-- **A rename onto itself miscounts.** The version of the rename and the tombstone that replaces
the file have one identity: the tombstone takes the place of the version, whose blob stays
counted. -/
theorem rename_onto_itself_miscounts : EmptyHistory trackedWorld ∧ ∃ acts,
    runActs trackedWorld acts = runRequests trackedWorld (oneFile ++ ontoItself) ∧
      ¬ Consistent (runActs trackedWorld acts).history := by
  obtain ⟨acts, hacts⟩ := runActs_requests (oneFile ++ ontoItself) trackedWorld
  refine ⟨emptyHistory_trackedWorld, acts, hacts, fun hc => ?_⟩
  rw [hacts] at hc
  have hcount : ((runRequests trackedWorld (oneFile ++ ontoItself)).history.blobrefs [120]).getD 0 = 2 := by
    decide +kernel
  have honly : ∀ e ∈ (runRequests trackedWorld (oneFile ++ ontoItself)).history.retention,
      ((runRequests trackedWorld (oneFile ++ ontoItself)).history.records e.1).bind (·.blobId) = some [120] →
        e.1 = ⟨3, 3, .a⟩ := by decide +kernel
  have hone : {id | ∃ r, (runRequests trackedWorld (oneFile ++ ontoItself)).history.records id = some r ∧
      r.blobId = some [120]}.ncard ≤ 1 := by
    refine (Set.ncard_le_ncard (t := {⟨3, 3, .a⟩}) ?_).trans (Set.ncard_singleton _).le
    rintro id ⟨r, hr, hb⟩
    refine honly (id, r.sequence) ((hc.retention id r.sequence).mpr ⟨r, hr, rfl⟩) ?_
    rw [hr]
    exact hb
  have hrefs := hc.refs [120]
  omega

/-- The record was stored in some state of the run. -/
def Ever (w : World) (acts : List Act) (r : Record) : Prop :=
  ∃ pre, pre <+: acts ∧ Stored (runActs w pre) r

/-- A record that was ever stored is outlived by one of its lineage. -/
theorem Ever.outlived {r : Record} (hempty : EmptyHistory w) (hclean : CleanRun w acts)
    (hever : Ever w acts r) :
    (∃ r', Stored (runActs w acts) r' ∧ r'.fileId = r.fileId ∧ r.version ≤ r'.version) ∧
    (r.recoverable = true → ∃ r', Stored (runActs w acts) r' ∧ r'.fileId = r.fileId ∧
      r'.recoverable = true ∧ r.version ≤ r'.version) := by
  obtain ⟨pre, ⟨post, rfl⟩, hr⟩ := hever
  obtain ⟨hpre, hpost⟩ := cleanRun_append.mp hclean
  obtain ⟨⟨rs, hrep⟩, -⟩ := hpre.extends hempty.represents
  obtain ⟨⟨rs', hrep'⟩, hext⟩ := hpost.extends hrep
  rw [← runActs_append] at hrep' hext
  constructor
  · obtain ⟨id, r', hr', hrest⟩ := hext.last _ _ hr
    obtain ⟨hmem, rfl⟩ := hrep'.journal.record_iff.mp hr'
    exact ⟨r', hr', hrest⟩
  · intro hrec
    obtain ⟨id, r', hr', hrest⟩ := hext.recoverable _ _ hr hrec
    obtain ⟨hmem, rfl⟩ := hrep'.journal.record_iff.mp hr'
    exact ⟨r', hr', hrest⟩

/-- Then it writes four bytes to `/f`. -/
def overFull : List Request := oneFile ++ ontoItself ++ [.echo [47, 102] [1, 2, 3, 4]]

end Runs

end Afs.Client
