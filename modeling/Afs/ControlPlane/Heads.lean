import Afs.ControlPlane.Commits

/-!
# The head always exists

A save stores its checkpoint and moves the head to it in one transaction, and a deletion watches the
metadata. A restore does not: it reads the checkpoint, and the transaction that moves the head only
watches the metadata, which a deletion in between does not write. A materialization puts back the
metadata it read.
-/

namespace Afs.ControlPlane

open History Prog Option Function

/-- A checkpoint with a manifest and all its blobs. -/
def Stored (p : Plane) (n : CheckpointId) : Prop :=
  (p.savepoint n).isSome = true ∧
    ∃ m, p.manifest n = some m ∧ ∀ b ∈ manifestBlobRefs m, (p.blob b).isSome = true

/-- The head and the default checkpoint are stored. -/
def HeadsStored (p : Plane) : Prop :=
  ∀ current, p.workspaceMeta = some current →
    Stored p current.headSavepoint ∧ Stored p current.defaultSavepoint

/-- What a workspace keeps: every checkpoint it lists is whole, and its heads are among them. -/
structure Sound (p : Plane) : Prop where
  whole : ∀ n, (p.savepoint n).isSome = true → Stored p n
  heads : HeadsStored p

/-- The checkpoints that the metadata is made to name have not been deleted. -/
def NamesKnown : Cmd → Plane → Prop
  | .moveHead n _, p => (p.savepoint n).isSome = true
  | .putMeta m, p =>
    (p.savepoint m.headSavepoint).isSome = true ∧ (p.savepoint m.defaultSavepoint).isSome = true
  | _, _ => True

instance (c : Cmd) (p : Plane) : Decidable (NamesKnown c p) := by
  cases c <;> unfold NamesKnown <;> infer_instance

variable {p : Plane}

theorem Stored.of_eq {p' : Plane} {n : CheckpointId} (h : Stored p n)
    (hs : p'.savepoint n = p.savepoint n) (hm : p'.manifest n = p.manifest n)
    (hb : ∀ b d, p.blob b = some d → p'.blob b = some d) : Stored p' n := by
  obtain ⟨hsome, m, hman, hblobs⟩ := h
  refine ⟨hs ▸ hsome, m, hm ▸ hman, fun b hmem => ?_⟩
  obtain ⟨d, hd⟩ := isSome_iff_exists.mp (hblobs b hmem)
  rw [hb b d hd]
  rfl

theorem Sound.of_same {p' : Plane} (h : Sound p) (hs : SameCheckpoints p p') : Sound p' := by
  have hkeep : ∀ n, Stored p n → Stored p' n := fun n hn =>
    hn.of_eq (congrFun hs.savepoint n) (congrFun hs.manifest n) fun b d hb => by rwa [hs.blob]
  constructor
  · intro n hn
    rw [hs.savepoint] at hn
    exact hkeep n (h.whole n hn)
  · intro current hcurrent
    rw [hs.workspaceMeta] at hcurrent
    exact ⟨hkeep _ (h.heads current hcurrent).1, hkeep _ (h.heads current hcurrent).2⟩

/-- New metadata, with the same checkpoints. -/
theorem Sound.of_names (h : Sound p) {m : WorkspaceMeta} (t : ℕ)
    (hhead : (p.savepoint m.headSavepoint).isSome = true)
    (hdefault : (p.savepoint m.defaultSavepoint).isSome = true) :
    Sound { p with workspaceMeta := some m, touched := t } := by
  refine ⟨fun n hn => h.whole n hn, fun current hcurrent => ?_⟩
  obtain rfl := Option.some.inj hcurrent
  exact ⟨h.whole _ hhead, h.whole _ hdefault⟩

/-- A deletion that goes through spares the head and the default checkpoint. -/
theorem Sound.execDelete (h : Sound p) (n : CheckpointId) (m : Manifest) :
    Sound (execDelete n m p).2 := by
  obtain heq | ⟨current, refs, hcurrent, hhead, hdefault, -, -, -, heq⟩ := execDelete_cases n m p
  · rw [heq]
    exact h
  · rw [heq]
    have hkeep : ∀ n', n' ≠ n → Stored p n' → Stored { p with
        savepoint := update p.savepoint n none
        manifest := update p.manifest n none
        savepoints := p.savepoints.filter fun e => e.1 ≠ n
        blobref := refs.foldl (fun f e => update f e.1 (some e.2)) p.blobref } n' :=
      fun n' hne hn => hn.of_eq (update_of_ne hne _ _) (update_of_ne hne _ _)
        fun _ _ hb => hb
    constructor
    · intro n' hn'
      dsimp only at hn'
      by_cases hne : n' = n
      · subst hne
        rw [update_self] at hn'
        cases hn'
      · rw [update_of_ne hne] at hn'
        exact hkeep n' hne (h.whole n' hn')
    · intro current' hcurrent'
      obtain rfl := Option.some.inj (hcurrent.symm.trans hcurrent')
      obtain ⟨h₁, h₂⟩ := h.heads current hcurrent
      exact ⟨hkeep _ hhead h₁, hkeep _ hdefault h₂⟩

/-- The transaction of a save stores the checkpoint it moves the head to. -/
theorem Sound.saveWrite (h : Sound p) {w : SaveWrites} (hw : Ready w p) :
    Sound (ControlPlane.saveWrite w p) := by
  have hnew : Stored (ControlPlane.saveWrite w p) w.savepoint.id := by
    refine ⟨?_, w.manifest.viaJson, update_self .., fun b hb => ?_⟩
    · simp [ControlPlane.saveWrite]
    · exact hw.blobs b (mem_blobRefs_viaJson hb)
  have hkeep : ∀ n, Stored p n → Stored (ControlPlane.saveWrite w p) n := by
    intro n hn
    by_cases hne : n = w.savepoint.id
    · rw [hne]
      exact hnew
    · exact hn.of_eq (update_of_ne hne _ _) (update_of_ne hne _ _)
        fun _ _ hb => hb
  constructor
  · intro n hn
    by_cases hne : n = w.savepoint.id
    · rw [hne]
      exact hnew
    · rw [show (ControlPlane.saveWrite w p).savepoint n = p.savepoint n from
        update_of_ne hne _ _] at hn
      exact hkeep n (h.whole n hn)
  · intro current hcurrent
    obtain rfl := Option.some.inj hcurrent
    obtain ⟨old, hold, hdefault⟩ := hw.current
    refine ⟨hw.head ▸ hnew, ?_⟩
    rw [hdefault]
    exact hkeep _ (h.heads old hold).2

/-- What one command does to a sound workspace. -/
theorem preserved_sound : Preserved NamesKnown Sound where
  routine me o c p hc hp hclean := by
    cases hs : c.settles with
    | false => exact hp.of_same (effect_sameCheckpoints hc hs me o p)
    | true =>
      cases c with
      | execDelete n m => exact hp.execDelete n m
      | moveHead n updatedAt =>
        simp only [effect]
        split
        · exact hp
        · next current hcurrent =>
          exact hp.of_names _ hclean (hp.heads current hcurrent).2.1
      | putMeta m => exact hp.of_names _ hclean.1 hclean.2
      | setBlobNX h data =>
        have hg := effect_grows hc me o p
        exact ⟨fun n hn => (hp.whole n hn).of_eq rfl rfl hg.blob, fun current hcurrent =>
          ⟨(hp.heads current hcurrent).1.of_eq rfl rfl hg.blob,
            (hp.heads current hcurrent).2.of_eq rfl rfl hg.blob⟩⟩
      | _ => cases hs
  save w p hw hp _ := hp.saveWrite hw

/-- **The head always exists.** In every run of saves, restores, deletions of checkpoints and updates
of the metadata in which the checkpoint a restore moves the head to, and the checkpoints of metadata
that is put back, have not been deleted meanwhile. -/
theorem head_exists {p : Plane} {n : ℕ} (hp : Sound p) {T : Operations}
    (h : Team.Run (Starts keepsWorkspace) (ExecIf NamesKnown) (quiet p n) T) :
    HeadsStored T.store :=
  (run_preserves preserved_sound hp h).heads

/-- A workspace with two checkpoints of its empty tree, `a` and `b`; the head is `a`. -/
def twoCheckpoints : Plane where
  world :=
    { generation := some (.live 0)
      inode := fun id => if id = rootInodeID then some { type := some .dir } else none }
  workspaceMeta := some { headSavepoint := ascii ['a'], defaultSavepoint := ascii ['a'] }
  savepoint := fun n =>
    if n = ascii ['a'] ∨ n = ascii ['b'] then some { id := n, name := n } else none
  manifest := fun n => some
    { savepoint := n
      entries := (∅ : Entries).insert [slash] { type := .dir, mode := 0o755 } }

theorem sound_twoCheckpoints : Sound twoCheckpoints := by
  have hstored : ∀ n, (twoCheckpoints.savepoint n).isSome = true → Stored twoCheckpoints n := by
    refine fun n hn => ⟨hn, _, rfl, fun b hb => ?_⟩
    obtain ⟨hne, path, e, he, rfl⟩ := mem_manifestBlobRefs.mp hb
    by_cases hpath : path = [slash]
    · subst hpath
      rw [AList.lookup_insert] at he
      obtain rfl := Option.some.inj he
      exact absurd rfl hne
    · rw [AList.lookup_insert_ne hpath, AList.lookup_empty] at he
      cases he
  refine ⟨hstored, fun current hcurrent => ?_⟩
  obtain rfl := Option.some.inj hcurrent
  exact ⟨hstored _ (by decide), hstored _ (by decide)⟩

/-- A restore of `b` that nothing interrupts. -/
theorem head_exists_restored : HeadsStored (play keepsWorkspace NamesKnown
    (.start (.restore { fuel := 3, safetyName := ascii ['s'] } (ascii ['b'])) :: steps 1 60)
    (quiet twoCheckpoints 1)).store :=
  head_exists sound_twoCheckpoints (run_play keepsWorkspace NamesKnown _ _)

/-- A restore has read the checkpoint `b`, which is deleted before the head is moved to it. -/
theorem head_lost : Sound twoCheckpoints ∧ ∃ T : Operations,
    Team.Run (Starts keepsWorkspace) (ExecIf fun _ _ => True) (quiet twoCheckpoints 1) T ∧
      ¬ HeadsStored T.store := by
  refine ⟨sound_twoCheckpoints, _, run_play keepsWorkspace (fun _ _ => True)
    (.start (.restore { fuel := 3, safetyName := ascii ['s'] } (ascii ['b'])) :: steps 1 6 ++
      .start (.delete (ascii ['b'])) :: steps 2 10 ++ steps 1 60) _, fun h => ?_⟩
  generalize hp : Team.store _ = p at h
  have hhead : p.workspaceMeta.map (·.headSavepoint) = some (ascii ['b']) := by
    rw [← hp]
    decide +kernel
  have hgone : p.savepoint (ascii ['b']) = none := by
    rw [← hp]
    decide +kernel
  obtain ⟨current, hcurrent, hname⟩ := map_eq_some_iff.mp hhead
  have hsome := (h current hcurrent).1.1
  rw [hname, hgone] at hsome
  cases hsome

end Afs.ControlPlane
