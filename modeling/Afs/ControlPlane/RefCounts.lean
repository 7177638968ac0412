import Mathlib.Data.Set.Card
import Afs.Foundations.Keyed
import Afs.ControlPlane.Heads

/-!
# The reference counts of blobs

A checkpoint counts once for every blob its manifest uses. A save reads the counts of its blobs
inside its transaction but does not watch them, and a deletion, which watches them, writes none of
the keys a save does watch; so a deletion between the reads of a save and its `EXEC` is undone. A
deletion subtracts what the manifest it read before the transaction uses. And a manifest whose paths
become the same in JSON has fewer entries when it is read back than were counted.
-/

namespace Afs.ControlPlane

open Function (update update_apply update_of_ne update_self)

open History List Prog

/-- The stored checkpoints that use a blob. -/
def users (p : Plane) (b : Hash) : Set CheckpointId :=
  {n | (p.savepoint n).isSome = true ∧ ∃ m, p.manifest n = some m ∧ b ∈ manifestBlobRefs m}

/-- The reference count of a blob, `0` if there is none. -/
def refCount (p : Plane) (b : Hash) : ℤ := ((p.blobref b).map BlobRef.refCount).getD 0

/-- Every count is the number of users, and what is used is there. -/
def RefsExact (p : Plane) : Prop :=
  ∀ b, refCount p b = (users p b).ncard ∧ ((users p b).Nonempty → (p.blob b).isSome = true)

/-- What a workspace keeps: its checkpoints are whole, and the counts exact. -/
structure Counted (p : Plane) : Prop where
  whole : ∀ n, (p.savepoint n).isSome = true → Stored p n
  finite : {n | (p.savepoint n).isSome = true}.Finite
  exact : ∀ b, refCount p b = (users p b).ncard

/-- The sorted set lists the checkpoints. -/
def Listed (p : Plane) : Prop :=
  ∀ n, (p.savepoint n).isSome = true → n ∈ p.savepoints.map Prod.fst

/-- Two manifests use the same blobs. -/
def SameBlobs (m m' : Manifest) : Prop :=
  (∀ b ∈ (manifestBlobRefs m).keys, b ∈ manifestBlobRefs m') ∧
    ∀ b ∈ (manifestBlobRefs m').keys, b ∈ manifestBlobRefs m

instance (m m' : Manifest) : Decidable (SameBlobs m m') := inferInstanceAs (Decidable (_ ∧ _))

/-- What the transactions have read is still so: when a save goes through, the counts of its blobs,
and when a deletion does, the blobs of the checkpoint. The paths a save stores stay apart. -/
def CountsRead : Cmd → Plane → Prop
  | .execSave stamp w, p => p.touched = stamp → w.manifest.Apart ∧
      w.refs = (manifestBlobRefs w.manifest).entries.map fun e =>
        (e.1, countRef e.2 (p.blobref e.1))
  | .execDelete n m, p => ∀ m' ∈ p.manifest n, SameBlobs m m'
  | _, _ => True

instance (c : Cmd) (p : Plane) : Decidable (CountsRead c p) := by
  induction c using Cmd.casesOn <;> unfold CountsRead <;> infer_instance

variable {p : Plane}

theorem Counted.refsExact (h : Counted p) : RefsExact p := by
  refine fun b => ⟨h.exact b, ?_⟩
  rintro ⟨n, hn, m, hm, hb⟩
  obtain ⟨-, m', hm', hblobs⟩ := h.whole n hn
  obtain rfl := Option.some.inj (hm.symm.trans hm')
  exact hblobs b hb

theorem Counted.finite_users (h : Counted p) (b : Hash) : (users p b).Finite :=
  h.finite.subset fun _ hn => hn.1

variable {p' : Plane}

/-- The same checkpoints and counts, and more blobs. -/
theorem Counted.of_eq (h : Counted p) (hs : p'.savepoint = p.savepoint)
    (hm : p'.manifest = p.manifest) (hr : p'.blobref = p.blobref)
    (hb : ∀ b d, p.blob b = some d → p'.blob b = some d) : Counted p' := by
  refine ⟨fun n hn => ?_, hs ▸ h.finite, fun b => ?_⟩
  · rw [hs] at hn
    exact (h.whole n hn).of_eq (congrFun hs n) (congrFun hm n) hb
  · have husers : users p' b = users p b := by
      unfold users
      rw [hs, hm]
    have hcount : refCount p' b = refCount p b := by
      unfold refCount
      rw [hr]
    rw [husers, hcount]
    exact h.exact b

/-! ## A save -/

theorem users_saveWrite {w : SaveWrites} (hapart : w.manifest.Apart) (b : Hash) :
    users (saveWrite w p) b =
      if b ∈ manifestBlobRefs w.manifest then insert w.savepoint.id (users p b)
      else users p b \ {w.savepoint.id} := by
  ext n
  by_cases hn : n = w.savepoint.id
  · subst hn
    have hmem : w.savepoint.id ∈ users (saveWrite w p) b ↔ b ∈ manifestBlobRefs w.manifest := by
      simp [users, saveWrite, mem_blobRefs_of_apart hapart]
    rw [hmem]
    split
    · next hb => simp [hb]
    · next hb => simp [hb]
  · have hmem : n ∈ users (saveWrite w p) b ↔ n ∈ users p b := by
      simp [users, saveWrite, update_of_ne hn]
    rw [hmem]
    split
    · simp [hn]
    · simp [hn]

variable {refs : List (Hash × BlobRef)}

/-- Writing the counts of a list of distinct blobs. -/
theorem foldl_update_blobref (hrefs : (refs.map Prod.fst).Nodup)
    (f : Hash → Option BlobRef) (b : Hash) :
    let f' := refs.foldl (fun (f : Hash → Option BlobRef) e => update f e.1 (some e.2)) f
    (b ∉ refs.map Prod.fst → f' b = f b) ∧ ∀ ref, (b, ref) ∈ refs → f' b = some ref := by
  have hfold := foldl_update (k := Prod.fst) (v := fun (e : Hash × BlobRef) _ => some e.2) hrefs f b
  refine ⟨?_, ?_⟩
  · intro hb
    rw [hfold, keyed_eq_none_iff.mpr hb]
    rfl
  · intro ref hmem
    rw [hfold, (keyed_eq_some_iff hrefs).mpr ⟨hmem, rfl⟩]
    rfl

theorem refCount_countRef (p : Plane) (b : Hash) (size : ℤ) :
    (countRef size (p.blobref b)).refCount = refCount p b + 1 := by
  unfold countRef refCount
  cases p.blobref b with
  | none => rfl
  | some ref => rfl

theorem Counted.saveWrite (h : Counted p) {w : SaveWrites} (hw : Ready w p)
    (hapart : w.manifest.Apart) (hrefs : w.refs = (manifestBlobRefs w.manifest).entries.map fun e =>
      (e.1, countRef e.2 (p.blobref e.1))) : Counted (ControlPlane.saveWrite w p) := by
  have hkeys : (w.refs.map Prod.fst).Nodup := by
    rw [hw.refs]
    exact (manifestBlobRefs w.manifest).keys_nodup
  have habsent : ∀ b, w.savepoint.id ∉ users p b := by
    rintro b ⟨hsome, -⟩
    rw [hw.absent] at hsome
    cases hsome
  refine ⟨fun n hn => ?_, ?_, fun b => ?_⟩
  · by_cases hne : n = w.savepoint.id
    · subst hne
      exact ⟨hn, w.manifest.viaJson, update_self .., fun b hb =>
        hw.blobs b (mem_blobRefs_viaJson hb)⟩
    · have hold : (ControlPlane.saveWrite w p).savepoint n = p.savepoint n :=
        update_of_ne hne _ _
      rw [hold] at hn
      exact (h.whole n hn).of_eq hold (update_of_ne hne _ _) fun _ _ hb => hb
  · refine (h.finite.insert w.savepoint.id).subset fun n hn => ?_
    by_cases hne : n = w.savepoint.id
    · exact .inl hne
    · refine .inr ?_
      rwa [Set.mem_ofPred_eq, show (ControlPlane.saveWrite w p).savepoint n = p.savepoint n from
        update_of_ne hne _ _] at hn
  · rw [users_saveWrite hapart]
    obtain ⟨hout, hin⟩ := foldl_update_blobref hkeys p.blobref b
    split
    · next hb =>
      obtain ⟨e, he, rfl⟩ : ∃ e ∈ (manifestBlobRefs w.manifest).entries, e.1 = b := by
        simpa [AList.keys, List.keys] using AList.mem_keys.mp hb
      have hcount : refCount (ControlPlane.saveWrite w p) e.1 = refCount p e.1 + 1 := by
        rw [← refCount_countRef p e.1 e.2]
        unfold refCount
        have hnew := hin (countRef e.2 (p.blobref e.1)) (by
          rw [hrefs]
          exact mem_map_of_mem he)
        rw [show (ControlPlane.saveWrite w p).blobref e.1 = _ from hnew]
        rfl
      rw [hcount, h.exact, Set.ncard_insert_of_notMem (habsent e.1) (h.finite_users e.1)]
      simp
    · next hb =>
      have hcount : refCount (ControlPlane.saveWrite w p) b = refCount p b := by
        unfold refCount
        rw [show (ControlPlane.saveWrite w p).blobref b = p.blobref b from hout (by
          rw [hw.refs]
          exact hb)]
      rw [hcount, h.exact, Set.sdiff_singleton_eq_self (habsent b)]

/-! ## A deletion -/

theorem dropRefs_ok {f : Hash → Option BlobRef} {l : List Hash} (h : dropRefs f l = .ok refs) :
    refs.map Prod.fst = l ∧ ∀ b ref, (b, ref) ∈ refs → ∃ old, f b = some old ∧
      ref.refCount = if 0 < old.refCount then old.refCount - 1 else old.refCount := by
  induction l generalizing refs with
  | nil =>
    obtain rfl := Except.ok.inj h
    exact ⟨rfl, nofun⟩
  | cons b l ih =>
    unfold dropRefs at h
    split at h
    · next old hold =>
      obtain ⟨rest, hrest, h⟩ := bind_eq_ok h
      obtain rfl := Except.ok.inj h
      obtain ⟨hkeys, hold'⟩ := ih hrest
      refine ⟨by rw [map_cons, hkeys], fun b' ref hmem => ?_⟩
      rcases mem_cons.mp hmem with heq | hmem
      · obtain ⟨rfl, rfl⟩ := Prod.mk.inj heq
        exact ⟨old, hold, rfl⟩
      · exact hold' b' ref hmem
    · cases h

variable {m : Manifest}

theorem Counted.execDelete (h : Counted p) {n : CheckpointId}
    (hm : ∀ m' ∈ p.manifest n, SameBlobs m m') : Counted (ControlPlane.execDelete n m p).2 := by
  obtain heq | ⟨current, refs, -, -, -, -, hstored, hrefs, heq⟩ := execDelete_cases n m p
  · rw [heq]
    exact h
  rw [heq]
  obtain ⟨-, m', hm', -⟩ := h.whole n hstored
  have hsame := hm m' hm'
  obtain ⟨hkeys, hold⟩ := dropRefs_ok hrefs
  have hnodup : (refs.map Prod.fst).Nodup := by
    rw [hkeys]
    exact (manifestBlobRefs m).keys_nodup
  refine ⟨fun n' hn' => ?_, h.finite.subset fun n' hn' => ?_, fun b => ?_⟩
  · dsimp only at hn'
    by_cases hne : n' = n
    · subst hne
      rw [update_self] at hn'
      cases hn'
    · rw [update_of_ne hne] at hn'
      exact (h.whole n' hn').of_eq (update_of_ne hne _ _) (update_of_ne hne _ _)
        fun _ _ hb => hb
  · rw [Set.mem_ofPred_eq] at hn' ⊢
    dsimp only at hn'
    by_cases hne : n' = n
    · subst hne
      exact hstored
    · rwa [update_of_ne hne] at hn'
  · have husers : users { p with
          savepoint := update p.savepoint n none
          manifest := update p.manifest n none
          savepoints := p.savepoints.filter fun e => e.1 ≠ n
          blobref := refs.foldl (fun f e => update f e.1 (some e.2)) p.blobref } b =
        users p b \ {n} := by
      ext n'
      by_cases hne : n' = n
      · subst hne
        simp [users]
      · simp [users, hne]
    rw [husers]
    obtain ⟨hout, hin⟩ := foldl_update_blobref hnodup p.blobref b
    by_cases hb : b ∈ manifestBlobRefs m
    · have hn : n ∈ users p b := ⟨hstored, m', hm', hsame.1 b hb⟩
      obtain ⟨⟨b', ref⟩, hmem, rfl⟩ : ∃ e ∈ refs, e.1 = b := by
        rw [← mem_map, hkeys]
        exact hb
      obtain ⟨old, hfound, hcount⟩ := hold b' ref hmem
      have hexact : old.refCount = (users p b').ncard := by
        rw [← h.exact b', refCount, hfound]
        rfl
      have hpos : 0 < (users p b').ncard := (Set.ncard_pos (h.finite_users b')).mpr ⟨n, hn⟩
      rw [Set.ncard_sdiff_singleton_of_mem hn]
      unfold refCount
      dsimp only
      rw [hin ref hmem, Option.map_some, Option.getD_some, hcount, hexact, if_pos (by omega)]
      omega
    · have hn : n ∉ users p b := by
        rintro ⟨-, m'', hm'', hb'⟩
        obtain rfl := Option.some.inj (hm'.symm.trans hm'')
        exact hb (hsame.2 b hb')
      rw [Set.sdiff_singleton_eq_self hn, ← h.exact b]
      unfold refCount
      dsimp only
      rw [hout (by rw [hkeys]; exact hb)]

/-- What one command does to exact counts. -/
theorem preserved_counted : Preserved CountsRead Counted where
  routine me o c p hc hp hclean := by
    cases hs : c.settles with
    | false =>
      have h := effect_sameCheckpoints hc hs me o p
      exact hp.of_eq h.savepoint h.manifest h.blobref h.grows.blob
    | true =>
      cases c with
      | execDelete n m => exact hp.execDelete hclean
      | moveHead n updatedAt =>
        simp only [effect]
        split
        · exact hp
        · exact hp.of_eq rfl rfl rfl fun _ _ hb => hb
      | putMeta m => exact hp.of_eq rfl rfl rfl fun _ _ hb => hb
      | setBlobNX h data => exact hp.of_eq rfl rfl rfl (effect_grows hc me o p).blob
      | _ => cases hs
  save w p hw hp hclean := hp.saveWrite hw (hclean rfl).1 (hclean rfl).2

theorem preserved_listed : Preserved (fun _ _ => True) Listed where
  routine me o c p hc hp _ := by
    cases hs : c.settles with
    | false =>
      intro n hn
      have h := effect_sameCheckpoints hc hs me o p
      rw [h.savepoint] at hn
      rw [h.savepoints]
      exact hp n hn
    | true =>
      cases c with
      | execDelete n m =>
        simp only [effect]
        obtain heq | ⟨current, refs, -, -, -, -, -, -, heq⟩ := execDelete_cases n m p
        · rw [heq]
          exact hp
        · rw [heq]
          intro n' hn'
          dsimp only at hn' ⊢
          by_cases hne : n' = n
          · subst hne
            rw [update_self] at hn'
            cases hn'
          · rw [update_of_ne hne] at hn'
            obtain ⟨e, he, rfl⟩ := mem_map.mp (hp n' hn')
            exact mem_map_of_mem (mem_filter.mpr ⟨he, by simpa using hne⟩)
      | moveHead n updatedAt =>
        simp only [effect]
        split
        · exact hp
        · exact hp
      | putMeta m => exact hp
      | setBlobNX h data => exact hp
      | _ => cases hs
  save w p hw hp _ := by
    intro n hn
    by_cases hne : n = w.savepoint.id
    · subst hne
      exact mem_cons_self
    · rw [show (saveWrite w p).savepoint n = p.savepoint n from update_of_ne hne _ _] at hn
      obtain ⟨e, he, rfl⟩ := mem_map.mp (hp n hn)
      exact mem_cons_of_mem _ (mem_map_of_mem (mem_filter.mpr ⟨he, by simpa using hne⟩))

/-! ## A new workspace -/

/-- Nothing is stored under the storage identity. -/
structure Unused (p : Plane) : Prop where
  workspaceMeta : p.workspaceMeta = none
  savepoint : ∀ n, p.savepoint n = none
  blobref : ∀ b, p.blobref b = none

/-- What is stored of a new workspace before its metadata: the checkpoints `known` and the blobs in
`l`, which count once. -/
structure Submitted (known : CheckpointId → Prop) (l : List Hash) (p : Plane) : Prop where
  workspaceMeta : p.workspaceMeta = none
  savepoint : ∀ n, (p.savepoint n).isSome = true ↔ known n
  used : ∀ b ∈ l, (p.blob b).isSome = true ∧ refCount p b = 1
  unused : ∀ b ∉ l, refCount p b = 0

/-- The first checkpoint is in its place. -/
structure Placed (m : Manifest) (p : Plane) : Prop extends
    Submitted (· = initialCheckpointName) (manifestBlobRefs m).keys p where
  manifest : p.manifest initialCheckpointName = some m.viaJson
  listed : Listed p

/-- With the first checkpoint in place, the workspace may be announced. -/
theorem Placed.counted (h : Placed m p) (hapart : m.Apart) : Counted p := by
  have hstored : Stored p initialCheckpointName :=
    ⟨(h.savepoint _).mpr rfl, _, h.manifest, fun b hb => (h.used b (mem_blobRefs_viaJson hb)).1⟩
  have husers : ∀ b, users p b =
      if b ∈ manifestBlobRefs m then {initialCheckpointName} else ∅ := by
    intro b
    ext n
    have hmem : n ∈ users p b ↔ n = initialCheckpointName ∧ b ∈ manifestBlobRefs m := by
      constructor
      · rintro ⟨hn, m', hm', hb⟩
        obtain rfl := (h.savepoint n).mp hn
        obtain rfl := Option.some.inj (h.manifest.symm.trans hm')
        exact ⟨rfl, mem_blobRefs_viaJson hb⟩
      · rintro ⟨rfl, hb⟩
        exact ⟨(h.savepoint _).mpr rfl, _, h.manifest, (mem_blobRefs_of_apart hapart).mpr hb⟩
    rw [hmem]
    split
    · next hb => simp [hb]
    · next hb => simp [hb]
  refine ⟨fun n hn => ?_, ?_, fun b => ?_⟩
  · rw [(h.savepoint n).mp hn]
    exact hstored
  · refine (Set.finite_singleton initialCheckpointName).subset fun n hn => ?_
    exact (h.savepoint n).mp hn
  · rw [husers b]
    split
    · next hb => rw [(h.used b hb).2, Set.ncard_singleton, Nat.cast_one]
    · next hb => rw [h.unused b hb, Set.ncard_empty, Nat.cast_zero]

/-- Nobody else knows the workspace before its metadata is written; from then on it is as it has to
be. -/
def creation (me : ℕ) : Contract sig Plane where
  inv p := p.workspaceMeta.isSome = true → Counted p ∧ HeadsStored p ∧ Listed p
  rely _ _ := False
  exec := Exec me
  guar _ _ _ _ := True

variable {blobs : Hash → Option Bytes}

section Creation

variable {me : ℕ} {p : Plane} {A B : Plane → Prop}

theorem creation_stable : (creation me).Stable A := fun _ _ _ h => h.elim

/-- One command before the metadata is written. -/
theorem new_call {c : Cmd} (hA : ∀ p, A p → p.workspaceMeta = none)
    (hB : ∀ p, B p → p.workspaceMeta = none) (h : ∀ o p, A p → B (effect me o p c).2) (hp : A p) :
    SafeE (creation me) (fun _ p => B p) (call c) p := by
  have hinv : ∀ {p : Plane}, p.workspaceMeta = none → (creation me).inv p := by
    intro p hp hsome
    rw [hp] at hsome
    cases hsome
  refine Safe.call creation_stable hp fun p r p' hAp _ hexec => ⟨⟨trivial, ?_⟩, ?_⟩
  · exact hexec.of_effect (P := (creation me).inv) (hinv (hA p hAp)) fun o => hinv (hB _ (h o p hAp))
  · rintro v rfl
    obtain ⟨o, ho⟩ := hexec.reply
    have := h o p hAp
    rwa [ho] at this

/-- Commands that leave the checkpoints alone, before the metadata is written. -/
theorem new_only {α : Type} {Q : α → Prop} {x : Op α} (hA : ∀ p, A p → p.workspaceMeta = none)
    (hsame : ∀ p p', A p → SameCheckpoints p p' → A p')
    (hx : OnlyE (fun c : Cmd => c.routine ∧ c.settles = false) Q x) (hp : A p) :
    SafeE (creation me) (fun a p => Q a ∧ A p) x p := by
  refine hx.safe creation_stable (fun c p r p' hc hAp _ hexec => ?_) hp
  have hA' : A p' := hexec.of_effect hAp fun o =>
    hsame p _ hAp (effect_sameCheckpoints hc.1 hc.2 me o p)
  refine ⟨⟨trivial, fun hsome => ?_⟩, hA'⟩
  rw [hA p' hA'] at hsome
  cases hsome

variable {known : CheckpointId → Prop}

theorem Submitted.of_same {l : List Hash} (h : Submitted known l p)
    (hs : SameCheckpoints p p') : Submitted known l p' := by
  have hcount : ∀ b, refCount p' b = refCount p b := fun b => by rw [refCount, refCount, hs.blobref]
  refine ⟨hs.workspaceMeta.trans h.workspaceMeta, fun n => ?_, fun b hb => ?_, fun b hb => ?_⟩
  · rw [hs.savepoint]
    exact h.savepoint n
  · rw [hs.blob, hcount]
    exact h.used b hb
  · rw [hcount]
    exact h.unused b hb

theorem Placed.of_same (h : Placed m p) (hs : SameCheckpoints p p') : Placed m p' := by
  refine ⟨h.toSubmitted.of_same hs, hs.manifest ▸ h.manifest, fun n hn => ?_⟩
  rw [hs.savepoint] at hn
  rw [hs.savepoints]
  exact h.listed n hn

theorem new_submitBlobs {l : List (Hash × ℤ)} {done : List Hash} (hp : Submitted known done p) :
    SafeE (creation me) (fun _ p => Submitted known (done ++ l.map Prod.fst) p) (submitBlobs blobs l) p := by
  induction l generalizing p done with
  | nil => exact .pure (by simpa using hp)
  | cons e l ih =>
    obtain ⟨b, size⟩ := e
    unfold submitBlobs
    split
    · exact .throw _
    · next data _ =>
      -- the blob first, then its count
      refine SafeE.bind (Q := fun _ p => Submitted known done p ∧ (p.blob b).isSome = true)
        (new_call (fun p h => h.workspaceMeta) (fun p h => h.1.workspaceMeta) (fun o p h => ?_) hp)
        fun _ p hp => SafeE.bind (Q := fun _ p => Submitted known (done ++ [b]) p)
        (new_call (A := fun p => Submitted known done p ∧ (p.blob b).isSome = true)
          (fun p h => h.1.workspaceMeta) (fun p h => h.workspaceMeta) (fun o p h => ?_) hp)
        fun _ p hp => (ih hp).mono fun _ p h => ?_
      · refine ⟨⟨h.workspaceMeta, h.savepoint, fun b' hb' => ⟨?_, (h.used b' hb').2⟩, h.unused⟩, ?_⟩
        · simp only [effect, update_apply]
          split
          · rfl
          · exact (h.used b' hb').1
        · simp [effect]
      · obtain ⟨h, hblob⟩ := h
        have hcount : ∀ b', refCount (effect me o p (.setBlobRef b ⟨size, 1⟩)).2 b' =
            if b' = b then 1 else refCount p b' := by
          intro b'
          simp only [effect, refCount, update_apply]
          split
          · rfl
          · rfl
        refine ⟨h.workspaceMeta, h.savepoint, fun b' hb' => ?_, fun b' hb' => ?_⟩
        · rw [hcount]
          by_cases heq : b' = b
          · subst heq
            exact ⟨hblob, if_pos rfl⟩
          · rw [if_neg heq]
            refine h.used b' ?_
            simpa [heq] using hb'
        · rw [mem_append, mem_singleton, not_or] at hb'
          rw [hcount, if_neg hb'.2]
          exact h.unused b' hb'.1
      · simpa using h

/-- The first checkpoint's metadata and manifest are written one after the other. -/
theorem new_putSavepoint {cp : SavepointMeta} (hcp : cp.id = initialCheckpointName)
    (hp : Submitted (fun _ => False) (manifestBlobRefs m).keys p) :
    SafeE (creation me) (fun _ p => Placed m p) (putSavepoint cp m) p := by
  have hread : ∀ c : Cmd, c.reads = true → c.routine ∧ c.settles = false := fun c hc =>
    ⟨c.routine_of_reads hc, by cases c <;> first | rfl | cases hc⟩
  unfold putSavepoint
  rw [hcp]
  refine SafeE.bind (new_only (fun p h => h.workspaceMeta) (fun p p' h => h.of_same)
    (only_read hread .getMeta rfl) hp) fun _ p hp => ?_
  have hfirst : ∀ o p, Submitted (fun _ => False) (manifestBlobRefs m).keys p →
      Submitted (· = initialCheckpointName) (manifestBlobRefs m).keys
        (effect me o p (.setSavepoint initialCheckpointName cp)).2 := by
    refine fun o p h => ⟨h.workspaceMeta, fun n => ?_, h.used, h.unused⟩
    simp only [effect, update_apply]
    split
    · next hn => simp [hn]
    · next hn => simpa [hn] using h.savepoint n
  refine SafeE.bind (new_call (fun p h => h.workspaceMeta) (fun p h => h.workspaceMeta) hfirst hp.2)
    fun _ p hp => ?_
  have hsecond : ∀ o p, Submitted (· = initialCheckpointName) (manifestBlobRefs m).keys p →
      Submitted (· = initialCheckpointName) (manifestBlobRefs m).keys
          (effect me o p (.setManifest initialCheckpointName m)).2 ∧
        (effect me o p (.setManifest initialCheckpointName m)).2.manifest initialCheckpointName =
          some m.viaJson := fun o p h =>
    ⟨⟨h.workspaceMeta, h.savepoint, h.used, h.unused⟩, by simp [effect]⟩
  refine SafeE.bind (new_call (B := fun p => Submitted (· = initialCheckpointName)
      (manifestBlobRefs m).keys p ∧ p.manifest initialCheckpointName = some m.viaJson)
    (fun p h => h.workspaceMeta) (fun p h => h.1.workspaceMeta) hsecond hp) fun _ p hp => ?_
  refine new_call (A := fun p => Submitted (· = initialCheckpointName) (manifestBlobRefs m).keys p ∧
      p.manifest initialCheckpointName = some m.viaJson) (fun p h => h.1.workspaceMeta)
    (fun p h => h.workspaceMeta) (fun o p h => ⟨⟨h.1.workspaceMeta, h.1.savepoint, h.1.used,
      h.1.unused⟩, h.2, fun n hn => ?_⟩) hp
  rw [(h.1.savepoint n).mp hn]
  exact mem_cons_self

/-- The metadata is written last, when everything it names is in its place. -/
theorem new_putMeta {current : WorkspaceMeta} (hapart : m.Apart)
    (hhead : current.headSavepoint = initialCheckpointName)
    (hdefault : current.defaultSavepoint = initialCheckpointName) (hp : Placed m p) :
    SafeE (creation me) (fun _ _ => True) (call (.putMeta current)) p := by
  refine Safe.call creation_stable hp fun p r p' h _ hexec => ⟨⟨trivial, ?_⟩, fun _ _ => trivial⟩
  have hstored : Stored p initialCheckpointName :=
    (h.counted hapart).whole _ ((h.savepoint _).mpr rfl)
  refine hexec.of_effect (P := (creation me).inv) (fun hsome => ?_) fun o _ => ⟨?_, ?_, h.listed⟩
  · rw [h.workspaceMeta] at hsome
    cases hsome
  · exact (h.counted hapart).of_eq rfl rfl rfl fun _ _ hb => hb
  · intro current' hcurrent'
    obtain rfl := Option.some.inj hcurrent'
    rw [hhead, hdefault]
    exact ⟨hstored, hstored⟩

theorem new_create (hapart : m.Apart) (hp : Unused p) :
    SafeE (creation me) (fun _ _ => True) (createWorkspaceFromManifest m blobs) p := by
  have hread : ∀ c : Cmd, c.reads = true → c.routine ∧ c.settles = false := fun c hc =>
    ⟨c.routine_of_reads hc, by cases c <;> first | rfl | cases hc⟩
  have hbuild : ∀ c : Cmd, c.builds → c.routine ∧ c.settles = false := fun c hc =>
    ⟨c.routine_of_builds hc, c.settles_of_builds hc⟩
  -- until the metadata is written, every part keeps what has been stored so far
  have hbegun : ∀ {α : Type} {x : Op α} {p : Plane} {known : CheckpointId → Prop} {l : List Hash},
      Issues (fun c : Cmd => c.routine ∧ c.settles = false) x → Submitted known l p →
      SafeE (creation me) (fun _ p => Submitted known l p) x p := fun hx hp =>
    (new_only (fun _ h => h.workspaceMeta) (fun _ _ h => h.of_same) hx hp).mono fun _ _ h => h.2
  have hplaced : ∀ {α : Type} {x : Op α} {p : Plane} {m : Manifest},
      Issues (fun c : Cmd => c.routine ∧ c.settles = false) x → Placed m p →
      SafeE (creation me) (fun _ p => Placed m p) x p := fun hx hp =>
    (new_only (fun _ h => h.workspaceMeta) (fun _ _ h => h.of_same) hx hp).mono fun _ _ h => h.2
  have h₀ : Submitted (fun _ => False) [] p := by
    refine ⟨hp.workspaceMeta, fun n => ?_, nofun, fun b _ => ?_⟩
    · simp [hp.savepoint n]
    · simp [refCount, hp.blobref b]
  unfold createWorkspaceFromManifest
  refine (hbegun (only_read hread .newToken rfl) h₀).bind fun token p hp =>
    (hbegun (only_read hread .now rfl) hp).bind fun now p hp =>
    (new_submitBlobs hp).bind fun _ p hp => ?_
  have hkeys : ([] : List Hash) ++ ((manifestBlobRefs m).entries.map fun e => (e.1, e.2)).map Prod.fst =
      (manifestBlobRefs m).keys := by
    simp [AList.keys, List.keys, Function.comp_def]
  rw [hkeys] at hp
  refine (new_putSavepoint (m := { m with savepoint := initialCheckpointName }) rfl hp).bind
    fun _ p hp => ?_
  have hroot : Cmd.builds (.del rootKeys) := by
    intro k hk
    cases k <;> first | rfl | cases hk
  refine (hplaced (only_read hread .getMeta rfl) hp).bind fun _ p hp =>
    (hplaced (only_call (hbuild _ hroot)) hp).bind fun _ p hp =>
    (hplaced (only_lift fun _ _ => trivial) hp).bind fun nodes p hp =>
    (hplaced (only_writeWorkspaceFSNodes hread hbuild nodes _) hp).bind fun _ p hp =>
    (hplaced (only_read hread .getMeta rfl) hp).bind fun _ p hp =>
    (hplaced (only_call (hbuild (.markClean _) trivial)) hp).bind fun _ p hp =>
    (hplaced (only_checkNotLost hread) hp).bind fun _ p hp =>
    (hplaced (only_call (c := .setGeneration _) ⟨trivial, rfl⟩) hp).bind fun _ p hp =>
    (hplaced (only_read hread .getMeta rfl) hp).bind fun _ p hp =>
    (new_putMeta (m := { m with savepoint := initialCheckpointName }) hapart rfl rfl hp).bind
    fun _ p _ => ?_
  refine Safe.call (A := fun _ => True) creation_stable trivial
    fun p r p' _ hinv hexec => ⟨⟨trivial, ?_⟩, fun _ _ => trivial⟩
  rw [exec_reads rfl hexec]
  exact hinv

end Creation

/-- **A new workspace.** Whether the creation succeeds or not, once the workspace has metadata its
counts are exact and its head is stored. -/
theorem create_counted {me : ℕ} {r : Except Err Unit} (hapart : m.Apart) (hp : Unused p)
    (h : (createWorkspaceFromManifest m blobs).run.Alone (Exec me) p r p')
    (hmeta : p'.workspaceMeta.isSome = true) : Counted p' ∧ Sound p' ∧ Listed p' := by
  have hinv : (creation me).inv p := by
    intro hsome
    rw [hp.workspaceMeta] at hsome
    cases hsome
  obtain ⟨hcounted, hheads, hlisted⟩ := (Safe.alone (new_create hapart hp) hinv h).2 hmeta
  exact ⟨hcounted, ⟨hcounted.whole, hheads⟩, hlisted⟩

/-- **Reference counts are exact**, in every run of requests on a new workspace in which the
transactions find what was read for them. -/
theorem refs_exact {m : Manifest} {blobs : Hash → Option Bytes} {me n : ℕ} {p₀ p : Plane}
    {r : Except Err Unit} (hapart : m.Apart) (h₀ : Unused p₀)
    (hcreate : (createWorkspaceFromManifest m blobs).run.Alone (Exec me) p₀ r p)
    (hmeta : p.workspaceMeta.isSome = true) {T : Operations}
    (h : Team.Run (Starts keepsWorkspace) (ExecIf CountsRead) (quiet p n) T) : RefsExact T.store :=
  (run_preserves preserved_counted (create_counted hapart h₀ hcreate hmeta).1 h).refsExact

/-- A file that is too large for its entry. -/
def largeFile : Bytes := List.replicate 4097 97

/-- A tree with one file `f`. -/
def oneFile : Manifest where
  entries :=
    ((∅ : Entries).insert [slash] { type := .dir, mode := 0o755 }).insert [slash, 102]
      { type := .file, mode := 0o644, size := 4097, blobId := blobSHA256 largeFile }

/-- A workspace created from a tree, without a fault. -/
def created (m : Manifest) (blobs : Hash → Option Bytes) : Plane :=
  ((createWorkspaceFromManifest m blobs).run.run (exec 0 {}) {}).2

theorem alone_created (m : Manifest) (blobs : Hash → Option Bytes) :
    ∃ r, (createWorkspaceFromManifest m blobs).run.Alone (Exec 0) {} r (created m blobs) := by
  have hexec : ∀ (c : Cmd) p, Exec 0 c p (exec 0 {} c p).1 (exec 0 {} c p).2 :=
    fun c p => ⟨{}, rfl⟩
  exact ⟨_, alone_run (S := sig) hexec (createWorkspaceFromManifest m blobs).run {}⟩

/-- A workspace with that tree. -/
def oneFilePlane : Plane := created oneFile fun _ => some largeFile

/-- Two checkpoints `x` and `y`; then a save of `z` has read the count of the blob when `x` is
deleted, and its transaction puts the count back. -/
def lostDecrement : List (Team.Move Request Choice) :=
  .start (.save 10 [120] true) :: steps 1 30 ++ .start (.save 10 [121] true) :: steps 2 30 ++
    .start (.save 10 [122] true) :: steps 3 24 ++ .start (.delete [120]) :: steps 4 10 ++ steps 3 5

section Evaluation

-- the file has 4097 bytes
set_option maxRecDepth 100000

theorem oneFilePlane_meta : oneFilePlane.workspaceMeta.isSome = true := by decide +kernel

theorem lostDecrement_count : refCount (play keepsWorkspace (fun _ _ => True) lostDecrement
    (quiet oneFilePlane 1)).store (blobSHA256 largeFile) = 4 := by decide +kernel

theorem lostDecrement_savepoints : (play keepsWorkspace (fun _ _ => True) lostDecrement
    (quiet oneFilePlane 1)).store.savepoints.map Prod.fst = [[122], [121], initialCheckpointName] := by
  decide +kernel

end Evaluation

theorem apart_oneFile : oneFile.Apart := by decide

theorem unused_empty : Unused {} := ⟨rfl, fun _ => rfl, fun _ => rfl⟩

/-- A save that nothing interrupts. -/
theorem refs_exact_saved : RefsExact (play keepsWorkspace CountsRead
    (.start (.save 10 [120] true) :: steps 1 30) (quiet oneFilePlane 1)).store :=
  refs_exact apart_oneFile unused_empty (alone_created ..).choose_spec oneFilePlane_meta
    (run_play keepsWorkspace CountsRead _ _)

/-- **The decrement of a deletion is lost** to a save that has read the count before. -/
theorem decrement_lost : Unused {} ∧ oneFile.Apart ∧
    (∃ r, (createWorkspaceFromManifest oneFile fun _ => some largeFile).run.Alone (Exec 0) {} r
      oneFilePlane) ∧ oneFilePlane.workspaceMeta.isSome = true ∧ ∃ T : Operations,
      Team.Run (Starts keepsWorkspace) (ExecIf fun _ _ => True) (quiet oneFilePlane 1) T ∧
        ¬ RefsExact T.store := by
  obtain ⟨r, halone⟩ := alone_created oneFile fun _ => some largeFile
  have hcreated := create_counted apart_oneFile unused_empty halone oneFilePlane_meta
  have hrun := run_play keepsWorkspace (fun _ _ => True) lostDecrement (quiet oneFilePlane 1)
  refine ⟨unused_empty, apart_oneFile, ⟨r, halone⟩, oneFilePlane_meta, _, hrun, ?_⟩
  intro hexact
  have hlisted := run_preserves preserved_listed hcreated.2.2 hrun
  have hcount := lostDecrement_count
  have hnames := lostDecrement_savepoints
  generalize (play keepsWorkspace (fun _ _ => True) lostDecrement (quiet oneFilePlane 1)).store = p
    at hexact hlisted hcount hnames
  -- four references, but only three checkpoints
  have hsub : users p (blobSHA256 largeFile) ⊆
      (([[122], [121], initialCheckpointName] : List CheckpointId).toFinset : Set CheckpointId) := by
    intro n hn
    have := hlisted n hn.1
    rw [hnames] at this
    simpa using this
  have hle := Set.ncard_le_ncard hsub (Finset.finite_toSet _)
  rw [Set.ncard_coe_finset] at hle
  have hcard := toFinset_card_le ([[122], [121], initialCheckpointName] : List CheckpointId)
  have h := (hexact (blobSHA256 largeFile)).1
  rw [hcount] at h
  simp only [length_cons, length_nil] at hcard
  omega

end Afs.ControlPlane
