import Afs.ControlPlane.Requests

/-!
# What requests do to the checkpoints

The checkpoints of a workspace change by the transaction of a save and by that of a deletion; the
metadata that names two of them also by a move of the head and by a metadata update. Everything
else leaves them alone, and nothing takes a blob away.

When the transaction of a save goes through, its checkpoint does not exist yet, the metadata is what
the transaction read, and every blob of the manifest is there (`Ready`). This is all an invariant of
the checkpoints needs to know about a run (`run_preserves`).
-/

namespace Afs.ControlPlane

open History List Prog AList

/-! ## The blobs of a manifest -/

variable {b : Hash}

theorem mem_foldl_blobRefs (l : List (Sigma fun _ : Bytes => ManifestEntry))
    (refs : AList fun _ : Hash => ℤ) :
    b ∈ l.foldl (fun refs e => if e.2.blobId = .empty then refs else refs.insert e.2.blobId e.2.size)
        refs ↔
      b ∈ refs ∨ b ≠ .empty ∧ ∃ e ∈ l, e.2.blobId = b := by
  induction l generalizing refs with
  | nil => simp
  | cons e l ih =>
    rw [foldl_cons, ih]
    by_cases he : e.2.blobId = .empty
    · rw [if_pos he]
      have hskip : b ≠ .empty ∧ (∃ e' ∈ e :: l, e'.2.blobId = b) ↔
          b ≠ .empty ∧ ∃ e' ∈ l, e'.2.blobId = b := by
        refine and_congr_right fun hb => ?_
        rw [exists_mem_cons_iff]
        exact or_iff_right fun h => hb (h.symm.trans he)
      rw [hskip]
    · rw [if_neg he, mem_insert, exists_mem_cons_iff]
      constructor
      · rintro ((rfl | h) | ⟨hb, h⟩)
        · exact .inr ⟨he, .inl rfl⟩
        · exact .inl h
        · exact .inr ⟨hb, .inr h⟩
      · rintro (h | ⟨hb, rfl | h⟩)
        · exact .inl (.inr h)
        · exact .inl (.inl rfl)
        · exact .inr ⟨hb, h⟩

variable {m : Manifest}

/-- The blobs a manifest uses are those its entries name. -/
theorem mem_manifestBlobRefs :
    b ∈ manifestBlobRefs m ↔ b ≠ .empty ∧ ∃ p e, m.entries.lookup p = some e ∧ e.blobId = b := by
  unfold manifestBlobRefs
  rw [mem_foldl_blobRefs]
  have hempty : ¬ b ∈ (∅ : AList fun _ : Hash => ℤ) := notMem_empty b
  simp only [hempty, false_or]
  refine and_congr_right fun _ => ⟨?_, ?_⟩
  · rintro ⟨⟨p, e⟩, he, hb⟩
    exact ⟨p, e, mem_lookup_iff.mpr he, hb⟩
  · rintro ⟨p, e, he, hb⟩
    exact ⟨⟨p, e⟩, mem_lookup_iff.mp he, hb⟩

variable {e : ManifestEntry} {l : List (Sigma fun _ : Bytes => ManifestEntry)}

theorem foldl_insert_viaJson {p : Bytes} {es : Entries}
    (h : (l.foldl (fun es e => es.insert (Json.viaJson e.1) e.2.viaJson) es).lookup p = some e) :
    es.lookup p = some e ∨ ∃ e' ∈ l, Json.viaJson e'.1 = p ∧ e'.2.viaJson = e := by
  induction l generalizing es with
  | nil => exact .inl h
  | cons x l ih =>
    rw [foldl_cons] at h
    obtain h | ⟨e', he', h'⟩ := ih h
    · by_cases hp : p = Json.viaJson x.1
      · subst hp
        rw [lookup_insert] at h
        exact .inr ⟨x, mem_cons_self, rfl, Option.some.inj h⟩
      · rw [lookup_insert_ne hp] at h
        exact .inl h
    · exact .inr ⟨e', mem_cons_of_mem _ he', h'⟩

/-- Every entry that is read back was written. -/
theorem lookup_viaJson {p : Bytes} (h : m.viaJson.entries.lookup p = some e) :
    ∃ p' e', m.entries.lookup p' = some e' ∧ Json.viaJson p' = p ∧ e'.viaJson = e := by
  obtain h | ⟨x, hx, hp, he⟩ := foldl_insert_viaJson h
  · rw [lookup_empty] at h
    cases h
  · refine ⟨x.1, x.2, mem_lookup_iff.mpr ?_, hp, he⟩
    exact (mem_insertionSort _).mp hx

theorem mem_blobRefs_viaJson (h : b ∈ manifestBlobRefs m.viaJson) : b ∈ manifestBlobRefs m := by
  obtain ⟨hb, p, e, he, rfl⟩ := mem_manifestBlobRefs.mp h
  obtain ⟨p', e', he', -, rfl⟩ := lookup_viaJson he
  exact mem_manifestBlobRefs.mpr ⟨hb, p', e', he', rfl⟩

/-- No two paths of the manifest become the same in JSON. -/
def Manifest.Apart (m : Manifest) : Prop := (m.entries.keys.map Json.viaJson).Nodup

instance (m : Manifest) : Decidable m.Apart := inferInstanceAs (Decidable (List.Nodup _))

theorem foldl_insert_apart {x : Sigma fun _ : Bytes => ManifestEntry} (es : Entries)
    (hl : (l.map fun e => Json.viaJson e.1).Nodup) (hx : x ∈ l) :
    (l.foldl (fun es e => es.insert (Json.viaJson e.1) e.2.viaJson) es).lookup (Json.viaJson x.1) =
      some x.2.viaJson := by
  induction l using List.reverseRecOn generalizing es with
  | nil => cases hx
  | append_singleton l y ih =>
    rw [foldl_append, foldl_cons, foldl_nil]
    rw [map_append, nodup_append] at hl
    rcases mem_append.mp hx with hx | hx
    · have hne : Json.viaJson x.1 ≠ Json.viaJson y.1 :=
        hl.2.2 _ (mem_map_of_mem hx) _ (by simp)
      rw [lookup_insert_ne hne]
      exact ih es hl.1 hx
    · rw [mem_singleton.mp hx, lookup_insert]

/-- An entry is read back if no other path becomes the same as its own. -/
theorem lookup_viaJson_of_apart (h : m.Apart) {p : Bytes} (he : m.entries.lookup p = some e) :
    m.viaJson.entries.lookup (Json.viaJson p) = some e.viaJson := by
  refine foldl_insert_apart (x := ⟨p, e⟩) ∅ ?_ ?_
  · have hperm := (perm_insertionSort (fun a b => a.1 ≤ b.1) m.entries.entries).map
      fun e => Json.viaJson e.1
    refine hperm.nodup_iff.mpr ?_
    have hkeys := h
    rw [Manifest.Apart, AList.keys, List.keys, map_map] at hkeys
    exact hkeys
  · exact (mem_insertionSort _).mpr (mem_lookup_iff.mp he)

theorem mem_blobRefs_of_apart (h : m.Apart) :
    b ∈ manifestBlobRefs m.viaJson ↔ b ∈ manifestBlobRefs m := by
  refine ⟨mem_blobRefs_viaJson, fun hb => ?_⟩
  obtain ⟨hne, p, e, he, rfl⟩ := mem_manifestBlobRefs.mp hb
  exact mem_manifestBlobRefs.mpr ⟨hne, _, _, lookup_viaJson_of_apart h he, rfl⟩

/-! ## The blobs of a walk -/

/-- The blobs collected with the entries: every blob an entry names, each named by its bytes. -/
structure Walked.Backed (entries : Entries) (blobs : AList fun _ : Hash => Bytes) : Prop where
  covers : ∀ p e, entries.lookup p = some e → e.blobId ≠ .empty → e.blobId ∈ blobs
  sound : ∀ h d, blobs.lookup h = some d → h = blobSHA256 d

theorem Visit.blobId_entry (v : Visit) (h : v.entry.blobId ≠ .empty) :
    v.entry.blobId = blobSHA256 v.content := by
  unfold Visit.entry at h ⊢
  cases hk : v.kind with
  | dir => simp [hk] at h
  | symlink => simp [hk] at h
  | file =>
    simp only [hk] at h ⊢
    split
    · next hle => simp [hle] at h
    · rfl

variable {w : Walked}

theorem Walked.Backed.add (h : Walked.Backed w.entries w.blobs) (v : Visit) :
    Walked.Backed (w.add v).entries (w.add v).blobs := by
  unfold Walked.add
  split
  · exact h
  · dsimp only
    refine ⟨fun p e he hb => ?_, fun b d hd => ?_⟩
    · by_cases hp : p = v.item.path
      · subst hp
        rw [lookup_insert] at he
        obtain rfl := Option.some.inj he
        rw [if_neg hb, mem_insert]
        exact .inl rfl
      · rw [lookup_insert_ne hp] at he
        have := h.covers p e he hb
        split
        · exact this
        · exact (mem_insert _).mpr (.inr this)
    · split at hd
      · exact h.sound b d hd
      · next hne =>
        by_cases hb : b = v.entry.blobId
        · subst hb
          rw [lookup_insert] at hd
          obtain rfl := Option.some.inj hd
          exact v.blobId_entry hne
        · rw [lookup_insert_ne hb] at hd
          exact h.sound b d hd

theorem Walked.Backed.foldl (h : Walked.Backed w.entries w.blobs) (l : List Visit) :
    Walked.Backed (l.foldl Walked.add w).entries (l.foldl Walked.add w).blobs := by
  induction l generalizing w with
  | nil => exact h
  | cons v l ih => exact ih (h.add v)

section Reading

variable {P : Cmd → Prop} (hP : ∀ c, c.reads = true → P c)
include hP

theorem only_loadArrayBatches (id : Id) (size : ℕ) (l : List (ℕ × ℕ)) (buf : Bytes) :
    Issues P (loadArrayBatches id size l buf) := by
  induction l generalizing buf with
  | nil => exact .pure trivial
  | cons batch l ih => exact (only_read hP (.getChunks ..) rfl).bind fun _ _ => ih _

theorem only_visitContent (item : Item) (kind : Kind) (f : InodeHash) :
    Issues P (visitContent item kind f) := by
  unfold visitContent
  split
  · next ref _ =>
    cases ref with
    | ext => exact only_read hP (.getContent item.inode) rfl
    | array =>
      refine (only_read hP .preferredRef rfl).bind fun ref _ => ?_
      split
      · exact .throw _
      · split
        · exact .pure trivial
        · exact only_loadArrayBatches hP ..
  · exact .pure trivial

theorem only_readInodes {l : List Item} : Issues P (readInodes l) := by
  induction l with
  | nil => exact .pure trivial
  | cons item l ih =>
    refine (only_read hP (.readInode item.inode) rfl).bind fun h _ => ih.bind fun tail _ => ?_
    split
    · exact .pure trivial
    · exact .pure trivial

theorem only_readContents {l : List (Item × Kind × InodeHash)} : Issues P (readContents l) := by
  induction l with
  | nil => exact .pure trivial
  | cons v l ih =>
    exact (only_visitContent hP ..).bind fun _ _ => ih.bind fun _ _ => .pure trivial

theorem only_readDirents {l : List Item} : Issues P (readDirents l) := by
  induction l with
  | nil => exact .pure trivial
  | cons dir l ih =>
    exact (only_read hP (.readDirents dir.inode) rfl).bind fun _ _ => ih.bind fun _ _ =>
      .pure trivial

theorem only_walkLevels (fuel : ℕ) {queue : List Item} (hw : Walked.Backed w.entries w.blobs) :
    OnlyE P (fun w => Walked.Backed w.entries w.blobs) (walkLevels fuel queue w) := by
  induction fuel generalizing queue w with
  | zero =>
    cases queue with
    | nil => exact .pure hw
    | cons item queue => exact .throw _
  | succ fuel ih =>
    cases queue with
    | nil => exact .pure hw
    | cons item queue =>
      exact (only_readInodes hP).bind fun _ _ => (only_readContents hP).bind fun visits _ =>
        (only_readDirents hP).bind fun next _ => ih (hw.foldl visits)

theorem only_build (fuel : ℕ) (n : CheckpointId) :
    OnlyE P (fun r => Walked.Backed r.1.entries r.2) (buildManifestFromWorkspaceRoot fuel n) := by
  have hnone : Walked.Backed ∅ ∅ := by
    constructor
    · intro p e he
      cases he
    · intro h d hd
      cases hd
  refine (only_walkLevels hP fuel hnone).bind fun w hw => .pure ?_
  dsimp only
  split
  · exact hw
  · refine ⟨fun p e he hb => ?_, hw.sound⟩
    by_cases hp : p = [slash]
    · subst hp
      rw [lookup_insert] at he
      obtain rfl := Option.some.inj he
      exact absurd rfl hb
    · rw [lookup_insert_ne hp] at he
      exact hw.covers p e he hb

end Reading

/-! ## One command -/

/-- The keys of the live tree and what is remembered about it. -/
def Key.isTree : Key → Bool
  | .inode _ | .dirents _ | .content _ | .stage _ | .locks _ | .info | .nextInode | .rootHead
  | .rootDirty => true
  | _ => false

/-- The commands of requests other than the transaction of a save. Only the creation of a workspace
writes the keys of a checkpoint one by one, and only its deletion removes more than a tree. -/
def Cmd.routine : Cmd → Prop
  | .execSave _ _ | .setBlob _ _ | .setBlobRef _ _ | .setSavepoint _ _ | .setManifest _ _
  | .addSavepoint _ _ => False
  | .del which => ∀ k, which k = true → k.isTree = true
  | _ => True

variable {c : Cmd}

theorem Cmd.routine_of_reads (h : c.reads = true) : c.routine := by
  cases c <;> trivial

/-- What no step takes back: blobs stay as they are, and while no watched key is written no
checkpoint appears and the metadata stays. -/
structure Grows (p p' : Plane) : Prop where
  blob : ∀ h d, p.blob h = some d → p'.blob h = some d
  touched : p.touched ≤ p'.touched
  absent : p'.touched = p.touched → ∀ n, p.savepoint n = none → p'.savepoint n = none
  current : p'.touched = p.touched → p'.workspaceMeta = p.workspaceMeta

theorem Grows.refl (p : Plane) : Grows p p := ⟨fun _ _ h => h, le_rfl, fun _ _ h => h, fun _ => rfl⟩

variable {p p' : Plane}

theorem Grows.touching (hblob : ∀ h d, p.blob h = some d → p'.blob h = some d)
    (h : p'.touched = p.touched + 1) : Grows p p' :=
  ⟨hblob, by omega, fun h' => by omega, fun h' => by omega⟩

/-- The keys of the checkpoints and the metadata are the same. -/
structure SameCheckpoints (p p' : Plane) : Prop where
  savepoint : p'.savepoint = p.savepoint
  manifest : p'.manifest = p.manifest
  blob : p'.blob = p.blob
  blobref : p'.blobref = p.blobref
  savepoints : p'.savepoints = p.savepoints
  workspaceMeta : p'.workspaceMeta = p.workspaceMeta
  touched : p.touched ≤ p'.touched

theorem SameCheckpoints.refl (p : Plane) : SameCheckpoints p p := ⟨rfl, rfl, rfl, rfl, rfl, rfl, le_rfl⟩

theorem SameCheckpoints.grows (h : SameCheckpoints p p') : Grows p p' :=
  ⟨fun b d hb => by rw [h.blob]; exact hb, h.touched,
    fun _ n hn => by rw [h.savepoint]; exact hn, fun _ => h.workspaceMeta⟩

theorem sameCheckpoints_completeRestore (me : Token) (activity : List Message) (p : Plane) :
    SameCheckpoints p (completeRestore me activity p).2 := by
  unfold completeRestore
  split_ifs
  · exact .refl p
  · exact .refl p
  · exact .refl p
  · exact ⟨rfl, rfl, rfl, rfl, rfl, rfl, Nat.le_succ _⟩

theorem sameCheckpoints_del {which : Key → Bool} (p : Plane)
    (h : ∀ k, which k = true → k.isTree = true) : SameCheckpoints p (p.del which) := by
  have hkeep : ∀ k, k.isTree = false → which k = false := by
    intro k hk
    by_contra hw
    rw [h k (by simpa using hw)] at hk
    cases hk
  refine ⟨?_, ?_, ?_, ?_, ?_, ?_, ?_⟩
  · funext n
    simp [Plane.del, hkeep (.savepoint n) rfl]
  · funext n
    simp [Plane.del, hkeep (.manifest n) rfl]
  · funext b
    simp [Plane.del, hkeep (.blob b) rfl]
  · funext b
    simp [Plane.del, hkeep (.blobref b) rfl]
  · simp [Plane.del, hkeep .savepoints rfl]
  · simp [Plane.del, hkeep .workspaceMeta rfl]
  · simp only [Plane.del]
    split <;> omega

/-- The routine commands that do change a checkpoint, the metadata or a blob. -/
def Cmd.settles : Cmd → Bool
  | .execDelete _ _ | .moveHead _ _ | .putMeta _ | .setBlobNX _ _ => true
  | _ => false

/-- **What a command leaves of the checkpoints.** -/
theorem effect_sameCheckpoints (hc : c.routine) (hs : c.settles = false) (me : Token) (o : Choice)
    (p : Plane) : SameCheckpoints p (effect me o p c).2 := by
  cases c with
  | acquireLock =>
    simp only [effect]
    split
    · exact .refl p
    · exact ⟨rfl, rfl, rfl, rfl, rfl, rfl, Nat.le_succ _⟩
  | releaseLock | expireLock =>
    simp only [effect]
    split
    · exact ⟨rfl, rfl, rfl, rfl, rfl, rfl, Nat.le_succ _⟩
    · exact .refl p
  | setGeneration g => exact ⟨rfl, rfl, rfl, rfl, rfl, rfl, Nat.le_succ _⟩
  | captureHistory expected operation changes =>
    simp only [effect]
    split
    · exact .refl p
    · split
      · exact .refl p
      · exact ⟨rfl, rfl, rfl, rfl, rfl, rfl, le_rfl⟩
  | del which => exact sameCheckpoints_del p hc
  | completeRestore activity => exact sameCheckpoints_completeRestore me activity p
  | client ctx oc c =>
    refine ⟨rfl, rfl, rfl, rfl, rfl, rfl, ?_⟩
    simp only [effect]
    split <;> omega
  | setBlob h data => cases hc
  | setBlobRef h ref => cases hc
  | setSavepoint n cp => cases hc
  | setManifest n m => cases hc
  | addSavepoint n score => cases hc
  | execSave stamp writes => cases hc
  | execDelete n m => cases hs
  | moveHead n at_ => cases hs
  | putMeta m => cases hs
  | setBlobNX h d => cases hs
  | _ => exact ⟨rfl, rfl, rfl, rfl, rfl, rfl, le_rfl⟩

/-- What a deletion leaves: a checkpoint less and its references, or everything. -/
theorem execDelete_cases (n : CheckpointId) (m : Manifest) (p : Plane) : (execDelete n m p).2 = p ∨
      ∃ current refs, p.workspaceMeta = some current ∧ current.headSavepoint ≠ n ∧
        current.defaultSavepoint ≠ n ∧ p.restoreBefore ≠ some n ∧ (p.savepoint n).isSome = true ∧
        dropRefs p.blobref (manifestBlobRefs m).keys = .ok refs ∧
        (execDelete n m p).2 = { p with
          savepoint := Function.update p.savepoint n none
          manifest := Function.update p.manifest n none
          savepoints := p.savepoints.filter fun e => e.1 ≠ n
          blobref := refs.foldl (fun f e => Function.update f e.1 (some e.2)) p.blobref } := by
  unfold execDelete
  split
  · exact .inl rfl
  · next current hcurrent =>
    split_ifs with h₁ h₂ h₃
    · exact .inl rfl
    · exact .inl rfl
    · exact .inl rfl
    · split
      · exact .inl rfl
      · next refs hrefs =>
        push Not at h₁
        refine .inr ⟨current, refs, hcurrent, h₁.1, h₁.2, h₂, ?_, hrefs, rfl⟩
        simpa [Option.isSome_iff_ne_none] using h₃

theorem effect_grows (hc : c.routine) (me : Token) (o : Choice) (p : Plane) :
    Grows p (effect me o p c).2 := by
  cases hs : c.settles with
  | false => exact (effect_sameCheckpoints hc hs me o p).grows
  | true =>
    cases c with
    | execDelete n m =>
      simp only [effect]
      obtain h | ⟨current, refs, -, -, -, -, -, -, h⟩ := execDelete_cases n m p
      · rw [h]
        exact .refl p
      · rw [h]
        refine ⟨fun _ _ hb => hb, le_rfl, fun _ n' hn' => ?_, fun _ => rfl⟩
        dsimp only
        rw [Function.update_apply]
        split
        · rfl
        · exact hn'
    | moveHead n at_ =>
      simp only [effect]
      split
      · exact .refl p
      · exact .touching (fun _ _ hb => hb) rfl
    | putMeta m => exact .touching (fun _ _ hb => hb) rfl
    | setBlobNX h data =>
      refine ⟨fun b d hb => ?_, le_rfl, fun _ _ hn => hn, fun _ => rfl⟩
      simp only [effect, Function.update_apply]
      split
      · next heq =>
        subst heq
        rw [hb]
        rfl
      · exact hb
    | _ => cases hs

theorem saveWrite_grows {w : SaveWrites} (p : Plane) : Grows p (saveWrite w p) :=
  .touching (fun _ _ hb => hb) rfl

/-! ## Programs that write the tree -/

/-- The commands that write the live tree. -/
def Cmd.builds : Cmd → Prop
  | .del which => ∀ k, which k = true → k.isTree = true
  | .writeContent _ _ _ | .hsetInode _ _ | .link _ _ _ | .bindLineage _ _ | .setInfo _
  | .setNextInode _ | .markClean _ => True
  | _ => False

theorem Cmd.routine_of_builds (h : c.builds) : c.routine := by
  cases c <;> trivial

theorem Cmd.settles_of_builds (h : c.builds) : c.settles = false := by
  cases c <;> first | rfl | cases h

section Building

variable {P : Cmd → Prop} (hP : ∀ c, c.reads = true → P c) (hT : ∀ c, c.builds → P c)


theorem only_sendAll {l : List Cmd} (hl : ∀ c ∈ l, P c) : Issues P (sendAll l) := by
  induction l with
  | nil => exact .pure trivial
  | cons c l ih =>
    exact (only_call (hl c mem_cons_self)).bind fun _ _ =>
      ih fun c hc => hl c (mem_cons_of_mem _ hc)

theorem builds_nodeCommands {node : FSNode} {binding : Option HistoryBinding} {ref : ContentRef}
    (fields : InodeHash) (content : Bytes) :
    ∀ c ∈ nodeCommands node binding ref fields content, c.builds := by
  intro c hc
  simp only [nodeCommands, mem_append, mem_singleton, Option.mem_toList,
    Option.map_eq_some_iff] at hc
  rcases hc with ((hc | rfl) | ⟨b, -, rfl⟩) | ⟨d, -, rfl⟩
  · split at hc
    · rw [mem_singleton.mp hc]
      trivial
    · cases hc
  · trivial
  · trivial
  · trivial

include hP in
theorem only_manifestEntryData {e : ManifestEntry} : Issues P (manifestEntryData e) := by
  unfold manifestEntryData
  split_ifs
  · split
    · exact .pure trivial
    · exact .throw _
  · exact (only_read hP .getMeta rfl).bind fun _ _ => only_required
      ((only_read hP (.getBlob e.blobId) rfl).mono (fun _ h => h) fun _ _ _ _ => trivial)
  · exact .pure trivial
  · exact .throw _

theorem only_queueCapacity {pipe : Pipeline} (weight : ℕ) (h : ∀ c ∈ pipe.commands, P c) :
    OnlyE P (fun pipe => ∀ c ∈ pipe.commands, P c)
      (queueCapacity pipe weight) := by
  unfold queueCapacity
  split
  · refine (only_sendAll h).bind fun _ _ => .pure fun c hc => ?_
    cases hc
  · exact .pure h

include hP hT in
theorem only_writeNodes (bindings : Bindings) (ref : ContentRef) (nodes : List FSNode)
    {pipe : Pipeline} (info : Info) (h : ∀ c ∈ pipe.commands, P c) :
    OnlyE P (fun r => ∀ c ∈ r.1.commands, P c)
      (writeNodes bindings ref nodes pipe info) := by
  induction nodes generalizing pipe info with
  | nil => exact .pure h
  | cons node nodes ih =>
    have hfields : Issues P
        (workspaceFSNodeFields node (bindings node.path) ref) := by
      unfold workspaceFSNodeFields
      split
      · exact .pure trivial
      · exact (only_manifestEntryData hP).bind fun _ _ => .pure trivial
      · exact .pure trivial
    refine hfields.bind fun r _ => (only_queueCapacity _ h).bind fun pipe hpipe => ih _ ?_
    intro c hc
    rcases mem_append.mp hc with hc | hc
    · exact hpipe c hc
    · exact hT c (builds_nodeCommands _ _ c hc)

include hP hT in
theorem only_writeWorkspaceFSNodes (nodes : List FSNode) (bindings : Bindings) :
    Issues P (writeWorkspaceFSNodes nodes bindings) := by
  refine (only_read hP .preferredRef rfl).bind fun ref _ => ?_
  refine (only_writeNodes hP hT bindings ref nodes {} fun c hc => by cases hc).bind fun r hr =>
    (only_queueCapacity 512 hr).bind fun pipe hpipe => only_sendAll fun c hc => ?_
  rcases mem_append.mp hc with hc | hc
  · exact hpipe c hc
  · simp only [mem_cons, not_mem_nil, or_false] at hc
    rcases hc with rfl | rfl
    · exact hT _ trivial
    · exact hT _ trivial

include hT in
theorem only_scanAndDelete {pattern : Key → Bool} (h : ∀ k, pattern k = true → k.isTree = true)
    (batches : List (List Key)) : Issues P (scanAndDelete pattern batches) := by
  induction batches with
  | nil => exact only_call (hT (.del pattern) h)
  | cons batch batches ih =>
    refine (only_call (hT (.del _) fun k hk => h k ?_)).bind fun _ _ => ih
    simp only [Bool.and_eq_true] at hk
    exact hk.1

include hT in
theorem only_resetWorkspaceFSNamespace (batches : List (List Key)) {patterns : List (Key → Bool)}
    (h : ∀ pattern ∈ patterns, ∀ k, pattern k = true → k.isTree = true) :
    Issues P (resetWorkspaceFSNamespace batches patterns) := by
  induction patterns with
  | nil =>
    refine only_call (hT (.del rootKeys) fun k hk => ?_)
    cases k <;> first | rfl | cases hk
  | cons pattern patterns ih =>
    exact (only_scanAndDelete hT (h pattern mem_cons_self) batches).bind fun _ _ =>
      ih fun p hp => h p (mem_cons_of_mem _ hp)

theorem isTree_of_namespacePatterns :
    ∀ pattern ∈ namespacePatterns, ∀ k, pattern k = true → k.isTree = true := by
  intro pattern hp k hk
  simp only [namespacePatterns, mem_cons, not_mem_nil, or_false] at hp
  rcases hp with rfl | rfl | rfl | rfl
  all_goals cases k <;> first | rfl | cases hk

include hP hT in
theorem only_syncWorkspaceRoot {m : Manifest} {bindings : Bindings} {batches : List (List Key)} :
    Issues P (syncWorkspaceRoot m bindings batches) :=
  (only_read hP .getMeta rfl).bind fun _ _ =>
    (only_resetWorkspaceFSNamespace hT batches isTree_of_namespacePatterns).bind fun _ _ =>
      (only_lift (Q := fun _ => True) fun _ _ => trivial).bind fun nodes _ =>
        (only_writeWorkspaceFSNodes hP hT nodes bindings).bind fun _ _ =>
          (only_read hP .getMeta rfl).bind fun _ _ =>
            only_call (hT (.markClean m.savepoint) trivial)

include hP in
theorem only_checkNotLost : Issues P checkNotLost := by
  refine (only_read hP .lockLost rfl).bind fun b _ => ?_
  split
  · exact .throw _
  · exact .pure trivial

include hP in
theorem only_prepareRestoreActivity (hbefore : ∀ n, P (.setRestoreBefore n)) {recovering : Bool} :
    Issues P (prepareRestoreActivity recovering) := by
  unfold prepareRestoreActivity
  split
  · refine (only_read hP .getRestoreBefore rfl).bind fun before _ => ?_
    split
    · exact .pure trivial
    · exact (only_getManifest hP _).bind fun _ _ => .pure trivial
  · exact (only_resolve hP).bind fun _ _ => (only_call (hbefore _)).bind fun _ _ =>
      (only_getManifest hP _).bind fun _ _ => .pure trivial

include hP in
theorem only_prepareRestoreFileHistory {choices : RestoreChoices} {m : Manifest}
    {expected : Generation} {operation : Token}
    (hcapture : P (.captureHistory expected operation choices.changes)) : Issues P
      (prepareRestoreFileHistory choices m expected operation) := by
  unfold prepareRestoreFileHistory
  refine (only_read hP .getPolicy rfl).bind fun policy _ => ?_
  split
  · refine (only_read hP .hasHistory rfl).bind fun b _ => ?_
    split
    · exact .pure trivial
    · exact .pure trivial
  · exact (only_lift (Q := fun _ => True) fun _ _ => trivial).bind fun _ _ =>
      (only_call hcapture).bind fun _ _ => .pure trivial

include hP in
theorem only_moveWorkspaceHead (n : CheckpointId) (hmove : ∀ t, P (.moveHead n t)) :
    Issues P (moveWorkspaceHead n) :=
  (only_resolve hP).bind fun _ _ => (only_read hP .now rfl).bind fun t _ => only_call (hmove t)

end Building

/-! ## Programs that save -/

/-- What holds when the transaction of a save goes through. -/
structure Ready (w : SaveWrites) (p : Plane) : Prop where
  absent : p.savepoint w.savepoint.id = none
  head : w.workspaceMeta.headSavepoint = w.savepoint.id
  current : ∃ current, p.workspaceMeta = some current ∧
    w.workspaceMeta.defaultSavepoint = current.defaultSavepoint
  refs : w.refs.map Prod.fst = (manifestBlobRefs w.manifest).keys
  blobs : ∀ b ∈ manifestBlobRefs w.manifest, (p.blob b).isSome = true

/-- An invariant of the checkpoints, in runs whose commands meet `clean`. -/
structure Preserved (clean : Cmd → Plane → Prop) (J : Plane → Prop) : Prop where
  routine : ∀ me o c p, Cmd.routine c → J p → clean c p → J (effect me o p c).2
  save : ∀ w p, Ready w p → J p → clean (.execSave p.touched w) p → J (saveWrite w p)

/-- What a request relies on and guarantees. -/
def contract (J : Plane → Prop) (clean : Cmd → Plane → Prop) (me : ℕ) : Contract sig Plane where
  inv := J
  rely := Grows
  exec c p r p' := Exec me c p r p' ∧ clean c p
  guar _ p _ p' := Grows p p'

section Safe

variable {J : Plane → Prop} {clean : Cmd → Plane → Prop} {me : ℕ} {p : Plane} {α : Type}
  (hJ : Preserved clean J) {r : Except Err (Val c)}

theorem keep_read (hc : c.reads = true) (hp : J p)
    (h : (contract J clean me).exec c p r p') : p' = p ∧ Grows p p' ∧ J p' := by
  obtain rfl := exec_reads hc h.1
  exact ⟨rfl, .refl _, hp⟩

/-- Reading keeps what others leave alone. -/
theorem safe_reads {A : Plane → Prop} {Q : α → Prop} {x : Op α}
    (hx : OnlyE (fun c : Cmd => c.reads = true) Q x) (hA : (contract J clean me).Stable A) (hp : A p) :
    SafeE (contract J clean me) (fun a p => Q a ∧ A p) x p := by
  refine hx.safe hA (fun c p r p' hc hAp hinv hexec => ?_) hp
  obtain ⟨rfl, hg, hJ'⟩ := keep_read hc hinv hexec
  exact ⟨⟨hg, hJ'⟩, hAp⟩

/-- What a reply says about the state it was given in. -/
theorem safe_read {A : Plane → Prop} {Q : Val c → Plane → Prop} (hc : c.reads = true)
    (hA : (contract J clean me).Stable A) (hp : A p)
    (hQ : ∀ o p v, A p → effect me o p c = (.ok v, p) → Q v p) :
    SafeE (contract J clean me) Q (call c) p := by
  refine Safe.call hA hp fun p r p' hAp hinv hexec => ?_
  obtain ⟨rfl, hg, hJ'⟩ := keep_read hc hinv hexec
  refine ⟨⟨hg, hJ'⟩, ?_⟩
  rintro v rfl
  obtain ⟨o, ho⟩ := hexec.1.reply
  exact hQ o p' v hAp ho

include hJ

theorem keep_routine (hc : c.routine) (hp : J p)
    (h : (contract J clean me).exec c p r p') : Grows p p' ∧ J p' :=
  ⟨h.1.of_effect (.refl p) fun o => effect_grows hc me o p,
    h.1.of_effect hp fun o => hJ.routine me o c p hc hp h.2⟩

theorem safe_routine {Q : α → Prop} {x : Op α} (hx : OnlyE Cmd.routine Q x) :
    SafeE (contract J clean me) (fun a _ => Q a) x p := by
  refine (OnlyE.safe (A := fun _ => True) hx (fun _ _ _ _ => trivial)
    (fun c p r p' hc _ hinv hexec => ⟨keep_routine hJ hc hinv hexec, trivial⟩) trivial).mono ?_
  exact fun a p h => h.1

theorem safe_saveBlobs {l : List (Hash × Bytes)} {known : List Hash}
    (hp : ∀ b ∈ known, (p.blob b).isSome = true) : SafeE (contract J clean me)
      (fun _ p => ∀ b ∈ known ++ l.map Prod.fst, (p.blob b).isSome = true) (saveBlobs l) p := by
  induction l generalizing p known with
  | nil => exact .pure (by simpa using hp)
  | cons e l ih =>
    have hstable : (contract J clean me).Stable fun p => ∀ b ∈ known, (p.blob b).isSome = true := by
      intro p p' h hg b hb
      obtain ⟨d, hd⟩ := Option.isSome_iff_exists.mp (h b hb)
      rw [hg.blob b d hd]
      rfl
    refine SafeE.bind (Q := fun _ p => ∀ b ∈ known ++ [e.1], (p.blob b).isSome = true) ?_
      fun _ p hp => ?_
    · refine Safe.call hstable hp fun p r p' hknown hinv hexec => ?_
      obtain ⟨hg, hJ'⟩ := keep_routine hJ (c := .setBlobNX e.1 e.2) trivial hinv hexec
      refine ⟨⟨hg, hJ'⟩, ?_⟩
      rintro v rfl b hb
      obtain ⟨o, ho⟩ := hexec.1.reply
      obtain ⟨-, rfl⟩ := Prod.mk.inj ho
      rcases mem_append.mp hb with hb | hb
      · exact hstable _ _ hknown hg b hb
      · rw [mem_singleton.mp hb]
        simp
    · refine (ih hp).mono fun _ p h b hb => h b ?_
      simpa using hb

/-- What a save knows once its keys are watched: the blobs are there, and until a watched key is
touched, the metadata and the absence of the checkpoint are as they were read. -/
structure Watched (input : SaveCheckpointRequest) (stamp : ℕ) (current : Option WorkspaceMeta)
    (absent : Bool) (p : Plane) : Prop where
  blobs : ∀ b ∈ manifestBlobRefs input.manifest, (p.blob b).isSome = true
  stamp_le : stamp ≤ p.touched
  current : p.touched = stamp → ∀ m, current = some m → p.workspaceMeta = some m
  absent : p.touched = stamp → absent = true → p.savepoint input.checkpointID = none

omit hJ in
theorem stable_blobs (m : Manifest) : (contract J clean me).Stable fun p =>
    ∀ b ∈ manifestBlobRefs m, (p.blob b).isSome = true := by
  intro p p' h hg b hb
  obtain ⟨d, hd⟩ := Option.isSome_iff_exists.mp (h b hb)
  rw [hg.blob b d hd]
  rfl

omit hJ in
theorem stable_watched (input : SaveCheckpointRequest) (stamp : ℕ) (current : Option WorkspaceMeta)
    (absent : Bool) : (contract J clean me).Stable (Watched input stamp current absent) := by
  intro p p' h hg
  have hsame : p'.touched = stamp → p'.touched = p.touched ∧ p.touched = stamp := by
    intro ht
    have h₁ := hg.touched
    have h₂ := h.stamp_le
    omega
  refine ⟨stable_blobs input.manifest p p' h.blobs hg, h.stamp_le.trans hg.touched, ?_, ?_⟩
  · intro ht m hm
    rw [hg.current (hsame ht).1]
    exact h.current (hsame ht).2 m hm
  · intro ht ha
    exact hg.absent (hsame ht).1 _ (h.absent (hsame ht).2 ha)

variable {input : SaveCheckpointRequest}

omit hJ in
/-- The checks of a save, with its keys watched, give the metadata. -/
theorem safe_checkSave {stamp : ℕ} (hp : Watched input stamp none false p) :
    SafeE (contract J clean me) (fun current p => Watched input stamp (some current) false p)
      (checkSave input) p := by
  unfold checkSave
  refine SafeE.bind (Q := fun current p => Watched input stamp (some current) false p) ?_
    fun current p hp => ?_
  · unfold resolveWorkspaceMeta required
    refine SafeE.bind (Q := fun current p => Watched input stamp current false p)
      (safe_read rfl (stable_watched input stamp none false) hp fun o p v hk ho => ?_)
      fun current p hp => ?_
    · have hv := Except.ok.inj (Prod.mk.inj ho).1
      exact ⟨hk.blobs, hk.stamp_le, fun _ m hm => hv.trans hm, hk.absent⟩
    · cases current with
      | some current => exact .pure hp
      | none => exact .throw _
  · have hP : ∀ c : Cmd, c.reads = true → c.reads = true := fun _ h => h
    refine (safe_reads (Q := (· = current)) ?_
      (stable_watched input stamp (some current) false) hp).mono ?_
    · refine (only_checkGeneration hP).bind fun _ _ => (only_checkChanges hP).bind fun _ _ =>
        (only_checkLock hP).bind fun _ _ => ?_
      split
      · exact .pure rfl
      · exact .throw _
    · rintro m p ⟨rfl, h⟩
      exact h

/-- The transaction of a save, when the blobs are there. -/
theorem safe_saveTransaction (input : SaveCheckpointRequest) (now : ℤ)
    (hp : ∀ b ∈ manifestBlobRefs input.manifest, (p.blob b).isSome = true) :
    SafeE (contract J clean me) (fun _ _ => True) (saveTransaction input now) p := by
  unfold saveTransaction
  refine SafeE.bind (Q := fun stamp p => Watched input stamp none false p)
    (safe_read rfl (stable_blobs input.manifest) hp fun o p v hb ho => ?_) fun stamp p hp => ?_
  · obtain rfl := Except.ok.inj (Prod.mk.inj ho).1
    exact ⟨hb, le_rfl, fun _ _ hm => (nomatch hm), fun _ ha => (nomatch ha)⟩
  refine SafeE.bind (safe_checkSave hp) fun current p hp => ?_
  refine SafeE.bind (Q := fun existing p =>
      existing = none → Watched input stamp (some current) true p)
    (safe_read rfl (stable_watched input stamp (some current) false) hp fun o p v hk ho => ?_)
    fun existing p hp => ?_
  · have hv := Except.ok.inj (Prod.mk.inj ho).1
    intro hnone
    exact ⟨hk.blobs, hk.stamp_le, hk.current, fun _ _ => hv.trans hnone⟩
  · cases existing with
    | some cp => exact .throw _
    | none =>
      refine SafeE.bind (safe_reads (only_readRefs (fun _ h => h))
        (stable_watched input stamp (some current) true) (hp rfl)) fun refs p hp => ?_
      refine Safe.call (stable_watched input stamp (some current) true) hp.2
        fun p r p' hk hinv hexec => ⟨?_, fun _ _ => trivial⟩
      refine hexec.1.of_effect (P := fun p' => Grows p p' ∧ J p') ⟨.refl p, hinv⟩ fun o => ?_
      simp only [effect]
      split
      · next ht =>
        subst ht
        refine ⟨saveWrite_grows p, hJ.save _ p ⟨?_, rfl, ?_, ?_, hk.blobs⟩ hinv hexec.2⟩
        · exact hk.absent rfl rfl
        · exact ⟨current, hk.current rfl current rfl, rfl⟩
        · rw [hp.1, map_map]
          rfl
      · exact ⟨.refl p, hinv⟩

omit hJ in
theorem safe_asConflict {x : Op Unit} (hx : SafeE (contract J clean me) (fun _ _ => True) x p) :
    SafeE (contract J clean me) (fun _ _ => True) (asConflict x) p := by
  refine Safe.bind hx fun r p _ => ?_
  split
  · exact fun _ _ => trivial
  · exact fun _ _ => trivial

/-- A save, given the contents of the blobs its manifest uses. -/
theorem safe_saveCheckpoint (hbacked : Walked.Backed input.manifest.entries input.blobs) :
    SafeE (contract J clean me) (fun _ _ => True) (saveCheckpoint input) p := by
  have hP : ∀ c : Cmd, c.reads = true → c.routine := fun c => c.routine_of_reads
  have reads : ∀ {α : Type} {x : Op α} {p : Plane}, Issues Cmd.routine x →
      SafeE (contract J clean me) (fun _ _ => True) x p := fun hx => safe_routine hJ hx
  unfold saveCheckpoint
  refine (reads (only_validateName _)).bind fun _ p _ => (reads (only_validateName _)).bind
    fun _ p _ => (reads (only_resolve hP)).bind fun _ p _ =>
    (reads (only_checkLock hP)).bind fun _ p _ => (reads (only_getManifest hP _)).bind
    fun headManifest p _ => ?_
  split
  · exact .pure trivial
  · refine (reads (only_read hP .now rfl)).bind fun now p _ =>
      (reads (only_read hP .getMeta rfl)).bind fun _ p _ =>
      (safe_saveBlobs hJ (forall_mem_nil fun b => (p.blob b).isSome = true)).bind
      fun _ p hp =>
      (safe_asConflict (safe_saveTransaction hJ input now fun b hb => hp b ?_)).bind
      fun _ p _ => (reads (only_read hP .audit rfl)).bind fun _ p _ => .pure trivial
    obtain ⟨hne, path, e, he, rfl⟩ := mem_manifestBlobRefs.mp hb
    have hmem : e.blobId ∈ input.blobs.keys := hbacked.covers path e he hne
    simpa [AList.keys, List.keys] using hmem

theorem safe_captureCheckpoint (fuel : ℕ) (name : CheckpointId) (generation : Generation)
    (lockToken : Option Token) (allowUnchanged : Bool) :
    SafeE (contract J clean me) (fun _ _ => True)
      (captureCheckpoint fuel name generation lockToken allowUnchanged) p := by
  have hP : ∀ c : Cmd, c.reads = true → c.routine := fun c => c.routine_of_reads
  have hroot : Issues Cmd.routine requireLiveRoot := by
    refine (only_read hP .rootExists rfl).bind fun b _ => ?_
    split
    · exact .pure trivial
    · exact .throw _
  unfold captureCheckpoint
  refine (safe_routine hJ (only_validateName _)).bind fun _ p _ =>
    (safe_routine hJ (only_resolve hP)).bind fun current p _ =>
    (safe_routine hJ hroot).bind fun _ p _ =>
    (safe_routine hJ (only_read hP .latestChange rfl)).bind fun changes p _ =>
    (safe_routine hJ (only_build hP fuel name)).bind fun built p hbuilt => ?_
  obtain ⟨m, blobs⟩ := built
  refine (safe_routine hJ (only_read hP .latestChange rfl)).bind fun latest p _ => ?_
  split
  · refine (safe_saveCheckpoint hJ hbuilt).bind fun saved p _ => ?_
    refine (safe_routine hJ (only_onlyIf ?_)).bind fun _ p _ => .pure trivial
    exact (only_required ((only_getSavepointMeta hP name).mono (fun _ h => h)
      fun _ _ _ _ => trivial)).bind fun _ _ => .pure trivial
  · exact .throw _

theorem safe_underLock {x : Op α} (hx : SafeE (contract J clean me) (fun _ _ => True) x p) :
    SafeE (contract J clean me) (fun _ _ => True) (underLock x) p := by
  refine Safe.bind hx fun r p _ => ?_
  refine Safe.bind (safe_routine hJ (only_call (c := .releaseLock) trivial)) fun _ p _ => ?_
  exact fun _ _ => trivial

theorem safe_restoreUnderLock (choices : RestoreChoices) (token : Token) {cp : SavepointMeta}
    {m : Manifest} : SafeE (contract J clean me) (fun _ _ => True)
      (restoreUnderLock choices token cp m) p := by
  have hP : ∀ c : Cmd, c.reads = true → c.routine := fun c => c.routine_of_reads
  unfold restoreUnderLock
  refine (safe_routine hJ (only_required ((only_read hP .getGeneration rfl).mono (fun _ h => h)
    fun _ _ _ _ => trivial))).bind fun previous p _ => ?_
  refine (safe_routine hJ (only_call (c := .setGeneration _) trivial)).bind fun _ p _ =>
    (safe_routine hJ (only_read hP .rootExists rfl)).bind fun liveRoot p _ => ?_
  refine SafeE.bind (Q := fun _ _ => True) ?_ fun _ p _ =>
    (safe_routine hJ (only_checkNotLost hP)).bind fun _ p _ =>
    (safe_routine hJ (only_prepareRestoreActivity hP (fun _ => trivial))).bind fun _ p _ =>
    (safe_routine hJ (only_prepareRestoreFileHistory hP trivial)).bind fun bindings p _ =>
    (safe_routine hJ (only_call (c := .setGeneration _) trivial)).bind fun _ p _ =>
    (safe_routine hJ (only_moveWorkspaceHead hP _ fun _ => trivial)).bind fun _ p _ =>
    (safe_routine hJ (only_syncWorkspaceRoot hP (fun _ => Cmd.routine_of_builds))).bind fun _ p _ =>
    (safe_routine hJ (only_checkNotLost hP)).bind fun _ p _ =>
    safe_routine hJ (only_call (c := .completeRestore _) trivial)
  unfold onlyIf
  split
  · exact (safe_captureCheckpoint hJ ..).bind fun _ p _ => .pure trivial
  · exact .pure trivial

/-- Every request but the deletion of the workspace keeps the invariant. -/
theorem safe_request {r : Request} (hr : ∀ batches, r ≠ .deleteWorkspace batches) :
    SafeE (contract J clean me) (fun _ _ => True) r.op p := by
  have hP : ∀ c : Cmd, c.reads = true → c.routine := fun c => c.routine_of_reads
  cases r with
  | save fuel name allowUnchanged =>
    refine (safe_routine hJ (Q := fun _ => True) ((only_resolve hP).bind fun _ _ =>
      (only_required (Q := fun _ => True) ((only_read hP .getGeneration rfl).mono (fun _ h => h)
        fun _ _ _ _ => trivial)).bind fun g _ => ?_)).bind fun _ p _ =>
      safe_captureCheckpoint hJ ..
    split
    · exact .pure trivial
    · exact .throw _
    · exact .throw _
  | delete ref =>
    refine SafeE.bind (Q := fun _ _ => True) (safe_routine hJ ?_) fun _ p _ => .pure trivial
    exact (only_getCheckpoint hP ref).bind fun _ _ => (only_resolve hP).bind fun _ _ =>
      (only_call (c := .execDelete _ _) trivial).bind fun _ _ => only_read hP .audit rfl
  | restore choices ref =>
    refine SafeE.bind (Q := fun _ _ => True) ?_ fun _ p _ => .pure trivial
    refine (safe_routine hJ (only_getCheckpoint hP ref)).bind fun _ p _ =>
      (safe_routine hJ (only_resolve hP)).bind fun _ p _ =>
      (safe_routine hJ (only_read hP .newToken rfl)).bind fun token p _ => ?_
    refine SafeE.bind (Q := fun _ _ => True) (safe_routine hJ ?_) fun _ p _ =>
      safe_underLock hJ ((safe_restoreUnderLock hJ choices token).bind fun _ p _ =>
        safe_routine hJ (only_read hP .audit rfl))
    refine (only_read hP .getMeta rfl).bind fun _ _ =>
      (only_call (c := .acquireLock) trivial).bind fun b _ => ?_
    split
    · exact .pure trivial
    · exact .throw _
  | materialize =>
    refine SafeE.bind (Q := fun _ _ => True) (safe_routine hJ ?_) fun _ p _ => .pure trivial
    exact (only_resolve hP).bind fun _ _ => (only_getManifest hP _).bind fun _ _ =>
      (only_read hP .now rfl).bind fun _ _ => (only_read hP .getMeta rfl).bind fun _ _ =>
      only_call (c := .putMeta _) trivial
  | deleteWorkspace batches => exact absurd rfl (hr batches)
  | client ctx o c =>
    exact (safe_routine hJ (only_call (c := .client ctx o c) trivial)).bind fun _ p _ =>
      .pure trivial
  | expireLock =>
    exact (safe_routine hJ (only_call (c := .expireLock) trivial)).bind fun _ p _ => .pure trivial

end Safe

/-- The requests on a workspace that is not deleted. -/
def keepsWorkspace : Request → Prop
  | .deleteWorkspace _ => False
  | _ => True

instance : DecidablePred keepsWorkspace := fun r => by
  cases r <;> unfold keepsWorkspace <;> infer_instance

/-- **Runs of requests keep what their transactions keep.** -/
theorem run_preserves {J : Plane → Prop} {clean : Cmd → Plane → Prop} (hJ : Preserved clean J)
    {n : ℕ} (hp : J p) {T : Operations}
    (h : Team.Run (Starts keepsWorkspace) (ExecIf clean) (quiet p n) T) : J T.store := by
  refine (Team.safe (J := J) (F := fun _ _ => True) (C := fun me _ => contract J clean me)
    (fun _ _ => rfl) (fun _ _ _ _ _ _ h => h) ?_ ?_ (fun _ _ _ _ _ _ _ _ _ _ _ => trivial) hp
    (fun _ _ => trivial) h).1
  · rintro me r q s ⟨hr, rfl⟩ -
    refine Safe.mono (safe_request hJ (r := r) fun batches hb => ?_) fun _ _ _ => trivial
    subst hb
    exact hr
  · exact fun _ _ _ _ _ _ _ _ _ _ hg => hg

end Afs.ControlPlane
