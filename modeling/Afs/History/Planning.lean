import Afs.History.Journal

/-!
# What a capture plans

The three loops of `capture.lua` before anything is written: the loop over the changes, which
drafts records; the loop over the drafts, which numbers them and counts their blobs; and the loop
over the oldest records, which makes room. Each has an invariant that says what it has planned so
far in terms of the records that are kept.
-/

namespace Afs.History

open List

/-! ## Drafting -/

/-- The value a new blob gets. -/
def Plan.supply (s : Store) (p : Plan) : Option Body :=
  match p.payload with
  | some bytes => some (.str bytes)
  | none => p.body.bind (bodyAt s)

/-- A planned record counts its bytes, and those it keeps are at hand. -/
structure Plan.Sound (s : Store) (p : Plan) : Prop where
  size : 0 ≤ p.record.size ∧ p.record.size < counterLimit
  bytes : p.bytes = p.record.bytes
  supply : p.record.blobId ≠ none → ∃ body, p.supply s = some body ∧
    BlobMeta.Fits ⟨p.record.size, p.record.contentRef.getD .ext⟩ body

theorem snapshotPayload_fits {s : Store} {fields : InodeHash} {size : ℤ} {body : Option BodyKey}
    {payload : Option Bytes} {ref : ContentRef}
    (h : snapshotPayload s fields size body = .ok (payload, ref)) : ∃ b, (match payload with
      | some bytes => some (.str bytes)
      | none => body.bind (bodyAt s)) = some b ∧ BlobMeta.Fits ⟨size, ref⟩ b := by
  rw [snapshotPayload] at h
  split at h
  · next hs =>
    cases h
    exact ⟨_, rfl, rfl, by simp [hs]⟩
  split at h
  · dsimp only at h
    split at h
    · cases h
    · next hs =>
      cases h
      exact ⟨_, rfl, rfl, not_not.mp hs⟩
  · split at h
    · cases h
    · next b hb _ =>
      split at h
      · next hs =>
        cases h
        exact ⟨_, hb, rfl, hs⟩
      · cases h
    · cases h
    · next chunks hb _ =>
      cases h
      exact ⟨_, hb, rfl⟩
    · cases h

section Snapshot

variable {s : Store} {policy : Policy} {operation origin : Token} {now : ℕ} {c : Change}
  {a : SnapshotArgs} {d d' : Draft} {out : Option Record}

/-- The size limit of the policy leaves out the bytes of a file. -/
def SnapshotArgs.oversized (a : SnapshotArgs) (policy : Policy) : Bool :=
  !a.deleted && a.fields.type == some .file && policy.maxFileBytes > 0 &&
    (policy.maxFileBytes : ℤ) < a.fields.size.getD 0

/-- A snapshot keeps the bytes of a file. -/
abbrev SnapshotArgs.KeepsBody (a : SnapshotArgs) (policy : Policy) : Prop :=
  a.fields.type = some .file ∧ !a.deleted ∧ !a.oversized policy

/-- The record of a snapshot. -/
def SnapshotArgs.record (a : SnapshotArgs) (policy : Policy) (operation origin : Token) (now : ℕ)
    (c : Change) (ref : ContentRef) : Record :=
  { id := ⟨operation, c.id, a.suffix⟩, fileId := a.lineage, path := a.path
    operation := a.operation, type := a.fields.type, mode := a.fields.mode.getD 0
    size := if a.deleted then 0 else a.fields.size.getD 0, target := a.fields.target
    deleted := a.deleted, createdAt := now, origin := origin
    contentRef := if a.oversized policy then none else some ref
    contentHash := if a.deleted then .empty else a.hash, prevHash := a.prevHash
    deltaBytes := (if a.deleted then 0 else a.fields.size.getD 0) - a.previousSize
    metadata := c.metadata, metadataOnly := a.oversized policy
    previousPath := a.previous.bind fun p => if p = a.path then none else some p
    blobId := match a.hash with
      | .sha b => if a.KeepsBody policy then some b else none
      | _ => none }

/-- What `snapshot` has done when it returns. -/
theorem snapshot_ok (h : snapshot s policy operation origin now c a d = .ok (d', out)) :
    (0 ≤ a.fields.size.getD 0 ∧ a.fields.size.getD 0 < counterLimit) ∧
    ∃ payload ref, (a.KeepsBody policy →
        snapshotPayload s a.fields (a.fields.size.getD 0) a.body = .ok (payload, ref)) ∧
      (d' = d ∧ out = none ∨
        let record := a.record policy operation origin now c ref
        out = some record ∧
        d' = { d.setFile a.lineage { d.file a.lineage with last := some record } with
          plans := d.plans ++
            [⟨record, a.body, payload, if a.KeepsBody policy then a.fields.size.getD 0 else 0⟩] }) := by
  unfold snapshot at h
  -- `split` would use the first condition to rewrite the record, so the cases are taken by hand.
  obtain ⟨hsize, h⟩ := of_ite_eq_ok h
  rw [not_or, not_lt, not_le] at hsize
  refine ⟨hsize, ?_⟩
  obtain ⟨-, h⟩ | ⟨hkeeps, h⟩ := ite_eq_iff.mp h
  · obtain ⟨⟨payload, ref⟩, hpayload, h⟩ := bind_eq_ok h
    refine ⟨payload, ref, fun _ => hpayload, ?_⟩
    obtain ⟨-, h⟩ | ⟨-, h⟩ := ite_eq_iff.mp h
    · cases h
      exact .inl ⟨rfl, rfl⟩
    · cases h
      exact .inr ⟨rfl, rfl⟩
  · refine ⟨none, a.fields.contentRef.getD .ext, fun hk => absurd hk hkeeps, ?_⟩
    obtain ⟨-, h⟩ | ⟨-, h⟩ := ite_eq_iff.mp h
    · cases h
      exact .inl ⟨rfl, rfl⟩
    · cases h
      exact .inr ⟨rfl, rfl⟩

/-- `snapshot` drafts nothing, or one record of the lineage it was given. -/
theorem snapshot_cases (h : snapshot s policy operation origin now c a d = .ok (d', out)) :
    (d' = d ∧ out = none) ∨
    ∃ p : Plan, out = some p.record ∧ p.Sound s ∧ p.record.id = ⟨operation, c.id, a.suffix⟩ ∧
      p.record.fileId = a.lineage ∧
      d' = { d.setFile a.lineage { d.file a.lineage with last := some p.record } with
        plans := d.plans ++ [p] } := by
  obtain ⟨hsize, payload, ref, hpayload, hd | ⟨hout, hd⟩⟩ := snapshot_ok h
  · exact .inl hd
  refine .inr ⟨⟨a.record policy operation origin now c ref, a.body, payload,
    if a.KeepsBody policy then a.fields.size.getD 0 else 0⟩, hout, ⟨?_, ?_, ?_⟩, rfl, rfl, hd⟩
  · dsimp only [SnapshotArgs.record]
    split
    · exact ⟨le_rfl, by decide⟩
    · exact hsize
  · by_cases hk : a.KeepsBody policy
    · have hdel : a.deleted = false := by simpa using hk.2.1
      simp [SnapshotArgs.record, Record.bytes, if_pos hk, hk.1, hk.2, hdel]
    · simp only [SnapshotArgs.record, Record.bytes, if_neg hk]
  · intro hb
    have hk : a.KeepsBody policy := by
      by_contra hk
      refine hb ?_
      dsimp only [SnapshotArgs.record]
      split
      · exact if_neg hk
      · rfl
    obtain ⟨body, hbody, hfits⟩ := snapshotPayload_fits (hpayload hk)
    have hdel : a.deleted = false := by simpa using hk.2.1
    have hover : a.oversized policy = false := by simpa using hk.2.2
    refine ⟨body, hbody, ?_⟩
    simpa [SnapshotArgs.record, hdel, hover] using hfits

end Snapshot

/-- What the loop over the changes has drafted so far. `used` are the identities it has drawn
from. -/
structure Drafted (s : Store) (used : RecordId → Prop) (d : Draft) : Prop where
  opened : ∀ e ∈ d.files, e.2.next = (entry s.history e.1).next ∧ e.2.head = none ∧
    e.2.recoverable = none
  keys : (d.files.map Prod.fst).Nodup
  lineages : ∀ p ∈ d.plans, p.record.fileId ∈ d.files.map Prod.fst
  sound : ∀ p ∈ d.plans, p.Sound s
  named : ∀ p ∈ d.plans, used p.record.id
  nodup : (d.plans.map (·.record.id)).Nodup

variable {f : FileState} {next : ℕ} {new old : Path} {ah bh : Hash} {b : Bound}

section Drafted

variable {s : Store} {policy : Policy} {operation origin : Token} {now : ℕ} {c : Change}
  {used used' : RecordId → Prop} {d d' : Draft} {l : LineageId} {out : Option Record}

theorem Drafted.empty (s : Store) : Drafted s (fun _ => False) {} :=
  ⟨by simp, by simp, by simp, by simp, by simp, by simp⟩

theorem Drafted.mono (hd : Drafted s used d) (h : ∀ id, used id → used' id) : Drafted s used' d :=
  { hd with named := fun p hp => h _ (hd.named p hp) }

theorem mem_keys_setFile (l' : LineageId) (hl : l' ∈ d.files.map Prod.fst) :
    l' ∈ (d.setFile l f).files.map Prod.fst := by
  by_cases he : l' = l
  · subst he
    exact mem_map_of_mem (f := Prod.fst) mem_cons_self
  · obtain ⟨e, hmem, rfl⟩ := mem_map.mp hl
    exact mem_map_of_mem (mem_cons_of_mem _ (mem_filter.mpr ⟨hmem, by simpa using he⟩))

theorem nodup_keys_setFile (hk : (d.files.map Prod.fst).Nodup) :
    ((d.setFile l f).files.map Prod.fst).Nodup := by
  rw [Draft.setFile, map_cons, nodup_cons]
  refine ⟨?_, nodup_filter hk _⟩
  intro hmem
  obtain ⟨e, he, hl⟩ := mem_map.mp hmem
  exact of_decide_eq_true (mem_filter.mp he).2 hl

theorem Draft.file_mem (hl : l ∈ d.files.map Prod.fst) : (l, d.file l) ∈ d.files := by
  obtain ⟨e, he, rfl⟩ := mem_map.mp hl
  cases hf : d.files.find? fun e' => e'.1 = e.1 with
  | none => exact absurd (decide_eq_true rfl) (List.find?_eq_none.mp hf e he)
  | some e' =>
    have hfst : e'.1 = e.1 := by simpa using List.find?_some hf
    rw [Draft.file, hf, ← hfst]
    exact mem_of_find?_eq_some hf

/-- Replacing the state of a lineage by one with the same counters. -/
theorem Drafted.setFile (hd : Drafted s used d)
    (hf : f.next = (entry s.history l).next ∧ f.head = none ∧ f.recoverable = none) :
    Drafted s used (d.setFile l f) := by
  refine ⟨fun e he => ?_, nodup_keys_setFile hd.keys, fun p hp => ?_, hd.sound, hd.named, hd.nodup⟩
  · rw [Draft.setFile] at he
    rcases mem_cons.mp he with rfl | he
    · exact hf
    · exact hd.opened e (mem_of_mem_filter he)
  · exact mem_keys_setFile _ (hd.lineages p hp)

theorem Drafted.snapshot {a : SnapshotArgs} (hd : Drafted s used d)
    (hl : a.lineage ∈ d.files.map Prod.fst) (hnew : ¬ used ⟨operation, c.id, a.suffix⟩)
    (h : snapshot s policy operation origin now c a d = .ok (d', out)) :
    Drafted s (fun id => used id ∨ id = ⟨operation, c.id, a.suffix⟩) d' ∧
      ∀ l' ∈ d.files.map Prod.fst, l' ∈ d'.files.map Prod.fst := by
  obtain ⟨rfl, -⟩ | ⟨p, -, hsound, hid, hlineage, rfl⟩ := snapshot_cases h
  · exact ⟨hd.mono fun _ => .inl, fun _ h => h⟩
  have hset := hd.setFile (f := { d.file a.lineage with last := some p.record })
    (hd.opened _ (Draft.file_mem hl))
  refine ⟨⟨hset.opened, hset.keys, ?_, ?_, ?_, ?_⟩, fun l' hl' => mem_keys_setFile l' hl'⟩
  · intro q hq
    rcases mem_append.mp hq with hq | hq
    · exact hset.lineages q hq
    · rw [mem_singleton.mp hq, hlineage]
      exact mem_keys_setFile _ hl
  · intro q hq
    rcases mem_append.mp hq with hq | hq
    · exact hd.sound q hq
    · rwa [mem_singleton.mp hq]
  · intro q hq
    rcases mem_append.mp hq with hq | hq
    · exact .inl (hd.named q hq)
    · exact .inr (by rw [mem_singleton.mp hq, hid])
  · rw [map_append, map_singleton, nodup_append]
    refine ⟨hd.nodup, nodup_singleton _, fun x hx y hy => ?_⟩
    obtain ⟨q, hq, rfl⟩ := mem_map.mp hx
    rw [mem_singleton.mp hy, hid]
    intro he
    exact hnew (he ▸ hd.named q hq)

theorem Drafted.openLineage (hd : Drafted s used d) (h : openLineage s l d = .ok (d', next)) :
    Drafted s used d' ∧ l ∈ d'.files.map Prod.fst ∧ next = (entry s.history l).next := by
  unfold History.openLineage at h
  obtain ⟨-, h⟩ := of_ite_eq_ok h
  obtain ⟨-, h⟩ := of_ite_eq_ok h
  obtain ⟨hany, h⟩ | ⟨-, h⟩ := ite_eq_iff.mp h
  · cases h
    refine ⟨hd, ?_, rfl⟩
    obtain ⟨e, he, hl⟩ := any_eq_true.mp hany
    rw [← of_decide_eq_true hl]
    exact mem_map_of_mem he
  · cases h
    exact ⟨hd.setFile ⟨rfl, rfl, rfl⟩,
      mem_map_of_mem (f := Prod.fst) mem_cons_self, rfl⟩

/-- The snapshot of the state before a change. -/
def Change.baseline (c : Change) (l : LineageId) (old : Path) (hash : Hash) (before : InodeHash) :
    SnapshotArgs :=
  ⟨before, some (c.beforeBody.getD (.content c.id)), old, .baseline, false, l, .b, none, hash,
    .empty, 0⟩

/-- The snapshot of the state after a change; a removal leaves a tombstone. -/
def Change.outcome (s : Store) (c : Change) (l : LineageId) (old new : Path)
    (beforeHash afterHash : Hash) : SnapshotArgs :=
  let before := c.beforeFields s
  let beforeSize := (before.bind (·.size)).getD 0
  match c.after with
  | some after =>
    ⟨after, some (c.body.getD (.content c.id)), new,
      if c.operation = .write ∧ before.bind (·.type) = after.type ∧ before.isSome ∧
        beforeHash = afterHash ∧ (before.bind (·.mode)).getD 0 ≠ after.mode.getD 0
      then .metadata else c.operation, false, l, .a, some old, afterHash, beforeHash, beforeSize⟩
  | none =>
    ⟨before.getD {}, none, old, c.operation, true, l, .a, none, .empty, beforeHash, beforeSize⟩

theorem Change.outcome_lineage : (c.outcome s l old new bh ah).lineage = l := by
  rw [outcome]
  split <;> rfl

theorem Change.outcome_suffix : (c.outcome s l old new bh ah).suffix = .a := by
  rw [outcome]
  split <;> rfl

/-- `planVersions` is two snapshots, the first only where the lineage does not know the state
before. -/
theorem planVersions_eq : planVersions s policy operation origin now c l next old new bh ah d =
      (match c.beforeFields s with
        | some b =>
          if b.type.isSome ∧ ¬ (b.historyId.isSome ∧ b.historyRevision = some (b.revision.getD 0) ∧
              next ≠ 0) then
            History.snapshot s policy operation origin now c (c.baseline l old bh b) d
          else pure (d, none)
        | none => pure (d, none)) >>= fun x =>
      History.snapshot s policy operation origin now c (c.outcome s l old new bh ah) x.1 >>= fun y =>
      pure (y.1, { id := c.id, after := c.after.isSome, lineage := some l
                   revision := c.after.bind (·.revision), hash := ah, record := y.2 }) := by
  unfold planVersions Change.outcome
  cases hb : c.beforeFields s with
  | none => cases ha : c.after <;> rfl
  | some b => cases ha : c.after <;> dsimp only <;> split <;> rfl

/-- What `planVersions` has done when it returns. -/
theorem planVersions_ok
    (h : planVersions s policy operation origin now c l next old new bh ah d = .ok (d', b)) :
    ∃ d₁ record,
      (d₁ = d ∨ ∃ before out, c.beforeFields s = some before ∧ before.type.isSome ∧
        History.snapshot s policy operation origin now c (c.baseline l old bh before) d = .ok (d₁, out)) ∧
      History.snapshot s policy operation origin now c (c.outcome s l old new bh ah) d₁ =
        .ok (d', record) ∧
      b = { id := c.id, after := c.after.isSome, lineage := some l
            revision := c.after.bind (·.revision), hash := ah, record := record } := by
  rw [planVersions_eq] at h
  obtain ⟨⟨d₁, out⟩, hbase, h⟩ := bind_eq_ok h
  obtain ⟨⟨d₂, record⟩, hout, h⟩ := bind_eq_ok h
  cases h
  refine ⟨d₁, record, ?_, hout, rfl⟩
  split at hbase
  · next before hbefore =>
    split at hbase
    · next htype => exact .inr ⟨before, out, hbefore, htype.1, hbase⟩
    · cases hbase
      exact .inl rfl
  · cases hbase
    exact .inl rfl

/-- What `planChange` has done when it returns: nothing, or the versions of one lineage. -/
theorem planChange_ok (h : planChange s policy operation origin now d c = .ok (d', b)) :
    (d' = d ∧ b.lineage = none ∨ ∃ l d₁ next old new bh ah, c.oldPath s = .ok old ∧ c.newPath s old = .ok new ∧
      History.openLineage s l d = .ok (d₁, next) ∧
      contentHash s operation c (c.beforeFields s) .before (c.beforeBody.getD (.content c.id)) = .ok bh ∧
      contentHash s operation c c.after .after (c.body.getD (.content c.id)) = .ok ah ∧
      (d' = d₁ ∧ b.lineage = none ∨
        planVersions s policy operation origin now c l next old new bh ah d₁ = .ok (d', b))) := by
  unfold planChange at h
  obtain ⟨-, h⟩ | ⟨-, h⟩ := ite_eq_iff.mp h
  · cases h
    exact .inl ⟨rfl, rfl⟩
  obtain ⟨old, hold, h⟩ := bind_eq_ok h
  obtain ⟨new, hnew, h⟩ := bind_eq_ok h
  obtain ⟨-, h⟩ | ⟨-, h⟩ := ite_eq_iff.mp h
  · cases h
    exact .inl ⟨rfl, rfl⟩
  obtain ⟨⟨d₁, next⟩, hopen, h⟩ := bind_eq_ok h
  obtain ⟨bh, hbh, h⟩ := bind_eq_ok h
  obtain ⟨ah, hah, h⟩ := bind_eq_ok h
  refine .inr ⟨_, d₁, next, old, new, bh, ah, hold, hnew, hopen, hbh, hah, ?_⟩
  obtain ⟨-, h⟩ | ⟨-, h⟩ := ite_eq_iff.mp h
  · cases h
    exact .inl ⟨rfl, rfl⟩
  · exact .inr h

theorem Drafted.planVersions (hd : Drafted s used d) (hl : l ∈ d.files.map Prod.fst)
    (hnew : ∀ x, ¬ used ⟨operation, c.id, x⟩)
    (h : planVersions s policy operation origin now c l next old new bh ah d = .ok (d', b)) :
    Drafted s (fun id => used id ∨ id.operation = operation ∧ id.inode = c.id) d' := by
  obtain ⟨d₁, record, hbase, hout, -⟩ := planVersions_ok h
  have h₁ : Drafted s (fun id => used id ∨ id = ⟨operation, c.id, .b⟩) d₁ ∧
      l ∈ d₁.files.map Prod.fst := by
    obtain rfl | ⟨before, out, -, -, hbase⟩ := hbase
    · exact ⟨hd.mono fun _ => .inl, hl⟩
    · obtain ⟨hd₁, hkeys⟩ := hd.snapshot (a := c.baseline l old bh before) hl (hnew _) hbase
      exact ⟨hd₁, hkeys l hl⟩
  have hfresh : ¬ (used ⟨operation, c.id, (c.outcome s l old new bh ah).suffix⟩ ∨
      (⟨operation, c.id, (c.outcome s l old new bh ah).suffix⟩ : RecordId) = ⟨operation, c.id, .b⟩) := by
    rw [Change.outcome_suffix]
    rintro (hu | he)
    · exact hnew _ hu
    · cases he
  obtain ⟨hd', -⟩ := h₁.1.snapshot (by rw [Change.outcome_lineage]; exact h₁.2) hfresh hout
  refine hd'.mono fun id hid => ?_
  obtain (hid | rfl) | rfl := hid
  · exact .inl hid
  · exact .inr ⟨rfl, rfl⟩
  · exact .inr ⟨rfl, rfl⟩

theorem Drafted.planChange (hd : Drafted s used d) (hnew : ∀ x, ¬ used ⟨operation, c.id, x⟩)
    (h : planChange s policy operation origin now d c = .ok (d', b)) :
    Drafted s (fun id => used id ∨ id.operation = operation ∧ id.inode = c.id) d' := by
  obtain ⟨rfl, -⟩ | ⟨l, d₁, next, old, new, bh, ah, -, -, hopen, -, -, hplan⟩ := planChange_ok h
  · exact hd.mono fun _ => .inl
  obtain ⟨hd₁, hl, -⟩ := hd.openLineage hopen
  obtain ⟨rfl, -⟩ | hplan := hplan
  · exact hd₁.mono fun _ => .inl
  · exact hd₁.planVersions hl hnew hplan

/-- **What the loop over the changes drafts.** Changes of distinct inodes draft records with
distinct identities. -/
theorem Drafted.planChanges {cs : List Change} {bound : List Bound} (hd : Drafted s used d)
    (hcs : (cs.map (·.id)).Nodup) (hnew : ∀ c ∈ cs, ∀ x, ¬ used ⟨operation, c.id, x⟩)
    (h : planChanges s policy operation origin now cs d = .ok (d', bound)) :
    Drafted s (fun id => used id ∨ id.operation = operation ∧ id.inode ∈ cs.map (·.id)) d' := by
  induction cs generalizing d used bound with
  | nil =>
    cases h
    exact hd.mono fun _ => .inl
  | cons c cs ih =>
    rw [History.planChanges] at h
    obtain ⟨⟨d₁, b⟩, hc, h⟩ := bind_eq_ok h
    obtain ⟨⟨d₂, bs⟩, hcs', h⟩ := bind_eq_ok h
    cases h
    rw [map_cons, nodup_cons] at hcs
    have hd₁ := hd.planChange (hnew c mem_cons_self) hc
    refine (ih hd₁ hcs.2 (fun c' hc' x => ?_) hcs').mono fun id hid => ?_
    · rintro (hu | ⟨-, he⟩)
      · exact hnew c' (mem_cons_of_mem _ hc') x hu
      · refine hcs.1 ?_
        change c'.id = c.id at he
        rw [← he]
        exact mem_map_of_mem hc'
    · obtain (hu | ⟨ho, hi⟩) | ⟨ho, hi⟩ := hid
      · exact .inl hu
      · exact .inr ⟨ho, by rw [hi]; exact mem_cons_self⟩
      · exact .inr ⟨ho, mem_cons_of_mem _ hi⟩

end Drafted

/-! ## Numbering -/

/-- The records a ledger has numbered. -/
def Ledger.records (g : Ledger) : List Record := g.plans.map (·.record)

/-- The state of lineage `l`. -/
def Ledger.file (g : Ledger) (l : LineageId) : FileState :=
  ((g.files.find? fun e => e.1 = l).map Prod.snd).getD ⟨0, none, none, none⟩

/-- The next numbers for a planned record. -/
def Ledger.number (g : Ledger) (p : Plan) : Record :=
  { p.record with version := (g.file p.record.fileId).next + 1, sequence := g.sequence + 1 }

/-- A record is kept as the blob it shares is. -/
def Record.sharing (r : Record) : Option BlobState → Record
  | some b => { r with contentRef := some b.ref }
  | none => r

/-- A lineage with one planned record more. -/
def FileState.push (f : FileState) (r : Record) : FileState :=
  { f with
    next := f.next + 1
    head := some r.id
    recoverable := if !r.deleted ∧ !r.metadataOnly then some r.id else f.recoverable }

/-- The blob is new and nobody supplies its bytes yet. -/
def BlobState.unsupplied (b : BlobState) : Bool := b.new && b.plan.isNone

/-- The blobs after a plan has taken its share. -/
def sharedBlobs (blobs : List BlobState) (plan : Plan) : Option BlobState → List BlobState
  | none => blobs
  | some b => setBlob blobs
      { b with count := b.count + 1, plan := if b.unsupplied then some plan else b.plan }

/-- The blobs after a record has given up its share. -/
def releasedBlobs (blobs : List BlobState) : Option BlobState → List BlobState
  | none => blobs
  | some b => setBlob blobs { b with count := b.count - 1 }

section Numbered

variable {h : HistoryKeys} {rs : List Record} {g g' : Ledger} {p : Plan}

/-- What `numberPlan` has done when it returns. -/
structure NumberedPlan (h : HistoryKeys) (g : Ledger) (p : Plan) (g' : Ledger)
    (blob : Option BlobState) : Prop where
  free : h.records p.record.id = none
  share : blobState h g.blobs (g.number p) = .ok blob
  files : g'.files = (p.record.fileId, (g.file p.record.fileId).push p.record) ::
    g.files.filter fun e => e.1 ≠ p.record.fileId
  plans : g'.plans = g.plans ++ [{ p with record := (g.number p).sharing blob }]
  blobs : g'.blobs = sharedBlobs g.blobs { p with record := (g.number p).sharing blob } blob
  sequence : g'.sequence = g.sequence + 1
  added : g'.added = g.added + p.bytes
  physical : g'.physical =
    if blob.any BlobState.unsupplied then g.physical + p.record.size else g.physical

theorem numberPlan_ok (hn : numberPlan h g p = .ok g') : ∃ blob, NumberedPlan h g p g' blob := by
  unfold numberPlan at hn
  obtain ⟨hid, hn⟩ := of_ite_eq_ok hn
  have hnone : h.records p.record.id = none := by simpa using (not_or.mp hid).1
  obtain ⟨blob, hblob, hn⟩ := bind_eq_ok hn
  refine ⟨blob, ?_⟩
  cases blob with
  | none =>
    cases hn
    exact ⟨hnone, hblob, rfl, rfl, rfl, rfl, rfl, rfl⟩
  | some b =>
    obtain ⟨-, hn⟩ := of_ite_eq_ok hn
    · cases hn
      exact ⟨hnone, hblob, rfl, rfl, rfl, rfl, rfl, rfl⟩

/-- A lineage's state while numbering says what its hash will be. -/
structure Agrees (e : FileEntry) (ls : List Record) (f : FileState) : Prop where
  next : f.next = (ls.foldl FileEntry.push e).next
  head : (f.head <|> e.head) = (ls.foldl FileEntry.push e).head
  recoverable : (f.recoverable <|> e.recoverable) = (ls.foldl FileEntry.push e).recoverable

theorem Agrees.push {e : FileEntry} {ls : List Record} (ha : Agrees e ls f) {r r₀ : Record}
    (hid : r.id = r₀.id) (hdel : r.deleted = r₀.deleted)
    (hmeta : r.metadataOnly = r₀.metadataOnly) (hver : r.version = f.next + 1) :
    Agrees e (ls ++ [r]) (f.push r₀) := by
  refine ⟨?_, ?_, ?_⟩
  · simp [FileState.push, FileEntry.push, hver]
  · simp [FileState.push, FileEntry.push, hid]
  · have hrec := ha.recoverable
    rw [foldl_append]
    by_cases hr : !r₀.deleted ∧ !r₀.metadataOnly
    · have hr' : !r.deleted ∧ !r.metadataOnly := by rwa [hdel, hmeta]
      simp [FileState.push, FileEntry.push, hr, hr', hid]
    · have hr' : ¬ (!r.deleted ∧ !r.metadataOnly) := by rwa [hdel, hmeta]
      simpa only [FileState.push, FileEntry.push, if_neg hr, if_neg hr', foldl_cons,
        foldl_nil] using hrec

/-- What the loop over the drafts has numbered so far. -/
structure Numbered (h : HistoryKeys) (rs : List Record) (g : Ledger) : Prop where
  earlier : (rs ++ g.records).Pairwise Earlier
  sequences : ∀ r ∈ rs ++ g.records, 1 ≤ r.sequence ∧ r.sequence ≤ g.sequence
  later : ∀ r ∈ g.records, h.sequence.getD 0 < r.sequence ∧ (entry h r.fileId).next < r.version
  base : h.sequence.getD 0 ≤ g.sequence
  files : ∀ e ∈ g.files, Agrees (entry h e.1) (lineage g.records e.1) e.2
  keys : (g.files.map Prod.fst).Nodup
  opened : ∀ r ∈ g.records, r.fileId ∈ g.files.map Prod.fst
  added : g.added = (g.records.map Record.bytes).sum
  sizes : ∀ r ∈ g.records, 0 ≤ r.size ∧ r.size < counterLimit

theorem sharing_eq (r : Record) (blob : Option BlobState) :
    ∃ ref, r.sharing blob = { r with contentRef := ref } := by
  cases blob with
  | none => exact ⟨r.contentRef, rfl⟩
  | some b => exact ⟨some b.ref, rfl⟩

theorem Ledger.file_mem {l : LineageId} (hl : l ∈ g.files.map Prod.fst) : (l, g.file l) ∈ g.files :=
  Draft.file_mem (d := ⟨g.files, []⟩) hl

/-- The lineage of a numbered record: its versions are not beyond the planned counter. -/
theorem Numbered.version_le (hg : Numbered h rs g) (hpoints : ∀ l, Points (entry h l) (lineage rs l))
    {l : LineageId} (hl : l ∈ g.files.map Prod.fst) {r : Record} (hr : r ∈ rs ++ g.records)
    (hrl : r.fileId = l) : r.version ≤ (g.file l).next := by
  have hp := (hpoints l).pushAll (lineage g.records l)
  rw [← lineage_append] at hp
  rw [(hg.files _ (Ledger.file_mem hl)).next]
  refine hp.version_le (l := l) (hg.earlier.filter _) (fun r => lineage_fileId) ?_
  subst hrl
  exact mem_lineage hr

/-- Counters of lineages only grow. -/
theorem Numbered.next_le (hg : Numbered h rs g) (l : LineageId) :
    (entry h l).next ≤ ((lineage g.records l).foldl FileEntry.push (entry h l)).next :=
  next_le_foldl_push fun r hr => (hg.later r hr).2

/-- One plan is numbered. -/
theorem Numbered.step {s : Store} (hg : Numbered h rs g) (hj : Journal h rs)
    (hpoints : ∀ l, Points (entry h l) (lineage rs l)) (hp : p.Sound s)
    (hl : p.record.fileId ∈ g.files.map Prod.fst) (hid : p.record.id ∉ g.records.map (·.id))
    (hn : numberPlan h g p = .ok g') : Numbered h rs g' := by
  obtain ⟨blob, hok⟩ := numberPlan_ok hn
  obtain ⟨ref, href⟩ := sharing_eq (g.number p) blob
  have hrecords : g'.records = g.records ++ [{ g.number p with contentRef := ref }] := by
    rw [Ledger.records, hok.plans, map_append, Ledger.records, ← href]
    rfl
  have hbytes : p.record.bytes = Record.bytes { g.number p with contentRef := ref } := rfl
  have hbefore : ∀ r ∈ rs ++ g.records, Earlier r { g.number p with contentRef := ref } := by
    intro r hr
    refine ⟨?_, Nat.lt_succ_of_le (hg.sequences r hr).2, fun hrl => ?_⟩
    · rcases mem_append.mp hr with hr | hr
      · intro he
        have hsome := hj.record_iff.mpr ⟨hr, rfl⟩
        rw [he] at hsome
        exact absurd (hok.free.symm.trans hsome) (by simp)
      · intro he
        exact hid (he ▸ mem_map_of_mem hr)
    · exact Nat.lt_succ_of_le (hg.version_le hpoints hl hr hrl)
  -- Every field is a statement about the numbered records and one more.
  have hall : ∀ {P : Record → Prop} {l : List Record}, (∀ r ∈ l, P r) →
      P { g.number p with contentRef := ref } → ∀ r ∈ l ++ [{ g.number p with contentRef := ref }], P r :=
    fun hl hnew r hr => by
      rcases mem_append.mp hr with hr | hr
      · exact hl r hr
      · rwa [mem_singleton.mp hr]
  constructor
  · rw [hrecords, ← append_assoc, pairwise_append]
    refine ⟨hg.earlier, pairwise_singleton _ _, fun a ha b hb => ?_⟩
    rw [mem_singleton.mp hb]
    exact hbefore a ha
  · rw [hrecords, ← append_assoc, hok.sequence]
    exact hall (fun r hr => ⟨(hg.sequences r hr).1, Nat.le_succ_of_le (hg.sequences r hr).2⟩)
      ⟨Nat.succ_pos _, le_rfl⟩
  · rw [hrecords]
    refine hall hg.later ⟨Nat.lt_succ_of_le hg.base, Nat.lt_succ_of_le ?_⟩
    rw [(hg.files _ (Ledger.file_mem hl)).next]
    exact hg.next_le p.record.fileId
  · rw [hok.sequence]
    exact Nat.le_succ_of_le hg.base
  · rw [hrecords, hok.files]
    intro e he
    rw [lineage_append]
    rcases mem_cons.mp he with rfl | he
    · have hsingle : lineage [{ g.number p with contentRef := ref }] p.record.fileId =
          [{ g.number p with contentRef := ref }] :=
        filter_eq_self.mpr fun r hr => by
          rw [mem_singleton.mp hr]
          exact decide_eq_true rfl
      rw [hsingle]
      exact (hg.files _ (Ledger.file_mem hl)).push rfl rfl rfl rfl
    · obtain ⟨he, hne⟩ := mem_filter.mp he
      have hnil : lineage [{ g.number p with contentRef := ref }] e.1 = [] :=
        filter_eq_nil_iff.mpr fun r hr hd => by
          rw [mem_singleton.mp hr] at hd
          exact of_decide_eq_true hne (of_decide_eq_true hd).symm
      rw [hnil, append_nil]
      exact hg.files e he
  · rw [hok.files]
    exact nodup_keys_setFile (d := ⟨g.files, []⟩) hg.keys
  · rw [hrecords, hok.files]
    exact hall (fun r hr => mem_keys_setFile (d := ⟨g.files, []⟩) _ (hg.opened r hr))
      mem_cons_self
  · rw [hrecords, hok.added, map_append, sum_append, ← hg.added, map_singleton,
      sum_singleton, ← hbytes, ← hp.bytes]
  · rw [hrecords]
    exact hall hg.sizes hp.size

end Numbered

/-! ## Counting blobs -/

/-- What the counts of blobs say while records `ns` are planned and records `out` are given up:
a blob is counted for the records that will name it, and a new one has its bytes supplied. -/
structure Shares (s : Store) (rs ns out : List Record) (blobs : List BlobState) : Prop where
  keys : (blobs.map (·.id)).Nodup
  count : ∀ b ∈ blobs, b.count + naming out b.id = naming rs b.id + naming ns b.id
  listed : ∀ r ∈ ns ++ out, ∀ id, r.blobId = some id → id ∈ blobs.map (·.id)
  fresh : ∀ b ∈ blobs, b.new = true ↔ naming rs b.id = 0
  known : ∀ b ∈ blobs, b.new = false → s.history.blobmeta b.id = some ⟨b.size, b.ref⟩
  sizes : ∀ b ∈ blobs, ∀ r ∈ ns, r.blobId = some b.id → r.size = b.size
  supply : ∀ b ∈ blobs, b.new = true → naming ns b.id ≠ 0 ∧
    ∃ p body, b.plan = some p ∧ p.supply s = some body ∧ BlobMeta.Fits ⟨b.size, b.ref⟩ body

variable {blob : Option BlobState} {b' : BlobState}

section Shares

variable {s : Store} {rs ns out : List Record} {blobs : List BlobState} {r : Record} {id : Bytes}

theorem Shares.nil (s : Store) (rs : List Record) : Shares s rs [] [] [] :=
  ⟨by simp, by simp, by simp, by simp, by simp, by simp, by simp⟩

theorem naming_append (rs ns : List Record) (b : Bytes) :
    naming (rs ++ ns) b = naming rs b + naming ns b := countP_append ..

theorem naming_single (r : Record) (b : Bytes) :
    naming [r] b = if r.blobId = some b then 1 else 0 := by
  rw [naming, countP_singleton]
  simp

/-- What `blobState` finds: the planned state of the record's blob, or what is stored of it. -/
inductive Found (h : HistoryKeys) (rs : List Record) (blobs : List BlobState) (r : Record) :
    Option BlobState → Prop
  | none (hr : r.blobId = none) : Found h rs blobs r none
  | planned (b : BlobState) (hr : r.blobId = some b.id) (hb : b ∈ blobs) (hsize : b.size = r.size) :
      Found h rs blobs r (some b)
  | stored (b : BlobState) (hr : r.blobId = some b.id) (hb : b.id ∉ blobs.map (·.id))
      (hsize : b.size = r.size) (hplan : b.plan = none) (hcount : b.count = naming rs b.id)
      (hnew : b.new = true ↔ naming rs b.id = 0) (href : b.new = true → b.ref = r.contentRef.getD .ext)
      (hmeta : b.new = false → h.blobmeta b.id = some ⟨b.size, b.ref⟩) : Found h rs blobs r (some b)

theorem blobState_found {h : HistoryKeys} (ha : Accounts h rs)
    (hb : blobState h blobs r = .ok blob) : Found h rs blobs r blob := by
  unfold blobState at hb
  split at hb
  · next hr =>
    cases hb
    exact .none hr
  next id hr =>
  split at hb
  · next b hfind =>
    have hid : b.id = id := by simpa using List.find?_some hfind
    split at hb
    · cases hb
    · next hsize =>
      cases hb
      exact .planned b (hid ▸ hr) (mem_of_find?_eq_some hfind) (not_not.mp hsize)
  next hfind =>
  have hnot : id ∉ blobs.map (·.id) := by
    intro hmem
    obtain ⟨b, hb', rfl⟩ := mem_map.mp hmem
    exact List.find?_eq_none.mp hfind b hb' (decide_eq_true rfl)
  have hrefs := ha.refs id
  split at hb
  · next hnone _ _ =>
    cases hb
    have hzero : naming rs id = 0 := by
      by_contra hne
      rw [hnone, if_neg hne] at hrefs
      cases hrefs
    exact .stored _ hr hnot rfl rfl (by simp [hzero]) (by simp [hzero]) (fun _ => rfl) (by simp)
  · next count m body hcount hm hbody =>
    have hne : naming rs id ≠ 0 := by
      intro hz
      rw [(ha.absent id hz).1] at hm
      cases hm
    have hcnt : count = naming rs id := by
      rw [hcount, if_neg hne] at hrefs
      exact Option.some.inj hrefs
    have hstored : m.size = r.size →
        Found h rs blobs r (some ⟨id, count, r.size, m.ref, false, none⟩) := fun hsize =>
      .stored _ hr hnot rfl rfl (by simp [hcnt]) (by simp [hne]) (by simp) (fun _ => by
        rw [hm, ← hsize])
    split at hb
    · cases hb
    split at hb
    · cases hb
    next hsize =>
    split at hb
    · split at hb
      · cases hb
        exact hstored (not_not.mp hsize)
      · cases hb
    · cases hb
      exact hstored (not_not.mp hsize)
    · cases hb
  · cases hb

section

variable (hs : Shares s rs ns out blobs)

include hs

/-- One more record that names no blob. -/
theorem Shares.skip (hr : r.blobId = none) : Shares s rs (ns ++ [r]) out blobs := by
  have hname : ∀ id, naming (ns ++ [r]) id = naming ns id := fun id => by
    rw [naming_append, naming_single, if_neg (by simp [hr]), add_zero]
  have hmem : ∀ r' ∈ ns ++ [r], ∀ id, r'.blobId = some id → r' ∈ ns := fun r' hr' id hid => by
    rcases mem_append.mp hr' with hr' | hr'
    · exact hr'
    · rw [mem_singleton.mp hr', hr] at hid
      cases hid
  refine ⟨hs.keys, fun b hb => by rw [hname]; exact hs.count b hb, fun r' hr' id hid => ?_, hs.fresh,
    hs.known, fun b hb r' hr' hid => hs.sizes b hb r' (hmem r' hr' _ hid) hid,
    fun b hb hnew => by rw [hname]; exact hs.supply b hb hnew⟩
  rcases mem_append.mp hr' with hr' | hr'
  · exact hs.listed r' (mem_append_left _ (hmem r' hr' id hid)) id hid
  · exact hs.listed r' (mem_append_right _ hr') id hid

/-- The state of one blob changes with the records that name it. -/
theorem Shares.put {ns' out' : List Record} (hns : ∀ id, id ≠ b'.id → naming ns' id = naming ns id)
    (hout : ∀ id, id ≠ b'.id → naming out' id = naming out id)
    (hnsmem : ∀ r ∈ ns', r ∈ ns ∨ r.blobId = some b'.id)
    (houtmem : ∀ r ∈ out', r ∈ out ∨ r.blobId = some b'.id)
    (hcount : b'.count + naming out' b'.id = naming rs b'.id + naming ns' b'.id)
    (hfresh : b'.new = true ↔ naming rs b'.id = 0)
    (hknown : b'.new = false → s.history.blobmeta b'.id = some ⟨b'.size, b'.ref⟩)
    (hsizes : ∀ r ∈ ns', r.blobId = some b'.id → r.size = b'.size)
    (hsupply : b'.new = true → naming ns' b'.id ≠ 0 ∧
      ∃ p body, b'.plan = some p ∧ p.supply s = some body ∧ BlobMeta.Fits ⟨b'.size, b'.ref⟩ body) :
    Shares s rs ns' out' (setBlob blobs b') := by
  have hcases : ∀ b ∈ setBlob blobs b', b = b' ∨ b ∈ blobs ∧ b.id ≠ b'.id := fun b hb => by
    rcases mem_cons.mp hb with rfl | hb
    · exact .inl rfl
    · exact .inr ⟨mem_of_mem_filter hb, of_decide_eq_true (mem_filter.mp hb).2⟩
  refine ⟨?_, fun b hb => ?_, fun r hr id hid => ?_, fun b hb => ?_, fun b hb => ?_,
    fun b hb r hr hid => ?_, fun b hb hnew => ?_⟩
  · rw [setBlob, map_cons, nodup_cons]
    refine ⟨fun hmem => ?_, nodup_filter hs.keys _⟩
    obtain ⟨b, hb, hid⟩ := mem_map.mp hmem
    exact of_decide_eq_true (mem_filter.mp hb).2 hid
  · obtain rfl | ⟨hb, hne⟩ := hcases b hb
    · exact hcount
    · rw [hout _ hne, hns _ hne]
      exact hs.count b hb
  · by_cases hne : id = b'.id
    · subst hne
      exact mem_map_of_mem (f := BlobState.id) mem_cons_self
    · have hmem : r ∈ ns ++ out := by
        have hne' : r.blobId ≠ some b'.id := fun he => hne (Option.some.inj (hid.symm.trans he))
        rcases mem_append.mp hr with hr | hr
        · exact mem_append_left _ ((hnsmem r hr).resolve_right hne')
        · exact mem_append_right _ ((houtmem r hr).resolve_right hne')
      obtain ⟨b, hb, rfl⟩ := mem_map.mp (hs.listed r hmem id hid)
      exact mem_map_of_mem
        (mem_cons_of_mem _ (mem_filter.mpr ⟨hb, decide_eq_true hne⟩))
  · obtain rfl | ⟨hb, -⟩ := hcases b hb
    · exact hfresh
    · exact hs.fresh b hb
  · obtain rfl | ⟨hb, -⟩ := hcases b hb
    · exact hknown
    · exact hs.known b hb
  · obtain rfl | ⟨hb, hne⟩ := hcases b hb
    · exact hsizes r hr hid
    · have hne' : r.blobId ≠ some b'.id := fun he => hne (Option.some.inj (hid.symm.trans he))
      exact hs.sizes b hb r ((hnsmem r hr).resolve_right hne') hid
  · obtain rfl | ⟨hb, hne⟩ := hcases b hb
    · exact hsupply hnew
    · rw [hns _ hne]
      exact hs.supply b hb hnew

omit hs in
theorem naming_eq_zero (h : ∀ r ∈ rs, r.blobId ≠ some id) : naming rs id = 0 :=
  countP_eq_zero.mpr fun r hr => by simpa using h r hr

/-- A blob that is not in the ledger is named by no record of it. -/
theorem Shares.unlisted (hid : id ∉ blobs.map (·.id)) : naming ns id = 0 ∧ naming out id = 0 :=
  ⟨naming_eq_zero fun r hr he => hid (hs.listed r (mem_append_left _ hr) id he),
    naming_eq_zero fun r hr he => hid (hs.listed r (mem_append_right _ hr) id he)⟩

omit hs in
theorem naming_snoc (hr : r.blobId = some id) : naming (rs ++ [r]) id = naming rs id + 1 := by
  rw [naming_append, naming_single, if_pos hr]

omit hs in
theorem naming_snoc_ne (hr : r.blobId ≠ some id) : naming (rs ++ [r]) id = naming rs id := by
  rw [naming_append, naming_single, if_neg hr, add_zero]

omit hs in
theorem mem_snoc_or (hr : r.blobId = some id) : ∀ r' ∈ rs ++ [r], r' ∈ rs ∨ r'.blobId = some id :=
  fun r' hr' => by
    rcases mem_append.mp hr' with hr' | hr'
    · exact .inl hr'
    · rw [mem_singleton.mp hr']
      exact .inr hr

/-- **A numbered plan takes its share.** -/
theorem Shares.share {p : Plan}
    (hr : Found s.history rs blobs r blob) (hp : p.Sound s) (hid : r.blobId = p.record.blobId)
    (hsize : r.size = p.record.size) (href : r.contentRef = p.record.contentRef) :
    Shares s rs (ns ++ [r.sharing blob]) out
      (sharedBlobs blobs { p with record := r.sharing blob } blob) := by
  cases hr with
  | none hr => exact hs.skip hr
  | planned b hr hb hbsize =>
    have hr' : (r.sharing (some b)).blobId = some b.id := hr
    refine hs.put (fun id hne => naming_snoc_ne fun he => hne (Option.some.inj (he.symm.trans hr')))
      (fun _ _ => rfl) (mem_snoc_or hr') (fun _ h => .inl h) ?_
      (hs.fresh b hb) (hs.known b hb) (fun r₁ hr₁ hid₁ => ?_) fun hnew => ?_
    · have hcount := hs.count b hb
      rw [naming_snoc hr']
      push_cast
      omega
    · rcases mem_append.mp hr₁ with hr₁ | hr₁
      · exact hs.sizes b hb r₁ hr₁ hid₁
      · rw [mem_singleton.mp hr₁]
        exact hbsize.symm
    · obtain ⟨-, p', body, hplan, hsupply⟩ := hs.supply b hb hnew
      refine ⟨by rw [naming_snoc hr']; exact Nat.succ_ne_zero _, p', body, ?_, hsupply⟩
      simp [BlobState.unsupplied, hplan]
  | stored b hr hb hbsize hplan hcount hnew hbref hmeta =>
    have hr' : (r.sharing (some b)).blobId = some b.id := hr
    obtain ⟨hns, hout⟩ := hs.unlisted hb
    refine hs.put (fun id hne => naming_snoc_ne fun he => hne (Option.some.inj (he.symm.trans hr')))
      (fun _ _ => rfl) (mem_snoc_or hr') (fun _ h => .inl h) ?_
      hnew hmeta (fun r₁ hr₁ hid₁ => ?_) fun hnew => ?_
    · dsimp only
      rw [naming_snoc hr', hns, hout, hcount]
      rfl
    · rcases mem_append.mp hr₁ with hr₁ | hr₁
      · exact absurd (hs.listed r₁ (mem_append_left _ hr₁) _ hid₁) hb
      · rw [mem_singleton.mp hr₁]
        exact hbsize.symm
    · obtain ⟨body, hbody, hfits⟩ := hp.supply (by rw [← hid, hr]; simp)
      refine ⟨by rw [naming_snoc hr']; exact Nat.succ_ne_zero _,
        { p with record := r.sharing (some b) }, body, ?_, hbody, ?_⟩
      · have hnew' : b.new = true := hnew
        simp [BlobState.unsupplied, hplan, hnew']
      · rw [hbsize, hbref hnew, hsize, href]
        exact hfits

/-- **A record that is given up leaves its share.** -/
theorem Shares.leave (hr : Found s.history rs blobs r blob)
    (hmem : r ∈ rs) : Shares s rs ns (out ++ [r]) (releasedBlobs blobs blob) := by
  cases hr with
  | none hr =>
    refine { hs with count := fun b hb => ?_, listed := fun r' hr' id hid => ?_ }
    · rw [naming_snoc_ne (by simp [hr])]
      exact hs.count b hb
    · rw [← append_assoc] at hr'
      rcases mem_append.mp hr' with hr' | hr'
      · exact hs.listed r' hr' id hid
      · rw [mem_singleton.mp hr', hr] at hid
        cases hid
  | planned b hr hb hbsize =>
    refine hs.put (fun _ _ => rfl)
      (fun id hne => naming_snoc_ne fun he => hne (Option.some.inj (he.symm.trans hr)))
      (fun _ h => .inl h) (mem_snoc_or hr) ?_ (hs.fresh b hb) (hs.known b hb) (hs.sizes b hb)
      (hs.supply b hb)
    have hcount := hs.count b hb
    rw [naming_snoc hr]
    push_cast
    omega
  | stored b hr hb hbsize hplan hcount hnew hbref hmeta =>
    have hrs : naming rs b.id ≠ 0 := fun hz =>
      absurd (decide_eq_true hr) (countP_eq_zero.mp hz r hmem)
    obtain ⟨hns, hzero⟩ := hs.unlisted hb
    refine hs.put (fun _ _ => rfl)
      (fun id hne => naming_snoc_ne fun he => hne (Option.some.inj (he.symm.trans hr)))
      (fun _ h => .inl h) (mem_snoc_or hr) ?_ hnew hmeta (fun r' hr' hid' => ?_)
      fun hnew' => absurd (hnew.mp hnew') hrs
    · dsimp only
      rw [naming_snoc hr, hzero, hns, hcount]
      push_cast
      omega
    · exact absurd (hs.listed r' (mem_append_left _ hr') _ hid') hb

end

/-- The bytes a blob adds to what is stored. -/
def BlobState.gained (b : BlobState) : ℤ := if b.new then b.size else 0

theorem sum_setBlob {b : BlobState} (hk : (blobs.map (·.id)).Nodup) (hb : b ∈ blobs)
    (hid : b'.id = b.id) (f : BlobState → ℤ) :
    ((setBlob blobs b').map f).sum = (blobs.map f).sum - f b + f b' := by
  have hperm := perm_append_dropKeys (k := BlobState.id) (d := [b]) hk (by simp) (by simpa using hb)
  have hdrop : dropKeys BlobState.id [b] blobs = blobs.filter (·.id ≠ b'.id) := by
    rw [dropKeys_cons, dropKeys_nil, hid]
  have hsum := (hperm.map f).sum_eq
  rw [hdrop, singleton_append, map_cons, sum_cons] at hsum
  rw [setBlob, map_cons, sum_cons, ← hsum]
  omega

theorem sum_setBlob_of_notMem (hb : b'.id ∉ blobs.map (·.id)) (f : BlobState → ℤ) :
    ((setBlob blobs b').map f).sum = (blobs.map f).sum + f b' := by
  have hself : blobs.filter (·.id ≠ b'.id) = blobs := filter_eq_self.mpr fun b hb' =>
    decide_eq_true fun he => hb (he ▸ mem_map_of_mem hb')
  rw [setBlob, hself, map_cons, sum_cons, add_comm]

/-- What the loop over the drafts has planned so far. -/
structure Planned (s : Store) (rs : List Record) (g : Ledger) : Prop where
  numbered : Numbered s.history rs g
  shares : Shares s rs g.records [] g.blobs
  physical : g.physical = s.history.physicalBytes.getD 0 + (g.blobs.map BlobState.gained).sum

theorem Planned.step {g g' : Ledger} {p : Plan} (hg : Planned s rs g) (hrep : Represents s.history rs)
    (hp : p.Sound s) (hl : p.record.fileId ∈ g.files.map Prod.fst)
    (hid : p.record.id ∉ g.records.map (·.id)) (hn : numberPlan s.history g p = .ok g') :
    Planned s rs g' := by
  obtain ⟨blob, hok⟩ := numberPlan_ok hn
  have hfound := blobState_found hrep.accounts hok.share
  have hrecords : g'.records = g.records ++ [(g.number p).sharing blob] := by
    rw [Ledger.records, hok.plans, map_append]
    rfl
  refine ⟨hg.numbered.step hrep.journal hrep.points hp hl hid hn, ?_, ?_⟩
  · rw [hrecords, hok.blobs]
    exact hg.shares.share hfound hp rfl rfl rfl
  · rw [hok.physical, hok.blobs, hg.physical]
    cases hfound with
    | none => rfl
    | planned b hr hb hbsize =>
      -- The blob is in the ledger already: if it is new, somebody supplies its bytes.
      have hsupplied : b.unsupplied = false := by
        rw [BlobState.unsupplied]
        cases hnew : b.new with
        | false => rfl
        | true =>
          obtain ⟨-, p', -, hplan, -⟩ := hg.shares.supply b hb hnew
          rw [hplan]
          rfl
      rw [Option.any_some, hsupplied, sharedBlobs, sum_setBlob hg.shares.keys hb ?_]
      · simp [BlobState.gained]
      · rfl
    | stored b hr hb hbsize hplan hcount hnew hbref hmeta =>
      have huns : b.unsupplied = b.new := by rw [BlobState.unsupplied, hplan]; simp
      rw [Option.any_some, huns, sharedBlobs, sum_setBlob_of_notMem ?_]
      · cases hb' : b.new with
        | false => simp [BlobState.gained]
        | true =>
          simp only [BlobState.gained, if_true, hbsize, Ledger.number]
          omega
      · exact hb

/-- **What the loop over the drafts plans.** -/
theorem Planned.run {ps : List Plan} {g g' : Ledger} (hg : Planned s rs g)
    (hrep : Represents s.history rs) (hps : ∀ p ∈ ps, p.Sound s)
    (hl : ∀ p ∈ ps, p.record.fileId ∈ g.files.map Prod.fst)
    (hids : (g.records.map (·.id) ++ ps.map (·.record.id)).Nodup)
    (hn : numberPlans s.history ps g = .ok g') : Planned s rs g' := by
  induction ps generalizing g with
  | nil =>
    cases hn
    exact hg
  | cons p ps ih =>
    rw [numberPlans] at hn
    obtain ⟨g₁, h₁, hn⟩ := bind_eq_ok hn
    obtain ⟨blob, hok⟩ := numberPlan_ok h₁
    have hp := hps p mem_cons_self
    have hpl := hl p mem_cons_self
    have hnot : p.record.id ∉ g.records.map (·.id) := fun hmem =>
      (nodup_append.mp hids).2.2 _ hmem _ mem_cons_self rfl
    have hrecords : g₁.records.map (·.id) = g.records.map (·.id) ++ [p.record.id] := by
      obtain ⟨ref, href⟩ := sharing_eq (g.number p) blob
      rw [Ledger.records, hok.plans, map_append, map_append, Ledger.records]
      simp only [map_cons, map_nil, href]
      rfl
    refine ih (hg.step hrep hp hpl hnot h₁) (fun q hq => hps q (mem_cons_of_mem _ hq))
      (fun q hq => ?_) ?_ hn
    · rw [hok.files]
      exact mem_keys_setFile (d := ⟨g.files, []⟩) _ (hl q (mem_cons_of_mem _ hq))
    · rw [hrecords, append_assoc]
      exact hids

end Shares

/-! ## Making room -/

/-- The head a lineage will have. -/
def Ledger.head (g : Ledger) (h : HistoryKeys) (l : LineageId) : Option RecordId :=
  ((g.files.find? fun e => e.1 = l).map Prod.snd).bind (·.head) <|> (entry h l).head

/-- The newest recoverable version a lineage will have. -/
def Ledger.recoverable (g : Ledger) (h : HistoryKeys) (l : LineageId) : Option RecordId :=
  ((g.files.find? fun e => e.1 = l).map Prod.snd).bind (·.recoverable) <|> (entry h l).recoverable

/-- What the walk over the oldest records has given up so far. -/
structure Evicting (s : Store) (rs : List Record) (g₀ : Ledger) (bytes₀ : ℤ) (g : Ledger) (bytes : ℤ)
    (out : List Record) : Prop where
  same : g = { g₀ with blobs := g.blobs }
  shares : Shares s rs g₀.records out g.blobs
  gained : (g.blobs.map BlobState.gained).sum = (g₀.blobs.map BlobState.gained).sum
  sub : out ⊆ rs
  nodup : (out.map (·.id)).Nodup
  spared : ∀ r ∈ out, some r.id ≠ g₀.head s.history r.fileId ∧
    some r.id ≠ g₀.recoverable s.history r.fileId
  bytes : bytes = bytes₀ - (out.map Record.bytes).sum

section Evicting

variable {s : Store} {rs out out' : List Record} {g₀ g g' : Ledger} {bytes₀ bytes bytes' limit : ℤ}
  {r : Record}

/-- One record is given up. -/
theorem Evicting.step (he : Evicting s rs g₀ bytes₀ g bytes out) (hrep : Represents s.history rs)
    (hr : r ∈ rs) (hid : r.id ∉ out.map (·.id)) (hspared : some r.id ≠ g₀.head s.history r.fileId ∧
      some r.id ≠ g₀.recoverable s.history r.fileId)
    (hkind : r.type = some .file ∧ !r.deleted ∧ !r.metadataOnly)
    (hblob : blobState s.history g.blobs r = .ok blob) :
    Evicting s rs g₀ bytes₀ { g with blobs := releasedBlobs g.blobs blob } (bytes - r.size)
      (out ++ [r]) := by
  have hfound := blobState_found hrep.accounts hblob
  refine ⟨?_, he.shares.leave hfound hr, ?_, ?_, ?_, ?_, ?_⟩
  · generalize releasedBlobs g.blobs blob = blobs
    rw [he.same]
  · rw [← he.gained]
    cases hfound with
    | none => rfl
    | planned b hb' hb =>
      rw [releasedBlobs, sum_setBlob he.shares.keys hb ?_]
      · simp [BlobState.gained]
      · rfl
    | stored b hb' hb hbsize hplan hcount hnew =>
      have hold : b.new = false := by
        cases hb'' : b.new with
        | false => rfl
        | true =>
          exact absurd (decide_eq_true hb') (countP_eq_zero.mp (hnew.mp hb'') r hr)
      rw [releasedBlobs, sum_setBlob_of_notMem ?_]
      · simp [BlobState.gained, hold]
      · exact hb
  · intro r' hr'
    rcases mem_append.mp hr' with hr' | hr'
    · exact he.sub hr'
    · rwa [mem_singleton.mp hr']
  · rw [map_append, nodup_append]
    refine ⟨he.nodup, nodup_singleton _, fun x hx y hy => ?_⟩
    rw [map_singleton, mem_singleton] at hy
    rw [hy]
    rintro rfl
    exact hid hx
  · intro r' hr'
    rcases mem_append.mp hr' with hr' | hr'
    · exact he.spared r' hr'
    · rwa [mem_singleton.mp hr']
  · rw [map_append, sum_append, map_singleton, sum_singleton, Record.bytes,
      if_pos hkind, he.bytes]
    omega

/-- **What the walk gives up.** -/
theorem Evicting.run {ids : List RecordId} (he : Evicting s rs g₀ bytes₀ g bytes out)
    (hrep : Represents s.history rs) (hids : (out.map (·.id) ++ ids).Nodup)
    (h : evict s.history limit g ids bytes out = .ok (g', bytes', out')) :
    Evicting s rs g₀ bytes₀ g' bytes' out' := by
  induction ids generalizing g bytes out with
  | nil =>
    cases h
    exact he
  | cons id ids ih =>
    have hskip : (out.map (·.id) ++ ids).Nodup :=
      hids.sublist ((sublist_cons_self id ids).append_left _)
    rw [evict] at h
    split at h
    · exact ih he hskip h
    next record hrecord =>
    obtain ⟨hr, rfl⟩ := hrep.journal.record_iff.mp hrecord
    rw [if_neg (not_not.mpr rfl)] at h
    have hfiles : g.files = g₀.files := by rw [he.same]
    obtain ⟨⟨hhead, hrec, hkind⟩, h⟩ | ⟨-, h⟩ := ite_eq_iff.mp h
    · obtain ⟨-, h⟩ := of_ite_eq_ok h
      split at h
      · cases h
      next blob hblob =>
      obtain ⟨-, h⟩ := of_ite_eq_ok h
      have hnot : record.id ∉ out.map (·.id) := fun hmem =>
        (nodup_append.mp hids).2.2 _ hmem _ mem_cons_self rfl
      rw [hfiles] at hhead hrec
      have hstep := he.step hrep hr hnot ⟨hhead, hrec⟩ hkind hblob
      obtain ⟨-, h⟩ | ⟨-, h⟩ := ite_eq_iff.mp h
      · cases h
        exact hstep
      · refine ih hstep ?_ h
        rw [map_append, append_assoc]
        exact hids
    · exact ih he hskip h

/-- **What `makeRoom` gives up.** -/
theorem makeRoom_evicting (hg : Planned s rs g₀) (hrep : Represents s.history rs) {policy : Policy}
    (h : makeRoom s.history policy g₀ bytes₀ = .ok (g', bytes', out')) :
    Evicting s rs g₀ bytes₀ g' bytes' out' := by
  have hstart : Evicting s rs g₀ bytes₀ g₀ bytes₀ [] :=
    ⟨rfl, hg.shares, rfl, by simp, by simp, by simp, by simp⟩
  unfold makeRoom at h
  obtain ⟨-, h⟩ | ⟨-, h⟩ := ite_eq_iff.mp h
  · obtain ⟨⟨g₁, bytes₁, out₁⟩, hevict, h⟩ := bind_eq_ok h
    obtain ⟨-, h⟩ := of_ite_eq_ok h
    cases h
    refine hstart.run hrep ?_ hevict
    have hids : s.history.retention.map Prod.fst = rs.map (·.id) := by
      rw [hrep.journal.retention, map_map]
      rfl
    rw [map_take, hids]
    exact hrep.journal.nodup.sublist (take_sublist _ _)
  · cases h
    exact hstart

end Evicting

end Afs.History
