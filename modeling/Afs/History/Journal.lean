import Afs.Foundations.Keyed
import Afs.Foundations.Tally
import Afs.History.Retention

/-!
# The journal behind the history keys

The history keys are many ways to look at one thing: the list of the records that are kept, in the
order of their capture. This module says how the keys are read off that list. The records, the
retention index, the version lists and the timelines are `Journal`; the two pointers of a lineage
are its last record and its last recoverable one, which is `Points`; the blobs with their counts
and the byte totals are `Accounts`.
-/

namespace Afs.History

open List Function

/-! ## Records -/

/-- A version that can be brought back. -/
def Record.recoverable (r : Record) : Bool := !r.deleted && !r.metadataOnly

/-- The record is of a file or a link. -/
def Record.Leaf (r : Record) : Prop := r.type = some .file ∨ r.type = some .symlink

/-- The bytes a record counts for. -/
def Record.bytes (r : Record) : ℤ :=
  if r.type = some .file ∧ !r.deleted ∧ !r.metadataOnly then r.size else 0

/-- `r` was captured before `r'`. -/
structure Earlier (r r' : Record) : Prop where
  id : r.id ≠ r'.id
  sequence : r.sequence < r'.sequence
  version : r.fileId = r'.fileId → r.version < r'.version

/-- The records of a lineage. -/
def lineage (rs : List Record) (l : LineageId) : List Record := rs.filter fun r => r.fileId = l

/-- The number of records that name a blob. -/
def naming (rs : List Record) (b : Bytes) : ℕ := rs.countP fun r => r.blobId = some b

/-- The records an index lists. -/
def Index.lists : Index → Record → Bool
  | .fileTimeline l, r => r.fileId = l
  | .timeline p, r => r.path = p ∨ r.previousPath = some p

theorem nodup_of_earlier {rs : List Record} (h : rs.Pairwise Earlier) : (rs.map (·.id)).Nodup :=
  pairwise_map.mpr (h.imp fun h => h.id)

/-! ## The indexes -/

/-- The indexes list the records `rs`, in order. -/
structure Journal (h : HistoryKeys) (rs : List Record) : Prop where
  earlier : rs.Pairwise Earlier
  records : ∀ id, h.records id = keyed Record.id rs id
  retention : h.retention = rs.map fun r => (r.id, r.sequence)
  versions : ∀ l, h.versions l = (lineage rs l).map fun r => (r.id, r.version)
  index : ∀ i, h.index i = (rs.filter (Index.lists i)).map fun r => (r.id, r.sequence)

section Zset

variable {rs : List Record} {r : Record} {f : Record → ℕ}

theorem rem_map (id : RecordId) : ZSet.rem (rs.map fun r => (r.id, f r)) id =
      (rs.filter fun r => r.id ≠ id).map fun r => (r.id, f r) := by
  rw [ZSet.rem, filter_map]
  rfl

theorem filter_ne_of_notMem (h : r.id ∉ rs.map (·.id)) : (rs.filter fun r' => r'.id ≠ r.id) = rs := by
  refine filter_eq_self.mpr fun r' hr' => decide_eq_true ?_
  rintro he
  exact h (he ▸ mem_map_of_mem hr')

theorem add_map (h : r.id ∉ rs.map (·.id)) :
    ZSet.add (rs.map fun r => (r.id, f r)) r.id (f r) = (rs ++ [r]).map fun r => (r.id, f r) := by
  have hrem : ZSet.rem (rs.map fun r => (r.id, f r)) r.id = _ := rem_map r.id
  rw [filter_ne_of_notMem h] at hrem
  rw [ZSet.add, map_append]
  exact congrArg (· ++ _) hrem

theorem score_map (h : (rs.map (·.id)).Nodup) (hr : r ∈ rs) :
    ZSet.score (rs.map fun r => (r.id, f r)) r.id = some (f r) := by
  have hk := keyed_self h hr
  rw [keyed] at hk
  rw [ZSet.score, List.find?_map, Option.map_map]
  simp only [comp_def]
  rw [hk]
  rfl

end Zset

section Journal

variable {h : HistoryKeys} {rs : List Record} {r : Record}

theorem Journal.nodup (hj : Journal h rs) : (rs.map (·.id)).Nodup := nodup_of_earlier hj.earlier

theorem Journal.record_iff (hj : Journal h rs) {id : RecordId} :
    h.records id = some r ↔ r ∈ rs ∧ r.id = id := by
  rw [hj.records, keyed_eq_some_iff hj.nodup]

theorem filter_comm (rs : List Record) (p q : Record → Bool) :
    (rs.filter p).filter q = (rs.filter q).filter p := by
  rw [filter_filter, filter_filter]
  refine filter_congr fun _ _ => Bool.and_comm _ _

/-- A record that an index does not list is not taken out of it. -/
theorem filter_unlisted (hr : r ∈ rs) (hnodup : (rs.map (·.id)).Nodup) {p : Record → Bool}
    (hp : p r = false) : ((rs.filter fun r' => r'.id ≠ r.id).filter p) = rs.filter p := by
  rw [filter_comm]
  refine filter_ne_of_notMem fun hmem => ?_
  obtain ⟨r', hr', hid⟩ := mem_map.mp hmem
  obtain ⟨hr', hp'⟩ := mem_filter.mp hr'
  rw [inj_on_of_nodup_map hnodup hr' hr hid, hp] at hp'
  cases hp'

/-- What a change of the three timelines of a record does to every index. -/
theorem index_updates (index : Index → ZSet RecordId) (r : Record) {f : ZSet RecordId → ZSet RecordId}
    (hf : ∀ z, f (f z) = f z) (i : Index) :
    (let index₁ := Function.update index (.fileTimeline r.fileId) (f (index (.fileTimeline r.fileId)))
     let index₂ := Function.update index₁ (.timeline r.path) (f (index₁ (.timeline r.path)))
     match r.previousPath with
     | some p => Function.update index₂ (.timeline p) (f (index₂ (.timeline p)))
     | none => index₂) i = if i.lists r then f (index i) else index i := by
  dsimp only
  cases i with
  | fileTimeline l =>
    by_cases hl : l = r.fileId
    · subst hl
      cases r.previousPath <;> simp [Index.lists]
    · have hlist : ¬ r.fileId = l := fun he => hl he.symm
      cases r.previousPath <;> simp [Index.lists, hl, hlist]
  | timeline p =>
    by_cases hpath : p = r.path
    · subst hpath
      cases hprev : r.previousPath with
      | none => simp [Index.lists]
      | some q =>
        by_cases hq : q = r.path
        · simp [Index.lists, hq, hf]
        · simp [Index.lists, update_of_ne, Ne.symm hq]
    · have hlist : ¬ r.path = p := fun he => hpath he.symm
      cases hprev : r.previousPath with
      | none => simp [Index.lists, hpath, hlist, hprev]
      | some q =>
        by_cases hq : p = q
        · subst hq
          simp [Index.lists, hpath, hprev]
        · have hq' : ¬ q = p := fun he => hq he.symm
          simp [Index.lists, hpath, hlist, hprev, hq, hq']

theorem dropRecord_index (h : HistoryKeys) (r : Record) (i : Index) :
    (dropRecord h r).index i = if i.lists r then (h.index i).rem r.id else h.index i :=
  index_updates h.index r (f := (ZSet.rem · r.id)) (fun z => by simp [ZSet.rem]) i

theorem addRecord_index (h : HistoryKeys) (r : Record) (i : Index) : (addRecord h r).index i =
      if i.lists r then (h.index i).add r.id r.sequence else h.index i :=
  index_updates h.index r (f := (ZSet.add · r.id r.sequence)) (fun z => by simp [ZSet.add]) i

/-- **Dropping a record filters it out.** -/
theorem Journal.drop (hj : Journal h rs) (hr : r ∈ rs) :
    Journal (dropRecord h r) (rs.filter fun r' => r'.id ≠ r.id) where
  earlier := hj.earlier.filter _
  records id := by
    rw [keyed_filter_ne, ← hj.records]
    simp only [dropRecord, update_apply]
  retention := by
    change h.retention.rem r.id = _
    rw [hj.retention, rem_map]
  versions l := by
    simp only [dropRecord, update_apply]
    split
    · next hl =>
      subst hl
      rw [hj.versions, rem_map, lineage, lineage, filter_comm]
    · next hl =>
      rw [hj.versions, lineage, lineage, filter_unlisted hr hj.nodup]
      exact decide_eq_false (Ne.symm hl)
  index i := by
    rw [dropRecord_index]
    split
    · rw [hj.index, rem_map, filter_comm]
    · next hi => rw [hj.index, filter_unlisted hr hj.nodup (by simpa using hi)]

/-- **Adding a record appends it.** -/
theorem Journal.add (hj : Journal h rs) (hr : ∀ r' ∈ rs, Earlier r' r) :
    Journal (addRecord h r) (rs ++ [r]) := by
  have hnew : r.id ∉ rs.map (·.id) := by
    intro hmem
    obtain ⟨r', hr', hid⟩ := mem_map.mp hmem
    exact (hr r' hr').id hid
  have hsub : ∀ p : Record → Bool, r.id ∉ (rs.filter p).map (·.id) := fun p hmem =>
    hnew ((filter_sublist.map _).subset hmem)
  refine ⟨?_, fun id => ?_, ?_, fun l => ?_, fun i => ?_⟩
  · rw [pairwise_append]
    exact ⟨hj.earlier, pairwise_singleton _ _, fun a ha b hb => by
      rw [mem_singleton.mp hb]
      exact hr a ha⟩
  · simp only [addRecord, update_apply]
    split
    · next hid =>
      subst hid
      rw [keyed_append_of_notMem hnew]
      simp [keyed]
    · next hid => rw [keyed_append_single_ne (Ne.symm hid), hj.records]
  · change h.retention.add r.id r.sequence = _
    rw [hj.retention, add_map (f := Record.sequence) hnew]
  · simp only [addRecord, update_apply]
    split
    · next hl =>
      subst hl
      rw [hj.versions, lineage, add_map (f := Record.version) (hsub _), lineage, filter_append]
      simp
    · next hl =>
      have hl' : ¬ r.fileId = l := fun he => hl he.symm
      rw [hj.versions, lineage, lineage, filter_append]
      simp [hl']
  · rw [addRecord_index]
    split
    · next hi =>
      rw [hj.index, add_map (f := Record.sequence) (hsub _), filter_append]
      simp [hi]
    · next hi =>
      rw [hj.index, filter_append]
      simp [hi]

/-- Dropping several records. -/
theorem Journal.dropAll {out : List Record} (hj : Journal h rs) (hout : (out.map (·.id)).Nodup)
    (hsub : out ⊆ rs) : Journal (out.foldl dropRecord h) (dropKeys Record.id out rs) := by
  induction out generalizing h rs with
  | nil =>
    rw [dropKeys_nil]
    exact hj
  | cons r out ih =>
    rw [foldl_cons, dropKeys_cons]
    exact ih (hj.drop (hsub mem_cons_self)) (nodup_cons.mp hout).2
      (mem_filter_ne_of_nodup hout fun _ h => hsub (mem_cons_of_mem _ h))

/-- Adding several records. -/
theorem Journal.addAll {ns : List Record} (hj : Journal h rs) (hns : (rs ++ ns).Pairwise Earlier) :
    Journal (ns.foldl addRecord h) (rs ++ ns) := by
  induction ns generalizing h rs with
  | nil =>
    rw [append_nil]
    exact hj
  | cons r ns ih =>
    rw [append_cons] at hns ⊢
    refine ih (hj.add fun r' hr' => ?_) hns
    rw [pairwise_append, pairwise_append] at hns
    exact hns.1.2.2 r' hr' r (mem_singleton_self r)

end Journal

/-! ## The pointers of a lineage -/

/-- The hash of a lineage; an absent key has no fields. -/
def entry (h : HistoryKeys) (l : LineageId) : FileEntry := (h.file l).getD {}

/-- What adding a record writes to the hash of its lineage. -/
def FileEntry.push (e : FileEntry) (r : Record) : FileEntry :=
  { e with
    next := r.version
    head := some r.id
    recoverable := if !r.deleted ∧ !r.metadataOnly then some r.id else e.recoverable }

/-- The head is the last record of the lineage, the recoverable pointer its last recoverable one,
and the counter the last version. -/
structure Points (e : FileEntry) (ls : List Record) : Prop where
  head : e.head = ls.getLast?.map (·.id)
  recoverable : e.recoverable = (ls.filter Record.recoverable).getLast?.map (·.id)
  next : e.next = (ls.getLast?.map (·.version)).getD 0

/-- Two lists of versions end in the same record and in the same recoverable one. -/
structure SameEnds (ls ls' : List Record) : Prop where
  last : ls'.getLast? = ls.getLast?
  recoverable : (ls'.filter Record.recoverable).getLast? = (ls.filter Record.recoverable).getLast?

section Points

variable {e : FileEntry} {ls rs ns : List Record} {r : Record} {h : HistoryKeys} {l : LineageId}

theorem lineage_append (rs ns : List Record) (l : LineageId) :
    lineage (rs ++ ns) l = lineage rs l ++ lineage ns l := filter_append ..

theorem Points.empty : Points {} [] := ⟨rfl, rfl, rfl⟩

theorem Points.push (he : Points e ls) (r : Record) : Points (e.push r) (ls ++ [r]) := by
  refine ⟨by simp [FileEntry.push], ?_, by simp [FileEntry.push]⟩
  rw [filter_append]
  by_cases hr : Record.recoverable r = true
  · have hr' : !r.deleted ∧ !r.metadataOnly := by simpa [Record.recoverable] using hr
    simp [FileEntry.push, hr, hr']
  · have hr' : ¬ (!r.deleted ∧ !r.metadataOnly) := by simpa [Record.recoverable] using hr
    have hnil : [r].filter Record.recoverable = [] := by simp [hr]
    rw [hnil, append_nil, ← he.recoverable, FileEntry.push, if_neg hr']

theorem Points.pushAll (he : Points e ls) (ns : List Record) :
    Points (ns.foldl FileEntry.push e) (ls ++ ns) := by
  induction ns generalizing e ls with
  | nil => simpa using he
  | cons r ns ih =>
    rw [foldl_cons, append_cons]
    exact ih (he.push r)

/-- The pointers stay when only records go that they do not name. -/
theorem Points.filter (he : Points e ls) {p : Record → Bool}
    (hhead : ∀ r ∈ ls, some r.id = e.head → p r = true)
    (hrec : ∀ r ∈ ls, some r.id = e.recoverable → p r = true) :
    Points e (ls.filter p) ∧ SameEnds ls (ls.filter p) := by
  have hlast : (ls.filter p).getLast? = ls.getLast? := getLast?_filter fun a ha => by
    refine hhead a (mem_of_getLast? ha) ?_
    rw [he.head, ha]
    rfl
  have hlast' : ((ls.filter p).filter Record.recoverable).getLast? =
      (ls.filter Record.recoverable).getLast? := by
    rw [filter_comm]
    refine getLast?_filter fun a ha => ?_
    refine hrec a (mem_of_mem_filter (mem_of_getLast? ha)) ?_
    rw [he.recoverable, ha]
    rfl
  exact ⟨⟨by rw [hlast, he.head], by rw [hlast', he.recoverable], by rw [hlast, he.next]⟩, hlast,
    hlast'⟩

/-- No version of a lineage is beyond its counter. -/
theorem Points.version_le (he : Points e ls) (hls : ls.Pairwise Earlier)
    (hl : ∀ r ∈ ls, r.fileId = l) (hr : r ∈ ls) : r.version ≤ e.next := by
  cases hlast : ls.getLast? with
  | none =>
    rw [List.getLast?_eq_none_iff] at hlast
    rw [hlast] at hr
    cases hr
  | some a =>
    rw [he.next, hlast]
    obtain rfl | hra := rel_getLast? hls hlast hr
    · exact le_rfl
    · exact (hra.version ((hl r hr).trans (hl a (mem_of_getLast? hlast)).symm)).le

theorem lineage_fileId (hr : r ∈ lineage rs l) : r.fileId = l :=
  of_decide_eq_true (mem_filter.mp hr).2

theorem mem_lineage (hr : r ∈ rs) : r ∈ lineage rs r.fileId :=
  mem_filter.mpr ⟨hr, decide_eq_true rfl⟩

theorem entry_addRecord (h : HistoryKeys) (r : Record) (l : LineageId) :
    entry (addRecord h r) l = if r.fileId = l then (entry h l).push r else entry h l := by
  rw [entry]
  simp only [addRecord, update_apply]
  by_cases hl : r.fileId = l
  · subst hl
    simp [FileEntry.push, entry]
  · rw [if_neg (Ne.symm hl), if_neg hl, entry]

theorem entry_addAll (h : HistoryKeys) (ns : List Record) (l : LineageId) :
    entry (ns.foldl addRecord h) l = (lineage ns l).foldl FileEntry.push (entry h l) := by
  induction ns generalizing h with
  | nil => rfl
  | cons r ns ih =>
    rw [foldl_cons, ih, entry_addRecord, lineage, lineage, filter_cons]
    by_cases hl : r.fileId = l <;> simp [hl]

theorem foldl_push_next (e : FileEntry) (ls : List Record) :
    (ls.foldl FileEntry.push e).next = (ls.getLast?.map (·.version)).getD e.next := by
  rcases eq_nil_or_concat ls with rfl | ⟨ls', r, rfl⟩
  · rfl
  · simp [FileEntry.push]

/-- Adding records beyond the counter of their lineage raises it. -/
theorem next_le_foldl_push (hns : ∀ r ∈ ns, (entry h r.fileId).next < r.version) :
    (entry h l).next ≤ ((lineage ns l).foldl FileEntry.push (entry h l)).next := by
  rw [foldl_push_next]
  cases hlast : (lineage ns l).getLast? with
  | none => exact le_rfl
  | some r =>
    have hr := mem_of_getLast? hlast
    have hlater := hns r (mem_of_mem_filter hr)
    rw [lineage_fileId hr] at hlater
    exact hlater.le

theorem file_dropAll (h : HistoryKeys) (out : List Record) :
    (out.foldl dropRecord h).file = h.file := by
  induction out generalizing h with
  | nil => rfl
  | cons r out ih => rw [foldl_cons, ih]; rfl

end Points

/-! ## Blobs and totals -/

/-- A blob's value is of the kind and size its entry says. -/
def BlobMeta.Fits (m : BlobMeta) : Body → Prop
  | .str b => m.ref = .ext ∧ (b.length : ℤ) = m.size
  | .array _ => m.ref = .array

/-- Every blob is counted once for each record that names it, and the totals add up. -/
structure Accounts (h : HistoryKeys) (rs : List Record) : Prop where
  refs : ∀ b, h.blobrefs b = if naming rs b = 0 then none else some (naming rs b)
  absent : ∀ b, naming rs b = 0 → h.blobmeta b = none ∧ h.blob b = none
  present : ∀ b, naming rs b ≠ 0 → ∃ m body, h.blobmeta b = some m ∧ h.blob b = some body ∧ m.Fits body
  sizes : ∀ r ∈ rs, ∀ b m, r.blobId = some b → h.blobmeta b = some m → r.size = m.size
  bytes : (h.bytes.getD 0 : ℤ) = (rs.map Record.bytes).sum
  finite : (places h.blobmeta).Finite
  physical : (h.physicalBytes.getD 0 : ℤ) = tally BlobMeta.size h.blobmeta

/-- **The history keys show the records `rs`.** -/
structure Represents (h : HistoryKeys) (rs : List Record) : Prop where
  journal : Journal h rs
  points : ∀ l, Points (entry h l) (lineage rs l)
  accounts : Accounts h rs
  sequences : ∀ r ∈ rs, 1 ≤ r.sequence ∧ r.sequence ≤ h.sequence.getD 0
  sizes : ∀ r ∈ rs, 0 ≤ r.size ∧ r.size < counterLimit
  bounded : (h.bytes.getD 0 : ℤ) < counterLimit

/-- A history with a policy and nothing else. -/
theorem Represents.empty (policy : Option Policy) : Represents { policy := policy } [] where
  journal := ⟨.nil, fun _ => rfl, rfl, fun _ => rfl, fun _ => rfl⟩
  points _ := .empty
  accounts := by
    refine ⟨fun _ => rfl, fun _ _ => ⟨rfl, rfl⟩, fun _ hb => absurd rfl hb, ?_, rfl, ?_, ?_⟩
    · intro r hr
      exact absurd hr not_mem_nil
    · simp [places]
    · simp [tally]
  sequences r hr := by cases hr
  sizes r hr := by cases hr
  bounded := by simp [counterLimit]

end Afs.History
