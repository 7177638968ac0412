import Afs.History.Evolution

/-!
# Consistent histories

What `Represents` and `Turn` say about the keys themselves, without the list of records: the keys
agree with the stored records, and later keys extend earlier ones.
-/

namespace Afs.History

open List

/-! ## One state -/

/-- The keys of a history agree with its records. -/
structure Consistent (h : HistoryKeys) : Prop where
  finite : (places h.records).Finite
  named : ∀ id r, h.records id = some r → r.id = id
  /-- A blob is counted for the records that name it, -/
  refs : ∀ b, (h.blobrefs b).getD 0 = {id | ∃ r, h.records id = some r ∧ r.blobId = some b}.ncard
  /-- and it is there exactly while it is counted. -/
  blobs : ∀ b, (h.blob b).isSome ↔ 0 < (h.blobrefs b).getD 0
  described : ∀ b, (h.blobmeta b).isSome ↔ (h.blob b).isSome
  sized : ∀ b m bytes, h.blobmeta b = some m → h.blob b = some (.str bytes) → m.size = bytes.length
  /-- The totals are the sums over the records and over the blobs. -/
  bytes : (h.bytes.getD 0 : ℤ) = tally Record.bytes h.records
  physical : (h.physicalBytes.getD 0 : ℤ) = tally BlobMeta.size h.blobmeta
  /-- The indexes list the records, and nothing else. -/
  versions : ∀ l id n, (id, n) ∈ h.versions l ↔
    ∃ r, h.records id = some r ∧ r.fileId = l ∧ r.version = n
  timelines : ∀ i id n, (id, n) ∈ h.index i ↔
    ∃ r, h.records id = some r ∧ i.lists r = true ∧ r.sequence = n
  retention : ∀ id n, (id, n) ∈ h.retention ↔ ∃ r, h.records id = some r ∧ r.sequence = n
  /-- Numbers are given once. -/
  sequences : ∀ id r id' r', h.records id = some r → h.records id' = some r' →
    r.sequence = r'.sequence → id = id'
  numbers : ∀ id r id' r', h.records id = some r → h.records id' = some r' →
    r.fileId = r'.fileId → r.version = r'.version → id = id'

variable {r : Record}

section Consistent

variable {h : HistoryKeys} {rs : List Record}

theorem mem_map_pair {f : Record → ℕ} {l : List Record} {id : RecordId} {n : ℕ} :
    (id, n) ∈ l.map (fun r => (r.id, f r)) ↔ ∃ r ∈ l, r.id = id ∧ f r = n := by
  simp only [mem_map, Prod.mk.injEq]

theorem Represents.sequence_inj (hrep : Represents h rs) {r' : Record} (hr : r ∈ rs)
    (hr' : r' ∈ rs) (he : r.sequence = r'.sequence) : r = r' := by
  have hlt : (rs.map Record.sequence).Pairwise (· < ·) :=
    pairwise_map.mpr (hrep.journal.earlier.imp fun h => h.sequence)
  exact inj_on_of_nodup_map (hlt.imp fun h => h.ne) hr hr' he

theorem Represents.version_inj (hrep : Represents h rs) {r' : Record} (hr : r ∈ rs)
    (hr' : r' ∈ rs) (hl : r.fileId = r'.fileId) (he : r.version = r'.version) : r = r' := by
  have hlt : ((lineage rs r'.fileId).map Record.version).Pairwise (· < ·) := by
    refine pairwise_map.mpr (List.Pairwise.imp_of_mem (fun ha hb h => h.version ?_)
      (hrep.journal.earlier.filter _))
    rw [lineage_fileId ha, lineage_fileId hb]
  exact inj_on_of_nodup_map (hlt.imp fun h => h.ne) (hl ▸ mem_lineage hr) (mem_lineage hr') he

theorem naming_ne_zero {b : Bytes} (hr : r ∈ rs) (hb : r.blobId = some b) : naming rs b ≠ 0 :=
  (countP_pos_iff.mpr ⟨r, hr, decide_eq_true hb⟩).ne'

theorem sum_map_naming (rs : List Record) (b : Bytes) :
    (rs.map fun r => if r.blobId = some b then (1 : ℤ) else 0).sum = naming rs b := by
  induction rs with
  | nil => rfl
  | cons r rs ih =>
    rw [map_cons, sum_cons, ih, naming, naming, countP_cons]
    by_cases hb : r.blobId = some b <;> simp [hb, add_comm]

/-- The stored records that name a blob. -/
theorem Represents.ncard_naming (hrep : Represents h rs) (b : Bytes) :
    {id | ∃ r, h.records id = some r ∧ r.blobId = some b}.ncard = naming rs b := by
  have hrecords : h.records = keyed Record.id rs := funext hrep.journal.records
  obtain ⟨hfin, hsum⟩ := tally_keyed (fun r : Record => if r.blobId = some b then 1 else 0)
    hrep.journal.nodup
  have hcount := tally_eq_ncard (w := fun r : Record => if r.blobId = some b then 1 else 0)
    (p := fun r => r.blobId = some b) hfin (fun r hr => if_pos hr) fun r hr => if_neg hr
  rw [hrecords]
  exact_mod_cast hcount.symm.trans (hsum.trans (sum_map_naming rs b))

/-- **A represented history is consistent.** -/
theorem Represents.consistent (hrep : Represents h rs) : Consistent h where
  finite := by
    rw [show h.records = keyed Record.id rs from funext hrep.journal.records]
    exact (tally_keyed (fun _ => 0) hrep.journal.nodup).1
  named id r hr := (hrep.journal.record_iff.mp hr).2
  refs b := by
    rw [hrep.ncard_naming, hrep.accounts.refs]
    split
    · next hz => rw [hz]; rfl
    · rfl
  blobs b := by
    rw [hrep.accounts.refs]
    by_cases hz : naming rs b = 0
    · rw [if_pos hz, (hrep.accounts.absent b hz).2]
      simp
    · obtain ⟨m, body, -, hbody, -⟩ := hrep.accounts.present b hz
      rw [if_neg hz, hbody]
      simpa using Nat.pos_of_ne_zero hz
  described b := by
    by_cases hz : naming rs b = 0
    · rw [(hrep.accounts.absent b hz).1, (hrep.accounts.absent b hz).2]
      simp
    · obtain ⟨m, body, hm, hbody, -⟩ := hrep.accounts.present b hz
      simp [hm, hbody]
  sized b m bytes hm hb := by
    have hz : naming rs b ≠ 0 := fun hz => by
      rw [(hrep.accounts.absent b hz).1] at hm
      cases hm
    obtain ⟨m', body, hm', hbody, hfits⟩ := hrep.accounts.present b hz
    rw [hm] at hm'
    rw [hb] at hbody
    cases hm'
    cases hbody
    exact hfits.2.symm
  bytes := by
    rw [hrep.accounts.bytes, show h.records = keyed Record.id rs from funext hrep.journal.records]
    exact (tally_keyed Record.bytes hrep.journal.nodup).2.symm
  physical := hrep.accounts.physical
  versions l id n := by
    rw [hrep.journal.versions, mem_map_pair]
    constructor
    · rintro ⟨r, hr, hid, hn⟩
      exact ⟨r, hrep.journal.record_iff.mpr ⟨mem_of_mem_filter hr, hid⟩, lineage_fileId hr, hn⟩
    · rintro ⟨r, hr, rfl, hn⟩
      obtain ⟨hr, hid⟩ := hrep.journal.record_iff.mp hr
      exact ⟨r, mem_lineage hr, hid, hn⟩
  timelines i id n := by
    rw [hrep.journal.index, mem_map_pair]
    constructor
    · rintro ⟨r, hr, hid, hn⟩
      obtain ⟨hr, hlists⟩ := mem_filter.mp hr
      exact ⟨r, hrep.journal.record_iff.mpr ⟨hr, hid⟩, hlists, hn⟩
    · rintro ⟨r, hr, hlists, hn⟩
      obtain ⟨hr, hid⟩ := hrep.journal.record_iff.mp hr
      exact ⟨r, mem_filter.mpr ⟨hr, hlists⟩, hid, hn⟩
  retention id n := by
    rw [hrep.journal.retention, mem_map_pair]
    constructor
    · rintro ⟨r, hr, hid, hn⟩
      exact ⟨r, hrep.journal.record_iff.mpr ⟨hr, hid⟩, hn⟩
    · rintro ⟨r, hr, hn⟩
      obtain ⟨hr, hid⟩ := hrep.journal.record_iff.mp hr
      exact ⟨r, hr, hid, hn⟩
  sequences id r id' r' hr hr' he := by
    obtain ⟨hm, rfl⟩ := hrep.journal.record_iff.mp hr
    obtain ⟨hm', rfl⟩ := hrep.journal.record_iff.mp hr'
    rw [hrep.sequence_inj hm hm' he]
  numbers id r id' r' hr hr' hl he := by
    obtain ⟨hm, rfl⟩ := hrep.journal.record_iff.mp hr
    obtain ⟨hm', rfl⟩ := hrep.journal.record_iff.mp hr'
    rw [hrep.version_inj hm hm' hl he]

end Consistent

/-! ## Two states -/

/-- The history `h'` is what `h` has become. -/
structure Extends (h h' : HistoryKeys) : Prop where
  old : ∀ id r, h.records id = some r →
    r.sequence ≤ h.sequence.getD 0 ∧ r.version ≤ (entry h r.fileId).next
  sequence : h.sequence.getD 0 ≤ h'.sequence.getD 0
  next : ∀ l, (entry h l).next ≤ (entry h' l).next
  new : ∀ id r, h'.records id = some r → h.records id = some r ∨
    h.sequence.getD 0 < r.sequence ∧ (entry h r.fileId).next < r.version
  last : ∀ id r, h.records id = some r → ∃ id' r', h'.records id' = some r' ∧
    r'.fileId = r.fileId ∧ r.version ≤ r'.version
  recoverable : ∀ id r, h.records id = some r → r.recoverable = true → ∃ id' r',
    h'.records id' = some r' ∧ r'.fileId = r.fileId ∧ r'.recoverable = true ∧ r.version ≤ r'.version
  blobs : ∀ id r b, h.records id = some r → h'.records id = some r → r.blobId = some b →
    h'.blob b = h.blob b

variable {ls : List Record} {l : LineageId}

section Extends

variable {h h' h'' : HistoryKeys} {rs out ns : List Record}

theorem Extends.trans (h₁ : Extends h h') (h₂ : Extends h' h'') : Extends h h'' where
  old := h₁.old
  sequence := h₁.sequence.trans h₂.sequence
  next l := (h₁.next l).trans (h₂.next l)
  new id r hr := by
    obtain hr | ⟨hseq, hver⟩ := h₂.new id r hr
    · exact h₁.new id r hr
    · exact .inr ⟨h₁.sequence.trans_lt hseq, (h₁.next r.fileId).trans_lt hver⟩
  last id r hr := by
    obtain ⟨id', r', hr', hl', hv'⟩ := h₁.last id r hr
    obtain ⟨id'', r'', hr'', hl'', hv''⟩ := h₂.last id' r' hr'
    exact ⟨id'', r'', hr'', hl''.trans hl', hv'.trans hv''⟩
  recoverable id r hr hrec := by
    obtain ⟨id', r', hr', hl', hrec', hv'⟩ := h₁.recoverable id r hr hrec
    obtain ⟨id'', r'', hr'', hl'', hrec'', hv''⟩ := h₂.recoverable id' r' hr' hrec'
    exact ⟨id'', r'', hr'', hl''.trans hl', hrec'', hv'.trans hv''⟩
  blobs id r b hr hr'' hb := by
    -- A record that is stored at both ends is stored in between: its number is not new there.
    have hr' : h'.records id = some r := by
      refine (h₂.new id r hr'').resolve_right fun hnew => ?_
      exact absurd (((h₁.old id r hr).1.trans h₁.sequence).trans_lt hnew.1) (lt_irrefl _)
    exact (h₂.blobs id r b hr' hr'' hb).trans (h₁.blobs id r b hr hr' hb)

section

variable (hls : ls.Pairwise Earlier) (hl : ∀ r ∈ ls, r.fileId = l) (hr : r ∈ ls)

include hls hl hr

/-- The last of some records is not older than any of them. -/
theorem version_le_getLast {a : Record} (ha : ls.getLast? = some a) : r.version ≤ a.version := by
  obtain ⟨ls', rfl⟩ := List.getLast?_eq_some_iff.mp ha
  rcases mem_append.mp hr with hmem | hmem
  · have hearlier := (pairwise_append.mp hls).2.2 r hmem a (mem_singleton_self a)
    exact (hearlier.version ((hl r hr).trans (hl a (by simp)).symm)).le
  · rw [mem_singleton.mp hmem]

/-- Some records of a lineage have a latest one. -/
theorem exists_latest : ∃ a ∈ ls, ∀ r ∈ ls, r.version ≤ a.version := by
  cases ha : ls.getLast? with
  | none =>
    rw [List.getLast?_eq_none_iff.mp ha] at hr
    cases hr
  | some a => exact ⟨a, mem_of_getLast? ha, fun r hr => version_le_getLast hls hl hr ha⟩

/-- A record is outlived by the last one of its lineage, among those that satisfy `p`. -/
theorem outlived {ls' : List Record} (hlast : ls'.getLast? = ls.getLast?) :
    ∃ r' ∈ ls', r'.fileId = l ∧ r.version ≤ r'.version := by
  cases ha : ls.getLast? with
  | none =>
    rw [List.getLast?_eq_none_iff.mp ha] at hr
    cases hr
  | some a =>
    rw [ha] at hlast
    exact ⟨a, mem_of_getLast? hlast, hl a (mem_of_getLast? ha),
      version_le_getLast hls hl hr ha⟩

end

/-- **A step extends the history.** -/
theorem Turn.extends (ht : Turn h rs out ns h') (hrep : Represents h rs) : Extends h h' where
  old id r hr := by
    obtain ⟨hr, -⟩ := hrep.journal.record_iff.mp hr
    exact ⟨(hrep.sequences r hr).2, (hrep.points r.fileId).version_le (l := r.fileId)
      (hrep.journal.earlier.filter _) (fun _ => lineage_fileId) (mem_lineage hr)⟩
  sequence := ht.sequence
  next := ht.next
  new id r hr := by
    obtain ⟨hr, hid⟩ := ht.represents.journal.record_iff.mp hr
    rcases mem_append.mp hr with hr | hr
    · exact .inl (hrep.journal.record_iff.mpr ⟨dropKeys_subset hr, hid⟩)
    · exact .inr (ht.later r hr)
  last id r hr := by
    obtain ⟨hr, -⟩ := hrep.journal.record_iff.mp hr
    have hmem : r ∈ lineage (rs ++ ns) r.fileId := mem_lineage (mem_append_left _ hr)
    obtain ⟨r', hr', hl', hv'⟩ := outlived (ht.earlier.filter _) (fun _ => lineage_fileId) hmem
      (ht.ends r.fileId).last
    exact ⟨r'.id, r', ht.represents.journal.record_iff.mpr ⟨mem_of_mem_filter hr', rfl⟩, hl', hv'⟩
  recoverable id r hr hrec := by
    obtain ⟨hr, -⟩ := hrep.journal.record_iff.mp hr
    have hmem : r ∈ (lineage (rs ++ ns) r.fileId).filter Record.recoverable :=
      mem_filter.mpr ⟨mem_lineage (mem_append_left _ hr), hrec⟩
    obtain ⟨r', hr', hl', hv'⟩ := outlived ((ht.earlier.filter _).filter _)
      (fun _ h => lineage_fileId (mem_of_mem_filter h)) hmem (ht.ends r.fileId).recoverable
    obtain ⟨hr', hrec'⟩ := mem_filter.mp hr'
    exact ⟨r'.id, r', ht.represents.journal.record_iff.mpr ⟨mem_of_mem_filter hr', rfl⟩, hl',
      hrec', hv'⟩
  blobs id r b hr hr' hb := by
    obtain ⟨hr, -⟩ := hrep.journal.record_iff.mp hr
    obtain ⟨hr', -⟩ := ht.represents.journal.record_iff.mp hr'
    exact ht.blobs b (naming_ne_zero hr hb) (naming_ne_zero hr' hb)

theorem Represents.extends (hrep : Represents h rs) : Extends h h := (Turn.refl hrep).extends hrep

end Extends

end Afs.History
