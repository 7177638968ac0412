import Afs.History.Planning

/-!
# How the journal evolves

A capture appends its records to the journal and may give up old ones; a sweep only gives up old
ones. Neither gives up the last record of a lineage or its last recoverable one, and a blob that is
named before and after keeps its value.
-/

namespace Afs.History

open List Option
open Function (update update_apply)

/-- One step of the history: records `out` go and records `ns` come. -/
structure Turn (h : HistoryKeys) (rs out ns : List Record) (h' : HistoryKeys) : Prop where
  represents : Represents h' (dropKeys Record.id out rs ++ ns)
  earlier : (rs ++ ns).Pairwise Earlier
  later : ∀ r ∈ ns, h.sequence.getD 0 < r.sequence ∧ (entry h r.fileId).next < r.version
  ends : ∀ l, SameEnds (lineage (rs ++ ns) l) (lineage (dropKeys Record.id out rs ++ ns) l)
  sequence : h.sequence.getD 0 ≤ h'.sequence.getD 0
  next : ∀ l, (entry h l).next ≤ (entry h' l).next
  blobs : ∀ b, naming rs b ≠ 0 → naming (dropKeys Record.id out rs ++ ns) b ≠ 0 → h'.blob b = h.blob b

/-! ## Writing blobs -/

variable {h' : HistoryKeys}

section Blobs

variable {s : Store} {h : HistoryKeys} {rs ns out : List Record} {blobs : List BlobState}

/-- The count `putBlob` writes. -/
def BlobState.refs (b : BlobState) : Option ℕ := if 0 < b.count then some b.count.toNat else none

/-- The entry `putBlob` writes. -/
def BlobState.described (b : BlobState) : Option BlobMeta := if 0 < b.count then some ⟨b.size, b.ref⟩ else none

/-- The value `putBlob` writes over `old`. -/
def BlobState.value (s : Store) (b : BlobState) (old : Option Body) : Option Body :=
  if 0 < b.count then
    if b.new then
      match b.plan with
      | some p => p.supply s
      | none => old
    else old
  else none

theorem putBlob_eq (s : Store) (h : HistoryKeys) (b : BlobState) : putBlob s h b = { h with
      blobrefs := update h.blobrefs b.id b.refs
      blobmeta := update h.blobmeta b.id b.described
      blob := update h.blob b.id (b.value s (h.blob b.id)) } := by
  rw [putBlob, BlobState.refs, BlobState.described, BlobState.value]
  by_cases hc : 0 < b.count
  · simp only [if_pos hc]
    by_cases hn : b.new
    · simp only [if_pos hn]
      cases b.plan with
      | none => simp
      | some p => rfl
    · simp [hn]
  · simp only [if_neg hc]
    by_cases hn : b.new
    · simp only [if_pos hn]
      cases b.plan with
      | none => rfl
      | some p => simp
    · simp [hn]

theorem foldl_putBlob (s : Store) (h : HistoryKeys) (blobs : List BlobState) :
    blobs.foldl (putBlob s) h = { h with
      blobrefs := blobs.foldl (fun f b => update f b.id b.refs) h.blobrefs
      blobmeta := blobs.foldl (fun f b => update f b.id b.described) h.blobmeta
      blob := blobs.foldl (fun f b => update f b.id (b.value s (f b.id))) h.blob } := by
  induction blobs generalizing h with
  | nil => rfl
  | cons b blobs ih => rw [foldl_cons, putBlob_eq, ih]; rfl

theorem Shares.old {b : BlobState} (hs : Shares s rs ns out blobs) (hb : b ∈ blobs)
    (hne : naming rs b.id ≠ 0) : b.new = false :=
  Bool.eq_false_iff.mpr fun hnew => hne ((hs.fresh b hb).mp hnew)

theorem naming_dropKeys (hnodup : (rs.map (·.id)).Nodup) (hout : (out.map (·.id)).Nodup)
    (hsub : out ⊆ rs) (b : Bytes) :
    naming out b + naming (dropKeys Record.id out rs) b = naming rs b := by
  rw [← naming_append]
  exact (perm_append_dropKeys hnodup hout hsub).countP_eq _

section Settle

variable (hs : Shares s rs ns out blobs)
  (hname : ∀ b, naming out b + naming (dropKeys Record.id out rs) b = naming rs b)
  (hrefs : h'.blobrefs = blobs.foldl (fun f b => update f b.id b.refs) s.history.blobrefs)
  (hmeta : h'.blobmeta = blobs.foldl (fun f b => update f b.id b.described) s.history.blobmeta)
  (hblob : h'.blob = blobs.foldl (fun f b => update f b.id (b.value s (f b.id))) s.history.blob)

include hs hname hrefs hmeta hblob

/-- The count of a blob in the ledger is what the records will name; the other blobs keep theirs. -/
theorem Shares.settled (id : Bytes) :
    (id ∉ blobs.map (·.id) ∧ naming (dropKeys Record.id out rs ++ ns) id = naming rs id ∧
      h'.blobrefs id = s.history.blobrefs id ∧ h'.blobmeta id = s.history.blobmeta id ∧
      h'.blob id = s.history.blob id) ∨
    ∃ b ∈ blobs, b.id = id ∧ b.count = naming (dropKeys Record.id out rs ++ ns) id ∧
      h'.blobrefs id = b.refs ∧ h'.blobmeta id = b.described ∧
      h'.blob id = b.value s (s.history.blob id) := by
  have hn := hname id
  rw [hrefs, hmeta, hblob, foldl_update (v := fun b _ => b.refs) hs.keys,
    foldl_update (v := fun b _ => b.described) hs.keys,
    foldl_update (v := fun b old => b.value s old) hs.keys, naming_append]
  cases hk : keyed BlobState.id blobs id with
  | none =>
    have hid := keyed_eq_none_iff.mp hk
    obtain ⟨hns, hout⟩ := hs.unlisted hid
    exact .inl ⟨hid, by omega, rfl, rfl, rfl⟩
  | some b =>
    obtain ⟨hb, rfl⟩ := (keyed_eq_some_iff hs.keys).mp hk
    have hcount := hs.count b hb
    exact .inr ⟨b, hb, rfl, by push_cast; omega, rfl, rfl, rfl⟩

/-- **What the blobs are after a capture or a sweep.** -/
theorem Accounts.settle (ha : Accounts s.history rs)
    (hbytes : (h'.bytes.getD 0 : ℤ) = ((dropKeys Record.id out rs ++ ns).map Record.bytes).sum)
    (hphysical : h'.physicalBytes.getD 0 = (s.history.physicalBytes.getD 0 +
      (blobs.map fun b => weigh BlobMeta.size b.described -
        weigh BlobMeta.size (s.history.blobmeta b.id)).sum).toNat)
    (hpos : ∀ r ∈ rs ++ ns, 0 ≤ r.size) : Accounts h' (dropKeys Record.id out rs ++ ns) ∧
      (∀ b, naming rs b ≠ 0 → naming (dropKeys Record.id out rs ++ ns) b ≠ 0 →
        h'.blob b = s.history.blob b) ∧
      0 ≤ s.history.physicalBytes.getD 0 + (blobs.map fun b => weigh BlobMeta.size b.described -
        weigh BlobMeta.size (s.history.blobmeta b.id)).sum := by
  have hcases := hs.settled hname hrefs hmeta hblob
  have hvalue : ∀ b ∈ blobs, 0 < b.count → ∃ body, b.value s (s.history.blob b.id) = some body ∧
      BlobMeta.Fits ⟨b.size, b.ref⟩ body ∧ (b.new = false → s.history.blob b.id = some body) := by
    intro b hb hpos
    rw [BlobState.value, if_pos hpos]
    cases hnew : b.new with
    | true =>
      obtain ⟨-, p, body, hplan, hsupply, hfits⟩ := hs.supply b hb hnew
      exact ⟨body, by rw [if_pos rfl, hplan]; exact hsupply, hfits, by simp⟩
    | false =>
      have hne : naming rs b.id ≠ 0 := fun hz => by simp [(hs.fresh b hb).mpr hz] at hnew
      obtain ⟨m, body, hm, hbody, hfits⟩ := ha.present b.id hne
      rw [hs.known b hb hnew] at hm
      cases hm
      exact ⟨body, by rw [hbody]; rfl, hfits, fun _ => hbody⟩
  have habsent : ∀ id, naming (dropKeys Record.id out rs ++ ns) id = 0 →
      h'.blobmeta id = none ∧ h'.blob id = none := by
    intro id hz
    obtain ⟨-, hn, -, hm, hv⟩ | ⟨b, -, -, hc, -, hm, hv⟩ := hcases id <;> rw [hm, hv]
    · exact ha.absent id (hn ▸ hz)
    · exact ⟨if_neg (by omega), if_neg (by omega)⟩
  have hsizes : ∀ r ∈ dropKeys Record.id out rs ++ ns, ∀ id m, r.blobId = some id →
      h'.blobmeta id = some m → r.size = m.size := by
    intro r hr id m hid hm
    obtain ⟨hunl, -, -, hm', -⟩ | ⟨b, hb, rfl, -, -, hm', -⟩ := hcases id <;> rw [hm'] at hm
    · rcases mem_append.mp hr with hr | hr
      · exact ha.sizes r (dropKeys_subset hr) id m hid hm
      · exact absurd (hs.listed r (mem_append_left _ hr) id hid) hunl
    · obtain ⟨-, ⟨⟩⟩ := ite_none_right_eq_some.mp hm
      rcases mem_append.mp hr with hr | hr
      · have hrs := dropKeys_subset hr
        have hne : naming rs b.id ≠ 0 :=
          (countP_pos_iff.mpr ⟨r, hrs, decide_eq_true hid⟩).ne'
        exact ha.sizes r hrs b.id _ hid (hs.known b hb (hs.old hb hne))
      · exact hs.sizes b hb r hr hid
  have htally : tally BlobMeta.size h'.blobmeta = s.history.physicalBytes.getD 0 +
      (blobs.map fun b => weigh BlobMeta.size b.described -
        weigh BlobMeta.size (s.history.blobmeta b.id)).sum := by
    rw [hmeta, (tally_foldl_update BlobMeta.size hs.keys ha.finite).2, ha.physical]
  have hnonneg : 0 ≤ tally BlobMeta.size h'.blobmeta := tally_nonneg fun id m hm => by
    have hne : naming (dropKeys Record.id out rs ++ ns) id ≠ 0 := fun hz => by
      rw [(habsent id hz).1] at hm
      cases hm
    obtain ⟨r, hr, hid⟩ := countP_pos_iff.mp (Nat.pos_of_ne_zero hne)
    rw [← hsizes r hr id m (of_decide_eq_true hid) hm]
    exact hpos r (mem_append.mpr ((mem_append.mp hr).imp_left fun h => dropKeys_subset h))
  refine ⟨⟨fun id => ?_, habsent, fun id hne => ?_, hsizes, hbytes, ?_, ?_⟩,
    fun id hne hne' => ?_, htally ▸ hnonneg⟩
  · obtain ⟨-, hn, hr, -, -⟩ | ⟨b, -, -, hc, hr, -, -⟩ := hcases id
    · rw [hr, hn]
      exact ha.refs id
    · rw [hr, BlobState.refs]
      split_ifs <;> first | rfl | omega | simp [hc]
  · obtain ⟨-, hn, -, hm, hv⟩ | ⟨b, hb, rfl, hc, -, hm, hv⟩ := hcases id <;> rw [hm, hv]
    · exact ha.present id (hn ▸ hne)
    · have hpos : 0 < b.count := by omega
      obtain ⟨body, hbody, hfits, -⟩ := hvalue b hb hpos
      exact ⟨_, body, if_pos hpos, hbody, hfits⟩
  · rw [hmeta]
    exact (tally_foldl_update BlobMeta.size hs.keys ha.finite).1
  · rw [hphysical, ← htally, Int.toNat_of_nonneg hnonneg]
  · obtain ⟨-, -, -, -, hv⟩ | ⟨b, hb, rfl, hc, -, -, hv⟩ := hcases id
    · exact hv
    · obtain ⟨body, hbody, -, hold⟩ := hvalue b hb (by omega)
      rw [hv, hbody, hold (hs.old hb hne)]

end Settle

end Blobs

/-! ## Captures -/

variable {h : HistoryKeys} {ns : List Record} {operation origin : Token} {now : ℕ}
  {changes : List Change}

section Capture

variable {s : Store} {rs out : List Record} {g₀ g : Ledger} {bytes₀ bytes : ℤ} {h' : HistoryKeys}

/-- The head and the recoverable version a ledger plans are those its records lead to. -/
theorem Numbered.pointers (hg : Numbered h rs g) (l : LineageId) :
    g.head h l = ((lineage g.records l).foldl FileEntry.push (entry h l)).head ∧
    g.recoverable h l = ((lineage g.records l).foldl FileEntry.push (entry h l)).recoverable := by
  rw [Ledger.head, Ledger.recoverable]
  cases hf : g.files.find? fun e => e.1 = l with
  | none =>
    have hnil : lineage g.records l = [] := filter_eq_nil_iff.mpr fun r hr hd => by
      obtain ⟨e, he, hel⟩ := mem_map.mp (hg.opened r hr)
      refine List.find?_eq_none.mp hf e he (decide_eq_true ?_)
      rw [hel, of_decide_eq_true hd]
    rw [hnil]
    exact ⟨rfl, rfl⟩
  | some e =>
    have hl : e.1 = l := by simpa using List.find?_some hf
    subst hl
    have ha := hg.files e (mem_of_find?_eq_some hf)
    exact ⟨ha.head, ha.recoverable⟩

theorem dropKeys_append_new (hns : (rs ++ ns).Pairwise Earlier) (hsub : out ⊆ rs) :
    dropKeys Record.id out rs ++ ns = dropKeys Record.id out (rs ++ ns) := by
  have hself : dropKeys Record.id out ns = ns := filter_eq_self.mpr fun r hr => by
    refine decide_eq_true fun hmem => ?_
    obtain ⟨r', hr', hid⟩ := mem_map.mp hmem
    exact ((pairwise_append.mp hns).2.2 r' (hsub hr') r hr).id hid
  rw [dropKeys, dropKeys, filter_append]
  exact congrArg _ hself.symm

/-- The records that go are none the pointers of their lineages name. -/
theorem Points.dropKeys {ls t : List Record} {e : FileEntry} (he : Points e ls)
    (hls : ls ⊆ t) (ht : (t.map (·.id)).Nodup) (hout : out ⊆ t)
    (hspared : ∀ r ∈ out, r ∈ ls → some r.id ≠ e.head ∧ some r.id ≠ e.recoverable) :
    Points e (dropKeys Record.id out ls) ∧ SameEnds ls (dropKeys Record.id out ls) := by
  have hgone : ∀ r ∈ ls, r.id ∈ out.map Record.id → r ∈ out := fun r hr hmem => by
    obtain ⟨r', hr', hid⟩ := mem_map.mp hmem
    rwa [← inj_on_of_nodup_map ht (hout hr') (hls hr) hid]
  exact he.filter
    (fun r hr hid => decide_eq_true fun hmem => (hspared r (hgone r hr hmem) hr).1 hid)
    (fun r hr hid => decide_eq_true fun hmem => (hspared r (hgone r hr hmem) hr).2 hid)

theorem sum_bytes_nonneg (h : ∀ r ∈ rs, 0 ≤ r.size) : 0 ≤ (rs.map Record.bytes).sum := by
  refine sum_nonneg fun x hx => ?_
  obtain ⟨r, hr, rfl⟩ := mem_map.mp hx
  rw [Record.bytes]
  split
  · exact h r hr
  · exact le_rfl

/-- The bytes that are stored after the ledger's blobs are written. -/
theorem Shares.physical {blobs : List BlobState} (hs : Shares s rs ns out blobs)
    (hname : ∀ b, naming out b + naming (Afs.dropKeys Record.id out rs) b = naming rs b)
    (ha : Accounts s.history rs) : (blobs.map fun b => weigh BlobMeta.size b.described -
        weigh BlobMeta.size (s.history.blobmeta b.id)).sum =
      (blobs.map BlobState.gained).sum -
        ((blobs.filter fun b => b.count ≤ 0).map (·.size)).sum := by
  rw [sum_map_filter]
  refine sum_map_eq_sub fun b hb => ?_
  have hcount := hs.count b hb
  have hname := hname b.id
  cases hnew : b.new with
  | true =>
    -- A new blob was not there, and some record names it.
    have hzero := (hs.fresh b hb).mp hnew
    have hpos : 0 < b.count := by
      have hne := (hs.supply b hb hnew).1
      omega
    rw [(ha.absent b.id hzero).1, BlobState.described, if_pos hpos, BlobState.gained, if_pos hnew]
    simp [not_le.mpr hpos]
  | false =>
    rw [hs.known b hb hnew, BlobState.described, BlobState.gained, hnew]
    by_cases hpos : 0 < b.count
    · simp [hpos, not_le.mpr hpos]
    · simp [hpos, not_lt.mp hpos]

theorem blobs_dropAll (h : HistoryKeys) (out : List Record) :
    (out.foldl dropRecord h).blobrefs = h.blobrefs ∧ (out.foldl dropRecord h).blobmeta = h.blobmeta ∧
      (out.foldl dropRecord h).blob = h.blob := by
  induction out generalizing h with
  | nil => exact ⟨rfl, rfl, rfl⟩
  | cons r out ih => exact ih (dropRecord h r)

theorem blobs_addAll (h : HistoryKeys) (ns : List Record) :
    (ns.foldl addRecord h).blobrefs = h.blobrefs ∧ (ns.foldl addRecord h).blobmeta = h.blobmeta ∧
      (ns.foldl addRecord h).blob = h.blob := by
  induction ns generalizing h with
  | nil => exact ⟨rfl, rfl, rfl⟩
  | cons r ns ih => exact ih (addRecord h r)

/-- What `writeHistory` has written when it returns. -/
theorem writeHistory_ok (hw : writeHistory s g bytes out = .ok h') :
    h' = { g.records.foldl addRecord (out.foldl dropRecord s.history) with
      blobrefs := g.blobs.foldl (fun f b => update f b.id b.refs) s.history.blobrefs
      blobmeta := g.blobs.foldl (fun f b => update f b.id b.described) s.history.blobmeta
      blob := g.blobs.foldl (fun f b => update f b.id (b.value s (f b.id))) s.history.blob
      sequence := some g.sequence
      bytes := some (bytes + g.added).toNat
      physicalBytes := some
        (g.physical - ((g.blobs.filter fun b => b.count ≤ 0).map (·.size)).sum).toNat } := by
  obtain ⟨hrefs, hmeta, hblob⟩ := blobs_addAll (out.foldl dropRecord s.history) g.records
  obtain ⟨hrefs', hmeta', hblob'⟩ := blobs_dropAll s.history out
  unfold writeHistory at hw
  obtain ⟨-, hw⟩ := of_ite_eq_ok hw
  dsimp only at hw
  cases hw
  rw [foldl_putBlob]
  change HistoryKeys.mk .. = HistoryKeys.mk ..
  simp only [Ledger.records] at hrefs hmeta hblob ⊢
  rw [hrefs, hmeta, hblob, hrefs', hmeta', hblob']

theorem sum_bytes_dropKeys (hnodup : (rs.map (·.id)).Nodup) (hout : (out.map (·.id)).Nodup)
    (hsub : out ⊆ rs) :
    (out.map Record.bytes).sum + ((Afs.dropKeys Record.id out rs).map Record.bytes).sum =
      (rs.map Record.bytes).sum := by
  rw [← sum_append, ← map_append]
  exact ((perm_append_dropKeys hnodup hout hsub).map Record.bytes).sum_eq

/-- The indexes and the hashes of lineages are those of `h`. -/
structure SameIndexes (h h' : HistoryKeys) : Prop where
  records : h'.records = h.records
  retention : h'.retention = h.retention
  versions : h'.versions = h.versions
  index : h'.index = h.index
  file : h'.file = h.file

/-- A step is told by the records that go and come, if the pointers it leaves name none that go. -/
theorem Turn.of_accounts (hrep : Represents h rs) (hout : (out.map (·.id)).Nodup)
    (hsub : out ⊆ rs) (hearlier : (rs ++ ns).Pairwise Earlier)
    (hlater : ∀ r ∈ ns, h.sequence.getD 0 < r.sequence ∧ (entry h r.fileId).next < r.version)
    (hsizes : ∀ r ∈ ns, 0 ≤ r.size ∧ r.size < counterLimit) (hspared : ∀ r ∈ out,
      some r.id ≠ ((lineage ns r.fileId).foldl FileEntry.push (entry h r.fileId)).head ∧
      some r.id ≠ ((lineage ns r.fileId).foldl FileEntry.push (entry h r.fileId)).recoverable)
    (hsame : SameIndexes (ns.foldl addRecord (out.foldl dropRecord h)) h')
    (haccounts : Accounts h' (dropKeys Record.id out rs ++ ns))
    (hblobs : ∀ b, naming rs b ≠ 0 → naming (dropKeys Record.id out rs ++ ns) b ≠ 0 →
      h'.blob b = h.blob b) (hseq : h.sequence.getD 0 ≤ h'.sequence.getD 0)
    (hns : ∀ r ∈ ns, 1 ≤ r.sequence ∧ r.sequence ≤ h'.sequence.getD 0)
    (hbound : (h'.bytes.getD 0 : ℤ) < counterLimit) : Turn h rs out ns h' := by
  have hentry : ∀ l, entry h' l = (lineage ns l).foldl FileEntry.push (entry h l) := fun l => by
    have hadd := entry_addAll (out.foldl dropRecord h) ns l
    rw [entry, entry, file_dropAll, ← hsame.file] at hadd
    exact hadd
  have hpoints : ∀ l, Points (entry h' l) (lineage (dropKeys Record.id out rs ++ ns) l) ∧
      SameEnds (lineage (rs ++ ns) l) (lineage (dropKeys Record.id out rs ++ ns) l) := fun l => by
    have hp := (hrep.points l).pushAll (lineage ns l)
    have hcomm : lineage (dropKeys Record.id out (rs ++ ns)) l =
        dropKeys Record.id out (lineage (rs ++ ns) l) := filter_comm _ _ _
    rw [← lineage_append, ← hentry] at hp
    rw [dropKeys_append_new hearlier hsub, hcomm]
    refine hp.dropKeys (t := rs ++ ns) (fun r hr => mem_of_mem_filter hr)
      (nodup_of_earlier hearlier) (fun r hr => mem_append_left _ (hsub hr)) fun r hr hrl => ?_
    have h := hspared r hr
    rwa [lineage_fileId hrl, ← hentry] at h
  have hj := (hrep.journal.dropAll hout hsub).addAll
    (hearlier.sublist (filter_sublist.append_right _))
  refine ⟨⟨?_, fun l => (hpoints l).1, haccounts, fun r hr => ?_, fun r hr => ?_, hbound⟩, hearlier,
    hlater, fun l => (hpoints l).2, hseq, fun l => ?_, hblobs⟩
  · exact ⟨hj.earlier, hsame.records ▸ hj.records, hsame.retention ▸ hj.retention,
      hsame.versions ▸ hj.versions, hsame.index ▸ hj.index⟩
  · rcases mem_append.mp hr with hr | hr
    · have h := hrep.sequences r (dropKeys_subset hr)
      exact ⟨h.1, h.2.trans hseq⟩
    · exact hns r hr
  · rcases mem_append.mp hr with hr | hr
    · exact hrep.sizes r (dropKeys_subset hr)
    · exact hsizes r hr
  · rw [hentry]
    exact next_le_foldl_push fun r hr => (hlater r hr).2

/-- **A capture that writes evolves the journal.** -/
theorem writeHistory_turn (hrep : Represents s.history rs) (hg : Planned s rs g₀)
    (he : Evicting s rs g₀ (s.history.bytes.getD 0 : ℕ) g bytes out)
    (hlimit : (s.history.bytes.getD 0 : ℕ) + g₀.added < counterLimit)
    (hw : writeHistory s g bytes out = .ok h') : Turn s.history rs out g₀.records h' := by
  have hplans : g.records = g₀.records := by rw [he.same]; rfl
  have hadded : g.added = g₀.added := by rw [he.same]
  have hphys : g.physical = g₀.physical := by rw [he.same]
  have hname := naming_dropKeys hrep.journal.nodup he.nodup he.sub
  have hpos : ∀ r ∈ rs ++ g₀.records, 0 ≤ r.size := fun r hr => by
    rcases mem_append.mp hr with hr | hr
    · exact (hrep.sizes r hr).1
    · exact (hg.numbered.sizes r hr).1
  have hbytes : bytes + g.added =
      ((dropKeys Record.id out rs ++ g₀.records).map Record.bytes).sum := by
    have hperm := sum_bytes_dropKeys hrep.journal.nodup he.nodup he.sub
    rw [map_append, sum_append, hadded, hg.numbered.added, he.bytes, hrep.accounts.bytes]
    omega
  have hnonneg : 0 ≤ bytes + g.added := by
    rw [hbytes]
    refine sum_bytes_nonneg fun r hr => hpos r ?_
    rcases mem_append.mp hr with hr | hr
    · exact mem_append_left _ (dropKeys_subset hr)
    · exact mem_append_right _ hr
  have hw' := writeHistory_ok hw
  rw [hplans] at hw'
  have hkept : (h'.bytes.getD 0 : ℤ) = bytes + g.added := by
    rw [hw']
    exact Int.toNat_of_nonneg hnonneg
  have hphysical : h'.physicalBytes.getD 0 = (s.history.physicalBytes.getD 0 +
      (g.blobs.map fun b => weigh BlobMeta.size b.described -
        weigh BlobMeta.size (s.history.blobmeta b.id)).sum).toNat := by
    rw [hw', he.shares.physical hname hrep.accounts, hphys, hg.physical, he.gained]
    simp only [getD_some, add_sub_assoc]
  obtain ⟨haccounts, hblobs, -⟩ := hrep.accounts.settle he.shares hname (by rw [hw']) (by rw [hw'])
    (by rw [hw']) (hkept.trans hbytes) hphysical hpos
  have hseq : h'.sequence.getD 0 = g₀.sequence := by rw [hw', he.same]; rfl
  refine .of_accounts hrep he.nodup he.sub hg.numbered.earlier hg.numbered.later hg.numbered.sizes
    (fun r hr => ?_) (by rw [hw']; exact ⟨rfl, rfl, rfl, rfl, rfl⟩) haccounts hblobs ?_ ?_ ?_
  · rw [← (hg.numbered.pointers r.fileId).1, ← (hg.numbered.pointers r.fileId).2]
    exact he.spared r hr
  · rw [hseq]
    exact hg.numbered.base
  · rw [hseq]
    exact fun r hr => hg.numbered.sequences r (mem_append_right _ hr)
  · have hout := sum_bytes_nonneg fun r hr => hpos r (mem_append_left _ (he.sub hr))
    rw [hkept, hadded, he.bytes]
    omega

/-- Binding a change leaves the counter and the pointers of every lineage. -/
theorem entry_bindFile (h : HistoryKeys) (b : Bound) (l : LineageId) :
    (entry (bindFile h b) l).next = (entry h l).next ∧
      (entry (bindFile h b) l).head = (entry h l).head ∧
      (entry (bindFile h b) l).recoverable = (entry h l).recoverable := by
  cases hl : b.lineage with
  | none =>
    rw [bindFile, hl]
    exact ⟨rfl, rfl, rfl⟩
  | some l' =>
    simp only [bindFile, hl, entry, update_apply]
    split
    · next he =>
      subst he
      exact ⟨rfl, rfl, rfl⟩
    · exact ⟨rfl, rfl, rfl⟩

theorem Turn.bindFile (ht : Turn h rs out ns h') (b : Bound) :
    Turn h rs out ns (bindFile h' b) := by
  have hentry := entry_bindFile h' b
  have hp : ∀ l' ls, Points (entry h' l') ls → Points (entry (History.bindFile h' b) l') ls :=
    fun l' ls hp => by
      obtain ⟨hnext, hhead, hrec⟩ := hentry l'
      exact ⟨hhead.trans hp.head, hrec.trans hp.recoverable, hnext.trans hp.next⟩
  cases hl : b.lineage with
  | none =>
    rw [History.bindFile, hl]
    exact ht
  | some l =>
    obtain ⟨hj, hpoints, ha, hseq, hsizes, hbound⟩ := ht.represents
    simp only [History.bindFile, hl] at hp hentry ⊢
    exact ⟨⟨⟨hj.earlier, hj.records, hj.retention, hj.versions, hj.index⟩, fun l' => hp l' _ (hpoints l'),
      ⟨ha.refs, ha.absent, ha.present, ha.sizes, ha.bytes, ha.finite, ha.physical⟩, hseq, hsizes, hbound⟩,
      ht.earlier, ht.later, ht.ends, ht.sequence, fun l' => (ht.next l').trans (hentry l').1.ge, ht.blobs⟩

theorem Turn.bindFiles (ht : Turn h rs out ns h') (bound : List Bound) :
    Turn h rs out ns (bound.foldl History.bindFile h') := by
  induction bound generalizing h' with
  | nil => exact ht
  | cons b bound ih => exact ih (ht.bindFile b)

/-- The policy, the cursor and the preparations are no part of what the journal shows. -/
theorem Represents.relabel (hrep : Represents h rs) (policy : Option Policy) (cursor : Option ℕ)
    (prepared : Token → List Prepared) :
    Represents { h with policy := policy, pruneCursor := cursor, prepared := prepared } rs where
  journal := ⟨hrep.journal.earlier, hrep.journal.records, hrep.journal.retention,
    hrep.journal.versions, hrep.journal.index⟩
  points := hrep.points
  accounts := ⟨hrep.accounts.refs, hrep.accounts.absent, hrep.accounts.present, hrep.accounts.sizes,
    hrep.accounts.bytes, hrep.accounts.finite, hrep.accounts.physical⟩
  sequences := hrep.sequences
  sizes := hrep.sizes
  bounded := hrep.bounded

theorem Turn.relabel (ht : Turn h rs out ns h') (policy : Option Policy) (cursor : Option ℕ)
    (prepared : Token → List Prepared) :
    Turn h rs out ns { h' with policy := policy, pruneCursor := cursor, prepared := prepared } where
  represents := ht.represents.relabel policy cursor prepared
  earlier := ht.earlier
  later := ht.later
  ends := ht.ends
  sequence := ht.sequence
  next := ht.next
  blobs := ht.blobs

/-- A step that changes nothing the journal shows. -/
theorem Turn.refl (hrep : Represents h rs) : Turn h rs [] [] h where
  represents := by rwa [dropKeys_nil, append_nil]
  earlier := by
    rw [append_nil]
    exact hrep.journal.earlier
  later := by simp
  ends l := by
    rw [dropKeys_nil]
    exact ⟨rfl, rfl⟩
  sequence := le_rfl
  next _ := le_rfl
  blobs _ _ _ := rfl

section

variable (hrep : Represents s.history rs) (hids : (changes.map (·.id)).Nodup)

include hrep hids

/-- What the first two loops of a capture plan. The changes are of distinct inodes, for the identity
of a record is made of the operation, the inode and whether it is a baseline. -/
theorem Planned.of_changes {policy : Policy} {d : Draft} {bound : List Bound}
    (hplan : planChanges s policy operation origin now changes {} = .ok (d, bound))
    (hnumber : numberPlans s.history d.plans
      { files := d.files, sequence := s.history.sequence.getD 0
        physical := (s.history.physicalBytes.getD 0 : ℕ) } = .ok g₀) : Planned s rs g₀ := by
  have hd := (Drafted.empty s).planChanges hids (fun _ _ _ h => h) hplan
  have hstart : Planned s rs { files := d.files, sequence := s.history.sequence.getD 0
                               physical := (s.history.physicalBytes.getD 0 : ℕ) } := by
    refine ⟨⟨?_, ?_, by simp [Ledger.records], le_rfl, fun e he => ?_, hd.keys,
      by simp [Ledger.records], by simp [Ledger.records], by simp [Ledger.records]⟩, .nil s rs,
      by simp⟩
    · simpa [Ledger.records] using hrep.journal.earlier
    · simpa [Ledger.records] using hrep.sequences
    · obtain ⟨hnext, hhead, hrec⟩ := hd.opened e he
      exact ⟨hnext, by rw [hhead]; rfl, by rw [hrec]; rfl⟩
  exact hstart.run hrep hd.sound hd.lineages (by simpa [Ledger.records] using hd.nodup) hnumber

omit hrep hids in
theorem bindFiles_eq (bound : List Bound) (h : HistoryKeys) :
    ∃ file, bound.foldl bindFile h = { h with file } := by
  induction bound generalizing h with
  | nil => exact ⟨_, rfl⟩
  | cons b bound ih =>
    obtain ⟨_, heq⟩ := ih (bindFile h b)
    rw [foldl_cons, heq, bindFile]
    split <;> exact ⟨_, rfl⟩

omit hrep hids in
theorem path_dropAll (h : HistoryKeys) (out : List Record) :
    (out.foldl dropRecord h).path = h.path := by
  induction out generalizing h with
  | nil => rfl
  | cons r out ih => exact ih (dropRecord h r)

omit hrep hids in
theorem path_addAll (hpath : h'.path = h.path) (ns : List Record) :
    (ns.foldl addRecord h').path = (ns.foldl addRecord h).path := by
  induction ns generalizing h h' with
  | nil => exact hpath
  | cons r ns ih =>
    refine ih ?_
    simp only [addRecord, hpath]

omit hrep hids in
/-- What a capture has done when it returns: it has bound the changes, and perhaps written records. -/
theorem capture_cases {cap : Captured} (hcap : capture s operation origin now changes = .ok cap) :
    (∃ bound : List Bound, cap.history = bound.foldl bindFile s.history) ∨
    ∃ (d : Draft) (bound : List Bound) (g₀ g : Ledger) (bytes : ℤ) (out : List Record) (h' : HistoryKeys),
      planChanges s (s.history.policy.getD {}) operation origin now changes {} = .ok (d, bound) ∧
      numberPlans s.history d.plans
        { files := d.files, sequence := s.history.sequence.getD 0
          physical := (s.history.physicalBytes.getD 0 : ℕ) } = .ok g₀ ∧
      ((s.history.bytes.getD 0 : ℕ) : ℤ) + g₀.added < counterLimit ∧
      makeRoom s.history (s.history.policy.getD {}) g₀ (s.history.bytes.getD 0 : ℕ) =
        .ok (g, bytes, out) ∧
      writeHistory s g bytes out = .ok h' ∧ cap.history = bound.foldl bindFile h' := by
  unfold capture at hcap
  obtain ⟨-, hcap⟩ | ⟨-, hcap⟩ := ite_eq_iff.mp hcap
  · cases hcap
    exact .inl ⟨[], rfl⟩
  obtain ⟨⟨d, bound⟩, hplan, hcap⟩ := bind_eq_ok hcap
  obtain ⟨-, hcap⟩ | ⟨-, hcap⟩ := ite_eq_iff.mp hcap
  · cases hcap
    exact .inl ⟨bound, rfl⟩
  obtain ⟨h', hrecords, hcap⟩ := bind_eq_ok hcap
  cases hcap
  unfold captureRecords at hrecords
  obtain ⟨g₀, hnumber, hrecords⟩ := bind_eq_ok hrecords
  obtain ⟨hlimit, hrecords⟩ := of_ite_eq_ok hrecords
  obtain ⟨⟨g, bytes, out⟩, hroom, hrecords⟩ := bind_eq_ok hrecords
  simp only [not_or, not_le] at hlimit
  exact .inr ⟨d, bound, g₀, g, bytes, out, h', hplan, hnumber, hlimit.2.1, hroom, hrecords, rfl⟩

/-- **A capture evolves the journal**, and indexes its records by path. -/
theorem capture_evolves {cap : Captured} (hcap : capture s operation origin now changes = .ok cap) :
    ∃ out ns, Turn s.history rs out ns cap.history ∧
      cap.history.path = (ns.foldl addRecord s.history).path := by
  obtain ⟨bound, hhistory⟩ | ⟨d, bound, g₀, g, bytes, out, h', hplan, hnumber, hlimit, hroom, hrecords, hhistory⟩ :=
    capture_cases hcap
  · obtain ⟨_, hbind⟩ := bindFiles_eq bound s.history
    refine ⟨[], [], hhistory ▸ (Turn.refl hrep).bindFiles bound, ?_⟩
    rw [hhistory, hbind]
    rfl
  have hg := Planned.of_changes hrep hids hplan hnumber
  have he := makeRoom_evicting hg hrep hroom
  obtain ⟨_, hbind⟩ := bindFiles_eq bound h'
  refine ⟨out, g₀.records, hhistory ▸ (writeHistory_turn hrep hg he hlimit hrecords).bindFiles bound, ?_⟩
  have hplans : g.records = g₀.records := by rw [he.same]; rfl
  rw [hhistory, hbind, ← hplans, writeHistory_ok hrecords]
  exact path_addAll (path_dropAll s.history out) g.records

theorem capture_turn {cap : Captured} (hcap : capture s operation origin now changes = .ok cap) :
    ∃ out ns, Turn s.history rs out ns cap.history := by
  obtain ⟨out, ns, hturn, -⟩ := capture_evolves hrep hids hcap
  exact ⟨out, ns, hturn⟩

end

end Capture

end Afs.History
