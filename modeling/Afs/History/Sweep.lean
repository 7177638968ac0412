import Afs.History.Evolution

/-!
# Sweeps

What a page of the retention sweep removes, as a choice from the journal: the candidates are
visited oldest first, and a record goes if no pointer of its lineage names it and one of the three
limits asks for it, given what the page has already planned to remove.
-/

namespace Afs.History

open List

/-- A pointer of its lineage names the record. -/
def Protected (h : HistoryKeys) (r : Record) : Prop :=
  some r.id = (entry h r.fileId).head ∨ some r.id = (entry h r.fileId).recoverable

instance (h : HistoryKeys) (r : Record) : Decidable (Protected h r) :=
  inferInstanceAs (Decidable (_ ∨ _))

/-- One of the limits asks for a record of a lineage with `count` versions while `retained` bytes
are kept. -/
def Asked (policy : Policy) (cutoff : ℤ) (count : ℕ) (retained : ℤ) (r : Record) : Prop :=
  (0 < policy.maxVersions ∧ policy.maxVersions < count) ∨
  (0 < policy.maxAgeDays ∧ (r.createdAt : ℤ) < cutoff) ∨
  (0 < policy.maxBytes ∧ (policy.maxBytes : ℤ) < retained)

instance (policy : Policy) (cutoff : ℤ) (count : ℕ) (retained : ℤ) (r : Record) :
    Decidable (Asked policy cutoff count retained r) :=
  inferInstanceAs (Decidable (_ ∨ _ ∨ _))

/-- The record goes when it is visited after `out` was planned to go. -/
def Goes (h : HistoryKeys) (policy : Policy) (cutoff : ℤ) (rs out : List Record) (r : Record) : Prop :=
  ¬ Protected h r ∧
  Asked policy cutoff (lineage (dropKeys Record.id out rs) r.fileId).length
    ((dropKeys Record.id out rs).map Record.bytes).sum r

instance (h : HistoryKeys) (policy : Policy) (cutoff : ℤ) (rs out : List Record) (r : Record) :
    Decidable (Goes h policy cutoff rs out r) :=
  inferInstanceAs (Decidable (_ ∧ _))

/-- The records a page removes. -/
def chosen (h : HistoryKeys) (policy : Policy) (cutoff : ℤ) (rs : List Record) :
    List Record → List Record → List Record
  | [], out => out
  | r :: visited, out =>
    chosen h policy cutoff rs visited (if Goes h policy cutoff rs out r then out ++ [r] else out)

/-- The blobs of a sweep, as a ledger has them. -/
def Sweep.ledger (w : Sweep) (h : HistoryKeys) : List BlobState :=
  w.blobs.map fun b => ⟨b.1, b.2.1, b.2.2, ((h.blobmeta b.1).map (·.ref)).getD .ext, false, none⟩

/-- What a sweep has planned when it is to remove the records `out`. -/
structure Sweeping (s : Store) (rs out : List Record) (w : Sweep) : Prop where
  plans : w.plans = out
  stale : w.stale = []
  sub : out ⊆ rs
  nodup : (out.map (·.id)).Nodup
  spared : ∀ r ∈ out, ¬ Protected s.history r
  retained : w.retained = ((dropKeys Record.id out rs).map Record.bytes).sum
  files : ∀ st ∈ w.files, some st.head = (entry s.history st.id).head ∧
    st.recoverable = (entry s.history st.id).recoverable ∧
    st.count = (lineage (dropKeys Record.id out rs) st.id).length
  opened : ∀ r ∈ out, ∃ st ∈ w.files, st.id = r.fileId
  shares : Shares s rs [] out (w.ledger s.history)

section Visit

variable {s : Store} {policy : Policy} {cutoff : ℤ} {rs out : List Record} {w w' : Sweep} {r : Record}
  {l : LineageId} {p : RecordId}

section

variable (hrep : Represents s.history rs)

include hrep

/-- A pointer of a lineage leads to a record of it. -/
theorem Represents.pointed
    (hp : some p = (entry s.history l).head ∨ some p = (entry s.history l).recoverable) :
    ∃ r ∈ rs, r.id = p ∧ r.fileId = l := by
  obtain hp | hp := hp
  · rw [(hrep.points l).head] at hp
    obtain ⟨r, hr, hid⟩ := Option.map_eq_some_iff.mp hp.symm
    have hmem := mem_of_getLast? hr
    exact ⟨r, mem_of_mem_filter hmem, hid, lineage_fileId hmem⟩
  · rw [(hrep.points l).recoverable] at hp
    obtain ⟨r, hr, hid⟩ := Option.map_eq_some_iff.mp hp.symm
    have hmem := mem_of_mem_filter (mem_of_getLast? hr)
    exact ⟨r, mem_of_mem_filter hmem, hid, lineage_fileId hmem⟩

theorem Represents.recoverable (hr : r ∈ rs)
    (hp : some r.id = (entry s.history l).recoverable) : r.recoverable = true := by
  rw [(hrep.points l).recoverable] at hp
  obtain ⟨r', hr', hid⟩ := Option.map_eq_some_iff.mp hp.symm
  have hmem := mem_of_getLast? hr'
  have hrs := mem_of_mem_filter (mem_of_mem_filter hmem)
  rw [inj_on_of_nodup_map hrep.journal.nodup hr hrs hid.symm]
  exact (mem_filter.mp hmem).2

theorem Represents.score (hr : r ∈ rs) :
    (s.history.versions r.fileId).score r.id = some r.version := by
  rw [hrep.journal.versions]
  exact score_map (f := Record.version) (nodup_filter hrep.journal.nodup _) (mem_lineage hr)

/-- The pointers of a represented history pass the check of the sweep. -/
theorem protectedOk_of_represents
    (hp : some p = (entry s.history l).head ∨ some p = (entry s.history l).recoverable) :
    protectedOk s.history l (entry s.history l).recoverable p = .ok () := by
  obtain ⟨r, hr, rfl, rfl⟩ := hrep.pointed hp
  rw [protectedOk, hrep.journal.record_iff.mpr ⟨hr, rfl⟩, hrep.score hr]
  refine if_neg ?_
  rintro (h | h | ⟨hrec, hdel⟩)
  · exact h rfl
  · exact h rfl
  · have hrec' := hrep.recoverable hr hrec
    rw [Record.recoverable, hdel] at hrec'
    cases hrec'

end

/-- A lineage that loses nothing is as it was. -/
theorem lineage_dropKeys_of_forall (hnodup : (rs.map (·.id)).Nodup) (hsub : out ⊆ rs)
    (hl : ∀ r ∈ out, r.fileId ≠ l) : lineage (dropKeys Record.id out rs) l = lineage rs l := by
  have hcomm : lineage (dropKeys Record.id out rs) l = dropKeys Record.id out (lineage rs l) :=
    filter_comm _ _ _
  rw [hcomm]
  refine filter_eq_self.mpr fun r hr => decide_eq_true fun hmem => ?_
  obtain ⟨r', hr', hid⟩ := mem_map.mp hmem
  rw [inj_on_of_nodup_map hnodup (hsub hr') (mem_of_mem_filter hr) hid] at hr'
  exact hl r hr' (lineage_fileId hr)

variable {h : HistoryKeys}

/-- A lineage whose pointers pass the check is read. -/
theorem lineageState_read {head : RecordId}
    (hf : w.files.find? (·.id = l) = none) (hhead : (entry h l).head = some head)
    (hok : ∀ p, some p = (entry h l).head ∨ some p = (entry h l).recoverable →
      protectedOk h l (entry h l).recoverable p = .ok ()) : lineageState h w l =
      .ok (⟨l, head, (entry h l).recoverable, (h.versions l).length⟩,
        { w with files :=
            ⟨l, head, (entry h l).recoverable, (h.versions l).length⟩ :: w.files }) := by
  have hhead' := hok head (.inl hhead.symm)
  unfold entry at hhead hhead' hok ⊢
  unfold lineageState
  rw [hf]
  dsimp only
  rw [hhead]
  dsimp only
  rw [hhead']
  cases hrec : ((h.file l).getD {}).recoverable with
  | none => rfl
  | some p =>
    have hp := hok p (.inr hrec.symm)
    rw [hrec] at hp
    dsimp only
    rw [hp]
    rfl

/-- The state of a lineage, read the first time or again. -/
theorem Sweeping.lineageState (hw : Sweeping s rs out w) (hrep : Represents s.history rs) (hr : r ∈ rs) :
    ∃ st w₁, lineageState s.history w r.fileId = .ok (st, w₁) ∧ Sweeping s rs out w₁ ∧
      st ∈ w₁.files ∧ st.id = r.fileId := by
  cases hf : w.files.find? (·.id = r.fileId) with
  | some st =>
    refine ⟨st, w, ?_, hw, mem_of_find?_eq_some hf, by simpa using List.find?_some hf⟩
    rw [History.lineageState, hf]
  | none =>
    cases hhead : (entry s.history r.fileId).head with
    | none =>
      -- A lineage with a record has a head.
      rw [(hrep.points r.fileId).head, Option.map_eq_none_iff, List.getLast?_eq_none_iff] at hhead
      have hmem := mem_lineage hr
      rw [hhead] at hmem
      cases hmem
    | some head =>
      have hnone : ∀ r' ∈ out, r'.fileId ≠ r.fileId := fun r' hr' he => by
        obtain ⟨st, hst, hid⟩ := hw.opened r' hr'
        exact List.find?_eq_none.mp hf st hst (decide_eq_true (hid.trans he))
      have hcount : (s.history.versions r.fileId).length =
          (lineage (dropKeys Record.id out rs) r.fileId).length := by
        rw [lineage_dropKeys_of_forall hrep.journal.nodup hw.sub hnone, hrep.journal.versions,
          length_map]
      refine ⟨_, _, lineageState_read hf hhead fun p hp => protectedOk_of_represents hrep hp, ?_,
        mem_cons_self, rfl⟩
      refine { hw with files := fun st hst => ?_, opened := fun r' hr' => ?_ }
      · rcases mem_cons.mp hst with rfl | hst
        · exact ⟨hhead.symm, rfl, hcount⟩
        · exact hw.files st hst
      · obtain ⟨st, hst, hid⟩ := hw.opened r' hr'
        exact ⟨st, mem_cons_of_mem _ hst, hid⟩

theorem mem_ledger {b : Bytes × ℤ × ℤ} (hb : b ∈ w.blobs) :
    (⟨b.1, b.2.1, b.2.2, ((h.blobmeta b.1).map (·.ref)).getD .ext, false, none⟩ : BlobState) ∈
      w.ledger h :=
  mem_map_of_mem hb

theorem ledger_cons_filter (id : Bytes) (count size : ℤ) :
    Sweep.ledger { w with blobs := (id, count, size) :: w.blobs.filter (·.1 ≠ id) } h =
      setBlob (w.ledger h)
        ⟨id, count, size, ((h.blobmeta id).map (·.ref)).getD .ext, false, none⟩ := by
  rw [Sweep.ledger, map_cons, setBlob, Sweep.ledger, filter_map]
  rfl

/-- A record that stays so far has a share of its blob to give up. -/
theorem Sweeping.releaseBlob (hw : Sweeping s rs out w) (hrep : Represents s.history rs) (hr : r ∈ rs)
    (hnot : r.id ∉ out.map Record.id) (q : ℤ) (plans : List Record) :
    ∃ blobs, releaseBlob s.history { w with retained := q, plans := plans } r =
        .ok { w with retained := q, plans := plans, blobs := blobs } ∧
      Shares s rs [] (out ++ [r]) (Sweep.ledger { w with blobs := blobs } s.history) := by
  unfold History.releaseBlob
  cases hid : r.blobId with
  | none => exact ⟨w.blobs, rfl, hw.shares.leave (.none hid) hr⟩
  | some id =>
    have hname := naming_dropKeys hrep.journal.nodup hw.nodup hw.sub id
    have hpos : 0 < naming (dropKeys Record.id out rs) id :=
      countP_pos_iff.mpr ⟨r, mem_dropKeys.mpr ⟨hr, hnot⟩, decide_eq_true hid⟩
    have hne : naming rs id ≠ 0 := by omega
    obtain ⟨m, body, hm, hbody, hfits⟩ := hrep.accounts.present id hne
    have hsize : r.size = m.size := hrep.accounts.sizes r hr id m hid hm
    dsimp only
    cases hf : w.blobs.find? (·.1 = id) with
    | some b =>
      obtain ⟨id', count, size⟩ := b
      obtain rfl : id' = id := by simpa using List.find?_some hf
      have hb := mem_ledger (h := s.history) (mem_of_find?_eq_some hf)
      have hcount := hw.shares.count _ hb
      have hknown := hw.shares.known _ hb rfl
      dsimp only at hcount hknown
      have hzero : naming ([] : List Record) id' = 0 := rfl
      have hpos' : ¬ count ≤ 0 := by omega
      dsimp only
      rw [if_neg hpos']
      refine ⟨_, rfl, ?_⟩
      rw [ledger_cons_filter]
      refine hw.shares.leave (.planned _ hid hb ?_) hr
      rw [hm] at hknown
      exact (congrArg BlobMeta.size (Option.some.inj hknown)).symm.trans hsize.symm
    | none =>
      have hrefs := hrep.accounts.refs id
      rw [if_neg hne] at hrefs
      have hunl : id ∉ (w.ledger s.history).map (·.id) := fun hmem => by
        rw [Sweep.ledger, map_map] at hmem
        obtain ⟨b, hb, hbid⟩ := mem_map.mp hmem
        exact List.find?_eq_none.mp hf b hb (decide_eq_true hbid)
      have hfound : Found s.history rs (w.ledger s.history) r
          (some ⟨id, naming rs id, r.size, m.ref, false, none⟩) :=
        .stored _ hid hunl rfl rfl rfl (by simp [hne]) (by simp) (fun _ => by rw [hm, hsize])
      have hleave := hw.shares.leave hfound hr
      rw [releasedBlobs, setBlob] at hleave
      have hself : (w.ledger s.history).filter (·.id ≠ id) = w.ledger s.history :=
        filter_eq_self.mpr fun b hb => decide_eq_true fun he =>
          hunl (he ▸ mem_map_of_mem hb)
      dsimp only at hleave
      rw [hself] at hleave
      refine ⟨(id, (naming rs id : ℤ) - 1, r.size) :: w.blobs, ?_, ?_⟩
      · dsimp only
        rw [hrefs, hm, hbody]
        dsimp only
        rw [if_neg hne, if_neg (not_not.mpr hsize.symm)]
        cases body with
        | str b =>
          rw [hfits.1]
          exact if_pos (decide_eq_true hfits.2)
        | array chunks =>
          rw [show m.ref = .array from hfits]
          rfl
      · rw [Sweep.ledger, map_cons, hm]
        exact hleave

section

variable (hnodup : (rs.map (·.id)).Nodup) (hr : r ∈ rs) (hnot : r.id ∉ out.map Record.id)

include hnodup hr hnot

theorem perm_dropKeys_snoc :
    (r :: dropKeys Record.id (out ++ [r]) rs).Perm (dropKeys Record.id out rs) := by
  rw [dropKeys_snoc]
  exact perm_cons_filter_ne (k := Record.id) (nodup_filter hnodup _) (mem_dropKeys.mpr ⟨hr, hnot⟩)

theorem sum_bytes_dropKeys_snoc : ((dropKeys Record.id out rs).map Record.bytes).sum =
      r.bytes + ((dropKeys Record.id (out ++ [r]) rs).map Record.bytes).sum := by
  rw [← sum_cons, ← map_cons]
  exact ((perm_dropKeys_snoc hnodup hr hnot).map Record.bytes).sum_eq.symm

theorem length_lineage_dropKeys_snoc (l : LineageId) :
    (lineage (dropKeys Record.id out rs) l).length =
      (lineage (dropKeys Record.id (out ++ [r]) rs) l).length + if r.fileId = l then 1 else 0 := by
  have hlen := ((perm_dropKeys_snoc hnodup hr hnot).filter fun r' => decide (r'.fileId = l)).length_eq
  rw [lineage, lineage, ← hlen, filter_cons]
  by_cases hl : r.fileId = l <;> simp [hl]

end

/-- **What a visit does.** -/
theorem Sweeping.visit (hw : Sweeping s rs out w) (policy : Policy) (cutoff : ℤ)
    (hrep : Represents s.history rs) (hr : r ∈ rs) (hnot : r.id ∉ out.map Record.id) (hkind : r.Leaf) :
    ∃ w', sweepOne s.history policy cutoff w r.id = .ok w' ∧
      Sweeping s rs (if Goes s.history policy cutoff rs out r then out ++ [r] else out) w' := by
  obtain ⟨st, w₁, hstate, hw₁, hst, hid⟩ := hw.lineageState hrep hr
  obtain ⟨hhead, hrec, hcount⟩ := hw₁.files st hst
  rw [hid] at hhead hrec hcount
  have hsize := hrep.sizes r hr
  have hvalid : ¬ (r.id ≠ r.id ∨ (r.type ≠ some .file ∧ r.type ≠ some .symlink) ∨
      r.size < 0 ∨ counterLimit ≤ r.size) := by
    rintro (h | h | h | h)
    · exact h rfl
    · exact hkind.elim h.1 h.2
    · omega
    · omega
  have hpointed : ¬ (st.recoverable.isNone = true ∧ r.type = some .file ∧ !r.deleted ∧ !r.metadataOnly) := by
    rintro ⟨hnone, -, hdel, hmeta⟩
    rw [hrec, (hrep.points r.fileId).recoverable, Option.isNone_iff_eq_none, Option.map_eq_none_iff,
      List.getLast?_eq_none_iff] at hnone
    have hmem : r ∈ (lineage rs r.fileId).filter Record.recoverable :=
      mem_filter.mpr ⟨mem_lineage hr, by simp [Record.recoverable, hdel, hmeta]⟩
    rw [hnone] at hmem
    cases hmem
  have hscore : ¬ ((s.history.versions r.fileId).score r.id ≠ some r.version) :=
    not_not.mpr (hrep.score hr)
  have hgoes : (r.id ≠ st.head ∧ some r.id ≠ st.recoverable ∧
      ((0 < policy.maxVersions ∧ policy.maxVersions < st.count) ∨
        (0 < policy.maxAgeDays ∧ (r.createdAt : ℤ) < cutoff) ∨
        (0 < policy.maxBytes ∧ (policy.maxBytes : ℤ) < w₁.retained))) ↔
      Goes s.history policy cutoff rs out r := by
    have hne : r.id ≠ st.head ↔ some r.id ≠ (entry s.history r.fileId).head := by
      rw [← hhead]
      simp
    rw [Goes, Protected, Asked, hrec, hcount, hw₁.retained, hne, not_or, and_assoc]
  unfold sweepOne
  rw [hrep.journal.record_iff.mpr ⟨hr, rfl⟩]
  dsimp only
  rw [if_neg hvalid, hstate, ok_bind]
  dsimp only
  rw [if_neg hpointed, if_neg hscore]
  by_cases hg : Goes s.history policy cutoff rs out r
  · rw [if_pos (hgoes.mpr hg), if_pos hg]
    have hbytes : (if r.type = some .file ∧ !r.deleted ∧ !r.metadataOnly then w₁.retained - r.size
        else w₁.retained) = ((dropKeys Record.id (out ++ [r]) rs).map Record.bytes).sum := by
      have hsum := sum_bytes_dropKeys_snoc hrep.journal.nodup hr hnot
      rw [hw₁.retained, hsum, Record.bytes]
      split <;> omega
    have hnonneg : 0 ≤ ((dropKeys Record.id (out ++ [r]) rs).map Record.bytes).sum :=
      sum_bytes_nonneg fun r' hr' => (hrep.sizes r' (dropKeys_subset hr')).1
    obtain ⟨blobs, hrelease, hshares⟩ := hw₁.releaseBlob hrep hr hnot
      ((dropKeys Record.id (out ++ [r]) rs).map Record.bytes).sum (w₁.plans ++ [r])
    rw [hbytes, if_neg (not_lt.mpr hnonneg), hrelease, ok_bind]
    have hlen := length_lineage_dropKeys_snoc hrep.journal.nodup hr hnot
    refine ⟨_, rfl, by rw [hw₁.plans], hw₁.stale, fun r' hr' => ?_, ?_, fun r' hr' => ?_, rfl,
      fun st' hst' => ?_, fun r' hr' => ?_, hshares⟩
    · rcases mem_append.mp hr' with hr' | hr'
      · exact hw.sub hr'
      · rwa [mem_singleton.mp hr']
    · rw [map_append, nodup_append]
      refine ⟨hw.nodup, nodup_singleton _, fun x hx y hy => ?_⟩
      rw [map_singleton, mem_singleton] at hy
      rw [hy]
      rintro rfl
      exact hnot hx
    · rcases mem_append.mp hr' with hr' | hr'
      · exact hw.spared r' hr'
      · rw [mem_singleton.mp hr']
        exact hg.1
    · rcases mem_cons.mp hst' with rfl | hst'
      · refine ⟨by rw [hid]; exact hhead, by rw [hid]; exact hrec, ?_⟩
        have hl := hlen r.fileId
        rw [if_pos rfl] at hl
        dsimp only
        rw [hid, hcount]
        omega
      · obtain ⟨hst', hne⟩ := mem_filter.mp hst'
        obtain ⟨h₁, h₂, h₃⟩ := hw₁.files st' hst'
        have hl := hlen st'.id
        rw [if_neg (Ne.symm (of_decide_eq_true hne)), add_zero] at hl
        exact ⟨h₁, h₂, h₃.trans hl⟩
    · by_cases hl : r'.fileId = r.fileId
      · exact ⟨_, mem_cons_self, hid.trans hl.symm⟩
      · rcases mem_append.mp hr' with hr' | hr'
        · obtain ⟨st', hst', hid'⟩ := hw₁.opened r' hr'
          exact ⟨st', mem_cons_of_mem _ (mem_filter.mpr ⟨hst', decide_eq_true (by
            rw [hid']
            exact hl)⟩), hid'⟩
        · rw [mem_singleton.mp hr'] at hl
          exact absurd rfl hl
  · rw [if_neg (mt hgoes.mp hg), if_neg hg]
    exact ⟨w₁, rfl, hw₁⟩

/-- A candidate that is neither a file nor a link fails the page. -/
theorem sweepOne_kind (hrep : Represents s.history rs) (hr : r ∈ rs)
    (hok : sweepOne s.history policy cutoff w r.id = .ok w') : r.Leaf := by
  by_contra hdir
  rw [Record.Leaf, not_or] at hdir
  unfold sweepOne at hok
  rw [hrep.journal.record_iff.mpr ⟨hr, rfl⟩] at hok
  dsimp only at hok
  rw [if_pos (.inr (.inl hdir))] at hok
  cases hok

/-- **What the visits of a page do.** -/
theorem Sweeping.run (policy : Policy) (cutoff : ℤ) (hrep : Represents s.history rs)
    {visited : List Record} (hsub : visited ⊆ rs)
    (hnodup : (out.map Record.id ++ visited.map Record.id).Nodup)
    (hkinds : ∀ r ∈ visited, r.Leaf) (hw : Sweeping s rs out w) :
    ∃ w', (visited.map Record.id).foldlM (sweepOne s.history policy cutoff) w = .ok w' ∧
      Sweeping s rs (chosen s.history policy cutoff rs visited out) w' := by
  induction visited generalizing out w with
  | nil => exact ⟨w, rfl, hw⟩
  | cons r visited ih =>
    obtain ⟨hr, hsub⟩ := cons_subset.mp hsub
    rw [map_cons, nodup_middle, nodup_cons, mem_append, not_or] at hnodup
    obtain ⟨⟨hnot, hnew⟩, hnodup⟩ := hnodup
    obtain ⟨w₁, hone, hw₁⟩ := hw.visit policy cutoff hrep hr hnot (hkinds r mem_cons_self)
    rw [map_cons, foldlM_cons, hone, ok_bind]
    refine ih hsub ?_ (fun r' hr' => hkinds r' (mem_cons_of_mem _ hr')) hw₁
    split
    · rw [map_append, map_singleton, append_assoc, singleton_append,
        nodup_middle, nodup_cons, mem_append, not_or]
      exact ⟨⟨hnot, hnew⟩, hnodup⟩
    · exact hnodup

end Visit

/-! ## A page -/

section Page

variable {s : Store} {h h' : HistoryKeys} {policy : Policy} {now cutoff : ℤ} {limit : ℕ}
  {rs out : List Record} {w : Sweep} {r : Record}

/-- The records a page visits. -/
def candidates (h : HistoryKeys) (limit : ℕ) (rs : List Record) : List Record :=
  (rs.filter fun r => h.pruneCursor.getD 0 < r.sequence).take limit

/-- The records a page removes. -/
def pruned (h : HistoryKeys) (policy : Policy) (now : ℤ) (limit : ℕ) (rs : List Record) : List Record :=
  chosen h policy (now - policy.maxAgeDays * 86400000) rs (candidates h limit rs) []

theorem candidates_subset : candidates h limit rs ⊆ rs := fun _ hr =>
  mem_of_mem_filter (mem_of_mem_take hr)

/-- The retention index lists the candidates. -/
theorem Represents.candidates (hrep : Represents h rs) :
    (h.retention.filter fun e => h.pruneCursor.getD 0 < e.2).take limit =
      (candidates h limit rs).map fun r => (r.id, r.sequence) := by
  rw [hrep.journal.retention, filter_map, ← map_take]
  rfl

theorem foldl_settleBlob (h : HistoryKeys) (blobs : List BlobState) :
    blobs.foldl (fun h b => settleBlob h (b.id, b.count, b.size)) h = { h with
      blobrefs := blobs.foldl (fun f b => Function.update f b.id
        (if b.count = 0 then none else some b.count.toNat)) h.blobrefs
      blobmeta := blobs.foldl (fun f b => Function.update f b.id
        (if b.count = 0 then none else f b.id)) h.blobmeta
      blob := blobs.foldl (fun f b => Function.update f b.id
        (if b.count = 0 then none else f b.id)) h.blob } := by
  induction blobs generalizing h with
  | nil => rfl
  | cons b blobs ih =>
    rw [foldl_cons, ih, settleBlob]
    by_cases hz : b.count = 0 <;> simp [hz]

/-- A sweep's blobs are written as a capture would write them. -/
theorem Shares.settleBlob (hs : Shares s rs [] out (w.ledger s.history))
    (hname : ∀ b, naming out b + naming (dropKeys Record.id out rs) b = naming rs b)
    (h₁ : HistoryKeys) (hrefs : h₁.blobrefs = s.history.blobrefs)
    (hmeta : h₁.blobmeta = s.history.blobmeta) (hblob : h₁.blob = s.history.blob) :
    w.blobs.foldl settleBlob h₁ = (w.ledger s.history).foldl (putBlob s) h₁ := by
  have hfold : w.blobs.foldl History.settleBlob h₁ =
      (w.ledger s.history).foldl (fun h b => History.settleBlob h (b.id, b.count, b.size)) h₁ := by
    rw [Sweep.ledger, foldl_map]
  have hnew : ∀ b ∈ w.ledger s.history, b.new = false := fun b hb => by
    obtain ⟨_, -, rfl⟩ := mem_map.mp hb
    rfl
  have hcount : ∀ b ∈ w.ledger s.history, b.count = 0 ∨ 0 < b.count := fun b hb => by
    have h₁ := hs.count b hb
    have h₂ := hname b.id
    omega
  rw [hfold, foldl_settleBlob, foldl_putBlob, hrefs, hmeta, hblob]
  congr 1
  · refine foldl_update_congr (u := fun b _ => if b.count = 0 then none else some b.count.toNat)
      (v := fun b _ => b.refs) hs.keys fun b hb => ?_
    rw [BlobState.refs]
    obtain hz | hp := hcount b hb
    · simp [hz]
    · simp [hp, hp.ne']
  · refine foldl_update_congr (u := fun b old => if b.count = 0 then none else old)
      (v := fun b _ => b.described) hs.keys fun b hb => ?_
    rw [BlobState.described, ← hs.known b hb (hnew b hb)]
    obtain hz | hp := hcount b hb
    · simp [hz]
    · simp [hp, hp.ne']
  · refine foldl_update_congr (u := fun b old => if b.count = 0 then none else old)
      (v := fun b old => b.value s old) hs.keys fun b hb => ?_
    rw [BlobState.value, hnew b hb]
    obtain hz | hp := hcount b hb
    · simp [hz]
    · simp [hp, hp.ne']

theorem policy_dropAll (h : HistoryKeys) (out : List Record) :
    (out.foldl dropRecord h).policy = h.policy ∧ (out.foldl dropRecord h).sequence = h.sequence := by
  induction out generalizing h with
  | nil => exact ⟨rfl, rfl⟩
  | cons r out ih => exact ih (dropRecord h r)

/-- What a sweep of no record has planned. -/
theorem Sweeping.start (hrep : Represents s.history rs) :
    Sweeping s rs [] { retained := (s.history.bytes.getD 0 : ℕ) } where
  plans := rfl
  stale := rfl
  sub := nil_subset _
  nodup := nodup_nil
  spared := by simp
  retained := by rw [dropKeys_nil]; exact hrep.accounts.bytes
  files := by simp
  opened := by simp
  shares := .nil s rs

/-- The bytes that go with the blobs nobody names any more. -/
theorem Shares.released (hs : Shares s rs [] out (w.ledger s.history))
    (hname : ∀ b, naming out b + naming (dropKeys Record.id out rs) b = naming rs b)
    (ha : Accounts s.history rs) :
    ((w.ledger s.history).map fun b => weigh BlobMeta.size b.described -
        weigh BlobMeta.size (s.history.blobmeta b.id)).sum =
      - ((w.blobs.filter fun b => b.2.1 = 0).map fun b => b.2.2).sum := by
  have hgained : ((w.ledger s.history).map BlobState.gained).sum = 0 := by
    rw [Sweep.ledger, map_map]
    exact sum_eq_zero fun x hx => by
      obtain ⟨b, -, rfl⟩ := mem_map.mp hx
      rfl
  have hfilter : ((w.ledger s.history).filter fun b => b.count ≤ 0).map (·.size) =
      (w.blobs.filter fun b => b.2.1 = 0).map fun b => b.2.2 := by
    rw [Sweep.ledger, filter_map, map_map]
    refine congrArg _ (filter_congr fun b hb => ?_)
    have h₁ := hs.count _ (mem_ledger hb)
    have h₂ := hname b.1
    dsimp only at h₁
    refine decide_eq_decide.mpr ?_
    dsimp only
    omega
  rw [hs.physical hname ha, hgained, hfilter, zero_sub]

/-- **What a page does.** -/
theorem prune_page (now : ℤ) (limit : ℕ) (hrep : Represents h rs) (hpolicy : h.policy = some policy)
    (hlimits : ¬ (policy.maxVersions = 0 ∧ policy.maxAgeDays = 0 ∧ policy.maxBytes = 0))
    (hkinds : ∀ r ∈ candidates h limit rs, r.Leaf) :
    ∃ h', prune h now limit = .ok h' ∧ Turn h rs (pruned h policy now limit rs) [] h' ∧
      h'.policy = h.policy ∧ h'.file = h.file ∧
      h'.pruneCursor = some (if (candidates h limit rs).length < limit then 0
        else ((candidates h limit rs).getLast?.map (·.sequence)).getD (h.pruneCursor.getD 0)) := by
  have hnodup : ((candidates h limit rs).map Record.id).Nodup :=
    hrep.journal.nodup.sublist (((take_sublist ..).trans filter_sublist).map _)
  obtain ⟨w, hfold, hw⟩ := Sweeping.run (s := { history := h }) policy
    (now - policy.maxAgeDays * 86400000) hrep candidates_subset (by simpa using hnodup) hkinds
    (.start hrep)
  change Sweeping _ rs (pruned h policy now limit rs) w at hw
  generalize pruned h policy now limit rs = out at hw ⊢
  have hname := naming_dropKeys hrep.journal.nodup hw.nodup hw.sub
  obtain ⟨hrefs, hmeta, hblob⟩ := blobs_dropAll h out
  have hput := hw.shares.settleBlob hname (out.foldl dropRecord h) hrefs hmeta hblob
  rw [foldl_putBlob] at hput
  have hreleased := hw.shares.released hname hrep.accounts
  have hretained : 0 ≤ w.retained := by
    rw [hw.retained]
    exact sum_bytes_nonneg fun r hr => (hrep.sizes r (dropKeys_subset hr)).1
  let released := ((w.blobs.filter fun b => b.2.1 = 0).map fun b => b.2.2).sum
  let h' : HistoryKeys := { w.blobs.foldl settleBlob (out.foldl dropRecord h) with
    pruneCursor := some (if (candidates h limit rs).length < limit then 0
      else ((candidates h limit rs).getLast?.map (·.sequence)).getD (h.pruneCursor.getD 0))
    bytes := some (max 0 w.retained).toNat
    physicalBytes := some ((h.physicalBytes.getD 0 : ℤ) - released).toNat }
  have hbytes : (h'.bytes.getD 0 : ℤ) = ((dropKeys Record.id out rs).map Record.bytes).sum := by
    rw [← hw.retained]
    show (((max 0 w.retained).toNat : ℕ) : ℤ) = _
    omega
  obtain ⟨haccounts, hblobs, hnonneg⟩ : Accounts h' _ ∧ _ ∧ _ :=
    hrep.accounts.settle hw.shares hname
    (by rw [← hrefs]; exact congrArg HistoryKeys.blobrefs hput)
    (by rw [← hmeta]; exact congrArg HistoryKeys.blobmeta hput)
    (by rw [← hblob]; exact congrArg HistoryKeys.blob hput)
    (by rw [append_nil]; exact hbytes)
    (by rw [hreleased]; rfl)
    (fun r hr => (hrep.sizes r (by simpa using hr)).1)
  have hphysical : ¬ ((h.physicalBytes.getD 0 : ℕ) : ℤ) < released := by
    rw [hreleased, ← sub_eq_add_neg] at hnonneg
    exact not_lt.mpr (sub_nonneg.mp hnonneg)
  have hbound : ¬ counterLimit ≤ (h.bytes.getD 0 : ℕ) := by
    have := hrep.bounded
    omega
  have hsame := congrArg (fun k => ((k.records, k.retention, k.versions), k.index, k.file, k.policy,
    k.sequence)) hput
  simp only [Prod.mk.injEq] at hsame
  obtain ⟨⟨hrecords, hretention, hversions⟩, hindex, hfile, hpol, hseq⟩ := hsame
  refine ⟨h', ?_, ?_, ?_, ?_, rfl⟩
  · unfold prune
    rw [hpolicy]
    dsimp only
    rw [if_neg hlimits, if_neg hbound, hrep.candidates, map_map]
    erw [hfold]
    rw [ok_bind, hw.plans, hw.stale, length_map, List.getLast?_map, Option.map_map]
    exact if_neg hphysical
  · refine .of_accounts hrep hw.nodup hw.sub ?_ (by simp) (by simp) (fun r hr => ?_)
      ⟨hrecords, hretention, hversions, hindex, hfile⟩ haccounts hblobs ?_ (by simp) ?_
    · rw [append_nil]
      exact hrep.journal.earlier
    · have hspared := hw.spared r hr
      rw [Protected, not_or] at hspared
      exact hspared
    · exact (congrArg (Option.getD · 0) (hseq.trans (policy_dropAll h out).2)).ge
    · have hout := sum_bytes_nonneg fun r hr => (hrep.sizes r (hw.sub hr)).1
      have hsum := sum_bytes_dropKeys hrep.journal.nodup hw.nodup hw.sub
      have hall := hrep.accounts.bytes
      have := hrep.bounded
      rw [hbytes]
      omega
  · exact hpol.trans (policy_dropAll h out).1
  · exact hfile.trans (file_dropAll h out)

/-- A page that passes has met only files and links. -/
theorem foldlM_sweepOne_kind (hrep : Represents s.history rs) {visited : List Record}
    (hsub : visited ⊆ rs) {w' : Sweep}
    (hok : (visited.map Record.id).foldlM (sweepOne s.history policy cutoff) w = .ok w') :
    ∀ r ∈ visited, r.Leaf := by
  induction visited using List.reverseRecOn generalizing w' with
  | nil => simp
  | append_singleton visited r ih =>
    rw [map_append, map_singleton, foldlM_append] at hok
    obtain ⟨w₁, hfold, hone⟩ := bind_eq_ok hok
    have hold := ih (fun r' hr' => hsub (mem_append_left _ hr')) hfold
    have hr : r ∈ rs := hsub (mem_append_right _ (mem_singleton_self r))
    obtain ⟨w₂, hone, -⟩ := bind_eq_ok hone
    intro r' hr'
    rcases mem_append.mp hr' with hr' | hr'
    · exact hold r' hr'
    · rw [mem_singleton.mp hr']
      exact sweepOne_kind hrep hr hone

/-- **A page that passes only gives up records.** -/
theorem prune_turn (hrep : Represents h rs) (hok : prune h now limit = .ok h') :
    ∃ out, Turn h rs out [] h' := by
  have hok' := hok
  unfold prune at hok'
  cases hpolicy : h.policy with
  | none =>
    rw [hpolicy] at hok'
    cases hok'
    exact ⟨[], .refl hrep⟩
  | some policy =>
    rw [hpolicy] at hok'
    dsimp only at hok'
    obtain ⟨-, hok'⟩ | ⟨hlimits, hok'⟩ := ite_eq_iff.mp hok'
    · cases hok'
      exact ⟨[], .refl hrep⟩
    obtain ⟨-, hok'⟩ := of_ite_eq_ok hok'
    obtain ⟨w, hfold, -⟩ := bind_eq_ok hok'
    rw [hrep.candidates, map_map] at hfold
    have hkinds := foldlM_sweepOne_kind (s := { history := h }) hrep candidates_subset hfold
    obtain ⟨h₁, hpage, hturn, -⟩ := prune_page now limit hrep hpolicy hlimits hkinds
    rw [hok] at hpage
    cases hpage
    exact ⟨_, hturn⟩

end Page

end Afs.History
