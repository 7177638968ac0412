import Mathlib.Order.Interval.Finset.Nat
import Afs.History.Evolution

/-!
# When a capture finds room

Under a byte limit a capture gives up old file versions until the new ones fit. It looks for them
among the first 128 entries of the retention index only. In a history whose keys show its records
nothing else can go wrong on the way: the walk reads every blob it needs, and what it releases is
covered by the totals.
-/

namespace Afs.History

open List

/-! ## What could be given up -/

/-- `history_capture` under a given policy. -/
def captureUnder (policy : Policy) (s : Store) (operation origin : Token) (now : ℕ)
    (changes : List Change) : Except LuaError Captured :=
  if policy.mode = .off ∧ ¬ changes.any (·.force) then .ok ⟨false, s.history, []⟩
  else do
    let (d, bound) ← planChanges s policy operation origin now changes {}
    if d.plans = [] then pure ⟨false, bound.foldl bindFile s.history, bound⟩
    else do
      let h ← captureRecords s policy d
      pure ⟨true, bound.foldl bindFile h, bound⟩

theorem capture_eq_captureUnder (s : Store) (operation origin : Token) (now : ℕ)
    (changes : List Change) : capture s operation origin now changes =
      captureUnder (s.history.policy.getD {}) s operation origin now changes := rfl

/-- The policy without its byte limit. -/
def Policy.unlimited (p : Policy) : Policy := { p with maxBytes := 0 }

/-- The byte limit of the policy allows `bytes`. -/
def Policy.Admits (p : Policy) (bytes : ℤ) : Prop := p.maxBytes = 0 ∨ bytes ≤ p.maxBytes

instance (p : Policy) (bytes : ℤ) : Decidable (p.Admits bytes) :=
  inferInstanceAs (Decidable (_ ∨ _))

/-- The record is a file snapshot that no pointer of its lineage in `h` protects. -/
def Record.unprotected (h : HistoryKeys) (r : Record) : Bool :=
  some r.id ≠ (entry h r.fileId).head ∧ some r.id ≠ (entry h r.fileId).recoverable ∧
    r.type = some .file ∧ !r.deleted ∧ !r.metadataOnly

/-- The bytes of the file snapshots of `h` among `ids` that `h'` does not protect. -/
def reclaimable (h h' : HistoryKeys) (ids : List RecordId) : ℤ :=
  (((ids.filterMap h.records).filter (Record.unprotected h')).map (·.size)).sum

/-- Where `h'` is the history after a publication, its bytes are within the limit once the
unprotected snapshots of `h` among `ids` are gone. -/
def FitsWithout (policy : Policy) (h h' : HistoryKeys) (ids : List RecordId) : Prop :=
  policy.Admits (h'.bytes.getD 0 - reclaimable h h' ids)

instance (policy : Policy) (h h' : HistoryKeys) (ids : List RecordId) :
    Decidable (FitsWithout policy h h' ids) := inferInstanceAs (Decidable (Policy.Admits ..))

/-! ## The byte limit is only read to make room -/

section Unlimited

variable {s : Store} {policy : Policy} {operation origin : Token} {now : ℕ}

theorem planVersions_unlimited (c : Change) (l : LineageId) (next : ℕ) (old new : Path)
    (bh ah : Hash) (d : Draft) :
    planVersions s policy.unlimited operation origin now c l next old new bh ah d =
      planVersions s policy operation origin now c l next old new bh ah d := by
  have hsnapshot : ∀ a d, snapshot s policy.unlimited operation origin now c a d =
      snapshot s policy operation origin now c a d := fun _ _ => rfl
  unfold planVersions
  simp only [hsnapshot]

theorem planChange_unlimited (d : Draft) (c : Change) :
    planChange s policy.unlimited operation origin now d c =
      planChange s policy operation origin now d c := by
  have hmatches : ∀ path, policyMatches policy.unlimited path = policyMatches policy path :=
    fun _ => rfl
  unfold planChange
  simp only [planVersions_unlimited, hmatches]

theorem planChanges_unlimited (cs : List Change) (d : Draft) :
    planChanges s policy.unlimited operation origin now cs d =
      planChanges s policy operation origin now cs d := by
  induction cs generalizing d with
  | nil => rfl
  | cons c cs ih =>
    rw [planChanges, planChanges]
    simp only [ih, planChange_unlimited]

end Unlimited

/-! ## The walk does not fail -/

variable {h : HistoryKeys}

section Walk

variable {s : Store} {rs out : List Record} {g₀ g : Ledger} {bytes : ℤ} {r : Record}

/-- Records have distinct sequence numbers, so there are no more of them than were given. -/
theorem Represents.length_le (hrep : Represents h rs) : rs.length ≤ h.sequence.getD 0 := by
  have hnodup : (rs.map (·.sequence)).Nodup :=
    pairwise_map.mpr (hrep.journal.earlier.imp fun he => he.sequence.ne)
  have hsub : (rs.map (·.sequence)).toFinset ⊆ Finset.Icc 1 (h.sequence.getD 0) := fun n hn => by
    obtain ⟨r, hr, rfl⟩ := mem_map.mp (mem_toFinset.mp hn)
    exact Finset.mem_Icc.mpr (hrep.sequences r hr)
  have hcard := Finset.card_le_card hsub
  rw [toFinset_card_of_nodup hnodup, length_map, Nat.card_Icc] at hcard
  omega

/-- The blob of a record that stays so far is read, and has a share to give up. -/
theorem Shares.blobState_ok {ns : List Record} {blobs : List BlobState}
    (hs : Shares s rs ns out blobs) (hrep : Represents s.history rs)
    (hseq : (s.history.sequence.getD 0 : ℤ) < counterLimit) (hout : (out.map (·.id)).Nodup)
    (hsub : out ⊆ rs) (hr : r ∈ rs) (hnot : r.id ∉ out.map (·.id)) :
    ∃ blob, blobState s.history blobs r = .ok blob ∧ blob.any (·.count ≤ 0) = false := by
  unfold blobState
  cases hid : r.blobId with
  | none => exact ⟨none, rfl, rfl⟩
  | some id =>
    have hname := naming_dropKeys hrep.journal.nodup hout hsub id
    have hpos : 0 < naming (dropKeys Record.id out rs) id :=
      countP_pos_iff.mpr ⟨r, mem_dropKeys.mpr ⟨hr, hnot⟩, decide_eq_true hid⟩
    have hne : naming rs id ≠ 0 := by omega
    obtain ⟨m, body, hm, hbody, hfits⟩ := hrep.accounts.present id hne
    have hsize : r.size = m.size := hrep.accounts.sizes r hr id m hid hm
    dsimp only
    cases hf : blobs.find? (·.id = id) with
    | some b =>
      obtain rfl : b.id = id := by simpa using List.find?_some hf
      have hb := mem_of_find?_eq_some hf
      have hnew : b.new = false := by
        cases hnew : b.new with
        | false => rfl
        | true => exact absurd ((hs.fresh b hb).mp hnew) hne
      have hknown := hs.known b hb hnew
      rw [hm] at hknown
      cases hknown
      have hcount := hs.count b hb
      refine ⟨some b, if_neg (not_not.mpr hsize.symm), decide_eq_false ?_⟩
      omega
    | none =>
      have hrefs := hrep.accounts.refs id
      rw [if_neg hne] at hrefs
      have hle : naming rs id ≤ s.history.sequence.getD 0 :=
        (countP_le_length).trans hrep.length_le
      have hcount : ¬ ((naming rs id : ℤ) = 0 ∨ counterLimit ≤ naming rs id) := by omega
      refine ⟨some ⟨id, naming rs id, r.size, m.ref, false, none⟩, ?_, ?_⟩
      · dsimp only
        rw [hrefs, hm, hbody]
        dsimp only
        rw [if_neg (by exact_mod_cast hcount), if_neg (not_not.mpr hsize.symm)]
        cases body with
        | str b =>
          rw [hfits.1]
          exact if_pos hfits.2
        | array chunks =>
          rw [show m.ref = .array from hfits]
      · exact decide_eq_false (by simpa using hne)

/-- What is retained covers a record that stays so far. -/
theorem Evicting.size_le (he : Evicting s rs g₀ (s.history.bytes.getD 0 : ℕ) g bytes out)
    (hrep : Represents s.history rs) (hr : r ∈ rs) (hnot : r.id ∉ out.map (·.id))
    (hkind : r.type = some .file ∧ !r.deleted ∧ !r.metadataOnly) : r.size ≤ bytes := by
  have hsum := sum_bytes_dropKeys hrep.journal.nodup he.nodup he.sub
  have hone : r.bytes ≤ ((dropKeys Record.id out rs).map Record.bytes).sum := by
    refine single_le_sum (fun x hx => ?_) _ (mem_map_of_mem (mem_dropKeys.mpr ⟨hr, hnot⟩))
    obtain ⟨r', hr', rfl⟩ := mem_map.mp hx
    rw [Record.bytes]
    split
    · exact (hrep.sizes r' (dropKeys_subset hr')).1
    · exact le_rfl
  rw [Record.bytes, if_pos hkind] at hone
  have hall := hrep.accounts.bytes
  rw [he.bytes]
  omega

theorem reclaimable_nonneg (hrep : Represents h rs) (h' : HistoryKeys) (ids : List RecordId) :
    0 ≤ reclaimable h h' ids := by
  refine sum_nonneg fun x hx => ?_
  obtain ⟨r, hr, rfl⟩ := mem_map.mp hx
  obtain ⟨id, -, hid⟩ := mem_filterMap.mp (mem_of_mem_filter hr)
  exact (hrep.sizes r (hrep.journal.record_iff.mp hid).1).1

theorem reclaimable_cons {h' : HistoryKeys} {id : RecordId} (hid : h.records id = some r)
    (ids : List RecordId) : reclaimable h h' (id :: ids) =
      (if r.unprotected h' then r.size else 0) + reclaimable h h' ids := by
  rw [reclaimable, filterMap_cons, hid]
  dsimp only
  rw [filter_cons]
  split
  · rw [map_cons, sum_cons]
    rfl
  · rw [zero_add]
    rfl

/-- **The walk over the oldest records ends, and it ends with enough room exactly when the records
it may give up leave it.** The pointers the ledger plans are those of `h'`. -/
theorem Evicting.walk {h' : HistoryKeys} (limit : ℤ) (ids : List RecordId)
    (hrep : Represents s.history rs) (hseq : (s.history.sequence.getD 0 : ℤ) < counterLimit)
    (hpointers : ∀ l, (entry h' l).head = g₀.head s.history l ∧
      (entry h' l).recoverable = g₀.recoverable s.history l) (hids : (out.map (·.id) ++ ids).Nodup)
    (he : Evicting s rs g₀ (s.history.bytes.getD 0 : ℕ) g bytes out)
    (hover : limit < bytes + g₀.added) :
    ∃ g' bytes' out', evict s.history limit g ids bytes out = .ok (g', bytes', out') ∧
      (bytes' + g₀.added ≤ limit ↔
        bytes + g₀.added - reclaimable s.history h' ids ≤ limit) := by
  induction ids generalizing g bytes out with
  | nil => exact ⟨g, bytes, out, rfl, by simp [reclaimable]⟩
  | cons id ids ih =>
    have hskip : (out.map (·.id) ++ ids).Nodup :=
      hids.sublist ((sublist_cons_self id ids).append_left _)
    cases hrecord : s.history.records id with
    | none =>
      obtain ⟨g', bytes', out', hwalk, hiff⟩ := ih hskip he hover
      refine ⟨g', bytes', out', ?_, ?_⟩
      · rw [evict, hrecord]
        exact hwalk
      · rwa [reclaimable, filterMap_cons, hrecord]
    | some record =>
      obtain ⟨hr, rfl⟩ := hrep.journal.record_iff.mp hrecord
      have hfiles : g.files = g₀.files := by rw [he.same]
      have hadded : g.added = g₀.added := by rw [he.same]
      rw [reclaimable_cons hrecord]
      by_cases hgive : some record.id ≠ g₀.head s.history record.fileId ∧
          some record.id ≠ g₀.recoverable s.history record.fileId ∧ record.type = some .file ∧
          !record.deleted ∧ !record.metadataOnly
      · have hun : record.unprotected h' = true := by
          rw [Record.unprotected, (hpointers record.fileId).1, (hpointers record.fileId).2]
          exact decide_eq_true hgive
        have hnot : record.id ∉ out.map (·.id) := fun hmem =>
          (nodup_append.mp hids).2.2 _ hmem _ mem_cons_self rfl
        obtain ⟨blob, hblob, hcount⟩ := he.shares.blobState_ok hrep hseq he.nodup he.sub hr hnot
        have hsize := he.size_le hrep hr hnot hgive.2.2
        have hpos := (hrep.sizes record hr).1
        have hstep := he.step hrep hr hnot ⟨hgive.1, hgive.2.1⟩ hgive.2.2 hblob
        have hrest := reclaimable_nonneg hrep h' ids
        have hevict : evict s.history limit g (record.id :: ids) bytes out =
            if bytes - record.size + g₀.added ≤ limit then
              .ok ({ g with blobs := releasedBlobs g.blobs blob }, bytes - record.size, out ++ [record])
            else evict s.history limit { g with blobs := releasedBlobs g.blobs blob } ids
              (bytes - record.size) (out ++ [record]) := by
          rw [evict, hrecord, ← hadded]
          dsimp only
          rw [if_neg (not_not.mpr rfl), if_pos (by rw [hfiles]; exact hgive),
            if_neg (not_or.mpr ⟨not_lt.mpr hpos, not_lt.mpr hsize⟩), hblob]
          dsimp only
          rw [hcount]
          cases blob <;> rfl
        rw [hevict, if_pos hun]
        by_cases hfit : bytes - record.size + g₀.added ≤ limit
        · rw [if_pos hfit]
          exact ⟨_, _, _, rfl, ⟨fun _ => by omega, fun _ => hfit⟩⟩
        · rw [if_neg hfit]
          obtain ⟨g', bytes', out', hwalk, hiff⟩ := ih (by
            rw [map_append, append_assoc]
            exact hids) hstep (not_le.mp hfit)
          refine ⟨g', bytes', out', hwalk, hiff.trans ?_⟩
          rw [show bytes - record.size + g₀.added - reclaimable s.history h' ids =
            bytes + g₀.added - (record.size + reclaimable s.history h' ids) by omega]
      · have hun : ¬ record.unprotected h' = true := by
          rw [Record.unprotected, (hpointers record.fileId).1, (hpointers record.fileId).2]
          exact fun h => hgive (of_decide_eq_true h)
        obtain ⟨g', bytes', out', hwalk, hiff⟩ := ih hskip he hover
        refine ⟨g', bytes', out', ?_, ?_⟩
        · rw [evict, hrecord]
          dsimp only
          rw [if_neg (not_not.mpr rfl), if_neg (by rw [hfiles]; exact hgive)]
          exact hwalk
        · rwa [if_neg hun, zero_add]

end Walk

/-! ## Captures -/

section Captures

variable {s : Store} {rs out : List Record} {g₀ g : Ledger} {bytes : ℤ} {h' : HistoryKeys}

/-- What is stored covers the blobs nobody names any more. -/
theorem Shares.released_le {ns : List Record} {blobs : List BlobState}
    (hs : Shares s rs ns out blobs) (hrep : Represents s.history rs) :
    ((blobs.filter fun b => b.count = 0 ∧ !b.new).map (·.size)).sum ≤
      (s.history.physicalBytes.getD 0 : ℕ) := by
  have hkeys : ((blobs.filter fun b => b.count = 0 ∧ !b.new).map (·.id)).Nodup :=
    nodup_filter hs.keys _
  have htally := (tally_foldl_update BlobMeta.size (x := fun _ : BlobState => none) hkeys
    hrep.accounts.finite).2
  have hstored : ((blobs.filter fun b => b.count = 0 ∧ !b.new).map fun b =>
      weigh BlobMeta.size none - weigh BlobMeta.size (s.history.blobmeta b.id)).sum =
      ((blobs.filter fun b => b.count = 0 ∧ !b.new).map fun _ => (0 : ℤ)).sum -
        ((blobs.filter fun b => b.count = 0 ∧ !b.new).map (·.size)).sum :=
    sum_map_eq_sub fun b hb => by
      obtain ⟨hb, hgone⟩ := mem_filter.mp hb
      have hnew : b.new = false := by simpa using (of_decide_eq_true hgone).2
      rw [hs.known b hb hnew, weigh_none, weigh_some]
  have hnonneg : 0 ≤ tally BlobMeta.size ((blobs.filter fun b => b.count = 0 ∧ !b.new).foldl
      (fun f b => Function.update f b.id none) s.history.blobmeta) := by
    refine tally_nonneg fun id m hm => ?_
    rw [foldl_update (v := fun _ _ => none) hkeys] at hm
    cases hk : keyed BlobState.id (blobs.filter fun b => b.count = 0 ∧ !b.new) id with
    | some b =>
      rw [hk] at hm
      cases hm
    | none =>
      rw [hk, Option.elim_none] at hm
      have hne : naming rs id ≠ 0 := fun hz => by
        rw [(hrep.accounts.absent id hz).1] at hm
        cases hm
      obtain ⟨r, hr, hid⟩ := countP_pos_iff.mp (Nat.pos_of_ne_zero hne)
      rw [← hrep.accounts.sizes r hr id m (of_decide_eq_true hid) hm]
      exact (hrep.sizes r hr).1
  rw [htally, hstored, sum_map_zero, zero_sub] at hnonneg
  have hphysical := hrep.accounts.physical
  omega

/-- Nothing is in the way of writing what was planned. -/
theorem Evicting.writeHistory_ok (he : Evicting s rs g₀ (s.history.bytes.getD 0 : ℕ) g bytes out)
    (hrep : Represents s.history rs) : ∃ h', writeHistory s g bytes out = .ok h' := by
  have hle := he.shares.released_le hrep
  unfold writeHistory
  rw [if_neg (not_lt.mpr hle)]
  exact ⟨_, rfl⟩

/-- How a capture fails that finds no room. -/
def byteLimitExceeded : LuaError :=
  .error "history byte limit exceeded; raise max_bytes or prune eligible old versions"

/-- Where the walk over the oldest records looks. -/
def window (h : HistoryKeys) : List RecordId := (h.retention.take 128).map Prod.fst

theorem Represents.nodup_window (hrep : Represents h rs) : (window h).Nodup := by
  have hids : h.retention.map Prod.fst = rs.map (·.id) := by
    rw [hrep.journal.retention, map_map]
    rfl
  rw [window, map_take, hids]
  exact hrep.journal.nodup.sublist (take_sublist _ _)

/-- **What `makeRoom` does**, where `h'` has the pointers the ledger plans. -/
theorem makeRoom_spec (hg : Planned s rs g₀) (hrep : Represents s.history rs) (policy : Policy)
    (hseq : (s.history.sequence.getD 0 : ℤ) < counterLimit)
    (hpointers : ∀ l, (entry h' l).head = g₀.head s.history l ∧
      (entry h' l).recoverable = g₀.recoverable s.history l) :
    if policy.Admits ((s.history.bytes.getD 0 : ℕ) + g₀.added -
        reclaimable s.history h' (window s.history)) then
      ∃ r, makeRoom s.history policy g₀ (s.history.bytes.getD 0 : ℕ) = .ok r
    else makeRoom s.history policy g₀ (s.history.bytes.getD 0 : ℕ) = .error byteLimitExceeded := by
  have hstart : Evicting s rs g₀ (s.history.bytes.getD 0 : ℕ) g₀ (s.history.bytes.getD 0 : ℕ) [] :=
    ⟨rfl, hg.shares, rfl, by simp, by simp, by simp, by simp⟩
  unfold makeRoom
  by_cases hover : 0 < policy.maxBytes ∧
      (policy.maxBytes : ℤ) < (s.history.bytes.getD 0 : ℕ) + g₀.added
  · obtain ⟨g, bytes, out, hwalk, hiff⟩ := Evicting.walk policy.maxBytes (window s.history) hrep
      hseq hpointers (by simpa using hrep.nodup_window) hstart hover.2
    have hadded : g.added = g₀.added := by
      rw [(hstart.run hrep (by simpa using hrep.nodup_window) hwalk).same]
    rw [if_pos hover, show (s.history.retention.take 128).map Prod.fst = window s.history from rfl,
      hwalk, ok_bind]
    dsimp only
    rw [hadded]
    by_cases hfit : bytes + g₀.added ≤ policy.maxBytes
    · rw [if_pos (.inr (hiff.mp hfit)), if_neg (not_lt.mpr hfit)]
      exact ⟨_, rfl⟩
    · rw [if_neg (fun h => h.elim (by omega) fun h => hfit (hiff.mpr h)), if_pos (not_le.mp hfit)]
      rfl
  · have hnonneg := reclaimable_nonneg hrep h' (window s.history)
    rw [if_neg hover, if_pos]
    · exact ⟨_, rfl⟩
    · rw [Policy.Admits]
      omega

/-- What a capture that writes records has done when it returns. -/
theorem captureUnder_tracked {policy : Policy} {operation origin : Token} {now : ℕ}
    {changes : List Change} {cap : Captured}
    (hcap : captureUnder policy s operation origin now changes = .ok cap)
    (htracked : cap.tracked = true) : ¬ (policy.mode = .off ∧ ¬ changes.any (·.force)) ∧
      ∃ d h', planChanges s policy operation origin now changes {} = .ok (d, cap.bound) ∧
        d.plans ≠ [] ∧ captureRecords s policy d = .ok h' ∧
        cap.history = cap.bound.foldl bindFile h' := by
  unfold captureUnder at hcap
  obtain ⟨-, hcap⟩ | ⟨hmode, hcap⟩ := ite_eq_iff.mp hcap
  · cases hcap
    cases htracked
  obtain ⟨⟨d, bound⟩, hplan, hcap⟩ := bind_eq_ok hcap
  obtain ⟨-, hcap⟩ | ⟨hplans, hcap⟩ := ite_eq_iff.mp hcap
  · cases hcap
    cases htracked
  obtain ⟨h', hrecords, hcap⟩ := bind_eq_ok hcap
  cases hcap
  exact ⟨hmode, d, h', hplan, hplans, hrecords, rfl⟩

theorem bindFiles_keeps (h : HistoryKeys) (bound : List Bound) :
    (bound.foldl bindFile h).bytes = h.bytes ∧
      ∀ l, (entry (bound.foldl bindFile h) l).head = (entry h l).head ∧
        (entry (bound.foldl bindFile h) l).recoverable = (entry h l).recoverable := by
  induction bound generalizing h with
  | nil => exact ⟨rfl, fun _ => ⟨rfl, rfl⟩⟩
  | cons b bound ih =>
    obtain ⟨hbytes, hpointers⟩ := ih (bindFile h b)
    refine ⟨hbytes.trans ?_, fun l => ?_⟩
    · rw [bindFile]
      split <;> rfl
    · obtain ⟨-, hhead, hrec⟩ := entry_bindFile h b l
      exact ⟨(hpointers l).1.trans hhead, (hpointers l).2.trans hrec⟩

variable {operation origin : Token} {now : ℕ} {changes : List Change} {cap : Captured}

/-- A capture whose records are planned makes room for them and writes them. -/
theorem captureUnder_eq {policy : Policy} {d : Draft} {bound : List Bound}
    (hmode : ¬ (policy.mode = .off ∧ ¬ changes.any (·.force)))
    (hplan : planChanges s policy operation origin now changes {} = .ok (d, bound))
    (hplans : d.plans ≠ []) (hnumber : numberPlans s.history d.plans
      { files := d.files, sequence := s.history.sequence.getD 0
        physical := (s.history.physicalBytes.getD 0 : ℕ) } = .ok g₀)
    (hlimit : ¬ (counterLimit ≤ g₀.sequence ∨
      counterLimit ≤ ((s.history.bytes.getD 0 : ℕ) : ℤ) + g₀.added ∨ counterLimit ≤ g₀.physical)) :
    captureUnder policy s operation origin now changes =
      (makeRoom s.history policy g₀ (s.history.bytes.getD 0 : ℕ)).bind fun r =>
        (writeHistory s r.1 r.2.1 r.2.2).bind fun h => .ok ⟨true, bound.foldl bindFile h, bound⟩ := by
  unfold captureUnder
  rw [if_neg hmode, hplan, ok_bind]
  dsimp only
  rw [if_neg hplans]
  unfold captureRecords
  dsimp only
  rw [hnumber, ok_bind, if_neg hlimit]
  cases makeRoom s.history policy g₀ (s.history.bytes.getD 0 : ℕ) <;> rfl

/-- A capture that gives up nothing leaves the bytes and the pointers that were planned. -/
theorem Planned.written (hg : Planned s rs g₀)
    (hw : writeHistory s g₀ (s.history.bytes.getD 0 : ℕ) [] = .ok h') :
    (h'.bytes.getD 0 : ℤ) = (s.history.bytes.getD 0 : ℕ) + g₀.added ∧
      ∀ l, (entry h' l).head = g₀.head s.history l ∧
        (entry h' l).recoverable = g₀.recoverable s.history l := by
  have hkeys := writeHistory_ok hw
  refine ⟨?_, fun l => ?_⟩
  · have hpos : 0 ≤ ((s.history.bytes.getD 0 : ℕ) : ℤ) + g₀.added := by
      rw [hg.numbered.added]
      have hsum := sum_bytes_nonneg fun r hr => (hg.numbered.sizes r hr).1
      omega
    rw [hkeys]
    exact Int.toNat_of_nonneg hpos
  · have hentry : entry h' l = (lineage g₀.records l).foldl FileEntry.push (entry s.history l) := by
      rw [hkeys]
      exact entry_addAll s.history g₀.records l
    rw [hentry, (hg.numbered.pointers l).1, (hg.numbered.pointers l).2]
    exact ⟨rfl, rfl⟩

/-- **When a capture finds room.** `cap` is what would be captured if there were no byte limit. -/
theorem capture_spec (hrep : Represents s.history rs) (hids : (changes.map (·.id)).Nodup)
    (hcap : captureUnder (s.history.policy.getD {}).unlimited s operation origin now changes =
      .ok cap) (htracked : cap.tracked = true) :
    if FitsWithout (s.history.policy.getD {}) s.history cap.history (window s.history) then
      ∃ cap', capture s operation origin now changes = .ok cap'
    else capture s operation origin now changes = .error byteLimitExceeded := by
  obtain ⟨hmode, d, h', hplan, hplans, hrecords, hhistory⟩ := captureUnder_tracked hcap htracked
  rw [planChanges_unlimited] at hplan
  unfold captureRecords at hrecords
  obtain ⟨g₀, hnumber, hrecords⟩ := bind_eq_ok hrecords
  obtain ⟨hlimit, hrecords⟩ := of_ite_eq_ok hrecords
  have hg := Planned.of_changes hrep hids hplan hnumber
  -- Without a limit nothing is given up, so what would be captured is what was planned.
  have hwrite : writeHistory s g₀ (s.history.bytes.getD 0 : ℕ) [] = .ok h' := hrecords
  obtain ⟨hwritten, hplanned⟩ := hg.written hwrite
  obtain ⟨hbytes, hpointers⟩ := bindFiles_keeps h' cap.bound
  rw [← hhistory] at hbytes hpointers
  have hseq : (s.history.sequence.getD 0 : ℤ) < counterLimit := by
    have hbase := hg.numbered.base
    omega
  have hroom := makeRoom_spec hg hrep (s.history.policy.getD {}) hseq fun l =>
    ⟨(hpointers l).1.trans (hplanned l).1, (hpointers l).2.trans (hplanned l).2⟩
  have hiff : FitsWithout (s.history.policy.getD {}) s.history cap.history (window s.history) ↔
      (s.history.policy.getD {}).Admits ((s.history.bytes.getD 0 : ℕ) + g₀.added -
        reclaimable s.history cap.history (window s.history)) := by
    rw [FitsWithout, hbytes, hwritten]
  have hmode' : ¬ ((s.history.policy.getD {}).mode = .off ∧ ¬ changes.any (·.force)) := hmode
  rw [capture_eq_captureUnder, captureUnder_eq hmode' hplan hplans hnumber hlimit]
  by_cases hfits : FitsWithout (s.history.policy.getD {}) s.history cap.history (window s.history)
  · rw [if_pos (hiff.mp hfits)] at hroom
    obtain ⟨⟨g, bytes, out⟩, hroom⟩ := hroom
    obtain ⟨h, hwrite⟩ := (makeRoom_evicting hg hrep hroom).writeHistory_ok hrep
    rw [if_pos hfits, hroom]
    refine ⟨⟨true, cap.bound.foldl bindFile h, cap.bound⟩, ?_⟩
    change (writeHistory s g bytes out).bind _ = _
    rw [hwrite]
    rfl
  · rw [if_neg fun h => hfits (hiff.mpr h)] at hroom
    rw [if_neg hfits, hroom]
    rfl

end Captures

/-! ## A crowded window -/

/-- The keys of a history of records that share no blobs. -/
def shelved (policy : Policy) (rs : List Record) : HistoryKeys where
  policy := some policy
  records := keyed Record.id rs
  file l := some ((lineage rs l).foldl FileEntry.push {})
  versions l := (lineage rs l).map fun r => (r.id, r.version)
  index i := (rs.filter (Index.lists i)).map fun r => (r.id, r.sequence)
  retention := rs.map fun r => (r.id, r.sequence)
  sequence := some rs.length
  bytes := some 0

theorem represents_shelved (policy : Policy) {rs : List Record} (hearlier : rs.Pairwise Earlier)
    (hlinks : ∀ r ∈ rs, r.blobId = none ∧ r.type = some .symlink)
    (hseq : ∀ r ∈ rs, 1 ≤ r.sequence ∧ r.sequence ≤ rs.length)
    (hsizes : ∀ r ∈ rs, 0 ≤ r.size ∧ r.size < counterLimit) : Represents (shelved policy rs) rs where
  journal := ⟨hearlier, fun _ => rfl, rfl, fun _ => rfl, fun _ => rfl⟩
  points l := by
    have hpoints := Points.empty.pushAll (lineage rs l)
    rwa [nil_append] at hpoints
  accounts := by
    have hzero : ∀ b, naming rs b = 0 := fun b => naming_eq_zero fun r hr => by
      rw [(hlinks r hr).1]
      exact nofun
    refine ⟨fun b => (if_pos (hzero b)).symm, fun _ _ => ⟨rfl, rfl⟩, fun b hb => absurd (hzero b) hb,
      fun r hr b m hb => ?_, ?_, by simp [places, shelved], by simp [tally, shelved]⟩
    · rw [(hlinks r hr).1] at hb
      cases hb
    · refine (sum_eq_zero fun x hx => ?_).symm
      obtain ⟨r, hr, rfl⟩ := mem_map.mp hx
      rw [Record.bytes, (hlinks r hr).2]
      rfl
  sequences := hseq
  sizes := hsizes
  bounded := by simp [shelved, counterLimit]

/-- The only version of the link `n`. -/
def linkRecord (n : ℕ) : Record :=
  { id := ⟨n + 1, n + 2, .a⟩, fileId := ⟨n + 1, n + 2⟩, path := [[108, n.toUInt8]]
    operation := .create, type := some .symlink, mode := 0o777, size := 1, target := some [120]
    deleted := false, createdAt := 0, origin := 0, contentRef := some .ext
    contentHash := .symlink [120], prevHash := .empty, deltaBytes := 1, metadata := {}
    metadataOnly := false, version := 1, sequence := n + 1 }

theorem represents_links (policy : Policy) (n : ℕ) :
    Represents (shelved policy ((List.range n).map linkRecord)) ((List.range n).map linkRecord) := by
  refine represents_shelved policy ?_ ?_ ?_ ?_
  · refine pairwise_map.mpr (pairwise_lt_range.imp fun {a b} hlt => ⟨?_, ?_, ?_⟩)
    · simp [linkRecord, hlt.ne]
    · exact Nat.succ_lt_succ hlt
    · simp [linkRecord, hlt.ne]
  · intro r hr
    obtain ⟨n, -, rfl⟩ := mem_map.mp hr
    exact ⟨rfl, rfl⟩
  · intro r hr
    obtain ⟨k, hk, rfl⟩ := mem_map.mp hr
    rw [length_map, length_range]
    exact ⟨Nat.succ_pos k, mem_range.mp hk⟩
  · intro r hr
    obtain ⟨n, -, rfl⟩ := mem_map.mp hr
    exact ⟨by simp [linkRecord], by simp [linkRecord, counterLimit]⟩

/-- A file of one byte, the publication `t` of which wrote `b`. -/
def smallFile (t : Token) (b : UInt8) : InodeHash :=
  { type := some .file, size := some 1, mode := some 0o644, revision := some t, content := some [b]
    path := some [[102]] }

/-- The file is created. -/
def created : Change :=
  { id := 1000, path := [[102]], explicitPath := true, before := some none
    after := some (smallFile 1000 1), afterHash := some (.sha [1]), operation := .create }

/-- The file is written again. -/
def rewritten : Change :=
  { id := 1000, path := [[102]], explicitPath := true
    before := some (some { smallFile 1000 1 with
      historyId := some ⟨1000, 1000⟩, historyRevision := some 1000, historyHash := some (.sha [1]) })
    after := some (smallFile 1001 2), beforeHash := some (.sha [1]), afterHash := some (.sha [2])
    operation := .write }

/-- `n` links were created, then the file; everything is tracked and one byte may be retained. -/
def crowded (n : ℕ) : Store :=
  let links : Store := { history := shelved { mode := .all, maxBytes := 1 } ((List.range n).map linkRecord) }
  match capture links 1000 0 0 [created] with
  | .ok cap => { history := cap.history }
  | .error _ => links

theorem represents_crowded (n : ℕ) : ∃ rs, Represents (crowded n).history rs := by
  unfold crowded
  dsimp only
  split
  · next cap hcap =>
    obtain ⟨out, ns, ht⟩ := capture_turn (represents_links _ n) (by simp) hcap
    exact ⟨_, ht.represents⟩
  · exact ⟨_, represents_links _ n⟩

/-- What would be captured of the second write if there were no byte limit. -/
def crowdedCapture (n : ℕ) : Except LuaError Captured :=
  captureUnder ((crowded n).history.policy.getD {}).unlimited (crowded n) 1001 0 0 [rewritten]

/-- The second write would be recorded, and without the unprotected snapshots among `ids` there is
room for it. -/
def crowdedFits (n : ℕ) (ids : List RecordId) : Bool :=
  match crowdedCapture n with
  | .ok cap => cap.tracked ∧
      FitsWithout ((crowded n).history.policy.getD {}) (crowded n).history cap.history ids
  | .error _ => false

theorem of_crowdedFits (n : ℕ) (ids : List RecordId) (h : crowdedFits n ids = true) :
    ∃ cap, crowdedCapture n = .ok cap ∧ cap.tracked = true ∧
      FitsWithout ((crowded n).history.policy.getD {}) (crowded n).history cap.history ids := by
  unfold crowdedFits at h
  cases hcap : crowdedCapture n with
  | error e =>
    rw [hcap] at h
    cases h
  | ok cap =>
    rw [hcap] at h
    exact ⟨cap, rfl, of_decide_eq_true h⟩

/-! ## Eviction -/

end Afs.History
