import Afs.History.Evolution

/-!
# Where captured records come from

Every record a capture adds is a snapshot of one of the changes it was given, taken with a hash
that `contentHash` vouched for, and every blob it adds holds what the plan of such a snapshot
supplies.
-/

namespace Afs.History

open List

/-- A plan `snapshot` drafts from its arguments. -/
structure Shot (s : Store) (policy : Policy) (a : SnapshotArgs) (p : Plan) : Prop where
  record : ∃ operation origin now c ref, p.record = a.record policy operation origin now c ref
  body : p.body = a.body
  payload : a.KeepsBody policy →
    ∃ ref, snapshotPayload s a.fields (a.fields.size.getD 0) a.body = .ok (p.payload, ref)

/-- A plan drafted for the change: the state before it, or the state after. -/
inductive Drawn (s : Store) (policy : Policy) (operation : Token) (c : Change) (p : Plan) : Prop
  | baseline {l old hash before} (hbefore : c.beforeFields s = some before)
      (htype : before.type.isSome)
      (hhash : contentHash s operation c (some before) .before (c.beforeBody.getD (.content c.id)) =
        .ok hash)
      (hp : Shot s policy (c.baseline l old hash before) p)
  | outcome {l old new beforeHash hash}
      (hhash : contentHash s operation c c.after .after (c.body.getD (.content c.id)) = .ok hash)
      (hp : Shot s policy (c.outcome s l old new beforeHash hash) p)

/-- The record of a plan, numbered and kept as its blob is. -/
def Numbers (p : Plan) (r : Record) : Prop :=
  ∃ version sequence ref,
    r = { p.record with version := version, sequence := sequence, contentRef := ref }

section Drafting

variable {s : Store} {policy : Policy} {operation origin : Token} {now : ℕ} {c : Change}
  {d d' : Draft} {p : Plan}

theorem snapshot_drawn {a : SnapshotArgs} {out : Option Record}
    (h : snapshot s policy operation origin now c a d = .ok (d', out)) (hp : p ∈ d'.plans) :
    p ∈ d.plans ∨ Shot s policy a p := by
  obtain ⟨-, payload, ref, hpayload, ⟨rfl, -⟩ | ⟨-, rfl⟩⟩ := snapshot_ok h
  · exact .inl hp
  · rcases mem_append.mp hp with hp | hp
    · exact .inl hp
    · rw [mem_singleton.mp hp]
      exact .inr ⟨⟨_, _, _, _, _, rfl⟩, rfl, fun hk => ⟨ref, hpayload hk⟩⟩

theorem openLineage_plans {l : LineageId} {next : ℕ} (h : openLineage s l d = .ok (d', next)) :
    d'.plans = d.plans := by
  unfold openLineage at h
  obtain ⟨-, h⟩ := of_ite_eq_ok h
  obtain ⟨-, h⟩ := of_ite_eq_ok h
  obtain ⟨-, h⟩ | ⟨-, h⟩ := ite_eq_iff.mp h <;>
  · cases h
    rfl

theorem planChange_drawn {b : Bound} (h : planChange s policy operation origin now d c = .ok (d', b))
    (hp : p ∈ d'.plans) : p ∈ d.plans ∨ Drawn s policy operation c p := by
  obtain ⟨rfl, -⟩ | ⟨l, d₁, next, old, new, bh, ah, -, -, hopen, hbh, hah, hplan⟩ := planChange_ok h
  · exact .inl hp
  rw [← openLineage_plans hopen]
  obtain ⟨rfl, -⟩ | hplan := hplan
  · exact .inl hp
  obtain ⟨d₂, record, hbase, hout, -⟩ := planVersions_ok hplan
  obtain hp | hshot := snapshot_drawn hout hp
  · obtain rfl | ⟨before, out, hbefore, htype, hbase⟩ := hbase
    · exact .inl hp
    · rw [hbefore] at hbh
      exact (snapshot_drawn hbase hp).imp_right fun hshot => .baseline hbefore htype hbh hshot
  · exact .inr (.outcome hah hshot)

theorem planChanges_drawn {cs : List Change} {bound : List Bound}
    (h : planChanges s policy operation origin now cs d = .ok (d', bound)) (hp : p ∈ d'.plans) :
    p ∈ d.plans ∨ ∃ c ∈ cs, Drawn s policy operation c p := by
  induction cs generalizing d bound with
  | nil =>
    cases h
    exact .inl hp
  | cons c cs ih =>
    rw [planChanges] at h
    obtain ⟨⟨d₁, b⟩, hc, h⟩ := bind_eq_ok h
    obtain ⟨⟨d₂, bs⟩, hcs, h⟩ := bind_eq_ok h
    cases h
    obtain hp | ⟨c', hc', hdrawn⟩ := ih hcs
    · exact (planChange_drawn hc hp).imp_right fun hdrawn => ⟨c, mem_cons_self, hdrawn⟩
    · exact .inr ⟨c', mem_cons_of_mem _ hc', hdrawn⟩

end Drafting

variable {r : Record}

section Numbering

variable {s : Store} {h : HistoryKeys} {g g' : Ledger} {p : Plan} {ps : List Plan}

/-- The plan that supplies a blob is one of those that name it. -/
def Ledger.Owned (g : Ledger) : Prop :=
  ∀ b ∈ g.blobs, ∀ q, b.plan = some q → q ∈ g.plans ∧ q.record.blobId = some b.id

theorem blobState_some {blobs : List BlobState} {b : BlobState}
    (hb : blobState h blobs r = .ok (some b)) :
    r.blobId = some b.id ∧ (b ∈ blobs ∨ b.plan = none) := by
  unfold blobState at hb
  split at hb
  · cases hb
  next id hid =>
  split at hb
  · next b' hf =>
    split at hb
    · cases hb
    · cases hb
      have hid' : b.id = id := by simpa using List.find?_some hf
      exact ⟨by rw [hid, hid'], .inl (mem_of_find?_eq_some hf)⟩
  · repeat' split at hb
    all_goals first
      | cases hb; exact ⟨hid, .inr rfl⟩
      | cases hb

theorem numberPlan_origin (ho : g.Owned) (hn : numberPlan h g p = .ok g') :
    g'.Owned ∧ ∀ q ∈ g'.plans, q ∈ g.plans ∨
      Numbers p q.record ∧ q.body = p.body ∧ q.payload = p.payload := by
  obtain ⟨blob, hok⟩ := numberPlan_ok hn
  obtain ⟨ref, href⟩ := sharing_eq (g.number p) blob
  constructor
  · intro b hb q hq
    rw [hok.plans]
    rw [hok.blobs] at hb
    cases blob with
    | none =>
      obtain ⟨hmem, hid⟩ := ho b hb q hq
      exact ⟨mem_append_left _ hmem, hid⟩
    | some b₀ =>
      obtain ⟨hid₀, hold⟩ := blobState_some hok.share
      rcases mem_cons.mp hb with rfl | hb
      · dsimp only at hq
        by_cases hu : b₀.unsupplied
        · rw [if_pos hu] at hq
          cases hq
          exact ⟨mem_append_right _ (mem_singleton_self _), hid₀⟩
        · rw [if_neg hu] at hq
          obtain hmem | hnone := hold
          · obtain ⟨hq, hid⟩ := ho b₀ hmem q hq
            exact ⟨mem_append_left _ hq, hid⟩
          · rw [hnone] at hq
            cases hq
      · obtain ⟨hmem, hid⟩ := ho b (mem_of_mem_filter hb) q hq
        exact ⟨mem_append_left _ hmem, hid⟩
  · intro q hq
    rw [hok.plans] at hq
    rcases mem_append.mp hq with hq | hq
    · exact .inl hq
    · rw [mem_singleton.mp hq]
      exact .inr ⟨⟨_, _, ref, href⟩, rfl, rfl⟩

theorem numberPlans_origin (ho : g.Owned) (hn : numberPlans h ps g = .ok g') :
    g'.Owned ∧ ∀ q ∈ g'.plans, q ∈ g.plans ∨
      ∃ p ∈ ps, Numbers p q.record ∧ q.body = p.body ∧ q.payload = p.payload := by
  induction ps generalizing g with
  | nil =>
    cases hn
    exact ⟨ho, fun _ => .inl⟩
  | cons p ps ih =>
    rw [numberPlans] at hn
    obtain ⟨g₁, hone, hn⟩ := bind_eq_ok hn
    obtain ⟨ho₁, hplans₁⟩ := numberPlan_origin ho hone
    obtain ⟨ho', hplans'⟩ := ih ho₁ hn
    refine ⟨ho', fun q hq => ?_⟩
    obtain hq | ⟨p', hp', hnum⟩ := hplans' q hq
    · exact (hplans₁ q hq).imp_right fun hnum => ⟨p, mem_cons_self, hnum⟩
    · exact .inr ⟨p', mem_cons_of_mem _ hp', hnum⟩

end Numbering

variable {policy : Policy} {id : RecordId}

section Writing

variable {s : Store} {h h' : HistoryKeys} {g g' : Ledger} {limit bytes bytes' : ℤ}
  {ids : List RecordId} {out out' : List Record}

theorem evict_origin (ho : g.Owned) (hev : evict h limit g ids bytes out = .ok (g', bytes', out')) :
    g'.Owned ∧ g'.plans = g.plans := by
  induction ids generalizing g bytes out with
  | nil =>
    cases hev
    exact ⟨ho, rfl⟩
  | cons id ids ih =>
    rw [evict] at hev
    cases hrec : h.records id with
    | none =>
      rw [hrec] at hev
      exact ih ho hev
    | some r =>
      rw [hrec] at hev
      dsimp only at hev
      obtain ⟨-, hev⟩ := of_ite_eq_ok hev
      obtain ⟨-, hev⟩ | ⟨-, hev⟩ := ite_eq_iff.mp hev
      · obtain ⟨-, hev⟩ := of_ite_eq_ok hev
        cases hblob : blobState h g.blobs r with
        | error e =>
          rw [hblob] at hev
          cases hev
        | ok blob =>
          rw [hblob] at hev
          dsimp only at hev
          obtain ⟨-, hev⟩ := of_ite_eq_ok hev
          have ho' : Ledger.Owned { g with blobs := releasedBlobs g.blobs blob } := by
            intro b hb q hq
            cases blob with
            | none => exact ho b hb q hq
            | some b₀ =>
              rcases mem_cons.mp hb with rfl | hb
              · obtain hmem | hnone := (blobState_some hblob).2
                · exact ho b₀ hmem q hq
                · rw [hnone] at hq
                  cases hq
              · exact ho b (mem_of_mem_filter hb) q hq
          cases blob with
          | none | some b₀ =>
            obtain ⟨-, hev⟩ | ⟨-, hev⟩ := ite_eq_iff.mp hev
            · cases hev
              exact ⟨ho', rfl⟩
            · have hrest := ih ho' hev
              exact hrest
      · exact ih ho hev

theorem makeRoom_origin (ho : g.Owned) (hroom : makeRoom h policy g bytes = .ok (g', bytes', out)) :
    g'.Owned ∧ g'.plans = g.plans := by
  unfold makeRoom at hroom
  obtain ⟨-, hroom⟩ | ⟨-, hroom⟩ := ite_eq_iff.mp hroom
  · obtain ⟨⟨g₁, bytes₁, out₁⟩, hev, hroom⟩ := bind_eq_ok hroom
    obtain ⟨-, hroom⟩ := of_ite_eq_ok hroom
    · cases hroom
      exact evict_origin ho hev
  · cases hroom
    exact ⟨ho, rfl⟩

theorem addAll_records {ns : List Record} (hr : (ns.foldl addRecord h).records id = some r) :
    h.records id = some r ∨ r ∈ ns := by
  induction ns generalizing h with
  | nil => exact .inl hr
  | cons n ns ih =>
    obtain hr | hr := ih hr
    · simp only [addRecord, Function.update_apply] at hr
      split at hr
      · cases hr
        exact .inr mem_cons_self
      · exact .inl hr
    · exact .inr (mem_cons_of_mem _ hr)

theorem foldl_value {blobs : List BlobState} {f : Bytes → Option Body} {id : Bytes} {body : Body}
    (hb : blobs.foldl (fun f b => Function.update f b.id (b.value s (f b.id))) f id = some body) :
    f id = some body ∨ ∃ b ∈ blobs, b.id = id ∧ ∃ q, b.plan = some q ∧ q.supply s = some body := by
  induction blobs generalizing f with
  | nil => exact .inl hb
  | cons b blobs ih =>
    obtain hb | ⟨b', hb', hrest⟩ := ih hb
    · dsimp only at hb
      rw [Function.update_apply] at hb
      split at hb
      · next hid =>
        rw [BlobState.value] at hb
        split at hb
        · split at hb
          · cases hq : b.plan with
            | none =>
              rw [hq] at hb
              exact .inl (hid ▸ hb)
            | some q =>
              rw [hq] at hb
              exact .inr ⟨b, mem_cons_self, hid.symm, q, hq, hb⟩
          · exact .inl (hid ▸ hb)
        · cases hb
      · exact .inl hb
    · exact .inr ⟨b', mem_cons_of_mem _ hb', hrest⟩

end Writing

variable {s : Store} {operation : Token}

/-- **Where records and blobs come from.** -/
theorem capture_origin {origin : Token} {now : ℕ} {changes : List Change} {cap : Captured}
    (hcap : capture s operation origin now changes = .ok cap) :
    (∀ id r, cap.history.records id = some r → s.history.records id = some r ∨
      ∃ c ∈ changes, ∃ p, Drawn s (s.history.policy.getD {}) operation c p ∧ Numbers p r) ∧
    ∀ b body, cap.history.blob b = some body → s.history.blob b = some body ∨
      ∃ c ∈ changes, ∃ p, Drawn s (s.history.policy.getD {}) operation c p ∧
        p.record.blobId = some b ∧ p.supply s = some body := by
  obtain ⟨bound, hhistory⟩ | ⟨d, bound, g₀, g, bytes, out, h', hplan, hnumber, -, hroom, hrecords, hhistory⟩ :=
    capture_cases hcap
  · obtain ⟨_, hbind⟩ := bindFiles_eq bound s.history
    rw [hhistory, hbind]
    exact ⟨fun _ _ => .inl, fun _ _ => .inl⟩
  obtain ⟨ho₀, hplans₀⟩ := numberPlans_origin (fun _ hb => by cases hb) hnumber
  obtain ⟨ho, hplans⟩ := makeRoom_origin ho₀ hroom
  have hwrite := writeHistory_ok hrecords
  -- A numbered plan was drafted for one of the changes.
  have hdrawn : ∀ q ∈ g.plans, ∃ c ∈ changes, ∃ p,
      Drawn s (s.history.policy.getD {}) operation c p ∧ Numbers p q.record ∧
        q.body = p.body ∧ q.payload = p.payload := fun q hq => by
    rw [hplans] at hq
    obtain hq | ⟨p, hp, hnum⟩ := hplans₀ q hq
    · cases hq
    obtain hp | ⟨c, hc, hdrawn⟩ := planChanges_drawn hplan hp
    · cases hp
    · exact ⟨c, hc, p, hdrawn, hnum⟩
  obtain ⟨_, hbind⟩ := bindFiles_eq bound h'
  rw [hhistory, hbind, hwrite]
  constructor
  · intro id r hr
    obtain hr | hr := addAll_records hr
    · exact .inl (foldl_dropRecord_records hr)
    · obtain ⟨q, hq, rfl⟩ := mem_map.mp hr
      obtain ⟨c, hc, p, hp, hnum, -⟩ := hdrawn q hq
      exact .inr ⟨c, hc, p, hp, hnum⟩
  · intro b body hb
    obtain hb | ⟨b₀, hb₀, rfl, q, hq, hsupply⟩ := foldl_value hb
    · exact .inl hb
    · obtain ⟨hmem, hid⟩ := ho b₀ hb₀ q hq
      obtain ⟨c, hc, p, hp, ⟨_, _, _, hnum⟩, hbody, hpayload⟩ := hdrawn q hmem
      refine .inr ⟨c, hc, p, hp, ?_, ?_⟩
      · rw [hnum] at hid
        exact hid
      · rwa [Plan.supply, ← hbody, ← hpayload]

/-! ## Bytes behind a version -/

/-- A recoverable version of a file has its bytes in a blob. -/
def Record.Backed (r : Record) : Prop :=
  r.type = some .file → r.recoverable = true → ∃ b, r.blobId = some b ∧ r.contentHash = .sha b

/-- Files are hashed. -/
theorem contentHash_file {c : Change} {f : InodeHash} {which : Which} {body : BodyKey}
    {hash : Hash} (hf : f.type = some .file)
    (h : contentHash s operation c (some f) which body = .ok hash) : ∃ b, hash = .sha b := by
  unfold contentHash at h
  simp only [hf] at h
  split at h
  · cases h
    exact ⟨_, rfl⟩
  · cases h

theorem Shot.backed {a : SnapshotArgs} {p : Plan} (hp : Shot s policy a p) (hr : Numbers p r)
    (hhash : a.fields.type = some .file → a.deleted = false → ∃ b, a.hash = .sha b) : r.Backed := by
  intro htype hrec
  obtain ⟨version, sequence, ref, rfl⟩ := hr
  obtain ⟨operation, origin, now, c, ref', hrecord⟩ := hp.record
  rw [hrecord] at htype hrec ⊢
  have htype' : a.fields.type = some .file := htype
  have hdel : a.deleted = false ∧ a.oversized policy = false := by
    simpa [Record.recoverable, SnapshotArgs.record] using hrec
  obtain ⟨b, hb⟩ := hhash htype' hdel.1
  refine ⟨b, ?_, ?_⟩
  · simp [SnapshotArgs.record, hb, htype', hdel.1, hdel.2]
  · simp [SnapshotArgs.record, hb, hdel.1]

/-- What a capture drafts is backed. -/
theorem Drawn.backed {c : Change} {p : Plan} (hp : Drawn s policy operation c p)
    (hr : Numbers p r) : r.Backed := by
  cases hp with
  | baseline hbefore htype hhash hp => exact hp.backed hr fun hf _ => contentHash_file hf hhash
  | outcome hhash hp =>
    refine hp.backed hr fun hf hdel => ?_
    unfold Change.outcome at hf hdel ⊢
    cases hafter : c.after with
    | none =>
      rw [hafter] at hdel
      cases hdel
    | some after =>
      rw [hafter] at hf hhash
      exact contentHash_file hf hhash

/-! ## The retention index knows every record -/

/-- Every record is in the retention index. -/
def Indexed (h : HistoryKeys) : Prop := ∀ id r, h.records id = some r → id ∈ h.retention.map Prod.fst

section Indexed

variable {s : Store} {h h' : HistoryKeys} {policy : Policy} {cutoff : ℤ} {w w' : Sweep}

theorem mem_rem {z : ZSet RecordId} {id' : RecordId} (hne : id ≠ id') (h : id ∈ z.map Prod.fst) :
    id ∈ (z.rem id').map Prod.fst := by
  obtain ⟨e, he, rfl⟩ := mem_map.mp h
  exact mem_map_of_mem (mem_filter.mpr ⟨he, decide_eq_true hne⟩)

theorem Indexed.dropRecord (hi : Indexed h) (r : Record) : Indexed (dropRecord h r) := by
  intro id v hv
  have hold := hi id v (dropRecord_records hv)
  refine mem_rem (fun he => ?_) hold
  subst he
  simp [History.dropRecord] at hv

theorem Indexed.addRecord (hi : Indexed h) (r : Record) : Indexed (addRecord h r) := by
  intro id v hv
  have hret : (History.addRecord h r).retention = h.retention.rem r.id ++ [(r.id, r.sequence)] := rfl
  rw [hret, map_append, mem_append]
  by_cases hid : id = r.id
  · exact .inr (by simp [hid])
  · refine .inl (mem_rem hid (hi id v ?_))
    simpa [History.addRecord, Function.update_of_ne hid] using hv

theorem Indexed.of_same (hi : Indexed h) (hrecords : h'.records = h.records)
    (hretention : h'.retention = h.retention) : Indexed h' := by
  intro id r hr
  rw [hretention]
  exact hi id r (hrecords ▸ hr)

theorem Indexed.dropAll (hi : Indexed h) (out : List Record) : Indexed (out.foldl History.dropRecord h) := by
  induction out generalizing h with
  | nil => exact hi
  | cons r out ih => exact ih (hi.dropRecord r)

theorem Indexed.addAll (hi : Indexed h) (ns : List Record) : Indexed (ns.foldl History.addRecord h) := by
  induction ns generalizing h with
  | nil => exact hi
  | cons r ns ih => exact ih (hi.addRecord r)

theorem capture_indexed {origin : Token} {now : ℕ} {changes : List Change} {cap : Captured}
    (hi : Indexed s.history) (hcap : capture s operation origin now changes = .ok cap) :
    Indexed cap.history := by
  obtain ⟨bound, hhistory⟩ | ⟨d, bound, g₀, g, bytes, out, h', -, -, -, -, hrecords, hhistory⟩ :=
    capture_cases hcap
  · obtain ⟨_, hbind⟩ := bindFiles_eq bound s.history
    rw [hhistory, hbind]
    exact hi.of_same rfl rfl
  obtain ⟨_, hbind⟩ := bindFiles_eq bound h'
  rw [hhistory, hbind]
  refine Indexed.of_same ?_ rfl rfl
  rw [writeHistory_ok hrecords]
  exact ((hi.dropAll out).addAll g.records).of_same rfl rfl

theorem lineageState_stale {l : LineageId} {st : LineageState}
    (hl : lineageState h w l = .ok (st, w')) : w'.stale = w.stale := by
  unfold lineageState at hl
  split at hl
  · cases hl
    rfl
  · dsimp only at hl
    split at hl
    · cases hl
    · obtain ⟨-, -, hl⟩ := bind_eq_ok hl
      split at hl
      · obtain ⟨-, -, hl⟩ := bind_eq_ok hl
        cases hl
        rfl
      · cases hl
        rfl

theorem releaseBlob_stale (hr : releaseBlob h w r = .ok w') : w'.stale = w.stale := by
  unfold releaseBlob at hr
  repeat' split at hr
  all_goals first
    | cases hr; rfl
    | cases hr
    | (dsimp only at hr; split at hr <;> cases hr; rfl)

/-- A visit finds stale only what has no record. -/
theorem sweepOne_stale (hw : sweepOne h policy cutoff w id = .ok w') :
    ∀ i ∈ w'.stale, i ∈ w.stale ∨ h.records i = none := by
  unfold sweepOne at hw
  split at hw
  · next hnone =>
    cases hw
    intro i hi
    rcases mem_append.mp hi with hi | hi
    · exact .inl hi
    · rw [mem_singleton.mp hi]
      exact .inr hnone
  · obtain ⟨-, hw⟩ := of_ite_eq_ok hw
    obtain ⟨⟨st, w₁⟩, hstate, hw⟩ := bind_eq_ok hw
    dsimp only at hw
    obtain ⟨-, hw⟩ := of_ite_eq_ok hw
    obtain ⟨-, hw⟩ := of_ite_eq_ok hw
    have hstale : w'.stale = w.stale := by
      obtain ⟨-, hw⟩ | ⟨-, hw⟩ := ite_eq_iff.mp hw
      · obtain ⟨-, hw⟩ := of_ite_eq_ok hw
        obtain ⟨w₂, hrel, hw⟩ := bind_eq_ok hw
        cases hw
        have hsame := lineageState_stale hstate
        exact (releaseBlob_stale hrel).trans hsame
      · cases hw
        exact lineageState_stale hstate
    rw [hstale]
    exact fun i => .inl

theorem foldlM_stale {ids : List RecordId} (hw : ids.foldlM (sweepOne h policy cutoff) w = .ok w') :
    ∀ i ∈ w'.stale, i ∈ w.stale ∨ h.records i = none := by
  induction ids generalizing w with
  | nil =>
    cases hw
    exact fun i => .inl
  | cons id ids ih =>
    rw [foldlM_cons] at hw
    obtain ⟨w₁, hone, hw⟩ := bind_eq_ok hw
    intro i hi
    exact (ih hw i hi).elim (sweepOne_stale hone i) .inr

theorem mem_foldl_rem {ids : List RecordId} {z : ZSet RecordId} (hid : id ∉ ids)
    (h : id ∈ z.map Prod.fst) : id ∈ (ids.foldl ZSet.rem z).map Prod.fst := by
  induction ids generalizing z with
  | nil => exact h
  | cons i ids ih =>
    rw [mem_cons, not_or] at hid
    exact ih hid.2 (mem_rem hid.1 h)

theorem prune_indexed {now : ℤ} {limit : ℕ} (hi : Indexed h) (hp : prune h now limit = .ok h') :
    Indexed h' := by
  obtain rfl | ⟨_, _, _, w, _, _, _, _, _, _, hfold, rfl⟩ := prune_cases hp
  · exact hi
  intro id r hr
  have hmem := hi.dropAll w.plans id r hr
  refine mem_foldl_rem (fun hstale => ?_) hmem
  obtain hstale | hnone := foldlM_stale hfold id hstale
  · cases hstale
  · rw [foldl_dropRecord_records hr] at hnone
    cases hnone

end Indexed

end Afs.History
