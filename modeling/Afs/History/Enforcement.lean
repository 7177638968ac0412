import Afs.History.Sweep

/-!
# Whole sweeps

Pages are run from the start of the retention index until the cursor is back at it. The limits are
weighed anew at every visit, against what is left then; a record that is not asked for at its visit
is not asked for later either, since versions and bytes only become fewer. So at the end of the
sweep every record is protected or no limit asks for it.
-/

namespace Afs.History

open List

/-- Pages are run, the first one at the time `now k`, until the cursor is back at the start. -/
inductive Sweeps (now limit : ℕ → ℤ) : ℕ → HistoryKeys → HistoryKeys → Prop
  | last {k h h'} : prunePage h (now k) (limit k) = .ok h' → h'.pruneCursor.getD 0 = 0 →
      Sweeps now limit k h h'
  | more {k h h₁ h'} : prunePage h (now k) (limit k) = .ok h₁ → h₁.pruneCursor.getD 0 ≠ 0 →
      Sweeps now limit (k + 1) h₁ h' → Sweeps now limit k h h'

/-- The history shows some records, all of them of files or links. -/
def Sound (h : HistoryKeys) : Prop := ∃ rs, Represents h rs ∧ ∀ r ∈ rs, r.Leaf

/-- The records of a lineage. -/
def recordsOf (h : HistoryKeys) (l : LineageId) : Set RecordId :=
  {id | ∃ r, h.records id = some r ∧ r.fileId = l}

/-- The records of a lineage that its pointers name. -/
def protectedOf (h : HistoryKeys) (l : LineageId) : Set RecordId :=
  {id | ∃ r, h.records id = some r ∧ r.fileId = l ∧ Protected h r}

/-- The limits hold, for ages at the time `start`. -/
structure Enforced (policy : Policy) (start : ℤ) (h : HistoryKeys) : Prop where
  versions : 0 < policy.maxVersions →
    ∀ l, (recordsOf h l).ncard ≤ max policy.maxVersions (protectedOf h l).ncard
  age : 0 < policy.maxAgeDays → ∀ id r, h.records id = some r → ¬ Protected h r →
    start - policy.maxAgeDays * 86400000 ≤ (r.createdAt : ℤ)
  bytes : 0 < policy.maxBytes → h.bytes.getD 0 ≤ policy.maxBytes ∨
    ∀ id r, h.records id = some r → Protected h r

/-- What is left of `h` when the page that makes it `h'` visits the record: what it has not visited
yet and what it has kept. -/
def left (h h' : HistoryKeys) (r : Record) : List Record :=
  (h.retention.filterMap fun e => h.records e.1).filter fun r' =>
    r.sequence ≤ r'.sequence ∨ (h'.records r'.id).isSome

/-- Every record that goes is unprotected and asked for when it is visited. -/
def OnlyAsked (policy : Policy) (now : ℤ) (h h' : HistoryKeys) : Prop :=
  ∀ id r, h.records id = some r → h'.records id = none →
    ¬ Protected h r ∧
    Asked policy (now - policy.maxAgeDays * 86400000) (lineage (left h h' r) r.fileId).length
      ((left h h' r).map Record.bytes).sum r

/-! ## The choice of a page -/

variable {n : ℕ} {after before : List Record}

section Choice

variable {h : HistoryKeys} {policy : Policy} {cutoff cutoff' : ℤ} {rs rs' out visited : List Record}
  {r : Record}

theorem Asked.mono {n' : ℕ} {q q' : ℤ} (ha : Asked policy cutoff n q r) (hc : cutoff ≤ cutoff')
    (hn : n ≤ n') (hq : q ≤ q') : Asked policy cutoff' n' q' r := by
  obtain ⟨hp, ha⟩ | ⟨hp, ha⟩ | ⟨hp, ha⟩ := ha
  · exact .inl ⟨hp, ha.trans_le hn⟩
  · exact .inr (.inl ⟨hp, ha.trans_le hc⟩)
  · exact .inr (.inr ⟨hp, ha.trans_le hq⟩)

/-- No limit asks for the record among `rs`, or its lineage's pointers protect it. -/
def Settled (h : HistoryKeys) (policy : Policy) (cutoff : ℤ) (rs : List Record) (r : Record) : Prop :=
  Protected h r ∨ ¬ Asked policy cutoff (lineage rs r.fileId).length (rs.map Record.bytes).sum r

/-- What is settled stays so when records go. -/
theorem Settled.sublist (hs : Settled h policy cutoff' rs r) (hc : cutoff ≤ cutoff')
    (hsub : rs'.Sublist rs) (hpos : ∀ r ∈ rs, 0 ≤ r.size) : Settled h policy cutoff rs' r := by
  refine hs.imp_right (mt fun ha => ha.mono hc (hsub.filter _).length_le ?_)
  refine (hsub.map _).sum_le_sum fun b hb => ?_
  obtain ⟨r, hr, rfl⟩ := mem_map.mp hb
  have := hpos r hr
  rw [Record.bytes]
  split <;> omega

theorem chosen_append (visited visited' : List Record) :
    chosen h policy cutoff rs (visited ++ visited') out =
      chosen h policy cutoff rs visited' (chosen h policy cutoff rs visited out) := by
  induction visited generalizing out with
  | nil => rfl
  | cons r visited ih => exact ih

theorem subset_chosen : out ⊆ chosen h policy cutoff rs visited out := by
  induction visited generalizing out with
  | nil => exact List.Subset.refl _
  | cons r visited ih =>
    refine List.Subset.trans ?_ ih
    split
    · exact subset_append_left _ _
    · exact List.Subset.refl _

theorem chosen_subset : chosen h policy cutoff rs visited out ⊆ out ++ visited := by
  induction visited generalizing out with
  | nil => exact subset_append_left _ _
  | cons r visited ih =>
    refine List.Subset.trans ih fun r' hr' => ?_
    rw [mem_append] at hr' ⊢
    rw [mem_cons]
    obtain hr' | hr' := hr'
    · split at hr'
      · rw [mem_append, mem_singleton] at hr'
        exact hr'.imp_right .inl
      · exact .inl hr'
    · exact .inr (.inr hr')

/-- A record goes exactly if it does so at its visit. -/
theorem mem_chosen_iff (hnot : r ∉ out ++ before) (hafter : r ∉ after) :
    r ∈ chosen h policy cutoff rs (before ++ r :: after) out ↔
      Goes h policy cutoff rs (chosen h policy cutoff rs before out) r := by
  have hbefore : r ∉ chosen h policy cutoff rs before out := fun hr => hnot (chosen_subset hr)
  rw [chosen_append, chosen]
  constructor
  · intro hr
    by_contra hg
    rw [if_neg hg] at hr
    rcases mem_append.mp (chosen_subset hr) with hr | hr
    · exact hbefore hr
    · exact hafter hr
  · intro hg
    rw [if_pos hg]
    exact subset_chosen (mem_append_right _ (mem_singleton_self r))

end Choice

/-! ## What a page leaves -/

section Page

variable {h h' : HistoryKeys} {policy : Policy} {now start : ℤ} {limit : ℕ} {rs : List Record}
  {r : Record}

/-- The candidates before and after one of them. -/
theorem candidates_split (hrep : Represents h rs) (hr : r ∈ candidates h limit rs) :
    ∃ before after, candidates h limit rs = before ++ r :: after ∧
      (∀ r' ∈ before, Earlier r' r) ∧ ∀ r' ∈ after, Earlier r r' := by
  obtain ⟨before, after, hsplit⟩ := append_of_mem hr
  have hpair : (candidates h limit rs).Pairwise Earlier :=
    hrep.journal.earlier.sublist ((take_sublist ..).trans filter_sublist)
  rw [hsplit, pairwise_append, pairwise_cons] at hpair
  exact ⟨before, after, hsplit, fun r' hr' => hpair.2.2 r' hr' r mem_cons_self,
    hpair.2.1.1⟩

theorem mem_pruned_iff (hsplit : candidates h limit rs = before ++ r :: after)
    (hbefore : ∀ r' ∈ before, Earlier r' r) (hafter : ∀ r' ∈ after, Earlier r r') :
    r ∈ pruned h policy now limit rs ↔
      Goes h policy (now - policy.maxAgeDays * 86400000) rs
        (chosen h policy (now - policy.maxAgeDays * 86400000) rs before []) r := by
  rw [pruned, hsplit]
  exact mem_chosen_iff (fun hr => (hbefore r hr).id rfl) fun hr => (hafter r hr).id rfl

theorem chosen_subset_pruned (hsplit : candidates h limit rs = before ++ r :: after) :
    chosen h policy (now - policy.maxAgeDays * 86400000) rs before [] ⊆
      pruned h policy now limit rs := by
  rw [pruned, hsplit, chosen_append]
  exact subset_chosen

/-- A candidate that a page keeps is settled. -/
theorem settled_of_kept (hrep : Represents h rs) (hr : r ∈ candidates h limit rs)
    (hkept : r ∉ pruned h policy now limit rs) :
    Settled h policy (now - policy.maxAgeDays * 86400000)
      (dropKeys Record.id (pruned h policy now limit rs) rs) r := by
  obtain ⟨before, after, hsplit, hbefore, hafter⟩ := candidates_split hrep hr
  have hgoes := mt (mem_pruned_iff hsplit hbefore hafter).mpr hkept
  rw [Goes, not_and_or, not_not] at hgoes
  refine Settled.sublist hgoes le_rfl (monotone_filter_right _ fun r' hr' => ?_)
    fun r' hr' => (hrep.sizes r' (dropKeys_subset hr')).1
  have hnot := of_decide_eq_true hr'
  exact decide_eq_true fun hmem => hnot (map_subset _ (chosen_subset_pruned hsplit) hmem)

/-- What a page does not remove stays. -/
theorem mem_dropKeys_of_notMem (hrep : Represents h rs) (hkept : r ∉ pruned h policy now limit rs)
    (hr : r ∈ rs) : r ∈ dropKeys Record.id (pruned h policy now limit rs) rs := by
  refine mem_dropKeys.mpr ⟨hr, fun hmem => ?_⟩
  obtain ⟨r', hr', hid⟩ := mem_map.mp hmem
  have hrs : r' ∈ rs := candidates_subset (by simpa using chosen_subset hr')
  rw [inj_on_of_nodup_map hrep.journal.nodup hrs hr hid] at hr'
  exact hkept hr'

/-- What is left at a visit is what the records chosen before leave. -/
theorem left_eq (hrep : Represents h rs)
    (hrep' : Represents h' (dropKeys Record.id (pruned h policy now limit rs) rs))
    (hsplit : candidates h limit rs = before ++ r :: after)
    (hbefore : ∀ r' ∈ before, Earlier r' r) (hafter : ∀ r' ∈ after, Earlier r r') :
    left h h' r = dropKeys Record.id
      (chosen h policy (now - policy.maxAgeDays * 86400000) rs before []) rs := by
  have hindex : (h.retention.filterMap fun e => h.records e.1) = rs := by
    rw [hrep.journal.retention, filterMap_map]
    calc rs.filterMap ((fun e => h.records e.1) ∘ fun r => (r.id, r.sequence))
        = rs.filterMap some := filterMap_congr fun r' hr' =>
          hrep.journal.record_iff.mpr ⟨hr', rfl⟩
      _ = rs := filterMap_some ..
  have hsub : ∀ r' ∈ chosen h policy (now - policy.maxAgeDays * 86400000) rs before [],
      r' ∈ rs ∧ r' ∈ before := fun r' hr' => by
    have hmem : r' ∈ before := by simpa using chosen_subset hr'
    exact ⟨candidates_subset (hsplit ▸ mem_append_left _ hmem), hmem⟩
  rw [left, hindex, dropKeys]
  refine filter_congr fun r' hr' => decide_eq_decide.mpr ?_
  constructor
  · rintro hleft hmem
    obtain ⟨r'', hr'', hid⟩ := mem_map.mp hmem
    obtain rfl : r'' = r' :=
      inj_on_of_nodup_map hrep.journal.nodup (hsub r'' hr'').1 hr' hid
    obtain hle | hsome := hleft
    · exact absurd (hbefore r'' (hsub r'' hr'').2).sequence (not_lt.mpr hle)
    · obtain ⟨v, hv⟩ := Option.isSome_iff_exists.mp hsome
      obtain ⟨hv, hvid⟩ := hrep'.journal.record_iff.mp hv
      have hgone := (mem_dropKeys.mp hv).2
      rw [hvid] at hgone
      exact hgone (mem_map_of_mem (chosen_subset_pruned hsplit hr''))
  · intro hnot
    by_contra hleft
    rw [not_or, not_le] at hleft
    obtain ⟨hlt, hnone⟩ := hleft
    have hgone : r' ∈ pruned h policy now limit rs := by
      by_contra hkept
      refine hnone ?_
      rw [hrep'.journal.record_iff.mpr ⟨mem_dropKeys_of_notMem hrep hkept hr', rfl⟩]
      rfl
    rw [pruned, hsplit, chosen_append] at hgone
    rcases mem_append.mp (chosen_subset hgone) with hmem | hmem
    · exact hnot (mem_map_of_mem hmem)
    · rcases mem_cons.mp hmem with rfl | hmem
      · exact lt_irrefl _ hlt
      · exact lt_asymm hlt (hafter r' hmem).sequence

end Page

/-! ## The sweep -/

section Sweep

variable {h h' : HistoryKeys} {policy : Policy} {start : ℤ} {rs : List Record} {r : Record}
  {now limit : ℕ → ℤ}

theorem pageSize_pos (limit : ℤ) : 0 < pageSize limit := by
  unfold pageSize
  split
  · norm_num
  · split
    · norm_num
    · omega

/-- A record up to the last candidate of a full page has been visited. -/
theorem mem_candidates_of_le {last : Record} (hrep : Represents h rs)
    (hlast : (candidates h n rs).getLast? = some last) (hr : r ∈ rs)
    (hcursor : h.pruneCursor.getD 0 < r.sequence) (hle : r.sequence ≤ last.sequence) :
    r ∈ candidates h n rs := by
  have hbeyond : r ∈ rs.filter fun r => h.pruneCursor.getD 0 < r.sequence :=
    mem_filter.mpr ⟨hr, decide_eq_true hcursor⟩
  have hpair := hrep.journal.earlier.filter fun r => h.pruneCursor.getD 0 < r.sequence
  rw [← take_append_drop n (rs.filter _)] at hbeyond hpair
  rcases mem_append.mp hbeyond with hmem | hmem
  · exact hmem
  · have hlt := (pairwise_append.mp hpair).2.2 last (mem_of_getLast? hlast) r hmem
    exact absurd hlt.sequence (not_lt.mpr hle)

theorem length_beyond_lt {rs' : List Record} {c : ℕ} (hsub : rs'.Sublist rs) (hlt : c < r.sequence)
    (hr : r ∈ rs) : (rs'.filter fun r' => r.sequence < r'.sequence).length <
      (rs.filter fun r' => c < r'.sequence).length := by
  have hand : (rs.filter fun r' => r.sequence < r'.sequence) =
      (rs.filter fun r' => c < r'.sequence).filter fun r' => r.sequence < r'.sequence := by
    rw [filter_filter]
    refine filter_congr fun r' _ => ?_
    rw [Bool.eq_iff_iff, Bool.and_eq_true, decide_eq_true_iff, decide_eq_true_iff]
    exact ⟨fun h => ⟨h, hlt.trans h⟩, fun h => h.1⟩
  refine lt_of_le_of_lt (hsub.filter _).length_le ?_
  rw [hand, length_filter_lt_length_iff_exists]
  exact ⟨r, mem_filter.mpr ⟨hr, decide_eq_true hlt⟩, by simp⟩

/-- **A sweep that is under way ends, and everything is settled then.** -/
theorem sweeps_of_represents (limit : ℕ → ℤ) (k : ℕ)
    (hlimits : ¬ (policy.maxVersions = 0 ∧ policy.maxAgeDays = 0 ∧ policy.maxBytes = 0))
    (hnow : ∀ k, start ≤ now k) (hrep : Represents h rs) (hkinds : ∀ r ∈ rs, r.Leaf)
    (hpolicy : h.policy = some policy) (hsettled : ∀ r ∈ rs, r.sequence ≤ h.pruneCursor.getD 0 →
      Settled h policy (start - policy.maxAgeDays * 86400000) rs r) :
    ∃ h' rs', Sweeps now limit k h h' ∧ Represents h' rs' ∧
      ∀ r ∈ rs', Settled h' policy (start - policy.maxAgeDays * 86400000) rs' r := by
  -- The induction is on the number of records beyond the cursor.
  induction hm : (rs.filter fun r => h.pruneCursor.getD 0 < r.sequence).length
    using Nat.strong_induction_on generalizing h rs k with
  | _ m ih =>
    obtain ⟨h₁, hpage, hturn, hpol₁, hfile₁, hcursor₁⟩ := prune_page (now k) (pageSize (limit k))
      hrep hpolicy hlimits fun r hr => hkinds r (candidates_subset hr)
    have hsize := pageSize_pos (limit k)
    change prunePage h (now k) (limit k) = .ok h₁ at hpage
    generalize pageSize (limit k) = n at hturn hcursor₁ hsize
    have hrep₁ := hturn.represents
    rw [append_nil] at hrep₁
    have hsettled₁ : ∀ r ∈ dropKeys Record.id (pruned h policy (now k) n rs) rs,
        (r.sequence ≤ h.pruneCursor.getD 0 ∨ r ∈ candidates h n rs) →
        Settled h₁ policy (start - policy.maxAgeDays * 86400000)
          (dropKeys Record.id (pruned h policy (now k) n rs) rs) r := fun r hr hor => by
      obtain ⟨hrs, hnot⟩ := mem_dropKeys.mp hr
      have hold : Settled h policy (start - policy.maxAgeDays * 86400000)
          (dropKeys Record.id (pruned h policy (now k) n rs) rs) r := by
        obtain hle | hmem := hor
        · exact (hsettled r hrs hle).sublist le_rfl filter_sublist fun r hr => (hrep.sizes r hr).1
        · exact (settled_of_kept hrep hmem fun hgone => hnot (mem_map_of_mem hgone)).sublist
            (sub_le_sub_right (hnow k) _) (List.Sublist.refl _)
            fun r hr => (hrep.sizes r (dropKeys_subset hr)).1
      exact hold.imp_left fun hp => by rwa [Protected, entry, hfile₁]
    by_cases hlen : (candidates h n rs).length < n
    · rw [if_pos hlen] at hcursor₁
      refine ⟨h₁, _, .last hpage (by rw [hcursor₁]; rfl), hrep₁, fun r hr => hsettled₁ r hr ?_⟩
      rw [candidates, length_take] at hlen
      rw [candidates, take_of_length_le (by omega), mem_filter, decide_eq_true_iff]
      exact (le_or_gt _ _).imp_right fun hlt => ⟨dropKeys_subset hr, hlt⟩
    · rw [if_neg hlen] at hcursor₁
      cases hlast : (candidates h n rs).getLast? with
      | none =>
        rw [List.getLast?_eq_none_iff.mp hlast, length_nil] at hlen
        exact absurd hsize hlen
      | some last =>
        rw [hlast] at hcursor₁
        have hmem := mem_of_getLast? hlast
        have hseq : h₁.pruneCursor.getD 0 = last.sequence := by rw [hcursor₁]; rfl
        have hpos := (hrep.sequences last (candidates_subset hmem)).1
        have hbeyond : h.pruneCursor.getD 0 < last.sequence :=
          of_decide_eq_true (mem_filter.mp (mem_of_mem_take hmem)).2
        have hfewer : ((dropKeys Record.id (pruned h policy (now k) n rs) rs).filter fun r =>
            h₁.pruneCursor.getD 0 < r.sequence).length < m := by
          rw [hseq, ← hm]
          exact length_beyond_lt filter_sublist hbeyond (candidates_subset hmem)
        obtain ⟨h', rs', hsweeps, hrest⟩ := ih _ hfewer (k + 1) hrep₁
          (fun r hr => hkinds r (dropKeys_subset hr)) (hpol₁.trans hpolicy) (fun r hr hle => by
            refine hsettled₁ r hr ((le_or_gt _ _).imp_right fun hlt => ?_)
            rw [hseq] at hle
            exact mem_candidates_of_le hrep hlast (dropKeys_subset hr) hlt hle) rfl
        exact ⟨h', rs', .more hpage (by omega) hsweeps, hrest⟩

/-! ## The limits -/

theorem ncard_recordsOf (hrep : Represents h rs) (l : LineageId) :
    (recordsOf h l).ncard = (lineage rs l).length := by
  have hset : recordsOf h l = (((lineage rs l).map Record.id).toFinset : Set RecordId) := by
    ext id
    simp only [recordsOf, Set.mem_ofPred_eq, coe_toFinset, mem_map]
    constructor
    · rintro ⟨r, hr, rfl⟩
      obtain ⟨hr, hid⟩ := hrep.journal.record_iff.mp hr
      exact ⟨r, mem_lineage hr, hid⟩
    · rintro ⟨r, hr, hid⟩
      exact ⟨r, hrep.journal.record_iff.mpr ⟨mem_of_mem_filter hr, hid⟩, lineage_fileId hr⟩
  have hnodup : ((lineage rs l).map Record.id).Nodup := nodup_filter hrep.journal.nodup _
  rw [hset, Set.ncard_coe_finset, toFinset_card_of_nodup hnodup, length_map]

/-- Where everything is settled the limits hold. -/
theorem Enforced.of_settled (hrep : Represents h rs)
    (hsettled : ∀ r ∈ rs, Settled h policy (start - policy.maxAgeDays * 86400000) rs r) :
    Enforced policy start h where
  versions hpos l := by
    rw [le_max_iff]
    by_cases hle : (lineage rs l).length ≤ policy.maxVersions
    · exact .inl (by rwa [ncard_recordsOf hrep])
    · -- Every version of the lineage is asked for, so they are all protected.
      refine .inr (le_of_eq (congrArg Set.ncard ?_))
      ext id
      refine ⟨fun ⟨r, hr, hl⟩ => ⟨r, hr, hl, ?_⟩, fun ⟨r, hr, hl, _⟩ => ⟨r, hr, hl⟩⟩
      refine (hsettled r (hrep.journal.record_iff.mp hr).1).resolve_right (not_not.mpr (.inl ?_))
      rw [hl]
      exact ⟨hpos, not_le.mp hle⟩
  age hpos id r hr hp := by
    have hnot := (hsettled r (hrep.journal.record_iff.mp hr).1).resolve_left hp
    by_contra hlt
    exact hnot (.inr (.inl ⟨hpos, not_le.mp hlt⟩))
  bytes hpos := by
    rw [or_iff_not_imp_left]
    intro hlt id r hr
    refine (hsettled r (hrep.journal.record_iff.mp hr).1).resolve_right
      (not_not.mpr (.inr (.inr ⟨hpos, ?_⟩)))
    rw [← hrep.accounts.bytes]
    exact_mod_cast not_le.mp hlt

/-- A page only removes what is asked for. -/
theorem onlyAsked_of_page {now : ℤ} (hrep : Represents h rs)
    (hrep' : Represents h' (dropKeys Record.id (pruned h policy now n rs) rs)) :
    OnlyAsked policy now h h' := by
  intro id r hmem hnone
  obtain ⟨hr, rfl⟩ := hrep.journal.record_iff.mp hmem
  have hgone : r ∈ pruned h policy now n rs := by
    by_contra hkept
    have hstays := mem_dropKeys_of_notMem hrep hkept hr
    rw [hrep'.journal.record_iff.mpr ⟨hstays, rfl⟩] at hnone
    cases hnone
  have hvisited : r ∈ candidates h n rs := by simpa using chosen_subset hgone
  obtain ⟨before, after, hsplit, hbefore, hafter⟩ := candidates_split hrep hvisited
  rw [left_eq hrep hrep' hsplit hbefore hafter]
  exact (mem_pruned_iff hsplit hbefore hafter).mp hgone

/-- **A complete sweep enforces the policy.** -/
theorem sweep_enforces_policy (hsound : Sound h) (hpolicy : h.policy = some policy)
    (hcursor : h.pruneCursor.getD 0 = 0) (hnow : ∀ k, start ≤ now k) :
    (∃ h', Sweeps now limit 0 h h' ∧ Enforced policy start h') ∧
    ∀ h₁ t n h₂, Sound h₁ → h₁.policy = some policy → prunePage h₁ t n = .ok h₂ →
      Sound h₂ ∧ h₂.policy = some policy ∧ OnlyAsked policy t h₁ h₂ := by
  by_cases hlimits : policy.maxVersions = 0 ∧ policy.maxAgeDays = 0 ∧ policy.maxBytes = 0
  · have hpage : ∀ h₁ t n, h₁.policy = some policy → prunePage h₁ t n = .ok h₁ := fun h₁ t n hp => by
      rw [prunePage, prune, hp]
      exact if_pos hlimits
    obtain ⟨hv, ha, hb⟩ := hlimits
    refine ⟨⟨h, .last (hpage h _ _ hpolicy) hcursor, fun hpos => ?_, fun hpos => ?_, fun hpos => ?_⟩, ?_⟩
    · omega
    · omega
    · omega
    · intro h₁ t n h₂ hsound₁ hp hok
      rw [hpage h₁ t n hp] at hok
      cases hok
      exact ⟨hsound₁, hp, fun id r hr hnone => by rw [hr] at hnone; cases hnone⟩
  · constructor
    · obtain ⟨rs, hrep, hkinds⟩ := hsound
      obtain ⟨h', rs', hsweeps, hrep', hsettled⟩ := sweeps_of_represents limit 0 hlimits hnow
        hrep hkinds hpolicy fun r hr hle => by
          have := (hrep.sequences r hr).1
          omega
      exact ⟨h', hsweeps, .of_settled hrep' hsettled⟩
    · rintro h₁ t n h₂ ⟨rs, hrep, hkinds⟩ hp hok
      obtain ⟨h', hpage, hturn, hpol, -⟩ := prune_page t (pageSize n) hrep hp hlimits
        fun r hr => hkinds r (candidates_subset hr)
      rw [prunePage, hpage] at hok
      cases hok
      have hrep' := hturn.represents
      rw [append_nil] at hrep'
      exact ⟨⟨_, hrep', fun r hr => hkinds r (dropKeys_subset hr)⟩, hpol.trans hp,
        onlyAsked_of_page hrep hrep'⟩

/-- A history of two versions of one link, of which the policy keeps one. -/
def twoVersions : Except LuaError Captured :=
  capture { history := { policy := some { mode := .all, maxVersions := 1 } } } 1 1 7
    [{ id := 5, path := [[108]], explicitPath := true, operation := .write
       before := some (some { type := some .symlink, size := some 1, target := some [97] })
       after := some { type := some .symlink, size := some 1, target := some [98] } }]

theorem twoVersions_sound : ∃ h, Sound h ∧ h.policy = some { mode := .all, maxVersions := 1 } ∧
    h.pruneCursor = none ∧ h.retention.length = 2 := by
  have hcheck : (twoVersions.toOption.map fun c => (c.history.policy, c.history.pruneCursor,
      c.history.retention.length, c.history.retention.all fun e =>
        (c.history.records e.1).map (·.type) = some (some .symlink))) =
      some (some { mode := .all, maxVersions := 1 }, none, 2, true) := by decide +kernel
  cases hcap : twoVersions with
  | error e =>
    rw [hcap] at hcheck
    cases hcheck
  | ok cap =>
    rw [hcap] at hcheck
    obtain ⟨hpolicy, hcursor, hlength, hkinds⟩ : _ ∧ _ ∧ _ ∧ _ := by
      simpa only [Except.toOption, Option.map_some, Option.some.injEq, Prod.mk.injEq] using hcheck
    obtain ⟨out, ns, hturn⟩ := capture_turn (.empty _) (by simp) hcap
    refine ⟨cap.history, ⟨_, hturn.represents, fun r hr => ?_⟩, hpolicy, hcursor, hlength⟩
    have hmem : (r.id, r.sequence) ∈ cap.history.retention := by
      rw [hturn.represents.journal.retention]
      exact mem_map_of_mem hr
    have hkind := of_decide_eq_true (all_eq_true.mp hkinds _ hmem)
    rw [hturn.represents.journal.record_iff.mpr ⟨hr, rfl⟩] at hkind
    exact .inr (Option.some.inj hkind)

theorem sweep_enforces_one_version : ∃ h : HistoryKeys, h.retention.length = 2 ∧
    ∃ h', Sweeps (fun _ => 9) (fun _ => 1) 0 h h' ∧
      Enforced { mode := .all, maxVersions := 1 } 9 h' := by
  obtain ⟨h, hsound, hpolicy, hcursor, hlength⟩ := twoVersions_sound
  exact ⟨h, hlength, (sweep_enforces_policy hsound hpolicy (by rw [hcursor]; rfl) fun _ => le_rfl).1⟩

end Sweep

end Afs.History
