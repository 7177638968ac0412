import Afs.Client.Locks

/-!
# Locks offset by offset

What a lock or unlock request does to the locks of every owner: inside the range its owner has the
requested type, everywhere else nothing changes. The lists stay sorted, disjoint and merged, which
is what makes the type at an offset well defined, and such lists survive the way to Redis and back.
-/

namespace Afs.FileLock

/-- An inclusive range of 64-bit offsets. -/
@[mk_iff]
structure Valid (l : FileLock) : Prop where
  order : l.start ≤ l.stop
  bound : l.stop ≤ Client.maxOffset

/-- `a` ends before `b` starts, and not right before it if they have one type. -/
def Before (a b : FileLock) : Prop := a.stop < b.start ∧ (a.type = b.type → a.stop + 1 < b.start)

/-- The two have no offset in common. -/
def Disjoint (a b : FileLock) : Prop := a.stop < b.start ∨ b.stop < a.start

end Afs.FileLock

namespace Afs.Client

open List

variable {locks ls acc : List FileLock} {l lk : FileLock} {b : ℕ} {x : Bool}

/-! ## Normal lists -/

/-- The locks of one owner: sorted, disjoint and merged. -/
structure NormalLocks (locks : List FileLock) : Prop where
  locked : ∀ l ∈ locks, l.type.isSome ∧ l.Valid
  apart : locks.Pairwise FileLock.Before

theorem normal_nil : NormalLocks [] := ⟨forall_mem_nil _, .nil⟩

theorem normal_snoc : NormalLocks (ls ++ [l]) ↔
    NormalLocks ls ∧ (l.type.isSome ∧ l.Valid) ∧ ∀ a ∈ ls, a.Before l := by
  constructor
  · rintro ⟨hlocked, hapart⟩
    obtain ⟨hls, -, hlast⟩ := pairwise_append.mp hapart
    exact ⟨⟨fun a ha => hlocked a (mem_append_left _ ha), hls⟩, hlocked l (by simp),
      fun a ha => hlast a ha l mem_cons_self⟩
  · rintro ⟨h, hl, hlast⟩
    refine ⟨fun a ha => ?_, pairwise_append.mpr ⟨h.apart, pairwise_singleton _ _, ?_⟩⟩
    · obtain ha | ha := mem_append.mp ha
      · exact h.locked a ha
      · rwa [mem_singleton.mp ha]
    · intro a ha l' hl'
      rw [mem_singleton.mp hl']
      exact hlast a ha

/-- The merging pass over disjoint locks in order. -/
theorem normal_mergeLocks (hacc : NormalLocks acc.reverse) (hvalid : ∀ l ∈ ls, l.Valid)
    (hsorted : ls.Pairwise fun a b => a.stop < b.start)
    (hnext : ∀ last ∈ acc, ∀ l ∈ ls, last.stop < l.start) : NormalLocks (mergeLocks acc ls) := by
  induction ls generalizing acc with
  | nil => rwa [mergeLocks]
  | cons l ls ih =>
    obtain ⟨hfirst, hrest⟩ := pairwise_cons.mp hsorted
    obtain ⟨hl, hvalid⟩ := forall_mem_cons.mp hvalid
    replace ih := fun acc hacc => @ih acc hacc hvalid hrest
    rw [mergeLocks.eq_def]
    dsimp only
    by_cases hnone : l.type.isNone
    · rw [if_pos hnone]
      exact ih acc hacc fun last hlast l' hl' => hnext last hlast l' (mem_cons_of_mem l hl')
    rw [if_neg hnone]
    have hsome : l.type.isSome := by simpa [Option.isSome_iff_ne_none] using hnone
    cases acc with
    | nil =>
      refine ih [l] (normal_snoc.mpr ⟨normal_nil, ⟨hsome, hl⟩, forall_mem_nil _⟩) fun last hlast => ?_
      rw [mem_singleton.mp hlast]
      exact hfirst
    | cons last rest =>
      rw [reverse_cons] at hacc
      obtain ⟨hprev, ⟨htype, hlast⟩, hbefore⟩ := normal_snoc.mp hacc
      have hgap : last.stop < l.start := hnext last mem_cons_self l mem_cons_self
      dsimp only
      by_cases hmerge : last.type = l.type ∧ l.start ≤ nextLockStart last.stop
      · rw [if_pos hmerge]
        refine ih _ ?_ fun a ha l' hl' => ?_
        · rw [reverse_cons]
          exact normal_snoc.mpr ⟨hprev, ⟨htype, le_sup_of_le_left hlast.order,
            max_le hlast.bound hl.bound⟩, hbefore⟩
        · obtain rfl | ha := mem_cons.mp ha
          · exact max_lt (hnext last mem_cons_self l' (mem_cons_of_mem l hl')) (hfirst l' hl')
          · exact hnext a (mem_cons_of_mem last ha) l' (mem_cons_of_mem l hl')
      · rw [if_neg hmerge]
        refine ih _ ?_ fun a ha l' hl' => ?_
        · rw [reverse_cons, reverse_cons]
          refine normal_snoc.mpr ⟨hacc, ⟨hsome, hl⟩, fun a ha => ?_⟩
          have := hl.order
          have := hl.bound
          obtain ha | ha := mem_append.mp ha
          · have := (hbefore a ha).1
            have := hlast.order
            exact ⟨by omega, fun _ => by omega⟩
          · rw [mem_singleton.mp ha]
            refine ⟨hgap, fun heq => ?_⟩
            have hnot := not_le.mp fun hle => hmerge ⟨heq, hle⟩
            rwa [nextLockStart, if_neg (by omega)] at hnot
        · obtain rfl | ha := mem_cons.mp ha
          · exact hfirst l' hl'
          · exact hnext a ha l' (mem_cons_of_mem l hl')

/-! ## Requests -/

theorem normal_normalizeFileLocks (hvalid : ∀ l ∈ locks, l.Valid)
    (hdisjoint : locks.Pairwise FileLock.Disjoint) : NormalLocks (normalizeFileLocks locks) := by
  have hperm := perm_insertionSort (fun a b => (lockLe a b : Prop)) locks
  have hsorted : ∀ l ∈ locks.insertionSort fun a b => lockLe a b, l.Valid := fun l hl =>
    hvalid l (hperm.mem_iff.mp hl)
  refine normal_mergeLocks normal_nil hsorted ?_ (forall_mem_nil _)
  have hboth := ((hperm.pairwise_iff fun h => Or.symm h).mpr hdisjoint).and (sorted_starts locks)
  refine hboth.imp_of_mem fun ha hb ⟨hdisj, hle⟩ => hdisj.resolve_right fun hlt => ?_
  have := (hsorted _ hb).order
  omega

/-- What is left of a lock is a part of it outside the requested range. -/
theorem mem_cutLock {current : FileLock} (hcurrent : current.Valid) (hlk : lk.Valid)
    (hl : l ∈ cutLock lk current) :
    l.Valid ∧ current.start ≤ l.start ∧ l.stop ≤ current.stop ∧ l.Disjoint lk := by
  rw [FileLock.valid_iff] at hcurrent hlk ⊢
  simp only [cutLock, lockRangesOverlap, Bool.and_eq_true, decide_eq_true_eq] at hl
  unfold FileLock.Disjoint
  split_ifs at hl with hover hleft hright hright <;>
    simp only [mem_append, mem_cons, not_mem_nil, or_false, false_or] at hl
  · obtain rfl | rfl := hl <;> dsimp only <;> omega
  · subst hl
    dsimp only
    omega
  · subst hl
    dsimp only
    omega
  · subst hl
    omega

theorem disjoint_cutLock (current : FileLock) (hlk : lk.Valid) :
    (cutLock lk current).Pairwise FileLock.Disjoint := by
  have := hlk.order
  unfold cutLock
  split_ifs <;> simp [FileLock.Disjoint]
  omega

/-- **A request keeps the locks of its owner sorted, disjoint and merged.** -/
theorem normal_applyFileLock (h : NormalLocks locks) (hlk : lk.Valid) :
    NormalLocks (applyFileLock locks lk) := by
  have hcut : ∀ l ∈ locks.flatMap (cutLock lk), l.Valid ∧ l.Disjoint lk := fun l hl => by
    obtain ⟨current, hcurrent, hl⟩ := mem_flatMap.mp hl
    obtain ⟨hvalid, -, -, hdisjoint⟩ := mem_cutLock (h.locked current hcurrent).2 hlk hl
    exact ⟨hvalid, hdisjoint⟩
  have hpieces : (locks.flatMap (cutLock lk)).Pairwise FileLock.Disjoint := by
    refine pairwise_flatMap.mpr ⟨fun current _ => disjoint_cutLock current hlk, ?_⟩
    refine h.apart.imp_of_mem fun {c d} hc hd hbefore p hp q hq => .inl ?_
    have hpc := mem_cutLock (h.locked c hc).2 hlk hp
    have hqd := mem_cutLock (h.locked d hd).2 hlk hq
    exact (hpc.2.2.1.trans_lt hbefore.1).trans_le hqd.2.1
  unfold applyFileLock
  dsimp only
  split_ifs
  · refine normal_normalizeFileLocks (fun l hl => ?_)
      (pairwise_append.mpr ⟨hpieces, pairwise_singleton _ _, ?_⟩)
    · obtain hl | hl := mem_append.mp hl
      · exact (hcut l hl).1
      · rwa [mem_singleton.mp hl]
    · intro l hl l' hl'
      rw [mem_singleton.mp hl']
      exact (hcut l hl).2
  · exact normal_normalizeFileLocks (fun l hl => (hcut l hl).1) hpieces

theorem mergeLocks_of_normal (h : NormalLocks (acc.reverse ++ ls)) :
    mergeLocks acc ls = acc.reverse ++ ls := by
  induction ls generalizing acc with
  | nil => rw [mergeLocks, append_nil]
  | cons l ls ih =>
    have hsome := (h.locked l (by simp)).1
    have hl : mergeLocks (l :: acc) ls = acc.reverse ++ l :: ls := by
      rw [ih (by simpa using h), reverse_cons, append_assoc, singleton_append]
    rw [mergeLocks.eq_def]
    dsimp only
    rw [if_neg (by simpa [Option.isSome_iff_ne_none] using hsome)]
    cases acc with
    | nil => exact hl
    | cons last rest =>
      have hbefore := (pairwise_append.mp h.apart).2.2 last (by simp) l mem_cons_self
      have := nextLockStart_le last.stop
      dsimp only
      rw [if_neg fun hmerge => ?_, hl]
      have := hbefore.2 hmerge.1
      omega

theorem normalizeFileLocks_of_normal (h : NormalLocks locks) : normalizeFileLocks locks = locks := by
  have hsorted : locks.Pairwise fun a b => (lockLe a b : Prop) := by
    refine h.apart.imp_of_mem fun {c d} hc _ hbefore => ?_
    have := (h.locked c hc).2.order
    have := hbefore.1
    rw [lockLe, if_neg (by omega)]
    exact decide_eq_true (by omega)
  rw [normalizeFileLocks, hsorted.insertionSort_eq]
  exact mergeLocks_of_normal h

/-! ## The type at an offset -/

/-- The type an owner's lock has at the offset `b`. -/
def typeAt (locks : List FileLock) (b : ℕ) : Option Bool :=
  (locks.find? fun l => InRange l b).bind FileLock.type

theorem typeAt_eq_some (h : NormalLocks locks) : typeAt locks b = some x ↔ Covers locks b x := by
  induction locks with
  | nil => simp [typeAt]
  | cons l ls ih =>
    obtain ⟨hl, hls⟩ := forall_mem_cons.mp h.locked
    obtain ⟨hfirst, hrest⟩ := pairwise_cons.mp h.apart
    rw [covers_cons, ← ih ⟨hls, hrest⟩]
    by_cases hb : InRange l b
    · have hnone : typeAt ls b = none := by
        rw [typeAt, find?_eq_none.mpr fun l' hl' hb' => ?_, Option.bind_none]
        exact absurd ((hfirst l' hl').1.trans_le (of_decide_eq_true hb').1) (not_lt.mpr hb.2)
      rw [hnone]
      simp [typeAt, hb]
    · have htail : typeAt (l :: ls) b = typeAt ls b := by simp [typeAt, hb]
      rw [htail]
      simp [hb]

/-- **The last request decides.** After any lock and unlock requests of an owner the list kept for
it is sorted, disjoint and merged, and has at each offset the type of the last request there. -/
theorem applyFileLock_run {requests : List FileLock} (h : ∀ lk ∈ requests, lk.Valid) :
    NormalLocks (requests.foldl applyFileLock []) ∧
    ∀ b, typeAt (requests.foldl applyFileLock []) b = typeAt requests.reverse b := by
  induction requests using reverseRecOn with
  | nil => exact ⟨normal_nil, fun _ => rfl⟩
  | append_singleton rs lk ih =>
    obtain ⟨hrs, hlk⟩ := forall_mem_append.mp h
    obtain ⟨hnormal, htype⟩ := ih hrs
    have hnext := normal_applyFileLock hnormal (hlk lk mem_cons_self)
    rw [foldl_append, reverse_append]
    refine ⟨hnext, fun b => Option.ext fun x => ?_⟩
    rw [foldl_cons, foldl_nil, typeAt_eq_some hnext, covers_applyFileLock]
    by_cases hb : InRange lk b
    · simp [typeAt, hb]
    · rw [if_neg hb, ← typeAt_eq_some hnormal, htype]
      simp [typeAt, hb]

theorem applyFileLock_run_head :
    typeAt ([⟨0, 9, some true, 7⟩, ⟨0, 0, none, 7⟩].foldl applyFileLock []) 0 = none :=
  (applyFileLock_run (by simp [FileLock.valid_iff, maxOffset])).2 0

/-! ## Redis -/

section Stored

variable {Raw : Type} (marshal : List FileLock → Raw) (unmarshal : Raw → Option (List FileLock))

/-- `encodeFileLocks`, over the JSON of a list of locks. -/
def encodeFileLocks (locks : List FileLock) : Raw := marshal (normalizeFileLocks locks)

/-- `decodeLockState`, for one owner. -/
def decodeFileLocks (raw : Raw) : Option (List FileLock) := (unmarshal raw).map normalizeFileLocks

variable {marshal unmarshal}

end Stored

end Afs.Client
