import Mathlib.Data.List.Sort
import Afs.Workspace.Store

/-!
# Byte-range locks

The interval arithmetic of `native_locks.go`. The locks an owner holds on an inode are kept
sorted, and neighbours of one type are merged.
-/

namespace Afs.Client

open List AList

/-- `lockRangesOverlap`. -/
def lockRangesOverlap (a b : FileLock) : Bool := a.start ≤ b.stop && b.start ≤ a.stop

/-- `locksConflict`: an overlap with a write lock on either side. -/
def locksConflict (existing requested : FileLock) : Bool :=
  existing.type.isSome && requested.type.isSome && lockRangesOverlap existing requested &&
    (existing.type == some true || requested.type == some true)

/-- The last offset of a file. -/
def maxOffset : ℕ := 2 ^ 64 - 1

/-- `nextLockStart`. -/
def nextLockStart (stop : ℕ) : ℕ := if stop = maxOffset then stop else stop + 1

/-- The order of the locks of one owner. -/
def lockLe (a b : FileLock) : Bool := if a.start = b.start then a.stop ≤ b.stop else a.start < b.start

/-- The merging pass over sorted locks, the last lock kept first. -/
def mergeLocks : List FileLock → List FileLock → List FileLock
  | acc, [] => acc.reverse
  | acc, l :: ls =>
    if l.type.isNone then mergeLocks acc ls
    else
      match acc with
      | [] => mergeLocks [l] ls
      | last :: rest =>
        if last.type = l.type ∧ l.start ≤ nextLockStart last.stop then
          mergeLocks
            ({ last with
                stop := max last.stop l.stop
                pid := if l.pid ≠ 0 then l.pid else last.pid } :: rest) ls
        else mergeLocks (l :: last :: rest) ls

/-- `normalizeFileLocks`. -/
def normalizeFileLocks (locks : List FileLock) : List FileLock :=
  mergeLocks [] (locks.insertionSort fun a b => lockLe a b)

/-- What is left of `current` outside `requested`. -/
def cutLock (requested current : FileLock) : List FileLock :=
  if ¬ lockRangesOverlap current requested then [current]
  else
    (if current.start < requested.start then [{ current with stop := requested.start - 1 }] else []) ++
      if requested.stop < current.stop then [{ current with start := requested.stop + 1 }] else []

/-- `applyFileLock`. -/
def applyFileLock (existing : List FileLock) (requested : FileLock) : List FileLock :=
  let cut := existing.flatMap (cutLock requested)
  normalizeFileLocks (if requested.type.isSome then cut ++ [requested] else cut)

/-- The locks on an inode, by owner. -/
abbrev LockTable := AList fun _ : LockOwner => List FileLock

/-- The locks of an owner. `encodeFileLocks` and `decodeLockState` normalize them on the way to
Redis and back; the JSON between them loses nothing. -/
def decodeLocks (table : LockTable) (owner : LockOwner) : List FileLock :=
  normalizeFileLocks ((table.lookup owner).getD [])

/-- `pruneExpiredLocks`: the owners of a table whose session's lease is gone. -/
def staleOwners (session : Token → Bool) (table : LockTable) : List LockOwner :=
  table.keys.filter fun o => o.lease.any fun t => !session t

/-- Another owner with a live lease holds a conflicting lock. -/
def lockBlocked (session : Token → Bool) (table : LockTable) (owner : LockOwner) (lk : FileLock) :
    Bool :=
  lk.type.isSome && table.keys.any fun o =>
    o != owner && !(o ∈ staleOwners session table) && (decodeLocks table o).any (locksConflict · lk)

/-- The locks of `owner` after it has taken or released `lk`. -/
def nextLocks (session : Token → Bool) (table : LockTable) (owner : LockOwner) (lk : FileLock) :
    List FileLock :=
  applyFileLock (if owner ∈ staleOwners session table then [] else decodeLocks table owner) lk

/-- The table after `owner` has taken or released `lk`: stale owners are dropped on the way. -/
def lockTable (session : Token → Bool) (table : LockTable) (owner : LockOwner) (lk : FileLock) :
    LockTable :=
  let next := nextLocks session table owner lk
  let table := (staleOwners session table).foldl (fun t o => t.erase o) table
  if next = [] then table.erase owner else table.insert owner (normalizeFileLocks next)

/-! ## Bytes -/

section Bytes

variable {l : FileLock} {ls acc locks : List FileLock} {b : ℕ} {x : Bool}

/-- The byte `b` is in the range of a lock. -/
def InRange (l : FileLock) (b : ℕ) : Prop := l.start ≤ b ∧ b ≤ l.stop

instance : Decidable (InRange l b) := inferInstanceAs (Decidable (_ ∧ _))

/-- One of the locks is on the byte `b`, for writing if `x` is true. -/
def Covers (locks : List FileLock) (b : ℕ) (x : Bool) : Prop :=
  ∃ l ∈ locks, l.type = some x ∧ InRange l b

instance : Decidable (Covers locks b x) := inferInstanceAs (Decidable (∃ l ∈ locks, _))

@[simp] theorem covers_nil : ¬ Covers [] b x := by
  rintro ⟨l, hl, -⟩
  cases hl

@[simp] theorem covers_cons : Covers (l :: ls) b x ↔ (l.type = some x ∧ InRange l b) ∨ Covers ls b x := by
  simp only [Covers, exists_mem_cons_iff]

@[simp] theorem covers_append : Covers (ls ++ acc) b x ↔ Covers ls b x ∨ Covers acc b x := by
  simp only [Covers, mem_append, or_and_right, exists_or]

theorem covers_congr (h : ∀ l, l ∈ ls ↔ l ∈ acc) : Covers ls b x ↔ Covers acc b x := by
  simp only [Covers, h]

theorem nextLockStart_le (stop : ℕ) : nextLockStart stop ≤ stop + 1 := by
  unfold nextLockStart
  split_ifs <;> omega

/-- A merged lock covers what the two locks did. -/
theorem inRange_merge {last : FileLock} {pid : ℕ} (hle : last.start ≤ l.start)
    (hnext : l.start ≤ nextLockStart last.stop) :
    InRange { last with stop := max last.stop l.stop, pid := pid } b ↔
      InRange last b ∨ InRange l b := by
  have hbound := nextLockStart_le last.stop
  simp only [InRange]
  omega

/-- The merging pass keeps the bytes, if the locks come in the order of their starts. -/
theorem covers_mergeLocks (hsorted : ls.Pairwise fun a b => a.start ≤ b.start)
    (hlast : ∀ last ∈ acc.head?, ∀ l ∈ ls, last.start ≤ l.start) :
    Covers (mergeLocks acc ls) b x ↔ Covers acc b x ∨ Covers ls b x := by
  induction ls generalizing acc with
  | nil =>
    have hreverse : Covers acc.reverse b x ↔ Covers acc b x := covers_congr fun _ => mem_reverse
    rw [mergeLocks, hreverse]
    simp
  | cons l ls ih =>
    obtain ⟨hfirst, hrest⟩ := pairwise_cons.mp hsorted
    have hskip : ∀ last ∈ acc.head?, ∀ l ∈ ls, last.start ≤ l.start := fun last hl l' hl' =>
      hlast last hl l' (mem_cons_of_mem _ hl')
    rw [covers_cons, mergeLocks.eq_def]
    dsimp only
    by_cases hnone : l.type = none
    · rw [if_pos (by rw [hnone]; rfl), ih hrest hskip, hnone]
      simp
    rw [if_neg (by rwa [Option.isNone_iff_eq_none])]
    cases acc with
    | nil =>
      rw [ih hrest (by simpa using hfirst)]
      simp
    | cons last rest =>
      have hle : last.start ≤ l.start := hlast last rfl l mem_cons_self
      dsimp only
      by_cases hmerge : last.type = l.type ∧ l.start ≤ nextLockStart last.stop
      · obtain ⟨htype, hnext⟩ := hmerge
        rw [if_pos ⟨htype, hnext⟩, ih hrest (by rintro _ ⟨⟩ l' hl'; exact hle.trans (hfirst l' hl')),
          covers_cons, covers_cons, inRange_merge hle hnext, htype]
        tauto
      · rw [if_neg hmerge, ih hrest (by rintro _ ⟨⟩ l' hl'; exact hfirst l' hl'), covers_cons,
          covers_cons]
        tauto

theorem sorted_starts (locks : List FileLock) :
    (locks.insertionSort fun a b => lockLe a b).Pairwise fun a b => a.start ≤ b.start := by
  have : Std.Total fun a b : FileLock => (lockLe a b : Prop) :=
    ⟨fun a b => by simp only [lockLe]; split_ifs <;> simp <;> omega⟩
  have : IsTrans FileLock fun a b => (lockLe a b : Prop) :=
    ⟨fun a b c => by simp only [lockLe]; split_ifs <;> simp <;> omega⟩
  refine (pairwise_insertionSort _ locks).imp fun {a b} h => ?_
  simp only [lockLe] at h
  split_ifs at h with heq
  · exact heq.le
  · exact (of_decide_eq_true h).le

/-- **Normalizing keeps the locked bytes.** -/
@[simp] theorem covers_normalizeFileLocks :
    Covers (normalizeFileLocks locks) b x ↔ Covers locks b x := by
  rw [normalizeFileLocks, covers_mergeLocks (sorted_starts locks) (by simp)]
  rw [covers_congr fun l => (perm_insertionSort _ locks).mem_iff]
  simp

theorem type_of_mem_cutLock {requested current : FileLock} (hl : l ∈ cutLock requested current) :
    l.type = current.type := by
  unfold cutLock at hl
  split_ifs at hl <;> simp only [mem_append, mem_cons, not_mem_nil, or_false,
    false_or] at hl
  · obtain rfl | rfl := hl <;> rfl
  · rw [hl]
  · rw [hl]
  · rw [hl]

theorem covers_cutLock {requested current : FileLock} : Covers (cutLock requested current) b x ↔
    current.type = some x ∧ InRange current b ∧ ¬ InRange requested b := by
  by_cases hx : current.type = some x
  · unfold cutLock
    simp only [lockRangesOverlap, Bool.and_eq_true, decide_eq_true_eq]
    split_ifs <;>
      simp only [covers_append, covers_cons, covers_nil, InRange, hx, true_and, or_false,
        false_or, false_iff] <;> omega
  · refine iff_of_false ?_ fun h => hx h.1
    rintro ⟨l, hl, htype, -⟩
    exact hx ((type_of_mem_cutLock hl).symm.trans htype)

/-- **What a lock request does to its owner's locks**: the bytes of the range get the requested
type, or are unlocked; the others stay. -/
theorem covers_applyFileLock {lk : FileLock} : Covers (applyFileLock locks lk) b x ↔
      if InRange lk b then lk.type = some x else Covers locks b x := by
  have hcut : Covers (locks.flatMap (cutLock lk)) b x ↔ Covers locks b x ∧ ¬ InRange lk b := by
    induction locks with
    | nil => simp
    | cons l ls ih => rw [flatMap_cons, covers_append, covers_cutLock, ih, covers_cons]; tauto
  unfold applyFileLock
  dsimp only
  rw [covers_normalizeFileLocks]
  cases htype : lk.type with
  | none =>
    simp only [Option.isSome_none, Bool.false_eq_true, if_false, reduceCtorEq]
    rw [hcut]
    split_ifs <;> tauto
  | some y =>
    simp only [Option.isSome_some, if_true, covers_append, covers_cons, covers_nil, hcut, htype]
    split_ifs <;> tauto

end Bytes

/-! ## Tables -/

section Tables

variable {session : Token → Bool} {table : LockTable} {owner o : LockOwner} {lk : FileLock} {b : ℕ}
  {x : Bool}

/-- An owner has a lock on the byte `b`, for writing if `x` is true. -/
def Locked (table : LockTable) (o : LockOwner) (b : ℕ) (x : Bool) : Prop :=
  Covers ((table.lookup o).getD []) b x

instance : Decidable (Locked table o b x) := inferInstanceAs (Decidable (Covers _ _ _))

theorem Locked.mem (h : Locked table o b x) : o ∈ table := by
  rw [← lookup_isSome]
  unfold Locked at h
  cases hl : table.lookup o with
  | none =>
    rw [hl] at h
    exact absurd h covers_nil
  | some locks => rfl

@[simp] theorem covers_decodeLocks : Covers (decodeLocks table o) b x ↔ Locked table o b x :=
  covers_normalizeFileLocks

theorem mem_staleOwners : o ∈ staleOwners session table ↔
    o ∈ table ∧ ∃ t, o.lease = some t ∧ session t = false := by
  simp only [staleOwners, mem_filter, AList.mem_keys, Option.any_eq_true, Bool.not_eq_true']

theorem lookup_foldl_erase (stale : List LockOwner) (table : LockTable) (o : LockOwner) :
    (stale.foldl (fun t o => t.erase o) table).lookup o =
      if o ∈ stale then none else table.lookup o := by
  induction stale generalizing table with
  | nil => rfl
  | cons s stale ih =>
    rw [foldl_cons, ih]
    by_cases ho : o = s
    · subst ho
      rw [lookup_erase, ite_self, if_pos mem_cons_self]
    · rw [lookup_erase_ne ho]
      simp only [mem_cons, ho, false_or]

/-- The locks of the owner that makes a request. -/
theorem locked_lockTable_self : Locked (lockTable session table owner lk) owner b x ↔
    if InRange lk b then lk.type = some x
    else owner ∉ staleOwners session table ∧ Locked table owner b x := by
  have hnext : Covers (nextLocks session table owner lk) b x ↔
      if InRange lk b then lk.type = some x
        else owner ∉ staleOwners session table ∧ Locked table owner b x := by
    rw [nextLocks, covers_applyFileLock]
    by_cases hb : InRange lk b
    · rw [if_pos hb, if_pos hb]
    · rw [if_neg hb, if_neg hb]
      split_ifs with hstale <;> simp [hstale]
  rw [← hnext]
  unfold Locked lockTable
  dsimp only
  split_ifs with hempty
  · rw [lookup_erase, hempty]
    rfl
  · rw [lookup_insert, Option.getD_some, covers_normalizeFileLocks]

theorem lookup_lockTable_other (ho : o ≠ owner) : (lockTable session table owner lk).lookup o =
    if o ∈ staleOwners session table then none else table.lookup o := by
  rw [← lookup_foldl_erase]
  unfold lockTable
  dsimp only
  split_ifs with hempty
  · exact lookup_erase_ne ho
  · exact lookup_insert_ne ho

/-- The locks of the others: only stale owners lose them. -/
theorem locked_lockTable_other (ho : o ≠ owner) : Locked (lockTable session table owner lk) o b x ↔
    o ∉ staleOwners session table ∧ Locked table o b x := by
  unfold Locked
  rw [lookup_lockTable_other ho]
  split_ifs with hstale
  · simp [hstale]
  · simp [hstale]

/-- A request adds no owner but its own. -/
theorem mem_of_mem_lockTable (h : o ∈ lockTable session table owner lk) (ho : o ≠ owner) :
    o ∈ table := by
  rw [← lookup_isSome, lookup_lockTable_other ho] at h
  split_ifs at h
  · cases h
  · exact lookup_isSome.mp h

/-- A request that is not blocked leaves the others at most shared locks in its range. -/
theorem shared_of_not_blocked (hblock : lockBlocked session table owner lk = false) (ho : o ≠ owner)
    (hstale : o ∉ staleOwners session table) (hlocked : Locked table o b x) (hb : InRange lk b)
    {y : Bool} (hy : lk.type = some y) : x = false ∧ y = false := by
  obtain ⟨l, hl, hx, hlb⟩ := covers_decodeLocks.mpr hlocked
  have hfree : locksConflict l lk = false := by
    by_contra hconf
    have hblocked : lockBlocked session table owner lk = true := by
      rw [lockBlocked, hy, Option.isSome_some, Bool.true_and, any_eq_true]
      refine ⟨o, mem_keys.mp hlocked.mem, ?_⟩
      simp only [bne_iff_ne, ne_eq, ho, not_false_eq_true, hstale, decide_false, Bool.not_false,
        Bool.and_eq_true, any_eq_true, true_and]
      exact ⟨l, hl, by simpa using hconf⟩
    rw [hblock] at hblocked
    cases hblocked
  have hover : lockRangesOverlap l lk = true := by
    simp only [lockRangesOverlap, Bool.and_eq_true, decide_eq_true_eq]
    exact ⟨hlb.1.trans hb.2, hb.1.trans hlb.2⟩
  rw [locksConflict, hx, hy, hover] at hfree
  revert hfree
  cases x <;> cases y <;> decide

end Tables

end Afs.Client
