import Afs.Sync.Daemon
import Afs.Sync.Plain
import Afs.Sync.RemoteDeletes

/-!
# While a deletion is pending

A local deletion that has not reached the live tree is kept as a tombstone: an entry marked deleted.
The deletion is pending as long as the local path stays away and the live tree holds the version it
was recorded of. What the commands of a task can reply meanwhile is all a task has to go by, and it
is enough to see that the tasks of the daemon leave the tombstone alone.
-/

namespace Afs.Sync

open List Remote

/-! ## Directories all the way -/

section Dirs

variable {t : Table Name RemoteNode} {cur p q : Path} {rest : List Name} {n : RemoteNode}

/-- A walk through directories ends where the components lead. -/
theorem walk_dirs (h : ∀ a, a <+: rest → a ≠ rest → ∃ m, t.lookup (cur ++ a) = some m ∧ m.body = .dir)
    (hn : t.lookup (cur ++ rest) = some n) :
    walk t false cur rest = .ok (.inl (cur ++ rest, n)) := by
  induction rest generalizing cur with
  | nil =>
    rw [append_nil] at hn ⊢
    unfold walk
    rw [hn]
  | cons c rest ih =>
    have hcons : cur ++ c :: rest = (cur ++ [c]) ++ rest := by simp
    unfold walk
    by_cases hrest : rest = []
    · subst hrest
      rw [hn]
      cases hb : n.body <;> simp [hb]
    · obtain ⟨m, hm, hdir⟩ := h [c] (by simp) (by simpa using hrest)
      rw [hm]
      dsimp only
      rw [hdir]
      dsimp only
      rw [if_neg hrest, hcons]
      refine ih (fun a ha hne => ?_) (by rwa [← hcons])
      rw [append_assoc]
      exact h (c :: a) (by simpa using ha) (by simpa using hne)

theorem resolveDepth_dirs {depth : ℕ}
    (h : ∀ a, a <+: p → a ≠ p → ∃ m, t.lookup a = some m ∧ m.body = .dir)
    (hn : t.lookup p = some n) : resolveDepth t false depth p = .ok (p, n) := by
  have hw : walk t false [] p = .ok (.inl (p, n)) :=
    walk_dirs (by simpa using h) (by simpa using hn)
  unfold resolveDepth
  rw [hw]

end Dirs

/-! ## Pending deletions -/

/-- A local deletion: the tombstone of a path below the root, and the version it was recorded of. -/
structure Deletion where
  path : Path
  entry : SyncEntry
  node : RemoteNode
  path_ne : path ≠ []
  deleted : entry.deleted = true
  isOf : entry.IsOf node.body
  mode : entry.mode ≠ 0 → node.mode % 0o1000 = entry.mode % 0o1000

namespace Deletion

variable (D : Deletion)

/-- The tombstone is in the state. -/
def Stands (s : SyncState) : Prop := s.entry D.path = some D.entry

/-- The local path is not there, and the live tree holds the version, with nothing under it. -/
structure Pending (w : World) : Prop where
  gone : w.disk.nodes.lookup D.path = none
  there : w.remote.nodes.lookup D.path = some D.node
  above : ∀ q, q <+: D.path → q ≠ D.path →
    ∃ m, w.remote.nodes.lookup q = some m ∧ m.body = .dir
  below : ∀ q, D.path <+: q → q ≠ D.path → w.remote.nodes.lookup q = none

/-- What a command can reply while the deletion is pending and its tombstone stands. -/
def Reply (c : Cmd) (r : c.Rep) : Prop :=
  ∃ w w', D.Pending w ∧ D.Stands w.state ∧ Exec c w r w' ∧ D.Pending w'

/-- A critical section that leaves the tombstone alone, or one that drops old ones. -/
def Spares : Cmd → Prop
  | .update f => (∀ s, D.Stands s → D.Stands (f s)) ∨ ∃ now, f = (·.cleanup now)
  | _ => True

/-- While the deletion is pending, the program spares the tombstone and returns what satisfies
`Q`. -/
abbrev Keeps {α : Type} (Q : α → Prop) (x : Act α) : Prop :=
  x.Under (S := sig) D.Reply D.Spares Q

/-- The same of a program that may fail. -/
abbrev KeepsE {α : Type} (Q : α → Prop) (x : Try α) : Prop :=
  UnderE (S := sig) D.Reply D.Spares Q x

/-- Whatever it returns. -/
abbrev Leaves {α : Type} (x : Act α) : Prop := D.Keeps (fun _ => True) x

abbrev LeavesE {α : Type} (x : Try α) : Prop := D.KeepsE (fun _ => True) x

variable {D} {w w' : World}

/-! ## Replies -/

theorem Pending.resolve (h : D.Pending w) :
    w.remote.resolvePath D.path false = .ok (D.path, D.node) := resolveDepth_dirs h.above h.there

theorem Pending.resolve_follow (h : D.Pending w) (hn : D.node.body.kind ≠ .symlink) :
    w.remote.resolvePath D.path true = .ok (D.path, D.node) := resolveDepth_follow h.resolve hn

theorem Pending.resolve_above (h : D.Pending w) {q : Path} (hq : q <+: D.path) (hne : q ≠ D.path) :
    ∃ m, w.remote.resolvePath q false = .ok (q, m) ∧ m.body = .dir := by
  obtain ⟨m, hm, hdir⟩ := h.above q hq hne
  refine ⟨m, resolveDepth_dirs (fun a ha hne' => h.above a (ha.trans hq) ?_) hm, hdir⟩
  rintro rfl
  exact hne' (ha.eq_of_length_le hq.length_le)

variable {f : SyncState → SyncState}

theorem reply_update {s : SyncState} (h : D.Reply (.update f) s) : D.Stands s := by
  obtain ⟨w, w', -, hs, ⟨f, h⟩, -⟩ := h
  cases h
  exact hs

theorem reply_lstat {r : Except OsErr FileInfo} (h : D.Reply (.lstat D.path) r) :
    r = .error .notExist := by
  obtain ⟨w, w', hw, -, ⟨f, h⟩, -⟩ := h
  have hr := (Prod.mk.inj h).1
  rw [← hr, Disk.lstat, hw.gone]

variable {r : Except ClientErr (Option StatResult)}

theorem reply_stat (h : D.Reply (.stat D.path) r) :
    r = .ok (some D.node.toStat) ∨ r = .error .network := by
  obtain ⟨w, w', hw, -, ⟨f, h⟩, -⟩ := h
  obtain ⟨rfl | rfl, -⟩ := remoteRead_eq h
  · left
    rw [stat, hw.resolve]
  · exact .inr rfl

/-- The directories above are there. -/
theorem reply_stat_above {q : Path} (hq : q <+: D.path) (h : D.Reply (.stat q) r) :
    (∃ s, r = .ok (some s)) ∨ r = .error .network := by
  by_cases hne : q = D.path
  · subst hne
    exact (reply_stat h).imp_left fun h => ⟨_, h⟩
  obtain ⟨w, w', hw, -, ⟨f, h⟩, -⟩ := h
  obtain ⟨rfl | rfl, -⟩ := remoteRead_eq h
  · obtain ⟨m, hm, -⟩ := hw.resolve_above hq hne
    left
    exact ⟨m.toStat, by rw [stat, hm]⟩
  · exact .inr rfl

variable {r : Except ClientErr Bytes}

theorem reply_cat {data : Bytes} (hb : D.node.body = .file data)
    (h : D.Reply (.cat D.path) r) : r = .ok data ∨ r = .error .network := by
  obtain ⟨w, w', hw, -, ⟨f, h⟩, -⟩ := h
  obtain ⟨rfl | rfl, -⟩ := remoteRead_eq h
  · left
    rw [cat, hw.resolve_follow (by rw [hb]; nofun)]
    dsimp only
    rw [hb]
  · exact .inr rfl

theorem reply_readlinkRemote {target : Bytes} (hb : D.node.body = .symlink target)
    (h : D.Reply (.readlinkRemote D.path) r) : r = .ok target ∨ r = .error .network := by
  obtain ⟨w, w', hw, -, ⟨f, h⟩, -⟩ := h
  obtain ⟨rfl | rfl, -⟩ := remoteRead_eq h
  · left
    rw [readlink, hw.resolve]
    dsimp only
    rw [hb]
  · exact .inr rfl

variable {names : List (Name × StatResult)}

/-- A listing shows the version under the name of the path only. -/
theorem reply_lsLong {dir : Path}
    (h : D.Reply (.lsLong dir) (.ok names)) {n : Name × StatResult} (hn : n ∈ names)
    (hp : joinPath dir n.1 = D.path) : n.2 = D.node.toStat := by
  obtain ⟨w, w', hw, -, ⟨f, h⟩, -⟩ := h
  obtain ⟨heq | heq, -⟩ := remoteRead_eq h
  · obtain ⟨m, hm, hdir⟩ := hw.resolve_above (q := dir) (hp ▸ prefix_append ..)
      fun h => by simpa [joinPath, h] using congrArg List.length hp
    rw [lsLong, show w.remote.resolvePath dir true = _ from
      resolveDepth_follow hm (by rw [hdir]; decide)] at heq
    dsimp only at heq
    rw [hdir] at heq
    cases heq
    obtain ⟨c, -, hc⟩ := mem_filterMap.mp hn
    obtain ⟨k, hk, rfl⟩ := Option.map_eq_some_iff.mp hc
    rw [show dir ++ [c] = D.path from hp, hw.there] at hk
    cases hk
    rfl
  · cases heq

/-- There is nothing in a directory that is to be deleted. -/
theorem reply_lsLong_self (hb : D.node.body = .dir)
    (h : D.Reply (.lsLong D.path) (.ok names)) : names = [] := by
  obtain ⟨w, w', hw, -, ⟨f, h⟩, -⟩ := h
  obtain ⟨heq | heq, -⟩ := remoteRead_eq h
  · rw [lsLong, hw.resolve_follow (by rw [hb]; decide)] at heq
    dsimp only at heq
    rw [hb] at heq
    cases heq
    refine filterMap_eq_nil_iff.mpr fun c _ => ?_
    rw [hw.below _ (prefix_append ..) (by simp)]
    rfl
  · cases heq

theorem remoteWrite_of_ok {f : Fault} {r : Remote} {s : Except ClientErr Unit}
    (h : remoteWrite f w (.ok r) = (s, w')) :
    (s = .error .network ∧ w' = w) ∨ w' = { w with remote := r } := by
  cases f with
  | none =>
    cases h
    exact .inr rfl
  | refused =>
    cases h
    exact .inl ⟨rfl, rfl⟩
  | lost =>
    cases h
    exact .inr rfl

/-- A removal of the version that leaves the deletion pending did not arrive. -/
theorem reply_rm {r : Except ClientErr Unit}
    (h : D.Reply (.rm { stat := some (some D.node.toStat) } D.path) r) : r = .error .network := by
  obtain ⟨w, w', hw, -, ⟨f, h⟩, hw'⟩ := h
  have hrm : w.remote.rm { stat := some (some D.node.toStat) } w.nowMs D.path =
      .ok (w.remote.without w.nowMs D.path) := by
    have hnames : w.remote.nodes.names D.path = [] := by
      refine eq_nil_iff_forall_not_mem.mpr fun c hc => ?_
      have := Table.mem_names.mp hc
      rw [hw.below _ (prefix_append ..) (by simp)] at this
      cases this
    rw [rm, if_neg D.path_ne, hw.resolve]
    simp [inParent, replaces, RemoteNode.toStat, hnames, without]
  have hexec : remoteWrite f w (.ok (w.remote.without w.nowMs D.path)) = (r, w') := by
    rw [← hrm]
    exact h
  obtain ⟨hr, -⟩ | rfl := remoteWrite_of_ok hexec
  · exact hr
  · have hpeek := peek_of_lookup hw'.there
    rw [peek_without, if_pos rfl] at hpeek
    cases hpeek

/-- A move of the version that leaves the deletion pending did not happen. -/
theorem reply_renameRemote {c : Condition} {dst : Path} (hdst : dst ≠ D.path) :
    ¬ D.Reply (.renameRemote c D.path dst true) (.ok ()) := by
  rintro ⟨w, w', hw, -, ⟨f, h⟩, hw'⟩
  obtain ⟨r', hr', rfl⟩ := remoteWrite_ok h
  unfold rename at hr'
  rw [if_neg D.path_ne, if_neg hdst.symm, hw.resolve] at hr'
  dsimp only at hr'
  obtain ⟨-, hr'⟩ := of_ite_eq_ok hr'
  cases hd : w.remote.entryPath dst with
  | error e =>
    rw [hd] at hr'
    cases hr'
  | ok d =>
    rw [hd] at hr'
    dsimp only at hr'
    obtain ⟨-, hr'⟩ := of_ite_eq_ok hr'
    cases hfree : w.remote.nodes.lookup d with
    | some m =>
      rw [hfree] at hr'
      cases hr'
    | none =>
      rw [hfree] at hr'
      cases hr'
      -- the destination is free, so it is not above the path
      have hnot : ¬ d <+: D.path := by
        intro hpre
        by_cases heq : d = D.path
        · rw [heq, hw.there] at hfree
          cases hfree
        · obtain ⟨m, hm, -⟩ := hw.above d hpre heq
          rw [hm] at hfree
          cases hfree
      have hpeek := peek_of_lookup hw'.there
      rw [peek_moveTo] at hpeek
      simp [hnot, show D.path ≠ d from fun h => hnot (h ▸ prefix_rfl)] at hpeek

/-! ## Critical sections -/

section Sections

variable {α : Type} {Q : α → Prop} {s : SyncState} {q : Path} {e : SyncEntry}

section

variable (h : D.Stands s)

include h

theorem Stands.put (hq : q ≠ D.path) : D.Stands (s.put q e) := by
  unfold Stands
  rw [s.entry_put_of_ne hq.symm]
  exact h

theorem Stands.remove (hq : q ≠ D.path) : D.Stands (s.remove q) := by
  unfold Stands
  rw [s.entry_remove_of_ne hq.symm]
  exact h

theorem Stands.settle (op : UploadOp) : D.Stands (s.settle op) := by
  unfold Stands
  rw [SyncState.entry_settle]
  exact h

/-- A path with a live entry is another one. -/
theorem Stands.ne (he : s.entry q = some e) (hlive : ¬ e.deleted) : q ≠ D.path := by
  rintro rfl
  rw [h] at he
  cases he
  exact hlive D.deleted

theorem Stands.discardPendingRename (op : UploadOp) : D.Stands (s.discardPendingRename op) := by
  unfold SyncState.discardPendingRename
  split_ifs
  · exact h
  · split
    · exact h
    · rename_i e he
      split_ifs with hlive
      · exact h.remove (h.ne he hlive.1)
      · exact h

theorem Stands.announceDelete (stored : SyncEntry) (now : ℕ) :
    D.Stands (s.announceDelete q stored now) := by
  unfold SyncState.announceDelete
  split
  · exact h
  · rename_i e he
    split_ifs with hlive
    · exact h
    · exact h.put (h.ne he fun hdel => hlive (.inl hdel))

theorem Stands.markDeleted (now : ℕ) : D.Stands (s.markDeleted now q) := by
  unfold SyncState.markDeleted
  split
  · exact h
  · rename_i e he
    split_ifs with hlive
    · exact h
    · exact h.put (h.ne he hlive)

theorem Stands.localDelete (now : ℕ) : D.Stands (s.localDelete q now) := by
  unfold SyncState.localDelete
  split
  · exact h
  · rename_i e he
    split_ifs with hlive
    · exact h
    · have hput : D.Stands (s.put q { e with deleted := true, lastSyncedAt := now }) :=
        h.put (h.ne he hlive)
      dsimp only
      split <;> exact hput

theorem Stands.removeAll (hq : ¬ q <+: D.path) : D.Stands (s.removeAll q) := by
  show (s.entries.removeAll q).lookup D.path = some D.entry
  rw [Table.lookup_removeAll, if_neg hq]
  exact h

end

theorem spares_of_plain {c : Cmd} (hc : c.Plain) : D.Spares c := by
  cases c <;> trivial

theorem keeps_of_plain {x : Act α} (hx : Act.Plain Q x) : D.Keeps Q x :=
  under_of_plain (fun _ => spares_of_plain) hx

theorem keepsE_of_plain {x : Try α} (hx : x.Plain) : D.LeavesE x :=
  underE_of_plain (fun _ => spares_of_plain) hx

theorem keeps_modifyState (h : ∀ s, D.Stands s → D.Stands (f s)) :
    D.Leaves (modifyState f) := under_ask (.inl h) fun _ _ => trivial

theorem keeps_readState : D.Keeps D.Stands readState :=
  under_issue (.inl fun _ h => h) fun _ => reply_update

theorem keeps_sweep : D.Leaves (modifyState (·.requestFullSweep)) :=
  keeps_modifyState fun _ h => h

theorem keeps_deferScan (q : Path) : D.Leaves (deferScanForPendingUpload q) := by
  refine under_ask (.inl fun s h => ?_) fun _ _ => trivial
  unfold Stands
  rw [SyncState.entry_deferScan]
  exact h

theorem keeps_orSweep (ok : Bool) : D.Leaves (orSweep ok) :=
  .ite trivial (keeps_sweep.bind fun _ _ => trivial)

end Sections

end Deletion

end Afs.Sync
