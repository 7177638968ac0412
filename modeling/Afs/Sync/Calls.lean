import Afs.Sync.Changes
import Afs.Sync.Runs

/-!
# Calls as changes

Every call of the client that writes changes the live tree by a sequence of changes, and the other
commands of the daemon leave it alone.
-/

namespace Afs.Sync

open Relation

namespace Remote

variable {r r' : Remote} {c : Condition} {p q : Path} {n : RemoteNode} {now mode : ℕ}

/-- `Rm` removes the inode expected, which has no entries. -/
theorem of_rm (h : r.rm c now p = .ok r') : p ≠ [] ∧ ∃ q n, r.resolvePath p false = .ok (q, n) ∧
    replaces c n ∧ (n.body = .dir → r.nodes.names q = []) ∧ r' = r.without now q := by
  unfold rm at h
  obtain ⟨hp, h⟩ := of_ite_eq_ok h
  rcases hd : r.resolvePath p false with e | ⟨q, n⟩
  · rw [hd] at h
    cases h
  · rw [hd] at h
    obtain ⟨hcond, h⟩ := of_ite_eq_ok h
    obtain ⟨-, h⟩ | ⟨hleaf, h⟩ := ite_eq_iff.mp h <;> cases h
    push Not at hcond hleaf
    exact ⟨hp, q, n, rfl, by simpa using hcond.2, hleaf, rfl⟩

theorem change_rm (hr : r.Sound) (hc : IsComponent (baseName p)) (h : r.rm c now p = .ok r') :
    r.Change r' := by
  obtain ⟨hp, q, n, hq, -, hleaf, rfl⟩ := of_rm h
  obtain ⟨d, m, -, -, rfl, hn⟩ := of_resolvePath hr hp hc hq
  exact .remove now (by simp) hn hleaf

end Remote

/-! ## Commands -/

variable {w w' : World} {c : Cmd} {r : c.Rep}

/-- A command that does not write to the live tree. -/
def Cmd.isLocal : Cmd → Prop
  | .echo _ _ _ | .writeChunks _ _ _ _ _ _ | .chmodRemote _ _ _ | .rm _ _ | .mkdirMode _ _ _
  | .ln _ _ _ | .renameRemote _ _ _ _ => False
  | _ => True

theorem remote_diskWrite {reply : Except OsErr Unit} {x : Except OsErr Disk}
    (h : diskWrite w x = (reply, w')) : w'.remote = w.remote := by
  cases x <;> cases h <;> rfl

theorem Exec.remote_eq (h : Exec c w r w') (hc : c.isLocal) : w'.remote = w.remote := by
  obtain ⟨f, h⟩ := h
  cases c with
  | lstat p => cases h; rfl
  | readFile p => cases h; rfl
  | readlink p => cases h; rfl
  | readDir p => cases h; rfl
  | mkdirAll p | chmod p mode | make p mode body | rename src dst | remove p =>
    exact remote_diskWrite h
  | removeAll p => cases h; rfl
  | unique => cases h; rfl
  | stat p | cat p | readlinkRemote p | lsLong p | chunkMeta p | readChunks p indices chunkSize =>
    rw [(remoteRead_eq h).2]
  | update g => cases h; rfl
  | now => cases h; rfl
  | _ => exact hc.elim

end Afs.Sync
