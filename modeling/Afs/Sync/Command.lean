import Afs.Foundations.Rely
import Afs.Sync.Disk
import Afs.Sync.Entry

/-!
# What the daemon does, step by step

The daemon's goroutines share the local folder, the live tree and the sync state. Each system call,
each call of the client and each critical section of the state is one command. A client call can
fail on the way there (`refused`) or on the way back (`lost`). The clock counts nanoseconds.
-/

namespace Afs.Sync

/-- The local folder, the live tree, the sync state and the clock. `names` counts the names that
were made up so far. -/
structure World where
  disk : Disk
  remote : Remote
  state : SyncState := {}
  now : ℕ := 0
  names : ℕ := 0

/-- The clock in milliseconds. -/
def World.nowMs (w : World) : ℕ := w.now / 1000000

/-- The commands of the daemon. -/
inductive Cmd
  | lstat (p : Path)
  | readFile (p : Path)
  | readlink (p : Path)
  | readDir (p : Path)
  | mkdirAll (p : Path)
  | chmod (p : Path) (mode : ℕ)
  | make (p : Path) (mode : ℕ) (body : NodeBody)
  | rename (src dst : Path)
  | remove (p : Path)
  | removeAll (p : Path)
  /-- A number no name has been made of yet. -/
  | unique
  | stat (p : Path)
  | cat (p : Path)
  | readlinkRemote (p : Path)
  | lsLong (p : Path)
  | chunkMeta (p : Path)
  | readChunks (p : Path) (indices : List ℕ) (chunkSize : ℕ)
  | echo (c : Condition) (p : Path) (data : Bytes)
  | writeChunks (c : Condition) (p : Path) (pieces : List (ℕ × Bytes)) (chunkSize newSize : ℕ)
      (hashes : List Bytes)
  | chmodRemote (c : Condition) (p : Path) (mode : ℕ)
  | rm (c : Condition) (p : Path)
  | mkdirMode (c : Condition) (p : Path) (mode : ℕ)
  | ln (c : Condition) (target : Bytes) (p : Path)
  | renameRemote (c : Condition) (src dst : Path) (noreplace : Bool)
  /-- A critical section of the state. -/
  | update (f : SyncState → SyncState)
  | now

/-- The replies. A critical section is told what it found. -/
@[reducible] def Cmd.Rep : Cmd → Type
  | .lstat _ => Except OsErr FileInfo
  | .readFile _ | .readlink _ => Except OsErr Bytes
  | .readDir _ => Except OsErr (List (Name × Kind))
  | .mkdirAll _ | .chmod _ _ | .make _ _ _ | .rename _ _ | .remove _ | .removeAll _ =>
    Except OsErr Unit
  | .unique => ℕ
  | .stat _ => Except ClientErr (Option StatResult)
  | .cat _ | .readlinkRemote _ => Except ClientErr Bytes
  | .lsLong _ => Except ClientErr (List (Name × StatResult))
  | .chunkMeta _ => Except ClientErr (ℕ × List Bytes)
  | .readChunks _ _ _ => Except ClientErr (List (ℕ × Bytes))
  | .echo _ _ _ | .writeChunks _ _ _ _ _ _ | .chmodRemote _ _ _ | .rm _ _ | .mkdirMode _ _ _
  | .ln _ _ _ | .renameRemote _ _ _ _ => Except ClientErr Unit
  | .update _ => SyncState
  | .now => ℕ

/-- The signature of the daemon's programs. -/
abbrev sig : Sig := ⟨Cmd, Cmd.Rep⟩

/-- What becomes of a client call on the network. -/
inductive Fault
  | none
  | refused
  | lost
  deriving DecidableEq, Repr

section Exec

variable (f : Fault) (w : World)

/-- The reply to a client call that reads. -/
def remoteRead {α : Type} (r : Except ClientErr α) : Except ClientErr α × World :=
  match f with
  | .none => (r, w)
  | _ => (.error .network, w)

/-- The reply to a client call that writes, and what it leaves. -/
def remoteWrite (r : Except ClientErr Remote) : Except ClientErr Unit × World :=
  match f, r with
  | .refused, _ => (.error .network, w)
  | .none, .ok r => (.ok (), { w with remote := r })
  | .none, .error e => (.error e, w)
  | .lost, .ok r => (.error .network, { w with remote := r })
  | .lost, .error _ => (.error .network, w)

/-- The reply to a system call that writes, and what it leaves. -/
def diskWrite (r : Except OsErr Disk) : Except OsErr Unit × World :=
  match r with
  | .ok d => (.ok (), { w with disk := d })
  | .error e => (.error e, w)

/-- What a command replies and leaves. -/
def exec : (c : Cmd) → World → c.Rep × World
  | .lstat p, w => (w.disk.lstat p, w)
  | .readFile p, w => (w.disk.readFile p, w)
  | .readlink p, w => (w.disk.readlink p, w)
  | .readDir p, w => (w.disk.readDir p, w)
  | .mkdirAll p, w => diskWrite w (w.disk.mkdirAll w.now p)
  | .chmod p mode, w => diskWrite w (w.disk.chmod p mode)
  | .make p mode body, w => diskWrite w (w.disk.make w.now p mode body)
  | .rename src dst, w => diskWrite w (w.disk.rename w.now src dst)
  | .remove p, w => diskWrite w (w.disk.remove w.now p)
  | .removeAll p, w => diskWrite w (.ok (w.disk.removeAll w.now p))
  | .unique, w => (w.names, { w with names := w.names + 1 })
  | .stat p, w => remoteRead f w (w.remote.stat p)
  | .cat p, w => remoteRead f w (w.remote.cat p)
  | .readlinkRemote p, w => remoteRead f w (w.remote.readlink p)
  | .lsLong p, w => remoteRead f w (w.remote.lsLong p)
  | .chunkMeta p, w => remoteRead f w (w.remote.chunkMeta p)
  | .readChunks p indices chunkSize, w => remoteRead f w (w.remote.readChunks p indices chunkSize)
  | .echo c p data, w => remoteWrite f w (w.remote.echo c w.nowMs p data)
  | .writeChunks c p pieces chunkSize newSize hashes, w =>
    remoteWrite f w (w.remote.writeChunks c w.nowMs p pieces chunkSize newSize hashes)
  | .chmodRemote c p mode, w => remoteWrite f w (w.remote.chmod c p mode)
  | .rm c p, w => remoteWrite f w (w.remote.rm c w.nowMs p)
  | .mkdirMode c p mode, w => remoteWrite f w (w.remote.mkdirMode c w.nowMs p mode)
  | .ln c target p, w => remoteWrite f w (w.remote.ln c w.nowMs target p)
  | .renameRemote c src dst noreplace, w =>
    remoteWrite f w (w.remote.rename c w.nowMs src dst noreplace)
  | .update g, w => (w.state, { w with state := g w.state })
  | .now, w => (w.nowMs, w)

end Exec

/-- A command, with any fault. -/
def Exec (c : Cmd) (w : World) (r : c.Rep) (w' : World) : Prop := ∃ f, exec f c w = (r, w')

/-- The programs of the daemon. -/
abbrev Act (α : Type) := Prog sig α

/-- Issue a command. -/
def Cmd.issue (c : Cmd) : Act c.Rep := Prog.call (S := sig) c

/-- A program alone, with the network up. -/
def Act.alone {α : Type} (p : Act α) (w : World) : α × World := p.run (exec .none) w

end Afs.Sync
