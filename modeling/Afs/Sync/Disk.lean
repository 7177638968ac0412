import Afs.Sync.Remote

/-!
# The local folder

The system calls of the daemon on the folder it keeps in step, as functions on a table of paths
below its root. A file keeps its identity when it is renamed and has its modification time in
nanoseconds. Files that are neither regular, directories nor links are left out, and so are
permission errors and links in the middle of a path.
-/

namespace Afs.Sync

open List

/-- A file, directory or link on disk. -/
structure DiskNode where
  ident : ℕ
  mode : ℕ
  mtime : ℕ
  body : NodeBody
  deriving DecidableEq, Repr

/-- `fs.FileInfo`. -/
structure FileInfo where
  ident : ℕ
  kind : Kind
  mode : ℕ
  size : ℕ
  mtime : ℕ
  deriving DecidableEq, Repr

/-- `ModTime().UnixMilli()`. -/
def FileInfo.mtimeMs (i : FileInfo) : ℕ := i.mtime / 1000000

/-- What `Lstat` reports. -/
def DiskNode.info (n : DiskNode) : FileInfo where
  ident := n.ident
  kind := n.body.kind
  mode := n.mode
  size := match n.body with
    | .file data => data.length
    | .dir => 0
    | .symlink target => target.length
  mtime := n.mtime

/-- The errors of a system call, as far as callers tell them apart. -/
inductive OsErr
  | notExist
  | other
  deriving DecidableEq, Repr

/-- The folder, and the next identity. -/
structure Disk where
  nodes : Table Name DiskNode
  nextIdent : ℕ

namespace Disk

variable (d : Disk)

/-- `os.Lstat`. -/
def lstat (p : Path) : Except OsErr FileInfo :=
  match d.nodes.lookup p with
  | some n => .ok n.info
  | none => .error .notExist

/-- `os.ReadFile`. -/
def readFile (p : Path) : Except OsErr Bytes :=
  match d.nodes.lookup p with
  | some n =>
    match n.body with
    | .file data => .ok data
    | _ => .error .other
  | none => .error .notExist

/-- `os.Readlink`. -/
def readlink (p : Path) : Except OsErr Bytes :=
  match d.nodes.lookup p with
  | some n =>
    match n.body with
    | .symlink target => .ok target
    | _ => .error .other
  | none => .error .notExist

/-- `os.ReadDir`: the names in a directory and their types. -/
def readDir (p : Path) : Except OsErr (List (Name × Kind)) :=
  match d.nodes.lookup p with
  | some n =>
    if n.body = .dir then .ok ((d.nodes.names p).filterMap fun c =>
      (d.nodes.lookup (joinPath p c)).map fun n => (c, n.body.kind))
    else .error .other
  | none => .error .notExist

/-- The table with the modification time of a directory set, as every change of its entries does. -/
def touch (t : Table Name DiskNode) (p : Path) (now : ℕ) : Table Name DiskNode :=
  match t.lookup p with
  | some n => t.insert p { n with mtime := now }
  | none => t

/-- A new node at a path. -/
def add (now : ℕ) (p : Path) (mode : ℕ) (body : NodeBody) : Disk where
  nodes := (touch d.nodes (parentOf p) now).insert p ⟨d.nextIdent, mode, now, body⟩
  nextIdent := d.nextIdent + 1

/-- The walk of `os.MkdirAll`. -/
def makeDirs (now : ℕ) : Disk → Path → List Name → Except OsErr Disk
  | d, _, [] => .ok d
  | d, cur, c :: rest =>
    match d.nodes.lookup (cur ++ [c]) with
    | some n => if n.body = .dir then makeDirs now d (cur ++ [c]) rest else .error .other
    | none => makeDirs now (d.add now (cur ++ [c]) 0o755 .dir) (cur ++ [c]) rest

/-- `os.MkdirAll`. -/
def mkdirAll (now : ℕ) (p : Path) : Except OsErr Disk := makeDirs now d [] p

/-- `os.Chmod` of a `fs.FileMode`, which has permission bits only. -/
def chmod (p : Path) (mode : ℕ) : Except OsErr Disk :=
  match d.nodes.lookup p with
  | some n => .ok { d with nodes := d.nodes.insert p { n with mode := mode % 0o1000 } }
  | none => .error .notExist

/-- Whether a new entry can be made at a path. -/
def holds (p : Path) : Bool := (d.nodes.lookup (parentOf p)).any fun n => n.body = .dir

/-- `os.CreateTemp` with its bytes and permissions, and `os.Symlink`. -/
def make (now : ℕ) (p : Path) (mode : ℕ) (body : NodeBody) : Except OsErr Disk :=
  if (d.nodes.lookup p).isSome then .error .other
  else if d.holds p then .ok (d.add now p (mode % 0o1000) body)
  else .error .notExist

/-- What is at and under a path, moved. -/
def moveTo (now : ℕ) (src dst : Path) : Disk :=
  { d with nodes := touch (touch (d.nodes.move src dst) (parentOf src) now) (parentOf dst) now }

/-- `os.Rename`: a directory takes the place of an empty directory only, and nothing else takes the
place of a directory. -/
def rename (now : ℕ) (src dst : Path) : Except OsErr Disk :=
  match d.nodes.lookup src with
  | none => .error .notExist
  | some n =>
    if src = dst then .ok d
    else if src <+: dst ∨ ¬ d.holds dst then .error .other
    else
      match d.nodes.lookup dst with
      | none => .ok (d.moveTo now src dst)
      | some m =>
        if (n.body = .dir ↔ m.body = .dir) ∧ d.nodes.names dst = [] then
          .ok (d.moveTo now src dst)
        else .error .other

/-- `os.Remove`. -/
def remove (now : ℕ) (p : Path) : Except OsErr Disk :=
  match d.nodes.lookup p with
  | none => .error .notExist
  | some _ =>
    if d.nodes.names p = [] then
      .ok { d with nodes := touch (d.nodes.erase p) (parentOf p) now }
    else .error .other

/-- `os.RemoveAll`. -/
def removeAll (now : ℕ) (p : Path) : Disk :=
  { d with nodes := touch (d.nodes.removeAll p) (parentOf p) now }

/-! ## What a lookup finds afterwards -/

section Lookup

variable {d} {p q src dst : Path} {now mode : ℕ} {body : NodeBody} {n : DiskNode}
  {t : Table Name DiskNode}

theorem lookup_touch : (touch t p now).lookup q =
    if q = p then (t.lookup q).map fun n => { n with mtime := now } else t.lookup q := by
  unfold touch
  cases hp : t.lookup p with
  | none =>
    dsimp only
    split_ifs with hq
    · rw [hq, hp]
      rfl
    · rfl
  | some n =>
    dsimp only
    split_ifs with hq
    · rw [hq, AList.lookup_insert, hp]
      rfl
    · rw [AList.lookup_insert_ne hq]

/-- A change of the time of a directory changes no type and no bytes. -/
theorem body_touch :
    ((touch t p now).lookup q).map DiskNode.body = (t.lookup q).map DiskNode.body := by
  rw [lookup_touch]
  split_ifs
  · rw [Option.map_map]
    rfl
  · rfl

theorem lookup_add_self :
    (d.add now p mode body).nodes.lookup p = some ⟨d.nextIdent, mode, now, body⟩ :=
  AList.lookup_insert ..

theorem lookup_add_of_ne (hp : q ≠ p) (hparent : q ≠ parentOf p) :
    (d.add now p mode body).nodes.lookup q = d.nodes.lookup q := by
  unfold add
  rw [AList.lookup_insert_ne hp, lookup_touch, if_neg hparent]

/-- Every path that is there is in a directory. -/
def Sound (d : Disk) : Prop :=
  ∀ p n, d.nodes.lookup p = some n → p ≠ [] →
    ∃ m, d.nodes.lookup (parentOf p) = some m ∧ m.body = .dir

theorem Sound.above (hd : d.Sound) {r : List Name} (h : d.nodes.lookup (p ++ r) = some n)
    (hr : r ≠ []) : ∃ m, d.nodes.lookup p = some m ∧ m.body = .dir := by
  induction r using List.reverseRecOn generalizing n with
  | nil => exact absurd rfl hr
  | append_singleton r c ih =>
    rw [← append_assoc] at h
    obtain ⟨m, hm, hdir⟩ := hd _ _ h (by simp)
    rw [parentOf, dropLast_concat] at hm
    by_cases hr : r = []
    · subst hr
      rw [append_nil] at hm
      exact ⟨m, hm, hdir⟩
    · exact ih hm hr

section

variable (hd : d.Sound) (h : d.nodes.lookup p = some n)

include hd h

theorem Sound.holds (hp : p ≠ []) : d.holds p := by
  obtain ⟨m, hm, hdir⟩ := hd p n h hp
  unfold Disk.holds
  rw [hm]
  simpa using hdir

omit hd h in
theorem makeDirs_of_dirs {cur : Path} {rest : List Name}
    (h : ∀ r, r <+: rest → r ≠ [] → ∃ m, d.nodes.lookup (cur ++ r) = some m ∧ m.body = .dir) :
    makeDirs now d cur rest = .ok d := by
  induction rest generalizing cur with
  | nil => rfl
  | cons c rest ih =>
    obtain ⟨m, hm, hdir⟩ := h [c] (by simp) (by simp)
    unfold makeDirs
    rw [hm]
    dsimp only
    rw [if_pos hdir]
    refine ih fun r hr hne => ?_
    rw [append_assoc]
    exact h (c :: r) (by simpa using hr) (by simp)

/-- `os.MkdirAll` of a directory that is there. -/
theorem Sound.mkdirAll (hn : n.body = .dir) : d.mkdirAll now p = .ok d := by
  refine makeDirs_of_dirs fun r hr _ => ?_
  obtain ⟨s, rfl⟩ := hr
  rw [nil_append]
  by_cases hs : s = []
  · subst hs
    rw [append_nil] at h
    exact ⟨n, h, hn⟩
  · exact hd.above h hs

/-- Nothing is under what is not a directory. -/
theorem Sound.names_eq_nil (hn : n.body ≠ .dir) : d.nodes.names p = [] := by
  refine eq_nil_iff_forall_not_mem.mpr fun c hc => ?_
  obtain ⟨m, hm⟩ := Option.isSome_iff_exists.mp (Table.mem_names.mp hc)
  obtain ⟨n', hn', hdir⟩ := hd.above hm (by simp)
  rw [h] at hn'
  cases hn'
  exact hn hdir

end

end Lookup

end Disk

end Afs.Sync
