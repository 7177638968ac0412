import Afs.Foundations.Chunked
import Afs.Foundations.Table
import Afs.History.Record

/-!
# The remote tree

What the sync daemon sees of the live workspace: the calls of `client.Client` it makes, each as one
step on a table of paths. A call that writes compares what it was told to expect with the inode and
revision it replaces, as the publication scripts do when they run. Every publication takes a new
revision; moving a directory takes one for the directory and leaves what is below it alone.

The calls resolve paths as `resolvePath` does, links included. Caches are left out.
-/

namespace Afs.Sync

/-- What is at a path: bytes, entries or a target. -/
inductive NodeBody
  | file (data : Bytes)
  | dir
  | symlink (target : Bytes)
  deriving DecidableEq, Repr

/-- The type of a node. -/
def NodeBody.kind : NodeBody → Kind
  | .file _ => .file
  | .dir => .dir
  | .symlink _ => .symlink

/-- An inode of the live tree; times are in milliseconds. -/
structure RemoteNode where
  inode : ℕ
  revision : ℕ
  mode : ℕ
  mtime : ℕ
  size : ℕ
  body : NodeBody
  chunkSize : ℕ := 0
  chunkHashes : List Bytes := []
  deriving DecidableEq, Repr

/-- `StatResult`. -/
structure StatResult where
  inode : ℕ
  revision : ℕ
  type : Kind
  mode : ℕ
  size : ℕ
  mtime : ℕ
  deriving DecidableEq, Repr

/-- `toStat`. -/
def RemoteNode.toStat (n : RemoteNode) : StatResult :=
  ⟨n.inode, n.revision, n.body.kind, n.mode, n.size, n.mtime⟩

/-- The errors of the client, as far as callers tell them apart. -/
inductive ClientErr
  | redisNil
  | notFound
  | notFile
  | notDir
  | notSymlink
  | alreadyExists
  | dirNotEmpty
  | root
  | parentConflict
  | writeConflict
  | intoItself
  | links
  | invalid
  | network
  deriving DecidableEq, Repr

/-- `isClientNotFound`: the text of `redis.Nil` is not among those it looks for. -/
def ClientErr.isNotFound : ClientErr → Bool
  | .notFound => true
  | _ => false

/-- `isClientAlreadyExists`. -/
def ClientErr.isAlreadyExists : ClientErr → Bool
  | .alreadyExists => true
  | _ => false

/-- `isSyncRemoteMissingError`. -/
def ClientErr.isMissing : ClientErr → Bool
  | .redisNil => true
  | e => e.isNotFound

/-- The live tree: its inodes by path, the next inode and revision, and how file bytes are kept. -/
structure Remote where
  nodes : Table Name RemoteNode
  nextInode : ℕ
  nextRevision : ℕ
  ref : ContentRef := .ext

/-- `WithExpectedStat` and `WithExpectedParent`: what a call expects to replace, nothing or no such
inode or the one a `Stat` has shown, and the inode of the directory it works in. -/
structure Condition where
  stat : Option (Option StatResult) := none
  parent : Option (Path × ℕ) := none

/-! ## Resolving paths -/

section Resolve

variable (t : Table Name RemoteNode) (followFinal : Bool)

/-- The path a link at `cur` leads to, with the components that remain after it. -/
def linkPath (cur : Path) (target : Bytes) (rest : List Name) : Path :=
  cleanFrom (if target.head? = some slash then normalizePath target
    else cleanFrom cur (splitSlash target)) rest

/-- Follow components from `cur` to an inode, or to the path that takes a link's place. -/
def walk : Path → List Name → Except ClientErr ((Path × RemoteNode) ⊕ Path)
  | cur, [] =>
    match t.lookup cur with
    | some n => .ok (.inl (cur, n))
    | none => .error .redisNil
  | cur, c :: rest =>
    match t.lookup (cur ++ [c]) with
    | none => .error .redisNil
    | some n =>
      match n.body with
      | .symlink target =>
        if followFinal ∨ rest ≠ [] then
          if target = [] then .error .invalid else .ok (.inr (linkPath cur target rest))
        else .ok (.inl (cur ++ [c], n))
      | .file _ => if rest = [] then .ok (.inl (cur ++ [c], n)) else .error .notDir
      | .dir => if rest = [] then .ok (.inl (cur ++ [c], n)) else walk (cur ++ [c]) rest

/-- `maxSymlinkDepth`. -/
def maxSymlinkDepth : ℕ := 40

/-- Resolve with a number of links left to follow. -/
def resolveDepth : ℕ → Path → Except ClientErr (Path × RemoteNode)
  | depth, p =>
    match walk t followFinal [] p with
    | .error e => .error e
    | .ok (.inl found) => .ok found
    | .ok (.inr p') =>
      match depth with
      | 0 => .error .links
      | depth + 1 => resolveDepth depth p'

end Resolve

namespace Remote

variable (r : Remote)

/-- `resolvePath`. -/
def resolvePath (p : Path) (followFinal : Bool) : Except ClientErr (Path × RemoteNode) :=
  resolveDepth r.nodes followFinal maxSymlinkDepth p

/-! ## Reading -/

/-- `Stat`. -/
def stat (p : Path) : Except ClientErr (Option StatResult) :=
  match r.resolvePath p false with
  | .ok (_, n) => .ok (some n.toStat)
  | .error .redisNil => .ok none
  | .error e => .error e

/-- `Cat`. -/
def cat (p : Path) : Except ClientErr Bytes :=
  match r.resolvePath p true with
  | .ok (_, n) =>
    match n.body with
    | .file data => .ok data
    | _ => .error .notFile
  | .error e => .error e

/-- `Readlink`. -/
def readlink (p : Path) : Except ClientErr Bytes :=
  match r.resolvePath p false with
  | .ok (_, n) =>
    match n.body with
    | .symlink target => .ok target
    | _ => .error .notSymlink
  | .error e => .error e

/-- `LsLong`: the names and inodes in a directory. -/
def lsLong (p : Path) : Except ClientErr (List (Name × StatResult)) :=
  match r.resolvePath p true with
  | .ok (q, n) =>
    match n.body with
    | .dir => .ok ((r.nodes.names q).filterMap fun c =>
        (r.nodes.lookup (q ++ [c])).map fun n => (c, n.toStat))
    | _ => .error .notDir
  | .error e => .error e

/-- `ChunkMeta`. -/
def chunkMeta (p : Path) : Except ClientErr (ℕ × List Bytes) :=
  match r.resolvePath p true with
  | .ok (_, n) =>
    match n.body with
    | .file _ => .ok (n.chunkSize, n.chunkHashes)
    | _ => .error .notFile
  | .error e => .error e

/-- `ReadChunks`. -/
def readChunks (p : Path) (indices : List ℕ) (chunkSize : ℕ) : Except ClientErr (List (ℕ × Bytes)) :=
  match r.resolvePath p true with
  | .ok (_, n) =>
    match n.body with
    | .file data => .ok (chunksAt chunkSize data indices)
    | _ => .error .notFile
  | .error e => .error e

/-! ## Publishing -/

/-- `checkWriteCondition` on an inode to be replaced. -/
def replaces (c : Condition) (n : RemoteNode) : Bool :=
  match c.stat with
  | none => true
  | some none => false
  | some (some s) => s.inode = n.inode ∧ s.revision = n.revision

/-- `checkWriteCondition` on an inode to be created. -/
def creates (c : Condition) : Bool :=
  match c.stat with
  | some (some _) => false
  | _ => true

/-- `checkExpectedParent` and `watchExpectedParents`: the entry is made in the directory expected,
and that directory is still where it was. -/
def inParent (c : Condition) (child : Path) : Bool :=
  match c.parent with
  | none => true
  | some (p, inode) => parentOf child = p ∧ (r.nodes.lookup p).any fun n => n.inode = inode

/-- The table with the modification time of a directory set. -/
def touch (t : Table Name RemoteNode) (p : Path) (now : ℕ) : Table Name RemoteNode :=
  match t.lookup p with
  | some n => t.insert p { n with mtime := now }
  | none => t

/-- Publish an inode under a new revision in place of one that is there. -/
def publish (p : Path) (n : RemoteNode) : Remote :=
  { r with
    nodes := r.nodes.insert p { n with revision := r.nextRevision }
    nextRevision := r.nextRevision + 1 }

/-- Publish a new inode in its directory. -/
def create (now : ℕ) (p : Path) (mode size : ℕ) (body : NodeBody) (chunkSize : ℕ)
    (chunkHashes : List Bytes) : Remote :=
  { r with
    nodes := (touch r.nodes (parentOf p) now).insert p
      ⟨r.nextInode, r.nextRevision, mode, now, size, body, chunkSize, chunkHashes⟩
    nextInode := r.nextInode + 1
    nextRevision := r.nextRevision + 1 }

/-- The walk of `ensureParents`, which creates the directories that are missing. -/
def ensureDirs (now : ℕ) : Remote → Path → List Name → Except ClientErr Remote
  | r, _, [] => .ok r
  | r, cur, c :: rest =>
    match r.nodes.lookup (cur ++ [c]) with
    | some n => if n.body = .dir then ensureDirs now r (cur ++ [c]) rest else .error .parentConflict
    | none => ensureDirs now (r.create now (cur ++ [c]) 0o755 0 .dir 0 []) (cur ++ [c]) rest

/-- `ensureParents`: with a directory expected, nothing is created. -/
def ensureParents (c : Condition) (now : ℕ) (p : Path) : Except ClientErr Remote :=
  match c.parent with
  | none => ensureDirs now r [] (parentOf p)
  | some _ =>
    match r.resolvePath (parentOf p) true with
    | .error .redisNil => .error .writeConflict
    | .error e => .error e
    | .ok _ => if r.inParent c p then .ok r else .error .writeConflict

/-- The directory a new entry at `p` belongs to, under the name it has there. -/
def entryPath (p : Path) : Except ClientErr Path :=
  match r.resolvePath (parentOf p) true with
  | .ok (q, n) => if n.body = .dir then .ok (q ++ [baseName p]) else .error .parentConflict
  | .error e => .error e

/-- `createFile` of `Echo`: the name is claimed for the new bytes. A name that is taken although the
path leads nowhere is a link. -/
def createFile (c : Condition) (now : ℕ) (p : Path) (data : Bytes) (mode : ℕ) :
    Except ClientErr Remote :=
  match r.entryPath p with
  | .error e => .error e
  | .ok q =>
    if ¬ r.inParent c q ∨ ¬ creates c then .error .writeConflict
    else if (r.nodes.lookup q).isSome then
      .error (if c.stat.isSome ∨ c.parent.isSome then .writeConflict else .notFile)
    else .ok (r.create now q mode data.length (.file data) 0 [])

/-- `Echo`. -/
def echo (c : Condition) (now : ℕ) (p : Path) (data : Bytes) : Except ClientErr Remote :=
  if p = [] then .error .root
  else
    match r.resolvePath p true with
    | .error .redisNil =>
      match r.ensureParents c now p with
      | .error e => .error e
      | .ok r => r.createFile c now p data 0o644
    | .error e => .error e
    | .ok (q, n) =>
      match n.body with
      | .file _ =>
        if ¬ replaces c n ∨ ¬ r.inParent c q then .error .writeConflict
        else .ok (r.publish q { n with body := .file data, size := data.length, mtime := now })
      | _ => .error .notFile

/-- The bytes `publishChunks` stages: the chunks laid over the old bytes, and cut to the new size if
the file gets shorter. An Array reads zeros up to the new size, a string ends where it ends. -/
def chunkBytes (ref : ContentRef) (old : Bytes) (oldSize : ℕ) (pieces : List (ℕ × Bytes))
    (chunkSize newSize : ℕ) : Bytes :=
  let laid := overlay 0 chunkSize old pieces
  match ref with
  | .array => resize 0 laid newSize
  | .ext => if newSize < oldSize then laid.take newSize else laid

/-- A new file needs all its chunks. -/
def complete (pieces : List (ℕ × Bytes)) (chunkSize newSize : ℕ) : Bool :=
  (List.range (chunkCount chunkSize newSize)).all fun i =>
    (pieces.lookup i).any fun data => data.length = min chunkSize (newSize - i * chunkSize)

/-- `WriteChunks`, that is `publishChunks`. -/
def writeChunks (c : Condition) (now : ℕ) (p : Path) (pieces : List (ℕ × Bytes))
    (chunkSize newSize : ℕ) (hashes : List Bytes) : Except ClientErr Remote :=
  if chunkSize = 0 ∧ pieces ≠ [] then .error .invalid
  else
    match r.resolvePath p true with
    | .error .redisNil =>
      if chunkSize = 0 ∧ 0 < newSize then .error .invalid
      else
        match r.ensureParents c now p with
        | .error e => .error e
        | .ok r =>
          match r.entryPath p with
          | .error e => .error e
          | .ok q =>
            if ¬ complete pieces chunkSize newSize then .error .invalid
            else if ¬ r.inParent c q ∨ ¬ creates c ∨ (r.nodes.lookup q).isSome then
              .error .writeConflict
            else .ok (r.create now q 0o644 newSize
              (.file (chunkBytes r.ref [] 0 pieces chunkSize newSize)) chunkSize hashes)
    | .error e => .error e
    | .ok (q, n) =>
      match n.body with
      | .file old =>
        if ¬ replaces c n ∨ ¬ r.inParent c q then .error .writeConflict
        else .ok (r.publish q { n with
          body := .file (chunkBytes r.ref old n.size pieces chunkSize newSize), size := newSize,
          mtime := now, chunkSize, chunkHashes := hashes })
      | _ => .error .notFile

/-- `Chmod`. -/
def chmod (c : Condition) (p : Path) (mode : ℕ) : Except ClientErr Remote :=
  match r.resolvePath p false with
  | .error e => .error e
  | .ok (q, n) =>
    if ¬ replaces c n ∨ ¬ r.inParent c q then .error .writeConflict
    else .ok (r.publish q { n with mode })

/-- `Rm`: a directory goes only if it is empty. -/
def rm (c : Condition) (now : ℕ) (p : Path) : Except ClientErr Remote :=
  if p = [] then .error .root
  else
    match r.resolvePath p false with
    | .error e => .error e
    | .ok (q, n) =>
      if ¬ r.inParent c q ∨ ¬ replaces c n then .error .writeConflict
      else if n.body = .dir ∧ r.nodes.names q ≠ [] then .error .dirNotEmpty
      else .ok { r with nodes := touch (r.nodes.erase q) (parentOf q) now }

/-- `createInodeAtPath`. -/
def createInode (c : Condition) (now : ℕ) (p : Path) (mode size : ℕ) (body : NodeBody) :
    Except ClientErr Remote :=
  match r.entryPath p with
  | .error e => .error e
  | .ok q =>
    if ¬ r.inParent c q then .error .writeConflict
    else if (r.nodes.lookup q).isSome then .error .alreadyExists
    else .ok (r.create now q mode size body 0 [])

/-- `MkdirMode`: a directory that is there keeps its permissions. -/
def mkdirMode (c : Condition) (now : ℕ) (p : Path) (mode : ℕ) : Except ClientErr Remote :=
  if p = [] then .ok r
  else
    match r.ensureParents c now p with
    | .error e => .error e
    | .ok r =>
      match r.resolvePath p false with
      | .ok (_, n) => if n.body = .dir then .ok r else .error .alreadyExists
      | .error .redisNil => r.createInode c now p mode 0 .dir
      | .error e => .error e

/-- `Ln`. -/
def ln (c : Condition) (now : ℕ) (target : Bytes) (p : Path) : Except ClientErr Remote :=
  if p = [] then .error .alreadyExists
  else
    match r.ensureParents c now p with
    | .error e => .error e
    | .ok r =>
      match r.resolvePath p false with
      | .ok _ => .error .alreadyExists
      | .error .redisNil => r.createInode c now p 0o777 target.length (.symlink target)
      | .error e => .error e

/-- The move of `Rename`: the inode that moves takes a new revision. -/
def moveTo (now : ℕ) (src dst : Path) (n : RemoteNode) : Remote :=
  { r with
    nodes := touch (touch ((r.nodes.move src dst).insert dst { n with revision := r.nextRevision })
      (parentOf src) now) (parentOf dst) now
    nextRevision := r.nextRevision + 1 }

/-- `Rename`, with `RenameNoreplace` or without. -/
def rename (c : Condition) (now : ℕ) (src dst : Path) (noreplace : Bool) :
    Except ClientErr Remote :=
  if src = [] then .error .root
  else if src = dst then .ok r
  else
    match r.resolvePath src false with
    | .error e => .error e
    | .ok (q, n) =>
      if n.body = .dir ∧ q <+: dst then .error .intoItself
      else
        match r.entryPath dst with
        | .error e => .error e
        | .ok d =>
          if ¬ r.inParent c q ∨ ¬ replaces c n then .error .writeConflict
          else
            match r.nodes.lookup d with
            | none => .ok (r.moveTo now q d n)
            | some m =>
              if noreplace then .error .alreadyExists
              else if n.body = .dir ∧ m.body ≠ .dir then .error .notDir
              else if n.body ≠ .dir ∧ m.body = .dir then .error .notFile
              else if r.nodes.names d ≠ [] then .error .dirNotEmpty
              else .ok (r.moveTo now q d n)

end Remote

/-! ## Where a path leads after a publication -/

section Found

variable {t : Table Name RemoteNode} {followFinal : Bool} {p q cur : Path} {n m : RemoteNode}

/-- What is neither entered nor followed: a file. -/
def NodeBody.isFile : NodeBody → Bool
  | .file _ => true
  | _ => false

variable {rest : List Name}

/-- A walk that ends at an inode ends where the components lead, through what is there. -/
theorem walk_inl (h : walk t followFinal cur rest = .ok (.inl (q, n))) : t.lookup q = some n ∧
    q = cur ++ rest ∧ ∀ a, a <+: rest → a ≠ [] → (t.lookup (cur ++ a)).isSome := by
  induction rest generalizing cur with
  | nil =>
    unfold walk at h
    cases hn : t.lookup cur with
    | none => simp [hn] at h
    | some n' =>
      rw [hn] at h
      cases h
      exact ⟨hn, (List.append_nil _).symm, fun a ha hne => absurd (List.prefix_nil.mp ha) hne⟩
  | cons d rest ih =>
    unfold walk at h
    cases hn : t.lookup (cur ++ [d]) with
    | none => simp [hn] at h
    | some n' =>
      rw [hn] at h
      have hhere : rest = [] → cur ++ [d] = q → n' = n → t.lookup q = some n ∧
          q = cur ++ d :: rest ∧ ∀ a, a <+: d :: rest → a ≠ [] → (t.lookup (cur ++ a)).isSome := by
        rintro rfl rfl rfl
        refine ⟨hn, rfl, fun a ha hne => ?_⟩
        rcases List.prefix_cons_iff.mp ha with rfl | ⟨b, rfl, hb⟩
        · exact absurd rfl hne
        · rw [List.prefix_nil.mp hb, hn]
          rfl
      dsimp only at h
      cases hb : n'.body with
      | file data =>
        rw [hb] at h
        obtain ⟨hrest, h⟩ | ⟨-, h⟩ := ite_eq_iff.mp h <;> cases h
        exact hhere hrest rfl rfl
      | dir =>
        rw [hb] at h
        obtain ⟨hrest, h⟩ | ⟨-, h⟩ := ite_eq_iff.mp h
        · cases h
          exact hhere hrest rfl rfl
        · obtain ⟨hlookup, hq, hall⟩ := ih h
          refine ⟨hlookup, by rw [hq, List.append_assoc]; rfl, fun a ha hne => ?_⟩
          rcases List.prefix_cons_iff.mp ha with rfl | ⟨b, rfl, hb⟩
          · exact absurd rfl hne
          · by_cases hb' : b = []
            · rw [hb', hn]
              rfl
            · have := hall b hb hb'
              rwa [List.append_assoc] at this
      | symlink target =>
        rw [hb] at h
        obtain ⟨-, h⟩ | ⟨hno, h⟩ := ite_eq_iff.mp h
        · obtain ⟨-, h⟩ | ⟨-, h⟩ := ite_eq_iff.mp h <;> cases h
        · cases h
          exact hhere (by_contra fun hrest => hno (.inr hrest)) rfl rfl

variable {depth : ℕ}

/-- A path leads where a walk does, unless there are too many links on it. -/
theorem walk_of_resolveDepth {r : Except ClientErr (Path × RemoteNode)}
    (h : resolveDepth t followFinal depth p = r) :
    r = .error .links ∨ ∃ p', walk t followFinal [] p' = r.map .inl := by
  induction depth generalizing p with
  | zero =>
    unfold resolveDepth at h
    rcases hw : walk t followFinal [] p with e | found | p' <;> rw [hw] at h
    · exact .inr ⟨p, by rw [hw, ← h]; rfl⟩
    · exact .inr ⟨p, by rw [hw, ← h]; rfl⟩
    · exact .inl h.symm
  | succ depth ih =>
    unfold resolveDepth at h
    rcases hw : walk t followFinal [] p with e | found | p' <;> rw [hw] at h
    · exact .inr ⟨p, by rw [hw, ← h]; rfl⟩
    · exact .inr ⟨p, by rw [hw, ← h]; rfl⟩
    · exact ih h

section Resolved

variable (h : resolveDepth t followFinal depth p = .ok (q, n))

include h

theorem lookup_of_resolveDepth : t.lookup q = some n := by
  obtain hlinks | ⟨p', hw⟩ := walk_of_resolveDepth h
  · cases hlinks
  · exact (walk_inl hw).1

/-- The path an inode was found at is made of inodes. -/
theorem resolveDepth_ok : ∀ a, a <+: q → a ≠ [] → (t.lookup a).isSome := by
  obtain hlinks | ⟨p', hw⟩ := walk_of_resolveDepth h
  · cases hlinks
  · obtain ⟨-, rfl, hall⟩ := walk_inl hw
    exact hall

end Resolved

/-- The errors of a walk. -/
theorem walk_error {err : ClientErr} (h : walk t followFinal cur rest = .error err) :
    err = .redisNil ∨ err = .notDir ∨ err = .invalid := by
  induction rest generalizing cur with
  | nil =>
    unfold walk at h
    cases hn : t.lookup cur with
    | none =>
      rw [hn] at h
      cases h
      exact .inl rfl
    | some n' =>
      rw [hn] at h
      cases h
  | cons c rest ih =>
    unfold walk at h
    cases hn : t.lookup (cur ++ [c]) with
    | none =>
      rw [hn] at h
      cases h
      exact .inl rfl
    | some n' =>
      rw [hn] at h
      dsimp only at h
      cases hb : n'.body with
      | file data =>
        rw [hb] at h
        obtain ⟨-, h⟩ | ⟨-, h⟩ := ite_eq_iff.mp h <;> cases h
        exact .inr (.inl rfl)
      | dir =>
        rw [hb] at h
        obtain ⟨-, h⟩ | ⟨-, h⟩ := ite_eq_iff.mp h
        · cases h
        · exact ih h
      | symlink target =>
        rw [hb] at h
        obtain ⟨-, h⟩ | ⟨-, h⟩ := ite_eq_iff.mp h
        · obtain ⟨-, h⟩ | ⟨-, h⟩ := ite_eq_iff.mp h <;> cases h
          exact .inr (.inr rfl)
        · cases h

/-- A path is missing only in one way. -/
theorem Remote.isMissing_resolvePath {r : Remote} {err : ClientErr}
    (h : r.resolvePath p followFinal = .error err) : err.isMissing = true ↔ err = .redisNil := by
  obtain hlinks | ⟨p', hw⟩ := walk_of_resolveDepth h
  · cases hlinks
    decide
  · rcases walk_error hw with rfl | rfl | rfl <;> decide

/-- What a walk finds if the inode at `q` is `m`. -/
def foundWith (q : Path) (m : RemoteNode) (found : Path × RemoteNode) : Path × RemoteNode :=
  if found.1 = q then (q, m) else found

/-- A file in place of a file is found in its place, and nothing else changes. -/
theorem walk_insert (hq : t.lookup q = some n) (hn : n.body.isFile) (hm : m.body.isFile)
    (rest : List Name) : walk (t.insert q m) followFinal cur rest =
      (walk t followFinal cur rest).map (Sum.map (foundWith q m) id) := by
  induction rest generalizing cur with
  | nil =>
    unfold walk
    by_cases hc : cur = q
    · subst hc
      rw [AList.lookup_insert, hq]
      simp [Except.map, foundWith]
    · rw [AList.lookup_insert_ne hc]
      cases t.lookup cur with
      | none => rfl
      | some n' => simp [Except.map, foundWith, hc]
  | cons c rest ih =>
    unfold walk
    by_cases hc : cur ++ [c] = q
    · subst hc
      rw [AList.lookup_insert, hq]
      dsimp only
      cases hnb : n.body with
      | file data =>
        cases hmb : m.body with
        | file data' =>
          dsimp only
          by_cases hrest : rest = []
          · simp [hrest, Except.map, foundWith]
          · simp [hrest, Except.map]
        | dir => rw [hmb] at hm; cases hm
        | symlink target => rw [hmb] at hm; cases hm
      | dir => rw [hnb] at hn; cases hn
      | symlink target => rw [hnb] at hn; cases hn
    · rw [AList.lookup_insert_ne hc]
      cases hl : t.lookup (cur ++ [c]) with
      | none => rfl
      | some n' =>
        dsimp only
        cases n'.body with
        | file data =>
          dsimp only
          split_ifs with hrest
          · simp [Except.map, foundWith, hc]
          · rfl
        | dir =>
          dsimp only
          split_ifs with hrest
          · simp [Except.map, foundWith, hc]
          · exact ih
        | symlink target =>
          dsimp only
          split_ifs with hfollow hempty
          · rfl
          · rfl
          · simp [Except.map, foundWith, hc]

theorem resolveDepth_insert (hq : t.lookup q = some n) (hn : n.body.isFile) (hm : m.body.isFile)
    (depth : ℕ) (p : Path) : resolveDepth (t.insert q m) followFinal depth p =
      (resolveDepth t followFinal depth p).map (foundWith q m) := by
  induction depth generalizing p with
  | zero =>
    unfold resolveDepth
    rw [walk_insert hq hn hm]
    rcases walk t followFinal [] p with e | found | p' <;> rfl
  | succ depth ih =>
    unfold resolveDepth
    rw [walk_insert hq hn hm]
    rcases walk t followFinal [] p with e | found | p'
    · rfl
    · rfl
    · exact ih p'

/-- **A publication is found where it was made.** -/
theorem Remote.resolvePath_publish {r : Remote} (h : r.resolvePath p followFinal = .ok (q, n))
    (hn : n.body.isFile) (hm : m.body.isFile) : (r.publish q m).resolvePath p followFinal =
      .ok (q, { m with revision := r.nextRevision }) := by
  unfold Remote.resolvePath Remote.publish at *
  rw [resolveDepth_insert (lookup_of_resolveDepth h) hn (by exact hm), h]
  simp [Except.map, foundWith]

/-- A path whose last component is not a link leads to the same place when links are followed. -/
theorem walk_follow
    (h : ∀ q n, walk t false cur rest = .ok (.inl (q, n)) → n.body.kind ≠ .symlink) :
    walk t true cur rest = walk t false cur rest := by
  induction rest generalizing cur with
  | nil =>
    unfold walk
    rfl
  | cons c rest ih =>
    unfold walk at h ⊢
    cases hl : t.lookup (cur ++ [c]) with
    | none => rfl
    | some n' =>
      rw [hl] at h
      dsimp only at h ⊢
      cases hb : n'.body with
      | file data => rfl
      | dir =>
        rw [hb] at h
        dsimp only at h ⊢
        by_cases hrest : rest = []
        · rw [if_pos hrest, if_pos hrest]
        · rw [if_neg hrest] at h ⊢
          rw [if_neg hrest]
          exact ih h
      | symlink target =>
        rw [hb] at h
        dsimp only at h ⊢
        by_cases hrest : rest = []
        · rw [if_neg (by simpa using hrest)] at h
          exact absurd (by rw [hb]; rfl) (h _ _ rfl)
        · simp [hrest]

theorem resolveDepth_follow (h : resolveDepth t false depth p = .ok (q, n))
    (hn : n.body.kind ≠ .symlink) : resolveDepth t true depth p = .ok (q, n) := by
  have hwalk : ∀ found p, walk t false [] p = .ok (.inl found) → found = (q, n) →
      walk t true [] p = .ok (.inl found) := by
    rintro _ p hw rfl
    rw [walk_follow, hw]
    intro q' n' hw'
    rw [hw] at hw'
    cases hw'
    exact hn
  have hlink : ∀ p p', walk t false [] p = .ok (.inr p') → walk t true [] p = .ok (.inr p') := by
    intro p p' hw
    rw [walk_follow, hw]
    intro q' n' hw'
    rw [hw] at hw'
    cases hw'
  induction depth generalizing p with
  | zero =>
    unfold resolveDepth at h ⊢
    rcases hw : walk t false [] p with e | found | p'
    · simp [hw] at h
    · rw [hw] at h
      cases h
      rw [hwalk _ _ hw rfl]
    · simp [hw] at h
  | succ depth ih =>
    unfold resolveDepth at h ⊢
    rcases hw : walk t false [] p with e | found | p'
    · simp [hw] at h
    · rw [hw] at h
      cases h
      rw [hwalk _ _ hw rfl]
    · rw [hw] at h
      rw [hlink _ _ hw]
      exact ih h

namespace Remote

variable {r : Remote}

section

variable (h : r.resolvePath p false = .ok (q, n))

include h

theorem resolvePath_follow
    (hn : n.body.kind ≠ .symlink) : r.resolvePath p true = .ok (q, n) := resolveDepth_follow h hn

theorem stat_eq : r.stat p = .ok (some n.toStat) := by
  unfold stat
  rw [h]

variable {data : Bytes}

theorem cat_eq (hn : n.body = .file data) : r.cat p = .ok data := by
  unfold cat
  rw [resolvePath_follow h (by rw [hn]; exact nofun)]
  dsimp only
  rw [hn]

theorem chunkMeta_eq (hn : n.body = .file data) :
    r.chunkMeta p = .ok (n.chunkSize, n.chunkHashes) := by
  unfold chunkMeta
  rw [resolvePath_follow h (by rw [hn]; exact nofun)]
  dsimp only
  rw [hn]

end

variable {r' : Remote} {c : Condition} {now chunkSize newSize : ℕ} {pieces : List (ℕ × Bytes)}
  {hashes : List Bytes}

/-- `WriteChunks` to a file that is there. -/
theorem resolvePath_writeChunks (h : r.writeChunks c now p pieces chunkSize newSize hashes = .ok r')
    (hq : r.resolvePath p false = .ok (q, n)) (hn : n.body = .file data) :
    r'.resolvePath p false = .ok (q, { n with
      body := .file (chunkBytes r.ref data n.size pieces chunkSize newSize), size := newSize
      mtime := now, chunkSize, chunkHashes := hashes, revision := r.nextRevision }) := by
  unfold writeChunks at h
  obtain ⟨-, h⟩ := of_ite_eq_ok h
  rw [resolvePath_follow hq (by rw [hn]; exact nofun)] at h
  dsimp only at h
  rw [hn] at h
  obtain ⟨-, h⟩ := of_ite_eq_ok h
  cases h
  exact resolvePath_publish (m := { n with
    body := .file (chunkBytes r.ref data n.size pieces chunkSize newSize), size := newSize
    mtime := now, chunkSize, chunkHashes := hashes }) hq (by rw [hn]; rfl) rfl

end Remote

end Found

end Afs.Sync
