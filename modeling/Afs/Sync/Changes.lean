import Afs.Sync.Remote

/-!
# What clients do to the live tree

Whatever calls clients make, the live tree changes in four ways: an inode is published again, a new
one is created, one without entries is removed, or one moves with what is below it. A version of an
inode is told by the inode's number and its revision. Changes never bring a version back that is
gone from a directory, as long as the directory itself stays where it is.
-/

namespace Afs.Sync

open List Nat AList

/-! ## What is at a path, whatever its time -/

/-- An inode without its modification time. -/
def RemoteNode.timeless (n : RemoteNode) : RemoteNode := { n with mtime := 0 }

namespace Remote

variable {r r' : Remote} {p q x src dst : Path} {n m : RemoteNode}

/-- What is at a path, its time left out. -/
def peek (r : Remote) (q : Path) : Option RemoteNode := (r.nodes.lookup q).map .timeless

theorem peek_of_lookup (h : r.nodes.lookup q = some n) : r.peek q = some n.timeless := by
  rw [peek, h]
  rfl

theorem lookup_of_peek (h : r.peek q = some n) :
    ∃ m, r.nodes.lookup q = some m ∧ m.timeless = n := by
  rw [peek, Option.map_eq_some_iff] at h
  exact h

theorem timeless_touch {t : Table Name RemoteNode} {now : ℕ} :
    ((touch t p now).lookup q).map RemoteNode.timeless = (t.lookup q).map RemoteNode.timeless := by
  unfold touch
  cases hp : t.lookup p with
  | none => rfl
  | some n =>
    dsimp only
    by_cases hq : q = p
    · rw [hq, lookup_insert, hp]
      rfl
    · rw [lookup_insert_ne hq]

theorem peek_publish :
    (r.publish q m).peek x = if x = q then some { m.timeless with revision := r.nextRevision }
      else r.peek x := by
  unfold publish peek
  split_ifs with hx
  · rw [hx, lookup_insert]
    rfl
  · rw [lookup_insert_ne hx]

variable {now mode size chunkSize : ℕ} {body : NodeBody} {chunkHashes : List Bytes}

theorem peek_create : (r.create now q mode size body chunkSize chunkHashes).peek x =
    if x = q then some ⟨r.nextInode, r.nextRevision, mode, 0, size, body, chunkSize, chunkHashes⟩
      else r.peek x := by
  unfold create peek
  split_ifs with hx
  · rw [hx, lookup_insert]
    rfl
  · rw [lookup_insert_ne hx, timeless_touch]

/-- The tree without an inode. -/
def without (r : Remote) (now : ℕ) (q : Path) : Remote :=
  { r with nodes := touch (r.nodes.erase q) (parentOf q) now }

theorem peek_without : (r.without now q).peek x = if x = q then none else r.peek x := by
  unfold without peek
  rw [timeless_touch]
  split_ifs with hx
  · rw [hx, lookup_erase]
    rfl
  · rw [lookup_erase_ne hx]

theorem peek_moveTo : (r.moveTo now src dst n).peek x =
    if x = dst then some { n.timeless with revision := r.nextRevision }
    else if dst <+: x then r.peek (Table.relocate dst src x)
    else if src <+: x then none else r.peek x := by
  unfold moveTo peek
  rw [timeless_touch, timeless_touch]
  split_ifs with hx hdst hsrc
  · rw [hx, lookup_insert]
    rfl
  · rw [lookup_insert_ne hx, Table.lookup_move, if_pos hdst]
  · rw [lookup_insert_ne hx, Table.lookup_move, if_neg hdst, if_pos hsrc]
    rfl
  · rw [lookup_insert_ne hx, Table.lookup_move, if_neg hdst, if_neg hsrc]

/-! ## Changes -/

/-- One change of the live tree. -/
inductive Change : Remote → Remote → Prop
  | publish {r : Remote} {q : Path} {n m : RemoteNode} (hq : r.nodes.lookup q = some n)
      (hinode : m.inode = n.inode) (hkind : m.body.kind = n.body.kind) : Change r (r.publish q m)
  | create {r : Remote} {q : Path} (now mode size : ℕ) (body : NodeBody) (chunkSize : ℕ)
      (chunkHashes : List Bytes) (hne : q ≠ []) (hq : r.nodes.lookup q = none) :
      Change r (r.create now q mode size body chunkSize chunkHashes)
  | remove {r : Remote} {q : Path} {n : RemoteNode} (now : ℕ) (hne : q ≠ [])
      (hn : r.nodes.lookup q = some n) (hleaf : n.body = .dir → r.nodes.names q = []) :
      Change r (r.without now q)
  | move {r : Remote} {src dst : Path} {n : RemoteNode} (now : ℕ) (hsrc : src ≠ [])
      (hdst : dst ≠ []) (hn : r.nodes.lookup src = some n)
      (hfree : r.nodes.lookup dst = none ∨ r.nodes.names dst = []) :
      Change r (r.moveTo now src dst n)

/-- Where an inode of the changed tree comes from. -/
inductive Origin (r r' : Remote) (x : Path) (n : RemoteNode) : Prop
  /-- It was there. -/
  | kept (h : r.peek x = some n)
  | created (hinode : n.inode = r.nextInode) (hrevision : n.revision = r.nextRevision)
      (hnext : r.nextInode < r'.nextInode) (hlater : r.nextRevision < r'.nextRevision)
  /-- It is a new version of an inode, which may have moved. -/
  | published (y : Path) (m : RemoteNode) (h : r.peek y = some m) (hinode : n.inode = m.inode)
      (hkind : n.body.kind = m.body.kind) (hrevision : n.revision = r.nextRevision)
      (hlater : r.nextRevision < r'.nextRevision)
  /-- It is below an inode that moved to a free place. -/
  | carried (src dst rest : Path) (m m' : RemoteNode) (hrest : rest ≠ []) (hx : x = dst ++ rest)
      (h : r.peek (src ++ rest) = some n) (hm : r.peek src = some m) (hm' : r'.peek dst = some m')
      (hinode : m'.inode = m.inode) (hdst : dst ≠ [])
      (hfree : r.nodes.lookup dst = none ∨ r.nodes.names dst = [])

/-- Every inode of the changed tree has an origin. -/
theorem Change.origin (h : r.Change r') (hx : r'.peek x = some n) : Origin r r' x n := by
  cases h with
  | @publish q m m' hq hinode hkind =>
    rw [peek_publish] at hx
    obtain ⟨hq', hn⟩ | ⟨-, hn⟩ := ite_eq_iff.mp hx
    · cases hn
      exact .published q m.timeless (peek_of_lookup hq) hinode hkind rfl (lt_succ_self _)
    · exact .kept hn
  | create now mode size body chunkSize chunkHashes hne hq =>
    rw [peek_create] at hx
    obtain ⟨-, hn⟩ | ⟨-, hn⟩ := ite_eq_iff.mp hx
    · cases hn
      exact .created rfl rfl (lt_succ_self _) (lt_succ_self _)
    · exact .kept hn
  | remove now hne hn hleaf =>
    rw [peek_without] at hx
    obtain ⟨-, hx'⟩ := of_ite_eq_some hx
    · exact .kept hx'
  | @move src dst m now hsrc hdst hm hfree =>
    have htop : (r.moveTo now src dst m).peek dst =
        some { m.timeless with revision := r.nextRevision } := by
      rw [peek_moveTo, if_pos rfl]
    rw [peek_moveTo] at hx
    obtain ⟨-, hn⟩ | ⟨hne, hn⟩ := ite_eq_iff.mp hx
    · cases hn
      exact .published src m.timeless (peek_of_lookup hm) rfl rfl rfl (lt_succ_self _)
    obtain ⟨⟨rest, hrest⟩, hn'⟩ | ⟨-, hn'⟩ := ite_eq_iff.mp hn
    · rw [← hrest, Table.relocate_append] at hn'
      have hrest' : rest ≠ [] := by
        rintro rfl
        exact hne (hrest.symm.trans (append_nil _))
      exact .carried src dst rest _ _ hrest' hrest.symm hn' (peek_of_lookup hm) htop rfl hdst hfree
    · obtain ⟨-, hn''⟩ := of_ite_eq_some hn'
      · exact .kept hn''

theorem Change.nextRevision_le (h : r.Change r') : r.nextRevision ≤ r'.nextRevision := by
  cases h with
  | publish => exact le_succ _
  | create => exact le_succ _
  | remove => exact le_refl _
  | move => exact le_succ _

theorem Change.nextInode_le (h : r.Change r') : r.nextInode ≤ r'.nextInode := by
  cases h with
  | publish => exact le_refl _
  | create => exact le_succ _
  | remove => exact le_refl _
  | move => exact le_refl _

/-! ## Sound trees -/

/-- There is a root, and inodes are told apart by numbers and revisions that were handed out. -/
structure Sound (r : Remote) : Prop where
  root : ∃ n, r.peek [] = some n ∧ n.body = .dir
  revision_lt : ∀ q n, r.peek q = some n → n.revision < r.nextRevision
  inode_lt : ∀ q n, r.peek q = some n → n.inode < r.nextInode
  inode_inj : ∀ q q' n n', r.peek q = some n → r.peek q' = some n' → n.inode = n'.inode → q = q'

theorem Sound.of_entries (hroot : (r.nodes.lookup []).any fun n => n.body = .dir)
    (hlt : ∀ e ∈ r.nodes.entries, e.2.revision < r.nextRevision ∧ e.2.inode < r.nextInode)
    (hinj : ∀ e ∈ r.nodes.entries, ∀ e' ∈ r.nodes.entries, e.2.inode = e'.2.inode → e.1 = e'.1) :
    r.Sound where
  root := by
    cases hn : r.nodes.lookup [] with
    | none => simp [hn] at hroot
    | some n =>
      rw [hn] at hroot
      exact ⟨n.timeless, peek_of_lookup hn, of_decide_eq_true hroot⟩
  revision_lt q n hq := by
    obtain ⟨m, hm, rfl⟩ := lookup_of_peek hq
    exact (hlt _ (Table.mem_entries_iff_lookup.mpr hm)).1
  inode_lt q n hq := by
    obtain ⟨m, hm, rfl⟩ := lookup_of_peek hq
    exact (hlt _ (Table.mem_entries_iff_lookup.mpr hm)).2
  inode_inj q q' n n' hq hq' hi := by
    obtain ⟨m, hm, rfl⟩ := lookup_of_peek hq
    obtain ⟨m', hm', rfl⟩ := lookup_of_peek hq'
    exact hinj _ (Table.mem_entries_iff_lookup.mpr hm) _ (Table.mem_entries_iff_lookup.mpr hm') hi

/-- Where an inode was before a move. -/
theorem of_peek_moveTo (hsrc : r.nodes.lookup src = some m)
    (hx : (r.moveTo now src dst m).peek x = some n) : ∃ y k, r.peek y = some k ∧ k.inode = n.inode ∧
      ((∃ rest, x = dst ++ rest ∧ y = src ++ rest) ∨ (y = x ∧ ¬ dst <+: x ∧ ¬ src <+: x)) := by
  rw [peek_moveTo] at hx
  obtain ⟨hdst, hn⟩ | ⟨-, hn⟩ := ite_eq_iff.mp hx
  · cases hn
    refine ⟨src, _, peek_of_lookup hsrc, rfl, .inl ⟨[], ?_, ?_⟩⟩
    · rw [hdst, append_nil]
    · rw [append_nil]
  obtain ⟨⟨rest, hrest⟩, hn⟩ | ⟨hdst, hn⟩ := ite_eq_iff.mp hn
  · rw [← hrest, Table.relocate_append] at hn
    exact ⟨_, n, hn, rfl, .inl ⟨rest, hrest.symm, rfl⟩⟩
  · obtain ⟨hsrc', hn⟩ := of_ite_eq_some hn
    · exact ⟨x, n, hn, rfl, .inr ⟨rfl, hdst, hsrc'⟩⟩

theorem Change.inode_inj (h : r.Change r') (hr : r.Sound) {q' : Path} {n' : RemoteNode}
    (hq : r'.peek q = some n) (hq' : r'.peek q' = some n') (hi : n.inode = n'.inode) : q = q' := by
  cases h with
  | @publish y m m' hy hinode hkind =>
    have hold : ∀ x k, (r.publish y m').peek x = some k → ∃ k', r.peek x = some k' ∧
        k'.inode = k.inode := by
      intro x k hk
      rw [peek_publish] at hk
      obtain ⟨hx, hk⟩ | ⟨-, hk⟩ := ite_eq_iff.mp hk
      · cases hk
        rw [hx]
        exact ⟨_, peek_of_lookup hy, hinode.symm⟩
      · exact ⟨k, hk, rfl⟩
    obtain ⟨k, hk, hki⟩ := hold q n hq
    obtain ⟨k', hk', hki'⟩ := hold q' n' hq'
    exact hr.inode_inj _ _ _ _ hk hk' (by rw [hki, hki', hi])
  | create now mode size body chunkSize chunkHashes hne hy =>
    rw [peek_create] at hq hq'
    obtain ⟨hx, hn⟩ | ⟨hx, hn⟩ := ite_eq_iff.mp hq <;>
      obtain ⟨hx', hn'⟩ | ⟨hx', hn'⟩ := ite_eq_iff.mp hq'
    · rw [hx, hx']
    · cases hn
      exact absurd hi (ne_of_gt (hr.inode_lt _ _ hn'))
    · cases hn'
      exact absurd hi (Nat.ne_of_lt (hr.inode_lt _ _ hn))
    · exact hr.inode_inj _ _ _ _ hn hn' hi
  | remove now hne hn hleaf =>
    rw [peek_without] at hq hq'
    obtain ⟨-, hn⟩ := of_ite_eq_some hq
    obtain ⟨-, hn'⟩ := of_ite_eq_some hq'
    exact hr.inode_inj _ _ _ _ hn hn' hi
  | @move src dst m now hsrc hdst hm hfree =>
    obtain ⟨y, k, hy, hk, hcase⟩ := of_peek_moveTo hm hq
    obtain ⟨y', k', hy', hk', hcase'⟩ := of_peek_moveTo hm hq'
    have hyy : y = y' := hr.inode_inj _ _ _ _ hy hy' (by rw [hk, hk', hi])
    rcases hcase with ⟨rest, rfl, rfl⟩ | ⟨rfl, -, hout⟩ <;>
      rcases hcase' with ⟨rest', rfl, rfl⟩ | ⟨rfl, -, hout'⟩
    · rw [append_cancel_left hyy]
    · exact absurd (hyy ▸ prefix_append ..) hout'
    · exact absurd (hyy ▸ prefix_append ..) hout
    · exact hyy

theorem Change.root (h : r.Change r') (hr : r.Sound) : ∃ n, r'.peek [] = some n ∧ n.body = .dir := by
  obtain ⟨n, hn, hdir⟩ := hr.root
  cases h with
  | @publish y m m' hy hinode hkind =>
    rw [peek_publish]
    split_ifs with hx
    · subst hx
      rw [peek_of_lookup hy] at hn
      cases hn
      refine ⟨_, rfl, ?_⟩
      have hkind' : m'.body.kind = .dir := hkind.trans (congrArg NodeBody.kind hdir)
      show m'.body = .dir
      cases hb : m'.body with
      | dir => rfl
      | file data => rw [hb] at hkind'; cases hkind'
      | symlink target => rw [hb] at hkind'; cases hkind'
    · exact ⟨n, hn, hdir⟩
  | create now mode size body chunkSize chunkHashes hne hy =>
    rw [peek_create, if_neg (Ne.symm hne)]
    exact ⟨n, hn, hdir⟩
  | remove now hne _ hleaf =>
    rw [peek_without, if_neg (Ne.symm hne)]
    exact ⟨n, hn, hdir⟩
  | move now hsrc hdst hm hfree =>
    rw [peek_moveTo, if_neg (Ne.symm hdst), if_neg (by simpa using hdst),
      if_neg (by simpa using hsrc)]
    exact ⟨n, hn, hdir⟩

/-- **Changes keep the tree sound.** -/
theorem Change.sound (h : r.Change r') (hr : r.Sound) : r'.Sound where
  root := h.root hr
  inode_inj _ _ _ _ := h.inode_inj hr
  revision_lt q n hq := by
    have hle := h.nextRevision_le
    rcases h.origin hq with hq' | ⟨-, hrev, -, hlt⟩ | ⟨y, m, hy, hinode, hkind, hrev, hlt⟩ |
      ⟨src, dst, rest, m, m', hrest, hx, hn, -⟩
    · exact (hr.revision_lt _ _ hq').trans_le hle
    · rwa [hrev]
    · rwa [hrev]
    · exact (hr.revision_lt _ _ hn).trans_le hle
  inode_lt q n hq := by
    have hle := h.nextInode_le
    rcases h.origin hq with hq' | ⟨hinode, -, hlt, -⟩ | ⟨y, m, hy, hinode, -⟩ |
      ⟨src, dst, rest, m, m', hrest, hx, hn, -⟩
    · exact (hr.inode_lt _ _ hq').trans_le hle
    · rwa [hinode]
    · rw [hinode]
      exact (hr.inode_lt _ _ hy).trans_le hle
    · exact (hr.inode_lt _ _ hn).trans_le hle

end Remote

/-! ## The directory of a path -/

section Resolve

variable {t : Table Name RemoteNode} {cur p q : Path} {rest : List Name} {c : Name}
  {n m : RemoteNode} {followFinal : Bool}

/-- What a directory that was found has under a name. -/
def inDir (t : Table Name RemoteNode) (c : Name) (found : Path × RemoteNode) :
    Except ClientErr (Path × RemoteNode) :=
  if found.2.body = .dir then
    match t.lookup (found.1 ++ [c]) with
    | some n => .ok (found.1 ++ [c], n)
    | none => .error .redisNil
  else .error .notDir

theorem linkPath_concat (hc : IsComponent c) (target : Bytes) :
    linkPath cur target (rest ++ [c]) = linkPath cur target rest ++ [c] := by
  unfold linkPath
  rw [cleanFrom, foldl_append, foldl_cons, foldl_nil]
  have hstep : ∀ acc : Path, cleanStep acc c = acc ++ [c] := by
    intro acc
    unfold cleanStep
    rw [if_neg (by rintro (h | h); exacts [hc.1 h, hc.2.2.1 h]), if_neg hc.2.2.2]
  exact hstep _

/-- A walk to a path is a walk to its directory, links followed, and a look into it. -/
theorem walk_concat (hc : IsComponent c) (hcur : t.lookup cur = some n) (hdir : n.body = .dir) :
    walk t false cur (rest ++ [c]) = (walk t true cur rest).bind (Sum.elim
      (fun found => (inDir t c found).map .inl) (fun p => .ok (.inr (p ++ [c])))) := by
  induction rest generalizing cur n with
  | nil =>
    simp only [nil_append, walk, hcur, Except.bind, Sum.elim_inl, inDir, hdir, if_true]
    cases hl : t.lookup (cur ++ [c]) with
    | none => rfl
    | some m =>
      dsimp only
      cases m.body with
      | file data => rfl
      | dir => rfl
      | symlink target => simp [Except.map]
  | cons d rest ih =>
    rw [cons_append, walk, walk]
    cases hl : t.lookup (cur ++ [d]) with
    | none => rfl
    | some m =>
      dsimp only
      cases hm : m.body with
      | file data =>
        dsimp only
        rw [if_neg (by simp)]
        by_cases hrest : rest = []
        · simp [hrest, Except.bind, inDir, hm, Except.map]
        · rw [if_neg hrest]
          rfl
      | dir =>
        dsimp only
        rw [if_neg (by simp)]
        by_cases hrest : rest = []
        · subst hrest
          have hnil : walk t true (cur ++ [d]) [] = .ok (.inl (cur ++ [d], m)) := by
            simp [walk, hl]
          rw [if_pos rfl, ← hnil]
          exact ih hl hm
        · rw [if_neg hrest]
          exact ih hl hm
      | symlink target =>
        dsimp only
        rw [if_pos (show false = true ∨ rest ++ [c] ≠ [] by simp),
          if_pos (show true = true ∨ rest ≠ [] by simp)]
        by_cases htarget : target = []
        · simp [htarget, Except.bind]
        · rw [if_neg htarget, if_neg htarget, linkPath_concat hc]
          rfl

theorem resolveDepth_concat (hc : IsComponent c) (hroot : t.lookup [] = some n)
    (hdir : n.body = .dir) (depth : ℕ) (p : Path) :
    resolveDepth t false depth (p ++ [c]) = (resolveDepth t true depth p).bind (inDir t c) := by
  induction depth generalizing p with
  | zero =>
    unfold resolveDepth
    rw [walk_concat hc hroot hdir]
    rcases walk t true [] p with e | found | p'
    · rfl
    · simp only [Except.bind, Sum.elim_inl]
      cases inDir t c found <;> rfl
    · rfl
  | succ depth ih =>
    unfold resolveDepth
    rw [walk_concat hc hroot hdir]
    rcases walk t true [] p with e | found | p'
    · rfl
    · simp only [Except.bind, Sum.elim_inl]
      cases inDir t c found <;> rfl
    · exact ih p'

end Resolve

/-! ## Versions -/

namespace Remote

variable {r r' : Remote} {p q : Path} {n m : RemoteNode} {s : StatResult}

section

variable (hr : r.Sound) (hp : p ≠ []) (hc : IsComponent (baseName p))

include hr hp hc

theorem resolvePath_eq : r.resolvePath p false =
      (r.resolvePath (parentOf p) true).bind (inDir r.nodes (baseName p)) := by
  obtain ⟨n, hn, hdir⟩ := hr.root
  obtain ⟨n', hn', rfl⟩ := lookup_of_peek hn
  have hsplit : parentOf p ++ [baseName p] = p := joinPath_parentOf hp
  unfold resolvePath
  rw [← resolveDepth_concat hc hn' hdir, hsplit]

omit hr hp hc in
theorem of_inDir {c : Name} {found : Path × RemoteNode} (h : inDir r.nodes c found = .ok (q, n)) :
    found.2.body = .dir ∧ q = found.1 ++ [c] ∧ r.nodes.lookup q = some n := by
  unfold inDir at h
  obtain ⟨hdir, h⟩ | ⟨-, h⟩ := ite_eq_iff.mp h
  · cases hl : r.nodes.lookup (found.1 ++ [c]) with
    | none => simp [hl] at h
    | some n' =>
      rw [hl] at h
      cases h
      exact ⟨hdir, rfl, hl⟩
  · cases h

/-- What is at a path is in the directory of the path. -/
theorem of_resolvePath
    (h : r.resolvePath p false = .ok (q, n)) : ∃ d m, r.resolvePath (parentOf p) true = .ok (d, m) ∧
      m.body = .dir ∧ q = d ++ [baseName p] ∧ r.nodes.lookup q = some n := by
  rw [resolvePath_eq hr hp hc] at h
  cases hd : r.resolvePath (parentOf p) true with
  | error e =>
    rw [hd] at h
    cases h
  | ok found =>
    rw [hd] at h
    obtain ⟨hdir, hq, hn⟩ := of_inDir h
    exact ⟨found.1, found.2, rfl, hdir, hq, hn⟩

theorem resolvePath_in {d : Path}
    (hd : r.resolvePath (parentOf p) true = .ok (d, m)) (hdir : m.body = .dir)
    (hn : r.nodes.lookup (d ++ [baseName p]) = some n) :
    r.resolvePath p false = .ok (d ++ [baseName p], n) := by
  rw [resolvePath_eq hr hp hc, hd]
  show inDir r.nodes (baseName p) (d, m) = _
  unfold inDir
  rw [if_pos hdir, hn]

end

/-- Where the directory of a path is, and which one it is. -/
def place (r : Remote) (p : Path) : Except ClientErr (Path × ℕ) :=
  (r.resolvePath (parentOf p) true).map fun found => (found.1, found.2.inode)

theorem of_place {d : Path} {i : ℕ} (h : r.place p = .ok (d, i)) :
    ∃ m, r.resolvePath (parentOf p) true = .ok (d, m) ∧ m.inode = i := by
  unfold place at h
  cases hd : r.resolvePath (parentOf p) true with
  | error e =>
    rw [hd] at h
    cases h
  | ok found =>
    rw [hd] at h
    cases h
    exact ⟨found.2, rfl, rfl⟩

theorem place_eq {d : Path} (h : r.resolvePath (parentOf p) true = .ok (d, m)) :
    r.place p = .ok (d, m.inode) := by
  unfold place
  rw [h]
  rfl

/-- A version that was seen, with what it is wherever it still is. -/
structure Knows (r : Remote) (s : StatResult) (n : RemoteNode) : Prop where
  old : s.revision < r.nextRevision
  same : ∀ q m, r.peek q = some m → m.inode = s.inode → m.revision = s.revision → m = n

theorem Sound.knows (hr : r.Sound) (h : r.nodes.lookup q = some n) :
    r.Knows n.toStat n.timeless where
  old := hr.revision_lt q n.timeless (peek_of_lookup h)
  same q' m hm hinode _ := by
    have hq := hr.inode_inj _ _ _ _ hm (peek_of_lookup h) hinode
    rw [hq, peek_of_lookup h] at hm
    exact (Option.some.inj hm).symm

/-- **A version never changes.** -/
theorem Change.knows (h : r.Change r') (hk : r.Knows s n) : r'.Knows s n where
  old := hk.old.trans_le h.nextRevision_le
  same q m hm hinode hrev := by
    have hold := hk.old
    rcases h.origin hm with hq | ⟨-, hnew, -, -⟩ | ⟨y, k, hy, -, -, hnew, -⟩ |
      ⟨src, dst, rest, k, k', -, -, hq, -⟩
    · exact hk.same _ _ hq hinode hrev
    · omega
    · omega
    · exact hk.same _ _ hq hinode hrev

/-- The directory of a path is a directory before a change if it is one afterwards. -/
theorem Change.dir_before (h : r.Change r') (hr : r.Sound) {d : Path} {k : RemoteNode}
    (hm : r'.peek d = some m) (hdir : m.body = .dir) (hk : r.peek d = some k)
    (hinode : k.inode = m.inode) : k.body = .dir := by
  have hsame : ∀ y, r.peek y = some m → k.body = .dir := by
    intro y hy
    have hyd := hr.inode_inj _ _ _ _ hy hk hinode.symm
    rw [hyd, hk] at hy
    cases hy
    exact hdir
  rcases h.origin hm with hq | ⟨hnew, -, -, -⟩ | ⟨y, k', hy, hi, hkind, -, -⟩ |
    ⟨src, dst, rest, k', k'', -, -, hq, -⟩
  · exact hsame _ hq
  · have := hr.inode_lt _ _ hk
    omega
  · have hyd := hr.inode_inj _ _ _ _ hy hk (by rw [← hi, hinode])
    rw [hyd, hk] at hy
    cases hy
    rw [hdir] at hkind
    cases hb : k.body with
    | dir => rfl
    | file data => rw [hb] at hkind; cases hkind
    | symlink target => rw [hb] at hkind; cases hkind
  · exact hsame _ hq

/-- The version is not at the path. -/
def Lost (r : Remote) (p : Path) (s : StatResult) : Prop :=
  ∀ q n, r.resolvePath p false = .ok (q, n) → ¬ (n.inode = s.inode ∧ n.revision = s.revision)

/-- Nothing moves to the top of a path that is there. -/
theorem not_free {d dst y : Path} (hd : r.resolvePath q true = .ok (d, m)) (hdst : dst ≠ [])
    (hy : y ≠ []) (hsplit : d = dst ++ y) :
    ¬ (r.nodes.lookup dst = none ∨ r.nodes.names dst = []) := by
  have hall := resolveDepth_ok (t := r.nodes) hd
  obtain ⟨c, y', rfl⟩ := exists_cons_of_ne_nil hy
  rintro (hnone | hnil)
  · have hthere := hall dst (hsplit ▸ prefix_append ..) hdst
    rw [hnone] at hthere
    cases hthere
  · have hthere := hall (dst ++ [c]) (by rw [hsplit]; exact ⟨y', by simp⟩) (by simp)
    have hc : c ∈ r.nodes.names dst := Table.mem_names.mpr hthere
    rw [hnil] at hc
    cases hc

/-- **A version that left a directory does not come back to it**, as long as the directory stays. -/
theorem Change.lost (h : r.Change r') (hr : r.Sound) (hp : p ≠ []) (hc : IsComponent (baseName p))
    (hold : s.revision < r.nextRevision) (hplace : r'.place p = r.place p) (hl : r.Lost p s) :
    r'.Lost p s := by
  rintro q n hq ⟨hinode, hrev⟩
  obtain ⟨d, m, hd, hdir, rfl, hn⟩ := of_resolvePath (h.sound hr) hp hc hq
  have hm : r'.peek d = some m.timeless := peek_of_lookup (lookup_of_resolveDepth hd)
  rw [place_eq hd] at hplace
  obtain ⟨m₀, hd₀, hinode₀⟩ := of_place hplace.symm
  have hm₀ : r.peek d = some m₀.timeless := peek_of_lookup (lookup_of_resolveDepth hd₀)
  have hdir₀ : m₀.timeless.body = .dir := h.dir_before hr hm hdir hm₀ hinode₀
  -- the version was in the directory before
  have hgone : r.peek (d ++ [baseName p]) ≠ some n.timeless := by
    intro hthere
    obtain ⟨n₀, hn₀, htime⟩ := lookup_of_peek hthere
    refine hl _ _ (resolvePath_in hr hp hc hd₀ hdir₀ hn₀) ⟨?_, ?_⟩
    · rw [← hinode]
      exact (RemoteNode.mk.inj htime).1
    · rw [← hrev]
      exact (RemoteNode.mk.inj htime).2.1
  rcases h.origin (peek_of_lookup hn) with hkept | ⟨-, hnew, -, -⟩ | ⟨y, k, -, -, -, hnew, -⟩ |
    ⟨src, dst, rest, k, k', hrest, hsplit, hthere, hk, hk', hi, hdst, hfree⟩
  · exact hgone hkept
  · exact absurd (hrev.symm.trans hnew) (Nat.ne_of_lt hold)
  · exact absurd (hrev.symm.trans hnew) (Nat.ne_of_lt hold)
  · obtain ⟨y, c, rfl⟩ : ∃ y c, rest = y ++ [c] := ⟨_, _, (dropLast_append_getLast hrest).symm⟩
    rw [← append_assoc] at hsplit
    obtain ⟨hd', hc'⟩ := append_inj' hsplit rfl
    by_cases hy : y = []
    · -- the directory itself would have moved here
      subst hy
      rw [append_nil] at hd'
      subst hd'
      have hsrc : src = d := by
        refine hr.inode_inj _ _ _ _ hk hm₀ ?_
        rw [← hi]
        rw [hm] at hk'
        cases hk'
        exact hinode₀.symm
      rw [hsrc, nil_append, ← hc'] at hthere
      exact hgone hthere
    · exact not_free hd₀ hdst hy hd' hfree

end Remote

end Afs.Sync
