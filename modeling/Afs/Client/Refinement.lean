import Afs.Workspace.LinkTree
import Afs.Client.Replies

/-!
# The scripts as steps of the tree

`treeOf` reads the tree of a workspace off its keys: an inode is there when its hash has a type,
which is when the client takes it for existing. Hashes that only hold a path hint or history
fields are not inodes, and neither they nor the stage, the stream or the history show in the tree.

For the writes of every script one lemma says which step of the tree (`LinkTree.Step`) they are,
from what the script has checked and from what its arguments promise.
-/

namespace Afs

open Function (update update_apply update_comm update_eq_self update_idem update_of_ne update_self)

open LinkTree Option

/-- The inode of a hash. -/
def InodeHash.node (h : InodeHash) : Option (Node Id Name) :=
  h.type.map fun kind =>
    { kind := kind, size := h.size.getD 0, revision := h.revision.getD 0
      slot := h.parent.bind fun p => h.name.map fun n => (p, n) }

/-- The counter of a measure. -/
def Info.measure (i : Info) : Measure → ℤ
  | .files => i.files
  | .directories => i.directories
  | .symlinks => i.symlinks
  | .bytes => i.totalDataBytes

/-- The tree of a workspace. -/
def treeOf (s : Store) : LinkTree Id Name where
  node i := (s.inode i).bind (·.node)
  entry p := s.lookup p.1 p.2
  filled i := (s.content i).isSome
  books := s.counters.measure

/-! ## Reading -/

section Reading

variable {s : Store} {i : Id} {x : Node Id Name}

theorem kind_of_node (h : (treeOf s).node i = some x) : s.kind i = some x.kind := by
  obtain ⟨f, hf, hx⟩ := bind_eq_some_iff.mp h
  obtain ⟨k, hk, rfl⟩ := map_eq_some_iff.mp hx
  simp [Store.kind, hf, hk]

theorem node_of_kind {k : Kind} (h : s.kind i = some k) :
    ∃ x, (treeOf s).node i = some x ∧ x.kind = k := by
  obtain ⟨f, hf, hk⟩ := bind_eq_some_iff.mp h
  have hx : ∃ x, f.node = some x ∧ x.kind = k := by simp [InodeHash.node, hk]
  obtain ⟨x, hx, hk⟩ := hx
  exact ⟨x, by simp only [treeOf, hf, bind_some, hx], hk⟩

theorem node_eq_none_iff : (treeOf s).node i = none ↔ s.kind i = none := by
  constructor
  · intro h
    cases hk : s.kind i with
    | none => rfl
    | some k =>
      obtain ⟨x, hx, -⟩ := node_of_kind hk
      rw [h] at hx
      cases hx
  · intro h
    cases hx : (treeOf s).node i with
    | none => rfl
    | some x =>
      rw [kind_of_node hx] at h
      cases h

theorem isDir_of_kind (h : s.kind i = some .dir) : (treeOf s).IsDir i := node_of_kind h

theorem size_of_node (h : (treeOf s).node i = some x) : s.size i = x.size := by
  obtain ⟨f, hf, hx⟩ := bind_eq_some_iff.mp h
  obtain ⟨k, hk, rfl⟩ := map_eq_some_iff.mp hx
  simp [Store.size, hf]

theorem revision_of_node (h : (treeOf s).node i = some x) : s.revision i = x.revision := by
  obtain ⟨f, hf, hx⟩ := bind_eq_some_iff.mp h
  obtain ⟨k, hk, rfl⟩ := map_eq_some_iff.mp hx
  simp [Store.revision, hf]

end Reading

/-! ## Writing -/

section Writing

variable (s : Store) (id d i : Id) (n : Name)

theorem treeOf_setInode (h : Option InodeHash) : treeOf { s with inode := update s.inode id h } =
      { treeOf s with node := update (treeOf s).node id (h.bind (·.node)) } := by
  have hnode : ∀ j, ((update s.inode id h) j).bind InodeHash.node =
      update (treeOf s).node id (h.bind (·.node)) j := by
    intro j
    by_cases hj : j = id
    · subst hj
      rw [update_self, update_self]
    · rw [update_of_ne hj, update_of_ne hj]
      rfl
  simp only [treeOf, hnode]
  rfl

theorem treeOf_hset (f : InodeHash) : treeOf (s.hset id f) = { treeOf s with
      node := update (treeOf s).node id ((s.fields id).merge f).node } :=
  treeOf_setInode s id _

theorem fields_node : (s.fields id).node = (treeOf s).node id := by
  cases h : s.inode id with
  | none => simp only [Store.fields, treeOf, h, getD_none, bind_none]; rfl
  | some f => simp only [Store.fields, treeOf, h, getD_some, bind_some]

/-- Fields that say nothing about the tree and the content of files. -/
structure InodeHash.Beside (f : InodeHash) : Prop where
  type : f.type = none := by rfl
  size : f.size = none := by rfl
  revision : f.revision = none := by rfl
  parent : f.parent = none := by rfl
  name : f.name = none := by rfl
  contentRef : f.contentRef = none := by rfl
  content : f.content = none := by rfl

theorem treeOf_hset_beside {f : InodeHash} (hf : f.Beside) : treeOf (s.hset id f) = treeOf s := by
  have hnode : ((s.fields id).merge f).node = (treeOf s).node id := by
    rw [← fields_node]
    simp [InodeHash.node, InodeHash.merge, hf.type, hf.size, hf.revision, hf.parent, hf.name]
  rw [treeOf_hset, hnode, update_eq_self]

theorem treeOf_link : treeOf (s.link d n i) = { treeOf s with
    entry := update (treeOf s).entry (d, n) (some i) } := by
  have hentry : ∀ p : Id × Name, (s.link d n i).lookup p.1 p.2 =
      update (treeOf s).entry (d, n) (some i) p := by
    rintro ⟨d', n'⟩
    by_cases hd : d' = d
    · subst hd
      by_cases hn : n' = n
      · subst hn
        simp [Store.link, Store.lookup]
      · have hne : ((d', n') : Id × Name) ≠ (d', n) := by simp [hn]
        rw [update_of_ne hne]
        simp [Store.link, Store.lookup, treeOf, AList.lookup_insert_ne hn]
    · have hne : ((d', n') : Id × Name) ≠ (d, n) := by simp [hd]
      rw [update_of_ne hne]
      simp [Store.link, Store.lookup, treeOf, update_of_ne hd]
  simp only [treeOf, hentry]
  rfl

theorem treeOf_unlink : treeOf (s.unlink d n) = { treeOf s with
    entry := update (treeOf s).entry (d, n) none } := by
  have hentry : ∀ p : Id × Name, (s.unlink d n).lookup p.1 p.2 =
      update (treeOf s).entry (d, n) none p := by
    rintro ⟨d', n'⟩
    by_cases hd : d' = d
    · subst hd
      by_cases hn : n' = n
      · subst hn
        simp [Store.unlink, Store.lookup]
      · have hne : ((d', n') : Id × Name) ≠ (d', n) := by simp [hn]
        rw [update_of_ne hne]
        simp [Store.unlink, Store.lookup, treeOf, AList.lookup_erase_ne hn]
    · have hne : ((d', n') : Id × Name) ≠ (d, n) := by simp [hd]
      rw [update_of_ne hne]
      simp [Store.unlink, Store.lookup, treeOf, update_of_ne hd]
  simp only [treeOf, hentry]
  rfl

theorem treeOf_setContent (b : Option Body) :
    treeOf { s with content := update s.content id b } = { treeOf s with
      filled := fun j => if j = id then b.isSome = true else (treeOf s).filled j } := by
  have hfilled : ∀ j, ((update s.content id b j).isSome = true) =
      if j = id then b.isSome = true else (treeOf s).filled j := by
    intro j
    by_cases hj : j = id
    · subst hj
      rw [update_self, if_pos rfl]
    · rw [update_of_ne hj, if_neg hj]
      rfl
  simp only [treeOf, hfilled]
  rfl

theorem treeOf_clearDirents : treeOf { s with dirents := update s.dirents d ∅ } = { treeOf s with
      entry := fun p => if p.1 = d then none else (treeOf s).entry p } := by
  have hentry : ∀ p : Id × Name, ((update s.dirents d ∅) p.1).lookup p.2 =
      if p.1 = d then none else (treeOf s).entry p := by
    rintro ⟨d', n'⟩
    by_cases hd : d' = d
    · subst hd
      simp
    · simp [hd, treeOf, Store.lookup]
  simp only [treeOf, Store.lookup, hentry]
  rfl

theorem treeOf_del : treeOf (s.del id) = { treeOf s with
    node := update (treeOf s).node id none
    entry := fun p => if p.1 = id then none else (treeOf s).entry p
    filled := fun j => if j = id then False else (treeOf s).filled j } := by
  have h : s.del id =
      let s₁ : Store := { s with inode := update s.inode id none }
      let s₂ : Store := { s₁ with content := update s₁.content id none }
      { s₂ with dirents := update s₂.dirents id ∅ } := rfl
  rw [h, treeOf_clearDirents, treeOf_setContent, treeOf_setInode]
  simp

theorem treeOf_count (f : Info → Info) : treeOf (s.count f) = { treeOf s with
    books := (f s.counters).measure } := rfl

theorem bound_beside (b : History.Bound) : b.fields.Beside := by
  unfold History.Bound.fields
  split
  · split <;> exact {}
  · exact {}

/-- What a capture writes besides history: fields of the inodes it binds. -/
theorem applyCapture_rec {R : Store → Store → Prop} (refl : ∀ s, R s s)
    (trans : ∀ s s' s'', R s s' → R s' s'' → R s s'')
    (hset : ∀ s id f, InodeHash.Beside f → R s (s.hset id f))
    (history : ∀ s h, R s { s with history := h }) (s : Store) (cap : History.Captured) :
    R s (Client.applyCapture s cap) := by
  have hfold : ∀ (l : List History.Bound) (s : Store), R s (l.foldl
      (fun s b => if b.lineage.isSome ∧ b.after then s.hset b.id b.fields else s) s) := by
    intro l
    induction l with
    | nil => exact refl
    | cons b l ih =>
      intro s
      rw [List.foldl_cons]
      refine trans _ _ _ ?_ (ih _)
      split
      · exact hset s b.id b.fields (bound_beside b)
      · exact refl s
  exact trans _ _ _ (hfold cap.bound s) (history _ _)

theorem treeOf_applyCapture (cap : History.Captured) :
    treeOf (Client.applyCapture s cap) = treeOf s :=
  applyCapture_rec (R := fun s s' => treeOf s' = treeOf s) (fun _ => rfl)
    (fun _ _ _ h h' => h'.trans h) (fun s id _ hf => treeOf_hset_beside s id hf) (fun _ _ => rfl) s cap

theorem treeOf_announce (m : Option Message) : treeOf (Client.announce s m) = treeOf s := by
  cases m <;> rfl

end Writing

variable {size : ℤ}

namespace Client

open History

/-! ## Files -/

section Publish

variable {a : PublishArgs} {s : Store} {H : Habits Id Name}

/-- The inode a file publication leaves. -/
def PublishArgs.node (a : PublishArgs) : Node Id Name :=
  ⟨.file, some (a.parent, a.name), a.size, a.revision⟩

/-- The fields of a publication are those of its inode. -/
structure PublishArgs.Fields (a : PublishArgs) : Prop where
  type : a.fields.type = some .file
  size : a.fields.size = some a.size
  parent : a.fields.parent = some a.parent
  name : a.fields.name = some a.name

theorem treeOf_publishFileWrite (ha : a.Fields) (previous : ℤ) (s : Store) :
    ∃ full : Prop, treeOf (publishFileWrite a previous s) =
      { node := update (treeOf s).node a.id (some a.node)
        entry := if a.create then update (treeOf s).entry (a.parent, a.name) (some a.id)
          else (treeOf s).entry
        filled := fun j => if j = a.id then full else (treeOf s).filled j
        books := Info.measure ⟨s.counters.files + (if a.create then 1 else 0),
          s.counters.directories, s.counters.symlinks,
          s.counters.totalDataBytes + (a.size - previous)⟩ } := by
  unfold publishFileWrite
  extract_lets s₁ f s₂ s₃ s₄
  obtain ⟨full, h₁⟩ : ∃ full : Prop, treeOf s₁ = { treeOf s with
      filled := fun j => if j = a.id then full else (treeOf s).filled j } := by
    dsimp only [s₁]
    split
    · exact ⟨_, treeOf_setContent s a.id none⟩
    · exact ⟨_, treeOf_setContent s a.id (s.stage a.stage)⟩
  have hc₁ : s₁.counters = s.counters := by
    dsimp only [s₁]
    split <;> rfl
  have hf : InodeHash.node { f with content := none } = some a.node := by
    simp [f, InodeHash.node, InodeHash.merge, ha.type, ha.size, ha.parent, ha.name,
      PublishArgs.node]
  have h₂ : treeOf s₂ = { treeOf s₁ with
      node := update (treeOf s₁).node a.id (some a.node) } := by
    rw [← hf]
    exact treeOf_setInode s₁ a.id _
  have hc₂ : s₂.counters = s.counters := hc₁
  refine ⟨full, ?_⟩
  have h₄ : treeOf { s₄ with rootDirty := true } = { treeOf s₃ with
      books := Info.measure { s₃.counters with
        totalDataBytes := s₃.counters.totalDataBytes + (a.size - previous) } } := rfl
  rw [h₄]
  cases hcreate : a.create with
  | false =>
    have h₃ : s₃ = s₂ := by simp [s₃, hcreate]
    rw [h₃, h₂, h₁, hc₂]
    simp
  | true =>
    have h₃ : treeOf s₃ = { treeOf s₂ with
        entry := update (treeOf s₂).entry (a.parent, a.name) (some a.id)
        books := Info.measure { s₂.counters with files := s₂.counters.files + 1 } } := by
      simp only [s₃, hcreate, if_true]
      rw [treeOf_hset_beside _ _ {}, treeOf_count, treeOf_link]
      rfl
    have hc₃ : s₃.counters = { s.counters with files := s.counters.files + 1 } := by
      simp only [s₃, hcreate, if_true]
      rw [← hc₂]
      rfl
    rw [h₃, hc₃, h₂, h₁]
    simp

/-- **A file publication places its inode.** -/
theorem publishFile_step {previous : ℤ} (ha : a.Fields) (hroot : a.id ≠ rootInodeID)
    (hdir : (treeOf s).IsDir a.parent) (hnew : a.create = true → (treeOf s).node a.id = none ∧
      (∀ p, (treeOf s).entry p ≠ some a.id) ∧ (treeOf s).entry (a.parent, a.name) = none)
    (hold : a.create = false → (treeOf s).entry (a.parent, a.name) = some a.id)
    (hkind : ∀ y, (treeOf s).node a.id = some y → y.kind = .file)
    (hprev : previous = weigh Node.size ((treeOf s).node a.id)) :
    Step rootInodeID H (treeOf s) (some (a.id, a.node))
      (treeOf (publishFileWrite a previous s)) := by
  obtain ⟨full, htree⟩ := treeOf_publishFileWrite ha previous s
  rw [htree]
  have hfilled : ∀ j, (if j = a.id then full else (treeOf s).filled j) →
      j = a.id ∨ (treeOf s).filled j := by
    intro j hj
    split_ifs at hj with hji
    · exact .inl hji
    · exact .inr hj
  cases hc : a.create with
  | true =>
    obtain ⟨hnone, hunlinked, hfree⟩ := hnew hc
    refine .create hroot rfl hdir hnone hunlinked hfree rfl ?_ hfilled fun m => ?_
    · dsimp only
      rw [if_pos rfl]
    · rw [hprev, hnone]
      cases m <;> simp [treeOf, Info.measure, Node.weight, PublishArgs.node]
  | false =>
    refine .rewrite hroot rfl hdir (hold hc) hkind rfl ?_ hfilled fun y hy m => ?_
    · dsimp only
      rw [if_neg (by simp)]
    · rw [hprev, hy]
      cases m <;> simp [treeOf, Info.measure, Node.weight, PublishArgs.node, hkind y hy]
      omega

end Publish

/-! ## Removal -/

/-- The counters give back exactly what an inode has added. -/
theorem measure_release {y : Node Id Name} (hy : y.kind = .file → 0 ≤ y.size) (i : Info)
    (m : Measure) : ((i.forget (some y.kind)).release (some y.kind) y.size).measure m =
      i.measure m - y.weight m := by
  obtain ⟨kind, slot, size, revision⟩ := y
  cases kind with
  | dir | symlink => cases m <;> simp [Info.forget, Info.release, Info.measure, Node.weight]
  | file =>
    have hsize : 0 ≤ size := hy rfl
    by_cases hpos : 0 < size
    · cases m <;> simp [Info.forget, Info.release, Info.measure, Node.weight, hpos]
    · have hzero : size = 0 := by omega
      cases m <;> simp [Info.forget, Info.release, Info.measure, Node.weight, hzero]

section Delete

variable {a : DeleteArgs} {s : Store} {H : Habits Id Name}

theorem treeOf_deleteInodeWrite (a : DeleteArgs) (kind : Option Kind) (size : ℤ) (s : Store) :
    treeOf (deleteInodeWrite a kind size s) =
      { node := update (treeOf s).node a.id none
        entry := fun p => if p = (a.parent, a.name) ∨ p.1 = a.id then none else (treeOf s).entry p
        filled := fun j => if j = a.id then False else (treeOf s).filled j
        books := ((s.counters.forget kind).release kind size).measure } := by
  unfold deleteInodeWrite
  extract_lets s₁
  have h₁ : treeOf { s₁ with rootDirty := true } = treeOf s₁ := rfl
  rw [h₁]
  dsimp only [s₁]
  rw [treeOf_count, treeOf_hset_beside _ _ {}, treeOf_unlink, treeOf_del]
  refine LinkTree.mk.injEq .. |>.mpr ⟨rfl, ?_, rfl, rfl⟩
  funext p
  dsimp only
  rw [update_apply]
  split_ifs <;> first | rfl | tauto

/-- **A removal removes its inode.** -/
theorem deleteInode_step {kind : Option Kind}
    (hlinked : (treeOf s).entry (a.parent, a.name) = some a.id)
    (hchild : ∀ n j, (treeOf s).entry (a.id, n) = some j → (treeOf s).node j = none)
    (hsize : ∀ y, (treeOf s).node a.id = some y →
      kind = some y.kind ∧ size = y.size ∧ (y.kind = .file → 0 ≤ y.size)) :
    Step rootInodeID H (treeOf s) none (treeOf (deleteInodeWrite a kind size s)) := by
  rw [treeOf_deleteInodeWrite]
  refine .remove (s := (a.parent, a.name)) (i := a.id) ⟨hlinked, hchild, fun j => ?_, fun p => rfl,
    fun j hj => ?_, fun ht m => ?_⟩
  · dsimp only
    rw [update_apply]
  · dsimp only at hj
    split_ifs at hj with hji
    exact ⟨hj, hji⟩
  · obtain ⟨y, hy⟩ := ht.live _ _ hlinked
    obtain ⟨rfl, rfl, hnonneg⟩ := hsize y hy
    rw [hy, weigh_some]
    exact measure_release hnonneg s.counters m

end Delete

/-! ## Attributes -/

section Update

variable {a : UpdateArgs} {s : Store} {H : Habits Id Name}

/-- The hash an attribute update leaves. -/
def updatedHash (a : UpdateArgs) (s : Store) : InodeHash :=
  ((s.fields a.id).merge a.fields).merge { revision := some a.revision }

theorem treeOf_updateInodeWrite (a : UpdateArgs) (s : Store) :
    treeOf (updateInodeWrite a s) = { treeOf s with
      node := update (treeOf s).node a.id (updatedHash a s).node } := by
  have hfields : (s.hset a.id a.fields).fields a.id = (s.fields a.id).merge a.fields := by
    simp [Store.hset, Store.fields]
  unfold updateInodeWrite
  rw [treeOf_hset, treeOf_hset, hfields]
  dsimp only
  rw [update_idem]
  rfl

/-- What an attribute update knows about its inode: its kind, its size if it is a file, and the
slot. -/
structure UpdateArgs.Fits (a : UpdateArgs) (s : Store) (kind : Kind) (size : ℤ) : Prop where
  old : ∀ y, (treeOf s).node a.id = some y → y.kind = kind ∧ (kind = .file → y.size = size)
  type : ∀ k, a.fields.type = some k → k = kind
  size : ∀ n, a.fields.size = some n → n = size
  parent : ∀ p, a.fields.parent = some p → p = a.parent
  name : ∀ n, a.fields.name = some n → n = a.name
  given : a.fields.type.isSome → a.fields.parent.isSome ∧ a.fields.name.isSome
  sized : a.fields.size.isSome = a.fields.type.isSome

/-- What an attribute update leaves has the kind and the size it had. -/
theorem UpdateArgs.Fits.node {kind : Kind} (hf : a.Fits s kind size) {x : Node Id Name}
    (hx : (updatedHash a s).node = some x) :
    x.kind = kind ∧ (kind = .file → x.size = size) ∧ x.revision = a.revision ∧
      ((treeOf s).node a.id = none → x.slot = some (a.parent, a.name)) ∧
      ∀ y, (treeOf s).node a.id = some y → y.slot = some (a.parent, a.name) →
        x.slot = some (a.parent, a.name) := by
  have hold := hf.old
  rw [← fields_node] at hold ⊢
  obtain ⟨k, hk, rfl⟩ := map_eq_some_iff.mp hx
  cases ht : a.fields.type with
  | some k' =>
    obtain ⟨⟨p, hp⟩, ⟨n, hn⟩⟩ : (∃ p, a.fields.parent = some p) ∧ ∃ n, a.fields.name = some n := by
      simpa [isSome_iff_exists] using hf.given (by simp [ht])
    obtain ⟨m, hm⟩ : ∃ m, a.fields.size = some m := by
      simpa [isSome_iff_exists, ht] using hf.sized
    have hkk : k' = k := by simpa [updatedHash, InodeHash.merge, ht] using hk
    have h₁ := hf.type k' ht
    have h₂ := hf.size m hm
    have h₃ := hf.parent p hp
    have h₄ := hf.name n hn
    subst hkk h₁ h₂ h₃ h₄
    simp [updatedHash, InodeHash.merge, hp, hn, hm]
  | none =>
    have hm : a.fields.size = none := by
      simpa [ht] using hf.sized
    have hk' : (s.fields a.id).type = some k := by
      simpa [updatedHash, InodeHash.merge, ht] using hk
    have hnode : (s.fields a.id).node = some ⟨k, (s.fields a.id).parent.bind fun p =>
        (s.fields a.id).name.map fun n => (p, n), (s.fields a.id).size.getD 0,
        (s.fields a.id).revision.getD 0⟩ := by
      simp [InodeHash.node, hk']
    obtain ⟨hkind, hsize⟩ := hold _ hnode
    refine ⟨hkind, fun hfile => ?_, by simp [updatedHash, InodeHash.merge], fun hnone => ?_,
      fun y hy hslot => ?_⟩
    · simpa [updatedHash, InodeHash.merge, hm] using hsize hfile
    · rw [hnode] at hnone
      cases hnone
    · rw [hnode] at hy
      cases hy
      obtain ⟨p, hp, hn⟩ := bind_eq_some_iff.mp hslot
      obtain ⟨n, hn, heq⟩ := map_eq_some_iff.mp hn
      cases heq
      have hparent : (updatedHash a s).parent = some a.parent := by
        cases h : a.fields.parent with
        | none => simp [updatedHash, InodeHash.merge, h, hp]
        | some q => simp [updatedHash, InodeHash.merge, h, hf.parent q h]
      have hname : (updatedHash a s).name = some a.name := by
        cases h : a.fields.name with
        | none => simp [updatedHash, InodeHash.merge, h, hn]
        | some q => simp [updatedHash, InodeHash.merge, h, hf.name q h]
      simp [hparent, hname]

/-- **An attribute update writes its inode where it is.** A hash that is no inode may stay none. -/
theorem updateInode_step {kind : Kind} (hlinks : (treeOf s).Linked rootInodeID)
    (hf : a.Fits s kind size) (hroot : a.id = rootInodeID → kind = .dir)
    (hlinked : a.id ≠ rootInodeID → (treeOf s).entry (a.parent, a.name) = some a.id) :
    ∃ new, Step rootInodeID H (treeOf s) new (treeOf (updateInodeWrite a s)) ∧
      ∀ i x, new = some (i, x) → i = a.id ∧ x.kind = kind ∧ (kind = .file → x.size = size) ∧
        x.revision = a.revision ∧ (updatedHash a s).node = some x := by
  rw [treeOf_updateInodeWrite]
  cases hx : (updatedHash a s).node with
  | none =>
    have hnone : (treeOf s).node a.id = none := by
      rw [← fields_node]
      cases hn : (s.fields a.id).type with
      | none => simp [InodeHash.node, hn]
      | some k =>
        cases ht : a.fields.type <;>
          simp [updatedHash, InodeHash.node, InodeHash.merge, hn, ht] at hx
    refine ⟨none, ?_, nofun⟩
    rw [← hnone, update_eq_self]
    exact .stay
  | some x =>
    obtain ⟨hk, hsize, hrev, hfresh, hkept⟩ := hf.node hx
    refine ⟨some (a.id, x), ?_, fun i y h => ?_⟩
    · by_cases hid : a.id = rootInodeID
      · rw [hid]
        refine .root ⟨hk.trans (hroot hid), fun j => ?_, fun _ => rfl, fun _ h => h, .inr fun _ => rfl⟩
        dsimp only
        rw [update_apply]
      · have hentry := hlinked hid
        have hslot : x.slot = some (a.parent, a.name) := by
          cases hy : (treeOf s).node a.id with
          | none => exact hfresh hy
          | some y =>
            obtain ⟨p, hp, hpe⟩ := hlinks.home a.id y hy hid
            rw [hlinks.once _ _ _ hpe hentry] at hp
            exact hkept y hy hp
        refine .rewrite hid hslot (hlinks.dirs _ _ hentry) hentry (fun y hy => ?_) rfl rfl
          (fun j hj => .inr hj) fun y hy m => ?_
        · rw [(hf.old y hy).1, hk]
        · obtain ⟨hky, hsy⟩ := hf.old y hy
          have hw : x.weight m = y.weight m := by
            cases kind <;> cases m <;> simp_all [Node.weight]
          dsimp only
          rw [hw, add_sub_cancel_right]
    · cases h
      exact ⟨rfl, hk, hsize, hrev, rfl⟩

end Update

/-! ## Directories and symbolic links -/

section Create

variable {a : CreateArgs} {s : Store} {H : Habits Id Name} {name : Name} {kind : Kind} {t : Token}

/-- The slot of a created directory or link: its name has been through JSON. -/
def CreateArgs.slot (a : CreateArgs) : Id × Name := (a.parent, a.fields.viaJson.name.getD [])

theorem treeOf_createMetadataWrite (a : CreateArgs) (s : Store) : treeOf (createMetadataWrite a s) =
      { node := update (treeOf s).node a.id ((s.fields a.id).merge a.fields.viaJson).node
        entry := update (treeOf s).entry a.slot (some a.id)
        filled := (treeOf s).filled
        books := (Info.created s.counters a.fields.type).measure } := by
  unfold createMetadataWrite
  extract_lets after s₁ s₂
  have h₂ : treeOf { s₂ with rootDirty := true } = { treeOf s₁ with
      books := (Info.created s₁.counters after.type).measure } := rfl
  have h₁ : treeOf s₁ = { treeOf s with
      node := update (treeOf s).node a.id ((s.fields a.id).merge after).node
      entry := update (treeOf s).entry a.slot (some a.id) } := by
    dsimp only [s₁]
    rw [treeOf_hset_beside _ _ {}, treeOf_link, treeOf_hset]
    rfl
  rw [h₂, h₁]
  rfl

/-- **A creation places a new inode in a free slot.** -/
theorem createMetadata_step (hroot : a.id ≠ rootInodeID) (hdir : (treeOf s).IsDir a.parent)
    (hnew : (treeOf s).node a.id = none) (hunlinked : ∀ p, (treeOf s).entry p ≠ some a.id)
    (hfree : (treeOf s).entry a.slot = none) (htype : a.fields.type = some kind)
    (hkind : kind = .dir ∨ kind = .symlink) (hparent : a.fields.parent = some a.parent)
    (hname : a.fields.name = some name) (hrev : a.fields.revision = some t) :
    ∃ x, Step rootInodeID H (treeOf s) (some (a.id, x)) (treeOf (createMetadataWrite a s)) ∧
      x.kind = kind ∧ x.revision = t := by
  obtain ⟨x, hx, hk, hr, hslot⟩ : ∃ x, ((s.fields a.id).merge a.fields.viaJson).node = some x ∧
      x.kind = kind ∧ x.revision = t ∧ x.slot = some a.slot := by
    simp [InodeHash.node, InodeHash.merge, InodeHash.viaJson, htype, hparent, hname, hrev,
      CreateArgs.slot]
  rw [treeOf_createMetadataWrite, hx]
  refine ⟨x, .create hroot hslot hdir hnew hunlinked hfree rfl rfl (fun j hj => .inr hj)
    fun m => ?_, hk, hr⟩
  rw [htype]
  obtain rfl | rfl := hkind
  · cases m <;> simp [Info.created, Info.measure, treeOf, Node.weight, hk]
  · cases m <;> simp [Info.created, Info.measure, treeOf, Node.weight, hk]

end Create

/-! ## The root -/

/-- **A new root**, and with it new counters. A hash that was there keeps its revision. -/
theorem createRoot_step {H : Habits Id Name} (hH : H.resets) (now : ℤ) (w : World) :
    ∃ x, Step rootInodeID H (treeOf w.toStore) (some (rootInodeID, x))
        (treeOf (createRootWrite now w).toStore) ∧
      x.kind = .dir ∧ x.revision = w.revision rootInodeID := by
  have hrev : (w.fields rootInodeID).revision.getD 0 = w.revision rootInodeID := by
    cases h : w.inode rootInodeID <;> simp [Store.fields, Store.revision, h]
  unfold createRootWrite
  extract_lets root s₁
  obtain ⟨x, hx, hk, hr⟩ : ∃ x, ((w.fields rootInodeID).merge root).node = some x ∧
      x.kind = .dir ∧ x.revision = w.revision rootInodeID := by
    simp [InodeHash.node, InodeHash.merge, root, hrev]
  have hnode : (treeOf s₁).node = update (treeOf w.toStore).node rootInodeID (some x) := by
    rw [← hx]
    exact congrArg LinkTree.node (treeOf_hset w.toStore rootInodeID root)
  refine ⟨x, .root ⟨hk, fun j => ?_, fun _ => rfl, fun _ h => h, .inl hH⟩, hk, hr⟩
  rw [← update_apply, ← hnode]
  rfl

/-! ## Rename -/

section Rename

variable {a : RenameArgs} {s : Store} {H : Habits Id Name} {y : Node Id Name}

/-- The slot a rename takes its inode from. -/
def RenameArgs.source (a : RenameArgs) : Id × Name := (a.oldParent, a.oldName)

/-- The slot a rename puts its inode in. -/
def RenameArgs.target (a : RenameArgs) : Id × Name := (a.newParent, a.newName)

/-- The inode a rename leaves. -/
def RenameArgs.node (a : RenameArgs) (y : Node Id Name) : Node Id Name :=
  { y with slot := some a.target, revision := a.revision }

/-- The writes of a rename before the replaced inode goes. -/
def renameMoves (a : RenameArgs) (s : Store) : Store :=
  ((((s.unlink a.oldParent a.oldName).link a.newParent a.newName a.id).hset a.id
    (renamedFields a)).hset a.oldParent (touched a.ctimeMs)).hset a.newParent (touched a.ctimeMs)

theorem treeOf_renameMoves (hy : (treeOf s).node a.id = some y) :
    treeOf (renameMoves a s) = { treeOf s with
      node := update (treeOf s).node a.id (some (a.node y))
      entry := update (update (treeOf s).entry a.source none) a.target
        (some a.id) } := by
  have hnode : ((s.fields a.id).merge (renamedFields a)).node = some (a.node y) := by
    rw [← fields_node] at hy
    obtain ⟨k, hk, rfl⟩ := map_eq_some_iff.mp hy
    simp [InodeHash.node, InodeHash.merge, renamedFields, hk, RenameArgs.node, RenameArgs.target]
  unfold renameMoves
  rw [treeOf_hset_beside _ _ {},
    treeOf_hset_beside _ _ {}, treeOf_hset, treeOf_link, treeOf_unlink,
    ← hnode]
  rfl

theorem treeOf_renameMetadataWrite_free (a : RenameArgs) (s : Store) :
    treeOf (renameMetadataWrite a none s) = treeOf (renameMoves a s) := rfl

theorem treeOf_renameMetadataWrite_replace (a : RenameArgs) (s : Store) (v : Id)
    (kind : Option Kind) (size : ℤ) : treeOf (renameMetadataWrite a (some (v, kind, size)) s) =
      { node := update (treeOf (renameMoves a s)).node v none
        entry := fun p => if p.1 = v then none else (treeOf (renameMoves a s)).entry p
        filled := fun j => if j = v then False else (treeOf s).filled j
        books := ((s.counters.forget kind).release kind size).measure } := by
  have h : treeOf (renameMetadataWrite a (some (v, kind, size)) s) =
      treeOf (((renameMoves a s).del v).count fun i => (i.forget kind).release kind size) := rfl
  rw [h, treeOf_count, treeOf_del]
  rfl

/-- What a rename has found at its two slots. -/
structure RenameArgs.Ready (a : RenameArgs) (s : Store) (y : Node Id Name) : Prop where
  linked : (treeOf s).entry a.source = some a.id
  live : (treeOf s).node a.id = some y
  dir : (treeOf s).IsDir a.newParent
  empty : ∀ v, (treeOf s).entry a.target = some v → ∀ n, (treeOf s).entry (v, n) = none

/-- A rename to a free slot. -/
theorem renameMetadata_free (hlinks : (treeOf s).Linked rootInodeID) (hr : a.Ready s y)
    (hfree : (treeOf s).entry a.target = none) (hmoves : H.moves (treeOf s) a.id a.newParent) :
    Step rootInodeID H (treeOf s) (some (a.id, a.node y))
      (treeOf (renameMetadataWrite a none s)) := by
  have hroot : a.id ≠ rootInodeID := fun h => hlinks.root_free a.source (h ▸ hr.linked)
  rw [treeOf_renameMetadataWrite_free, treeOf_renameMoves hr.live]
  refine .move hroot rfl hr.dir hr.linked hr.live rfl hfree hmoves rfl rfl (fun _ h => h) fun m => ?_
  exact (add_sub_cancel_right _ _).symm

/-- A rename onto another inode. -/
theorem renameMetadata_replace {v : Id} {z : Node Id Name}
    (hlinks : (treeOf s).Linked rootInodeID) (hr : a.Ready s y) (hne : a.source ≠ a.target)
    (hv : (treeOf s).entry a.target = some v) (hz : (treeOf s).node v = some z)
    (hsize : z.kind = .file → 0 ≤ z.size) (hmoves : H.moves (treeOf s) a.id a.newParent) :
    Step rootInodeID H (treeOf s) (some (a.id, a.node y))
      (treeOf (renameMetadataWrite a (some (v, some z.kind, z.size)) s)) := by
  have hroot : a.id ≠ rootInodeID := fun h => hlinks.root_free a.source (h ▸ hr.linked)
  have hvi : v ≠ a.id := by
    rintro rfl
    exact hne (hlinks.once _ _ _ hr.linked hv)
  -- neither slot lies in the replaced inode, which has no entries
  have houtside : ∀ p, p.1 = v → (treeOf s).entry p = none := by
    rintro ⟨d, n⟩ rfl
    exact hr.empty _ hv n
  rw [treeOf_renameMetadataWrite_replace, treeOf_renameMoves hr.live]
  refine .evict (some a.source) hroot rfl hr.dir nofun
    (fun s₀ h => ?_) hv hvi hz (hr.empty v hv) (fun x hx => ?_) (fun _ => hmoves) ?_ (fun p => ?_)
    (fun j hj => ?_) fun m => ?_
  · cases h
    exact hr.linked
  · rw [hr.live] at hx
    cases hx
    rfl
  · dsimp only
    rw [update_comm hvi]
  · dsimp only
    rw [update_apply, update_apply]
    by_cases hp : p.1 = v
    · have hnone := houtside p hp
      have ht : p ≠ a.target := by
        rintro rfl
        rw [hv] at hnone
        cases hnone
      simp [hp, ht, hnone]
    · simp only [hp, if_false, Option.some.injEq, eq_comm (a := a.source)]
  · dsimp only at hj
    split_ifs at hj with hjv
    exact .inr ⟨hj, hjv⟩
  · have hw : (a.node y).weight m = y.weight m := by
      cases m <;> simp [Node.weight, RenameArgs.node]
    dsimp only
    rw [measure_release hsize, hr.live, weigh_some, hw, add_sub_cancel_right]
    rfl

/-- A rename onto the slot it starts from: the inode makes room for itself. -/
theorem renameMetadata_vanish {kind : Option Kind} (hH : H.ownSlot) (hr : a.Ready s y)
    (heq : a.source = a.target) : Step rootInodeID H (treeOf s) none
      (treeOf (renameMetadataWrite a (some (a.id, kind, size)) s)) := by
  have hempty := hr.empty a.id (heq ▸ hr.linked)
  rw [treeOf_renameMetadataWrite_replace, treeOf_renameMoves hr.live]
  refine .vanish (i := a.id) (s := a.source) ⟨hH, hr.linked, hempty, fun j => ?_, fun p => ?_⟩
  · dsimp only
    rw [update_idem, update_apply]
  · dsimp only
    by_cases hp : p.1 = a.id
    · have hnone : (treeOf s).entry p = none := by
        obtain ⟨d, n⟩ := p
        cases hp
        exact hempty n
      rw [if_pos hp, hnone]
    · rw [if_neg hp, ← heq, update_idem, update_apply]
      split_ifs with h
      · rw [h, hr.linked]
      · rfl

end Rename

/-! ## Restoring a version -/

section Restore

variable {a : RestoreArgs} {s : Store} {H : Habits Id Name} {kind : Kind} {size : ℤ}
  {current : Option Id}

/-- The slot of a restored version. -/
def RestoreArgs.slot (a : RestoreArgs) : Id × Name :=
  (a.fields.viaJson.parent.getD 0, a.fields.viaJson.name.getD [])

/-- The fields of a restored version are those of an inode of the given kind and size. -/
structure RestoreArgs.Fields (a : RestoreArgs) (kind : Kind) (size : ℤ) : Prop where
  type : a.fields.type = some kind
  size : a.fields.size = some size
  revision : a.fields.revision = some a.operation
  parent : a.fields.parent.isSome
  name : a.fields.name.isSome

/-- The inode a restore leaves. -/
def RestoreArgs.node (a : RestoreArgs) (kind : Kind) (size : ℤ) : Node Id Name :=
  ⟨kind, some a.slot, size, a.operation⟩

/-- The inodes without the one a restore replaces. -/
def withoutReplaced (s : Store) (id : Id) : Option Id → Id → Option (Node Id Name)
  | some c => if c = id then (treeOf s).node else update (treeOf s).node c none
  | none => (treeOf s).node

theorem treeOf_restoreVersionWrite (ha : a.Fields kind size) (current : Option Id)
    (d : RestoreDelta) (s : Store) : ∃ full : Prop, treeOf (restoreVersionWrite a current d s) =
      { node := update (withoutReplaced s a.id current) a.id (some (a.node kind size))
        entry := update (treeOf s).entry a.slot (some a.id)
        filled := fun j => if j = a.id then full else current ≠ some j ∧ (treeOf s).filled j
        books := Info.measure ⟨s.counters.files + d.files, s.counters.directories,
          s.counters.symlinks + d.symlinks, s.counters.totalDataBytes + d.bytes⟩ } := by
  obtain ⟨p, hp⟩ := isSome_iff_exists.mp ha.parent
  obtain ⟨n, hn⟩ := isSome_iff_exists.mp ha.name
  unfold restoreVersionWrite
  extract_lets after parent s₁ f cleared s₂ body s₃ s₄ s₅
  have hc₁ : s₁.counters = s.counters := by
    dsimp only [s₁]
    split
    · split <;> rfl
    · rfl
  have hentry₁ : (treeOf s₁).entry = (treeOf s).entry := by
    dsimp only [s₁]
    split
    · split <;> rfl
    · rfl
  have hnode₁ : (treeOf s₁).node = withoutReplaced s a.id current := by
    dsimp only [s₁, withoutReplaced]
    cases current with
    | none => rfl
    | some c =>
      dsimp only
      split
      · rfl
      · exact congrArg LinkTree.node (treeOf_setInode s c none)
  have hfilled₁ : ∀ j, j ≠ a.id → ((treeOf s₁).filled j ↔ current ≠ some j ∧ (treeOf s).filled j) := by
    intro j hj
    dsimp only [s₁]
    cases current with
    | none => simp
    | some c =>
      dsimp only
      split
      · next hc =>
        have hne : some c ≠ some j := fun h => hj (by rw [← Option.some.inj h, hc])
        simp [hne]
      · have h := congrArg (fun t => t.filled j) (treeOf_setContent s c none)
        refine (iff_of_eq h).trans ?_
        by_cases hjc : j = c
        · simp [hjc]
        · simp [hjc, Ne.symm hjc]
  have hx : (cleared.merge after).node = some (a.node kind size) := by
    simp [InodeHash.node, InodeHash.merge, after, InodeHash.viaJson, ha.type, ha.size, ha.revision,
      hp, hn, RestoreArgs.node, RestoreArgs.slot]
  have h₂ : treeOf s₂ = { treeOf s₁ with
      node := update (treeOf s₁).node a.id (some (a.node kind size)) } := by
    rw [← hx]
    exact treeOf_setInode s₁ a.id _
  have h₃ : treeOf s₃ = { treeOf s₂ with
      filled := fun j => if j = a.id then body.isSome = true else (treeOf s₂).filled j } :=
    treeOf_setContent s₂ a.id body
  have h₄ : treeOf s₄ = { treeOf s₃ with
      entry := update (treeOf s₃).entry a.slot (some a.id) } := by
    dsimp only [s₄]
    rw [treeOf_hset_beside _ _ {}, treeOf_link]
    rfl
  have h₅ : treeOf { s₅ with rootDirty := true } = { treeOf s₄ with
      books := Info.measure ⟨s₄.counters.files + d.files, s₄.counters.directories,
        s₄.counters.symlinks + d.symlinks, s₄.counters.totalDataBytes + d.bytes⟩ } := rfl
  have hc₄ : s₄.counters = s.counters := hc₁
  refine ⟨body.isSome = true, ?_⟩
  rw [h₅, hc₄, h₄, h₃, h₂, hnode₁, hentry₁]
  refine LinkTree.mk.injEq .. |>.mpr ⟨rfl, rfl, ?_, rfl⟩
  funext j
  dsimp only
  split_ifs with hj
  · rfl
  · exact propext (hfilled₁ j hj)

/-- The counters of a restore: the new inode is added, what was at the path is taken away. -/
theorem measure_restoreDelta (s : Store) (current : Option Id) (ha : a.Fields kind size) (hkind : kind ≠ .dir)
    (hold : ∀ c, current = some c → ∃ y, (treeOf s).node c = some y ∧ y.kind ≠ .dir) (i : Info)
    (m : Measure) : Info.measure ⟨i.files + (restoreDelta a s current).files, i.directories,
        i.symlinks + (restoreDelta a s current).symlinks,
        i.totalDataBytes + (restoreDelta a s current).bytes⟩ m =
      i.measure m + (a.node kind size).weight m -
        weigh (Node.weight m) (current.bind (treeOf s).node) := by
  cases current with
  | none =>
    cases kind <;> cases m <;>
      simp_all [restoreDelta, Info.measure, Node.weight, RestoreArgs.node, ha.type, ha.size]
  | some c =>
    obtain ⟨y, hy, hyd⟩ := hold c rfl
    have hk := kind_of_node hy
    have hs := size_of_node hy
    rw [bind_some, hy, weigh_some]
    cases hyk : y.kind <;> cases kind <;> cases m <;>
      simp_all [restoreDelta, Info.measure, Node.weight, RestoreArgs.node, ha.type, ha.size] <;>
      omega

/-- An inode that is not a directory has no entries. -/
theorem entry_of_not_dir {c : Id} {y : Node Id Name} (hlinks : (treeOf s).Linked rootInodeID)
    (hy : (treeOf s).node c = some y) (hyd : y.kind ≠ .dir) (n : Name) :
    (treeOf s).entry (c, n) = none := by
  cases he : (treeOf s).entry (c, n) with
  | none => rfl
  | some j =>
    obtain ⟨z, hz, hzd⟩ := hlinks.dirs _ _ he
    rw [hy] at hz
    cases hz
    exact absurd hzd hyd

/-- **A restore places its inode**, and the inode at the path makes room if it is another one. -/
theorem restoreVersion_step {d : RestoreDelta} (hlinks : (treeOf s).Linked rootInodeID)
    (ha : a.Fields kind size) (hroot : a.id ≠ rootInodeID) (hdir : (treeOf s).IsDir a.slot.1)
    (hcur : (treeOf s).entry a.slot = current)
    (hold : ∀ c, current = some c → ∃ y, (treeOf s).node c = some y ∧ y.kind ≠ .dir)
    (hsame : current = some a.id → ∀ y, (treeOf s).node a.id = some y → y.kind = kind)
    (hnew : current ≠ some a.id → (treeOf s).node a.id = none ∧ ∀ p, (treeOf s).entry p ≠ some a.id)
    (hd : ∀ (i : Info) (m : Measure), Info.measure ⟨i.files + d.files, i.directories,
        i.symlinks + d.symlinks, i.totalDataBytes + d.bytes⟩ m =
      i.measure m + (a.node kind size).weight m -
        weigh (Node.weight m) (current.bind (treeOf s).node)) :
    Step rootInodeID H (treeOf s) (some (a.id, a.node kind size))
      (treeOf (restoreVersionWrite a current d s)) := by
  obtain ⟨full, htree⟩ := treeOf_restoreVersionWrite ha current d s
  rw [htree]
  have hfilled : ∀ j, (if j = a.id then full else current ≠ some j ∧ (treeOf s).filled j) →
      j = a.id ∨ current ≠ some j ∧ (treeOf s).filled j := by
    intro j hj
    split_ifs at hj with hji
    · exact .inl hji
    · exact .inr hj
  cases current with
  | none =>
    obtain ⟨hnone, hunlinked⟩ := hnew (by simp)
    refine .create hroot rfl hdir hnone hunlinked hcur rfl rfl
      (fun j hj => (hfilled j hj).imp_right And.right) fun m => ?_
    have h := hd s.counters m
    rw [bind_none, weigh_none, sub_zero] at h
    exact h
  | some c =>
    obtain ⟨y, hy, hyd⟩ := hold c rfl
    by_cases hc : c = a.id
    · subst hc
      refine .rewrite hroot rfl hdir hcur (hsame rfl) ?_ ?_
        (fun j hj => (hfilled j hj).imp_right And.right) fun z hz m => ?_
      · simp [withoutReplaced]
      · dsimp only
        rw [← hcur, update_eq_self]
      · have h := hd s.counters m
        rw [bind_some, hz, weigh_some] at h
        exact h
    · obtain ⟨hnone, hunlinked⟩ := hnew (by simpa using hc)
      refine .evict none hroot rfl hdir (fun _ => ⟨hnone, hunlinked⟩)
        nofun hcur hc hy (entry_of_not_dir hlinks hy hyd) (fun z hz => ?_)
        nofun ?_ (fun p => ?_) (fun j hj => ?_) fun m => ?_
      · rw [hnone] at hz
        cases hz
      · simp [withoutReplaced, hc]
      · dsimp only
        rw [update_apply]
        simp
      · exact (hfilled j hj).imp_right fun h => ⟨h.2, fun hjc => h.1 (by rw [hjc])⟩
      · have h := hd s.counters m
        rw [bind_some, hy, weigh_some] at h
        rw [hnone, weigh_none, sub_zero]
        exact h

end Restore

end Client

end Afs
