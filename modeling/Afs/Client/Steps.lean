import Afs.Client.Ledger

/-!
# Justified commands are steps of the tree

A publication is computed from what its operation has read, and runs on whatever the store holds
by then. The checks of the script, the links of the tree and the ledger together leave one
possibility for each: the step of the tree that the publication is meant to be.

`Ledger.exchange` is the result: a justified command keeps the ledger, answers as its operation
expects, and takes the tree one step on.
-/

namespace Afs.Client

open History LinkTree Option

/-! ## Publications -/

section Outcome

variable {w w' : World} {passed : Prop} {write : Store → Store} {H : Habits Id Name}
  {P : (Id → Option ContentRef) → Option (Id × Node Id Name) → Prop}

theorem refOf_hset {s : Store} {f : InodeHash} (hf : f.contentRef = none) (id : Id) :
    refOf (s.hset id f) = refOf s := by
  funext j
  by_cases hj : j = id
  · subst hj
    simp [refOf, Store.fields, Store.hset, InodeHash.merge, hf]
  · simp [refOf, Store.fields, Store.hset, hj]

theorem refOf_applyCapture (s : Store) (cap : Captured) : refOf (applyCapture s cap) = refOf s :=
  applyCapture_rec (R := fun s s' => refOf s' = refOf s) (fun _ => rfl)
    (fun _ _ _ h h' => h'.trans h) (fun _ id _ hf => refOf_hset hf.contentRef id) (fun _ _ => rfl) s cap

theorem refOf_announce (s : Store) (m : Option Message) : refOf (announce s m) = refOf s := by
  cases m <;> rfl

/-- A rename keeps the form of what it moves. -/
theorem refOf_renameMetadataWrite {s : Store} (a : RenameArgs)
    {replaced : Option (Id × Option Kind × ℤ)} (hne : ∀ r, replaced = some r → a.id ≠ r.1) :
    refOf (renameMetadataWrite a replaced s) a.id = refOf s a.id := by
  let linked := (s.unlink a.oldParent a.oldName).link a.newParent a.newName a.id
  have hmoved : refOf (((linked.hset a.id (renamedFields a)).hset a.oldParent
      (touched a.ctimeMs)).hset a.newParent (touched a.ctimeMs)) = refOf s := by
    rw [refOf_hset rfl, refOf_hset rfl, refOf_hset rfl]
    rfl
  cases replaced with
  | none => exact congrFun hmoved a.id
  | some r =>
    have hdel : ∀ s : Store, refOf (s.del r.1) a.id = refOf s a.id := fun s => by
      simp [refOf, Store.fields, Store.del, hne r rfl]
    exact (hdel _).trans (congrFun hmoved a.id)

/-- A publication is a step if its writes are one on every store with the same tree and the same
forms of content. -/
theorem Outcome.step (h : Outcome w passed write w') (hnone : ∀ r, P r none)
    (hdone : passed → ∀ s, treeOf s = treeOf w.toStore → refOf s = refOf w.toStore →
      ∃ new, Step rootInodeID H (treeOf s) new (treeOf (write s)) ∧ P (refOf (write s)) new) :
    ∃ new, Step rootInodeID H (treeOf w.toStore) new (treeOf w'.toStore) ∧
      P (refOf w'.toStore) new := by
  cases h with
  | same => exact ⟨none, .stay, hnone _⟩
  | torn cap hp =>
    refine ⟨none, ?_, hnone _⟩
    dsimp only
    rw [treeOf_applyCapture]
    exact .stay
  | done cap m hp =>
    obtain ⟨new, hstep, hnew⟩ := hdone hp (applyCapture w.toStore cap) (treeOf_applyCapture _ _)
      (refOf_applyCapture _ _)
    refine ⟨new, ?_, ?_⟩
    · dsimp only
      rw [treeOf_announce]
      rwa [treeOf_applyCapture] at hstep
    · dsimp only
      rwa [refOf_announce]

theorem Outcome.hashes {t : Option Token} (h : Outcome w passed write w')
    (hw : passed → ∀ s, HashSteps t s (write s)) : HashSteps t w.toStore w'.toStore := by
  cases h with
  | same => exact .of_inode rfl
  | torn cap hp => exact .applyCapture cap
  | done cap m hp =>
    have hcap : HashSteps t w.toStore (applyCapture w.toStore cap) := .applyCapture cap
    refine (hcap.trans (hw hp _)).trans ?_
    cases m <;> exact .of_inode rfl

end Outcome

variable {id : Id} {y : Node Id Name} {d : InodeData}

section Publications

variable {L : Set Claim} {w w' : World} {mem : ℕ → Option Memory} {i : ℕ} {h : Memory}
  {H : Habits Id Name} {g : Guard} {s : Store}

section

variable (hL : Coherent L) (hsh : Shows L w) (hy : (treeOf w.toStore).node id = some y)

include hL hsh hy

/-- What the ledger knows about the inode at an identity. -/
theorem Shows.kind {k : Claim} (hk : k ∈ L) (hid : k.id = id) : y.kind = k.kind :=
  hL.kind _ (hsh.node id y hy) k hk hid.symm

theorem Shows.nonneg (hfile : y.kind = .file) : 0 ≤ y.size := by
  have h := hL.nonneg _ (hsh.node id y hy)
  simpa [nodeClaim, Claim.of, hfile] using h

omit hL hsh hy in
/-- An identity the ledger does not know is nowhere in the tree. -/
theorem Shows.fresh (hsh : Shows L w) (hid : ∀ k ∈ L, k.id ≠ id) :
    (treeOf w.toStore).node id = none ∧ ∀ p, (treeOf w.toStore).entry p ≠ some id := by
  refine ⟨?_, fun p hp => ?_⟩
  · cases hy : (treeOf w.toStore).node id with
    | none => rfl
    | some y => exact absurd rfl (hid _ (hsh.node id y hy))
  · obtain ⟨k, hk, hkid⟩ := hsh.entry p id hp
    exact hid k hk hkid

omit hL hsh hy in
/-- The size of a hash is that of the inode, and none where there is no inode. -/
theorem Shows.size_eq (hsh : Shows L w) (id : Id) :
    w.size id = weigh Node.size ((treeOf w.toStore).node id) := by
  cases hy : (treeOf w.toStore).node id with
  | some y => exact size_of_node hy
  | none =>
    have hkind := node_eq_none_iff.mp hy
    cases hf : w.inode id with
    | none => simp [Store.size, hf]
    | some f =>
      have htype : f.type = none := by simpa [Store.kind, hf] using hkind
      simp [Store.size, hf, hsh.tidy id f hf htype]

/-- An inode at the revision an operation has read is the one it has read. -/
theorem Shows.same (hd : claimOf d ∈ L) (hid : d.id = id) (hrev : w.revision id = d.revision) :
    y.kind = d.type ∧ (d.type = .file → y.size = d.size ∧ refOf w.toStore id = d.contentRef) := by
  have hk := hsh.node id y hy
  have hkind : y.kind = d.type := hL.kind _ hk _ hd hid.symm
  refine ⟨hkind, fun hfile => ?_⟩
  have hr : y.revision = d.revision := (revision_of_node hy).symm.trans hrev
  have hsize := hL.size _ hk _ hd hid.symm hr
  have href := hL.ref _ hk _ hd hid.symm hr
  exact ⟨by simpa [nodeClaim, claimOf, Claim.of, hkind, hfile] using hsize,
    by simpa [nodeClaim, claimOf, Claim.of, hkind, hfile] using href⟩

end

/-- A publication is a step that writes what its command stands for, and no revision but its own. -/
structure Lawful (H : Habits Id Name) (h : Memory) (c : Cmd) (w w' : World) : Prop where
  step : ∃ new, Step rootInodeID H (treeOf w.toStore) new (treeOf w'.toStore) ∧
    ∀ j x, new = some (j, x) → Backed h c (nodeClaim (refOf w'.toStore j) j x)
  hashes : HashSteps c.token w.toStore w'.toStore
  side : Side w w'

theorem Outcome.lawful {c : Cmd} {passed : Prop} {write : Store → Store}
    (ho : Outcome w passed write w') (hhash : passed → ∀ s, HashSteps c.token s (write s))
    (hnext : ∀ s, (write s).nextInode = s.nextInode)
    (hdone : passed → ∀ s, treeOf s = treeOf w.toStore → refOf s = refOf w.toStore →
      ∃ new, Step rootInodeID H (treeOf s) new (treeOf (write s)) ∧
        ∀ j x, new = some (j, x) → Backed h c (nodeClaim (refOf (write s) j) j x)) :
    Lawful H h c w w' where
  step := ho.step (P := fun r new => ∀ j x, new = some (j, x) → Backed h c (nodeClaim (r j) j x))
    nofun hdone
  hashes := ho.hashes hhash
  side := ho.side hnext

/-- Two ways to the same claim. -/
theorem claim_eq {revision : Rev} {x : Node Id Name} {kind : Kind} {size : ℤ}
    {r ref : Option ContentRef} (hk : x.kind = kind) (hs : kind = .file → x.size = size ∧ r = ref)
    (hr : x.revision = revision) : nodeClaim r id x = .of id revision kind size ref := by
  unfold nodeClaim Claim.of
  rw [hk, hr]
  by_cases hfile : kind = .file
  · rw [(hs hfile).1, (hs hfile).2]
  · rw [if_neg hfile, if_neg hfile, if_neg hfile, if_neg hfile]

section

variable (hL : Ledger L w mem)
  (hi : mem i = some h)
  (hlinks : (treeOf w.toStore).Linked rootInodeID)

include hL hi hlinks

theorem publishFile_lawful {a : PublishArgs} (hj : Justified h (.publishFile a))
    (ho : Outcome w (publishFileCheck g a w.toStore = none) (publishFileWrite a (w.size a.id)) w') :
    Lawful H h (.publishFile a) w w' := by
  obtain ⟨-, -, -, ⟨h₁, h₂, h₃, h₄⟩, href, hnew, hold⟩ := hj
  have ha : a.Fields := ⟨h₁, h₂, h₃, h₄⟩
  have hs := hL.supplied i h hi
  refine ho.lawful (fun _ s => hashSteps_publishFileWrite ha)
    (nextInode_publishFileWrite a _) fun hcheck s htree _ => ?_
  have hp := publishFileCheck_passed hcheck
  have hfresh : a.create = true → (treeOf w.toStore).node a.id = none ∧
      (∀ p, (treeOf w.toStore).entry p ≠ some a.id) ∧
      (treeOf w.toStore).entry (a.parent, a.name) = none := by
    intro hc
    obtain ⟨hnone, hentry⟩ := hL.shows.fresh (hs.vacant a.id (hnew hc))
    exact ⟨hnone, hentry, hp.free hc⟩
  have hlinked : a.create = false → (treeOf w.toStore).entry (a.parent, a.name) = some a.id :=
    fun hc => (hp.linked hc).1
  have hroot : a.id ≠ rootInodeID := by
    cases hc : a.create with
    | true => exact (hs.allocated a.id (allocated_iff.mpr (hnew hc).1)).2.ne'
    | false => exact fun hid => hlinks.root_free _ (hid ▸ hlinked hc)
  have hkind : ∀ y, (treeOf w.toStore).node a.id = some y → y.kind = .file := by
    intro y hy
    cases hc : a.create with
    | true =>
      rw [(hfresh hc).1] at hy
      cases hy
    | false =>
      obtain ⟨d, hd, hid, -, hfile⟩ := hold hc
      rw [hL.shows.kind hL.coherent hy ((hL.faithful i h hi).seen d hd) hid]
      exact hfile
  refine ⟨some (a.id, a.node), publishFile_step ha hroot ?_ ?_ ?_ ?_ ?_, fun j x hx => ?_⟩
  · rw [htree]
    exact isDir_of_kind hp.parent
  · rwa [htree]
  · rwa [htree]
  · rwa [htree]
  · rw [htree]
    exact hL.shows.size_eq a.id
  · cases hx
    have hversion := fileVersion_publishFileWrite (s := s) ha (w.size a.id) a.id
    rw [if_pos rfl] at hversion
    obtain ⟨r, hr⟩ := isSome_iff_exists.mp href
    refine claim_eq rfl (fun _ => ⟨rfl, ?_⟩) rfl
    rw [refOf_of_version hversion, PublishArgs.version, hr]
    rfl

omit hL hi hlinks in
theorem deleteInode_lawful {a : DeleteArgs} (hL : Ledger L w mem)
    (hlinks : (treeOf w.toStore).Linked rootInodeID)
    (ho : Outcome w (deleteInodeCheck g a w.toStore = none)
      (deleteInodeWrite a (w.kind a.id) (w.size a.id)) w') :
    (∃ new, Step rootInodeID H (treeOf w.toStore) new (treeOf w'.toStore) ∧ new = none) ∧
    HashSteps none w.toStore w'.toStore ∧ Side w w' := by
  refine ⟨ho.step (P := fun _ new => new = none) (fun _ => rfl) fun hcheck s htree _ => ?_,
    ho.hashes fun _ s => hashSteps_deleteInodeWrite a, ho.side fun _ => rfl⟩
  have hp := deleteInodeCheck_passed hcheck
  refine ⟨none, deleteInode_step ?_ ?_ ?_, rfl⟩
  · rw [htree]
    exact hp.linked
  · rw [htree]
    intro n j hj
    obtain ⟨y, hy, hdir⟩ := hlinks.dirs _ _ hj
    -- the script has looked at every entry of the directory
    have hchild := hp.childless (by rw [kind_of_node hy, hdir])
    rw [hasChildren, List.any_eq_false] at hchild
    have hmem : (⟨n, j⟩ : Sigma fun _ : Name => Id) ∈ (w.dirents a.id).entries :=
      AList.mem_lookup_iff.mp hj
    have hinode : w.inode j = none := by simpa using hchild _ hmem
    simp [treeOf, hinode]
  · rw [htree]
    intro y hy
    exact ⟨kind_of_node hy, size_of_node hy, hL.shows.nonneg hL.coherent hy⟩

theorem updateInode_lawful {a : UpdateArgs} (hj : Justified h (.updateInode a))
    (ho : Outcome w (updateInodeCheck g a w.toStore = none) (updateInodeWrite a) w') :
    Lawful H h (.updateInode a) w w' := by
  obtain ⟨-, ⟨d, hd, hid, hrev, htype, hsize, href⟩, hparent, hname, hgiven, hsized, -⟩ := hj
  have hk := (hL.faithful i h hi).seen d hd
  have hformed : a.fields.type = none → a.fields.contentRef = none := fun hnone => by
    rw [href, hnone]
    rfl
  refine ho.lawful (fun _ s => hashSteps_updateInodeWrite hsized hformed)
    (fun _ => rfl) fun hcheck s htree hrefs => ?_
  have hp := updateInodeCheck_passed hcheck
  have hexpected : w.revision a.id = d.revision := hp.expected.trans hrev.symm
  have hfits : a.Fits s d.type d.size := by
    refine ⟨fun y hy => ?_, htype, hsize, hparent, hname, hgiven, hsized⟩
    rw [htree] at hy
    obtain ⟨hkind, hfile⟩ := hL.shows.same hL.coherent hy hk hid hexpected
    exact ⟨hkind, fun hf => (hfile hf).1⟩
  obtain ⟨new, hstep, hnew⟩ := updateInode_step (H := H) (htree ▸ hlinks) hfits
    (fun hroot => hL.coherent.root _ hk (hid.trans hroot)) fun hne => by
      rw [htree]
      exact hp.linked hne
  refine ⟨new, hstep, fun j x hx => ?_⟩
  obtain ⟨rfl, hkind, hsz, hr, hnode⟩ := hnew j x hx
  refine ⟨d, hd, hid, hrev, claim_eq hkind (fun hfile => ⟨hsz hfile, ?_⟩) hr⟩
  have hwritten : refOf (updateInodeWrite a s) a.id =
      (a.fields.contentRef <|> refOf w.toStore a.id) := by
    rw [← hrefs]
    simp [refOf, Store.fields, inode_updateInodeWrite, InodeHash.merge]
  rw [hwritten, href]
  cases hy : (treeOf w.toStore).node a.id with
  | some y =>
    obtain ⟨-, hsame⟩ := hL.shows.same hL.coherent hy hk hid hexpected
    rw [(hsame hfile).2]
    split_ifs
    · cases d.contentRef <;> rfl
    · rfl
  | none =>
    -- the hash was no inode, so the update has given it its type
    have htyped : a.fields.type.isSome := by
      rw [← htree, ← fields_node] at hy
      have hold : (s.fields a.id).type = none := by simpa [InodeHash.node] using hy
      cases ht : a.fields.type with
      | none => simp [updatedHash, InodeHash.node, InodeHash.merge, ht, hold] at hnode
      | some k => rfl
    rw [if_pos htyped]
    cases hr : d.contentRef with
    | some r => rfl
    | none =>
      have hstray : refOf w.toStore a.id = none := by
        by_contra hne
        cases hf : w.inode a.id with
        | none => exact hne (by simp [refOf, Store.fields, hf])
        | some f =>
          have hfields : refOf w.toStore a.id = f.contentRef := by simp [refOf, Store.fields, hf]
          have htype : f.type = none := by
            simpa [Store.kind, hf] using node_eq_none_iff.mp hy
          have hsome := hL.shows.formed a.id f hf htype
            (isSome_iff_ne_none.mpr (hfields ▸ hne)) _ hk hid hfile
          simp [claimOf, Claim.of, hr] at hsome
      rw [hstray]
      rfl

omit hL hi hlinks in
theorem createMetadata_lawful {name : Name} {a : CreateArgs} (hL : Ledger L w mem)
    (hi : mem i = some h) (hj : Justified h (.createMetadata name a))
    (ho : Outcome w (createMetadataCheck a w.toStore = none) (createMetadataWrite a) w') :
    Lawful H h (.createMetadata name a) w w' := by
  obtain ⟨⟨t, hrev, -⟩, hv, hkind, hparent, hname, -⟩ := hj
  have hs := hL.supplied i h hi
  obtain ⟨kind, htype, hdir⟩ : ∃ kind, a.fields.type = some kind ∧
      (kind = .dir ∨ kind = .symlink) := by
    obtain hk | hk := hkind
    · exact ⟨_, hk, .inl rfl⟩
    · exact ⟨_, hk, .inr rfl⟩
  refine ho.lawful (fun _ s => hashSteps_createMetadataWrite (by simp [htype]))
    (fun _ => rfl) fun hcheck s htree _ => ?_
  have hp := createMetadataCheck_passed hcheck
  obtain ⟨hnone, hentry⟩ := hL.shows.fresh (hs.vacant a.id hv)
  obtain ⟨x, hstep, hk, hr⟩ := createMetadata_step (H := H) (s := s)
    (hs.allocated a.id (allocated_iff.mpr hv.1)).2.ne' (by rw [htree]; exact isDir_of_kind hp.parent)
    (by rwa [htree]) (by rwa [htree]) (by rw [htree]; exact hp.free) htype hdir hparent hname hrev
  refine ⟨_, hstep, fun j y hy => ?_⟩
  cases hy
  refine ⟨t, kind, hrev, htype, claim_eq hk (fun hfile => ?_) hr⟩
  obtain rfl | rfl := hdir <;> cases hfile

/-- What `renamePath` has found under its watch when it runs the script. -/
structure RenameGuardPassed (a : RenameArgs) (replaced : Option (Id × Option InodeData))
    (s : Store) : Prop where
  live : (s.kind a.id).isSome
  destination : s.lookup a.newParent a.newName = replaced.map Prod.fst
  found : ∀ v r, replaced = some (v, r) → ∃ d, r = some d ∧
    (d.type = .dir → (s.dirents d.id).entries = [])

variable {replaced : Option (Id × Option InodeData)}

omit hL hi hlinks in
theorem renameGuard_passed {a : RenameArgs} {noReplace : Bool} {watched : Option Id}
    (hg : renameGuard a replaced noReplace watched s = .ok ()) : RenameGuardPassed a replaced s := by
  unfold renameGuard at hg
  split at hg
  · cases hg
  split at hg
  · cases hg
  next src hsrc =>
  split at hg
  · cases hg
  next hid =>
  split at hg
  · cases hg
  next cur hcur =>
  split at hg
  · cases hg
  split at hg
  · cases hg
  next hdest =>
  have hlive : (s.kind a.id).isSome := by
    obtain rfl : src = a.id := by simpa using hid
    obtain ⟨f, hf, hd⟩ := bind_eq_some_iff.mp hcur
    obtain ⟨k, hk, -⟩ := map_eq_some_iff.mp hd
    simp [Store.kind, hf, hk]
  refine ⟨hlive, by simpa using hdest, fun v r hr => ?_⟩
  subst hr
  cases r with
  | none => cases hg
  | some d =>
    refine ⟨d, rfl, fun hdir => ?_⟩
    dsimp only at hg
    by_contra hne
    simp only [hdir, hne, ne_eq, not_true_eq_false, and_false, not_false_eq_true, true_and,
      and_true, if_true, if_false] at hg
    split_ifs at hg

/-- **A rename is the step it was meant to be**: a move, or, on the slot it starts from, a loss. -/
theorem renameMetadata_lawful {a : RenameArgs} {noReplace : Bool} {watched : Option Id}
    (hj : Justified h (.renameMetadata a replaced noReplace watched))
    (hown : renameGuard a replaced noReplace watched w.toStore = .ok () →
      renameMetadataCheck a w.toStore = none → a.source = a.target → H.ownSlot)
    (hmoves : renameGuard a replaced noReplace watched w.toStore = .ok () →
      renameMetadataCheck a w.toStore = none → H.moves (treeOf w.toStore) a.id a.newParent)
    (ho : Outcome w (renameGuard a replaced noReplace watched w.toStore = .ok () ∧
        renameMetadataCheck a w.toStore = none)
      (renameMetadataWrite a (replacedBy a w.toStore)) w') :
    Lawful H h (.renameMetadata a replaced noReplace watched) w w' := by
  obtain ⟨-, ⟨d, hd, hid, hrev, -⟩, -, hseen⟩ := hj
  have hk := (hL.faithful i h hi).seen d hd
  refine ho.lawful (fun _ s => hashSteps_renameMetadataWrite a)
    (nextInode_renameMetadataWrite a _) fun hpassed s htree hrefs => ?_
  obtain ⟨hguard, hcheck⟩ := hpassed
  have hg := renameGuard_passed hguard
  have hp := renameMetadataCheck_passed hcheck
  obtain ⟨kind, hkind⟩ := isSome_iff_exists.mp hg.live
  obtain ⟨y, hy, -⟩ := node_of_kind hkind
  have hempty : ∀ v, (treeOf w.toStore).entry a.target = some v →
      ∀ n, (treeOf w.toStore).entry (v, n) = none := by
    intro v hv n
    obtain ⟨kv, hkv⟩ := isSome_iff_exists.mp (hp.replaced v hv)
    obtain ⟨z, hz, -⟩ := node_of_kind hkv
    obtain ⟨⟨v', r⟩, hr, rfl⟩ := map_eq_some_iff.mp (hg.destination.symm.trans hv)
    obtain ⟨c, rfl, hdir⟩ := hg.found v' r hr
    obtain ⟨hc, hcid⟩ := hseen v' c hr
    have hzk : z.kind = c.type :=
      hL.shows.kind hL.coherent hz ((hL.faithful i h hi).seen c hc) hcid
    by_cases hzd : z.kind = .dir
    · have hentries := hdir (hzk ▸ hzd)
      rw [hcid] at hentries
      have hnil : w.dirents v' = ∅ := AList.ext hentries
      simp [treeOf, Store.lookup, hnil]
    · exact entry_of_not_dir hlinks hz hzd n
  have hready : a.Ready s y := by
    refine ⟨?_, ?_, ?_, ?_⟩
    · rw [htree]
      exact hp.linked
    · rw [htree]
      exact hy
    · rw [htree]
      exact isDir_of_kind hp.newParent
    · rw [htree]
      exact hempty
  have hlinks' : (treeOf s).Linked rootInodeID := htree ▸ hlinks
  have hmv : H.moves (treeOf s) a.id a.newParent := htree ▸ hmoves hguard hcheck
  have hclaim : ∀ rep, (∀ r, rep = some r → a.id ≠ r.1) →
      Backed h (.renameMetadata a replaced noReplace watched)
        (nodeClaim (refOf (renameMetadataWrite a rep s) a.id) a.id (a.node y)) := by
    intro rep hne
    obtain ⟨hyk, hys⟩ := hL.shows.same hL.coherent hy hk hid (hp.expected.trans hrev.symm)
    rw [refOf_renameMetadataWrite a hne, hrefs]
    exact ⟨d, hd, hid, hrev, claim_eq hyk hys rfl⟩
  cases hv : (treeOf w.toStore).entry a.target with
  | none =>
    have hrep : replacedBy a w.toStore = none := by
      have hlook : w.lookup a.newParent a.newName = none := hv
      simp [replacedBy, hlook]
    rw [hrep]
    refine ⟨_, renameMetadata_free hlinks' hready (htree ▸ hv) hmv, fun j x hx => ?_⟩
    cases hx
    exact hclaim none (by simp)
  | some v =>
    have hlook : w.lookup a.newParent a.newName = some v := hv
    obtain ⟨kv, hkv⟩ := isSome_iff_exists.mp (hp.replaced v hv)
    obtain ⟨z, hz, -⟩ := node_of_kind hkv
    have hrep : replacedBy a w.toStore = some (v, some z.kind, z.size) := by
      rw [← kind_of_node hz, ← size_of_node hz]
      simp [replacedBy, hlook]
    rw [hrep]
    by_cases heq : a.source = a.target
    · have hva : v = a.id := by
        have hlinked : (treeOf w.toStore).entry a.target = some a.id := heq ▸ hp.linked
        exact Option.some.inj (hv.symm.trans hlinked)
      rw [hva]
      exact ⟨none, renameMetadata_vanish (hown hguard hcheck heq) hready heq, by simp⟩
    · refine ⟨_, renameMetadata_replace hlinks' hready heq (htree ▸ hv) (htree ▸ hz)
        (hL.shows.nonneg hL.coherent hz) hmv, fun j x hx => ?_⟩
      cases hx
      refine hclaim _ fun r hr => ?_
      cases hr
      rintro rfl
      exact heq (hlinks.once _ _ _ hp.linked hv)

theorem restoreVersion_lawful {a : RestoreArgs} {current : Option Id}
    (hj : Justified h (.restoreVersion a))
    (ho : Outcome w (restoreVersionCheck g a w.toStore = .ok current)
      (restoreVersionWrite a current (restoreDelta a w.toStore current)) w') :
    Lawful H h (.restoreVersion a) w w' := by
  obtain ⟨-, -, hinline, hrev, ⟨kind, size, htype, hsize, hkind, -, hsame, hnew⟩, hparent, hname⟩ := hj
  have ha : a.Fields kind size := ⟨htype, hsize, hrev, hparent, hname⟩
  have hs := hL.supplied i h hi
  refine ho.lawful (fun _ s => hashSteps_restoreVersionWrite ha)
    (nextInode_restoreVersionWrite a _ _) fun hcheck s htree _ => ?_
  have hp := restoreVersionCheck_passed hcheck
  obtain ⟨dir, hdir, hdk, hcur⟩ := hp.parent
  have hslot : a.slot = (dir, a.fields.viaJson.name.getD []) := by
    simp [RestoreArgs.slot, hdir]
  have hentry : (treeOf w.toStore).entry a.slot = current := by
    rw [hslot]
    exact hcur
  have hold : ∀ c, current = some c →
      ∃ y, (treeOf w.toStore).node c = some y ∧ y.kind ≠ .dir := by
    intro c hc
    obtain hk | hk := hp.kind c hc
    · obtain ⟨y, hy, hyk⟩ := node_of_kind hk
      exact ⟨y, hy, by simp [hyk]⟩
    · obtain ⟨y, hy, hyk⟩ := node_of_kind hk
      exact ⟨y, hy, by simp [hyk]⟩
  have hroot : a.id ≠ rootInodeID := by
    by_cases he : a.expectedId = some a.id
    · intro hid
      rw [hp.found, he, hid] at hentry
      exact hlinks.root_free _ hentry
    · exact (hs.allocated a.id (allocated_iff.mpr (hnew he).1)).2.ne'
  have hsame' : current = some a.id → ∀ y, (treeOf w.toStore).node a.id = some y → y.kind = kind := by
    intro hc y hy
    obtain ⟨d, hd, hid, hdk⟩ := hsame (hp.found ▸ hc)
    rw [hL.shows.kind hL.coherent hy ((hL.faithful i h hi).seen d hd) hid]
    exact hdk
  have hnew' : current ≠ some a.id → (treeOf w.toStore).node a.id = none ∧
      ∀ p, (treeOf w.toStore).entry p ≠ some a.id :=
    fun hc => hL.shows.fresh (hs.vacant a.id (hnew (hp.found ▸ hc)))
  have hdir' : (treeOf w.toStore).IsDir a.slot.1 := by
    rw [hslot]
    exact isDir_of_kind hdk
  rw [← htree] at hlinks hentry hold hsame' hnew' hdir'
  have hdelta := measure_restoreDelta w.toStore current ha hkind (htree ▸ hold)
  rw [← htree] at hdelta
  refine ⟨_, restoreVersion_step hlinks ha hroot hdir' hentry hold hsame' hnew' hdelta,
    fun j x hx => ?_⟩
  cases hx
  refine ⟨kind, htype, claim_eq rfl (fun hfile => ⟨by simp [hsize, RestoreArgs.node], ?_⟩) rfl⟩
  have hversion := fileVersion_restoreVersionWrite (s := s) ha hinline current
    (restoreDelta a w.toStore current) a.id
  rw [if_pos rfl, RestoreArgs.version, if_pos hfile] at hversion
  exact refOf_of_version hversion

end

end Publications

/-! ## The other commands -/

section Calm

variable {ctx : Ctx} {o : Choice} {w w' : World} {c : Cmd}

/-- The commands that publish, draw and cache nothing. -/
def Cmd.still : Cmd → Bool
  | .newOriginID => false
  | .stage _ _ => true
  | c => c.calm

/-- Nothing that operations rely on has changed. -/
structure Still (w w' : World) : Prop extends Side w w' where
  tree : treeOf w'.toStore = treeOf w.toStore
  hashes : HashSteps none w.toStore w'.toStore

theorem Still.refl (w : World) : Still w w := ⟨.refl w, rfl, .of_inode rfl⟩

theorem Aside.still (h : Aside c w w') : Still w w' where
  tokens := h.tokens
  cached := h.cached
  nextInode := h.nextInode
  tree := by simp only [treeOf, Store.lookup, Store.counters, h.inode, h.dirents, h.content, h.info]
  hashes := .of_inode h.inode

theorem effect_still (ctx : Ctx) (o : Choice) (w : World) (hc : c.still = true) :
    Still w (effect ctx o w c).2 := by
  have haside := effect_aside (c := c) ctx o w
  cases c with
  | stage t op => exact ⟨⟨rfl, rfl, rfl⟩, rfl, .of_inode rfl⟩
  | refreshPaths paths =>
    obtain h | h := effect_refreshPaths ctx o w paths
    · rw [h]
      exact .refl w
    · rw [h]
      exact ⟨⟨rfl, rfl, nextInode_refreshWrite⟩, treeOf_refreshWrite, hashSteps_refreshWrite⟩
  | _ => first | (cases hc; done) | exact (haside rfl).still

/-- A publication that was sent back has changed nothing. -/
theorem effect_idle (ctx : Ctx) (o : Choice) (w : World) (ht : c.token.isSome)
    (hidle : Event.idle ⟨c, (effect ctx o w c).1⟩ = true) : (effect ctx o w c).2 = w := by
  have hraised : ∀ {v : Reply}, v = .raised .preparationRequired → v.applied = false := by
    rintro _ rfl
    rfl
  cases c with
  | publishFile a =>
    exact mutation_kept (publishFileScript_cases _ a w).kept fun v hv =>
      hraised (by simpa [effect, hv, Event.idle] using hidle)
  | updateInode a =>
    exact mutation_kept (updateInodeScript_cases _ a w).kept fun v hv =>
      hraised (by simpa [effect, hv, Event.idle] using hidle)
  | createMetadata name a =>
    exact watch_kept createBlock_kept fun v hv =>
      hraised (by simpa [effect, hv, Event.idle] using hidle)
  | renameMetadata a replaced noReplace watched =>
    exact watch_kept renameBlock_kept fun v hv =>
      hraised (by simpa [effect, hv, Event.idle] using hidle)
  | restoreVersion a => cases hidle
  | _ => cases ht

end Calm

/-! ## Every exchange -/

/-- The command does nothing to the tree but what the habits allow. -/
structure Within (H : Habits Id Name) (c : Cmd) (w : World) : Prop where
  ownSlot : ∀ a r n wt, c = .renameMetadata a r n wt → renameGuard a r n wt w.toStore = .ok () →
    renameMetadataCheck a w.toStore = none → a.source = a.target → H.ownSlot
  moves : ∀ a r n wt, c = .renameMetadata a r n wt → renameGuard a r n wt w.toStore = .ok () →
    renameMetadataCheck a w.toStore = none → H.moves (treeOf w.toStore) a.id a.newParent
  resets : ∀ now, c = .createRoot now → H.resets

section Exchange

variable {L : Set Claim} {w w' : World} {mem : ℕ → Option Memory} {i : ℕ} {h : Memory}
  {H : Habits Id Name} {ctx : Ctx} {o : Choice} {c : Cmd} {r : Except Err (Val c)}

/-- The effect of a justified publication. -/
theorem effect_lawful (ctx : Ctx) (o : Choice) (hL : Ledger L w mem) (hi : mem i = some h)
    (hlinks : (treeOf w.toStore).Linked rootInodeID) (hj : Justified h c) (hw : Within H c w)
    (ht : c.token.isSome) : Lawful H h c w (effect ctx o w c).2 := by
  cases c with
  | publishFile a => exact publishFile_lawful hL hi hlinks hj (publishFile_outcome ctx o w a)
  | updateInode a => exact updateInode_lawful hL hi hlinks hj (updateInode_outcome ctx o w a)
  | createMetadata name a =>
    exact createMetadata_lawful hL hi hj (createMetadata_outcome ctx o w name a)
  | renameMetadata a replaced noReplace watched =>
    exact renameMetadata_lawful hL hi hlinks hj (hw.ownSlot a _ _ _ rfl) (hw.moves a _ _ _ rfl)
      (renameMetadata_outcome ctx o w a replaced noReplace watched)
  | restoreVersion a =>
    obtain ⟨current, ho⟩ := restoreVersion_outcome ctx o w a
    exact restoreVersion_lawful hL hi hlinks hj ho
  | _ => cases ht

/-- What an exchange leaves behind: a ledger that forgets nothing, a step of the tree, and no
revision but its own. -/
structure Advances (H : Habits Id Name) (L : Set Claim) (w : World) (mem : ℕ → Option Memory) (i : ℕ)
    (h : Memory) (e : Event) (w' : World) : Prop where
  ledger : ∃ L', L ⊆ L' ∧ Ledger L' w' (Function.update mem i (some (e :: h)))
  step : ∃ new, Step rootInodeID H (treeOf w.toStore) new (treeOf w'.toStore)
  hashes : HashSteps e.cmd.token w.toStore w'.toStore

section

variable (hL : Ledger L w mem) (hi : mem i = some h)

include hL hi

/-- An exchange that leaves everything as it was. -/
theorem Ledger.advances_same {e : Event} (he : e.Mild L) : Advances H L w mem i h e w :=
  ⟨⟨L, subset_rfl, hL.quiet hi he hL.shows le_rfl le_rfl fun _ _ ht => ht⟩, ⟨none, .stay⟩,
    .of_inode rfl⟩

/-- A publication: sent back, lost, or done. -/
theorem Ledger.exchange_token
    (hlinks : (treeOf w.toStore).Linked rootInodeID) (hj : Justified h c) (hw : Within H c w)
    (ht : c.token.isSome) (hexec : exec ctx o c w = (r, w')) :
    Advances H L w mem i h ⟨c, r⟩ w' := by
  obtain ⟨hreads, hroots, hdraws, halloc⟩ := of_token (e := ⟨c, r⟩) ht
  obtain ⟨k, hk⟩ := hL.makes hi hj ht
  obtain ⟨⟨new, hstep, hnew⟩, hhash, hside⟩ :=
    effect_lawful ctx o hL hi hlinks hj hw ht
  have hver := effect_versions ctx o w hj
  have hclaim : ∀ j x, new = some (j, x) →
      nodeClaim (refOf (effect ctx o w c).2.toStore j) j x = k := fun j x hx =>
    hL.coherent.backed_unique (hL.faithful i h hi).seen (hnew j x hx) hk.backed
  obtain heff | ⟨-, rfl, rfl | rfl⟩ := exec_cases hexec
  · cases hidle : Event.idle ⟨c, r⟩ with
    | true =>
      have hsame : w' = w := by
        have h := effect_idle ctx o w ht (by rw [heff]; exact hidle)
        rwa [heff] at h
      rw [hsame]
      exact hL.advances_same hi ⟨.inr hidle, fun d hd => by simp [hreads] at hd, hroots, hdraws, halloc⟩
    | false =>
      rw [heff] at hstep hhash hside hclaim hver
      exact ⟨⟨_, Set.subset_insert k L, hL.publish hi hk hidle hstep hclaim hhash hver hside⟩,
        ⟨new, hstep⟩, hhash⟩
  · exact ⟨⟨_, Set.subset_insert k L, hL.publish (H := H) hi hk rfl .stay
      nofun (.of_inode rfl) (.refl _ _) (.refl _)⟩, ⟨none, .stay⟩,
      .of_inode rfl⟩
  · exact ⟨⟨_, Set.subset_insert k L, hL.publish hi hk rfl hstep hclaim hhash hver hside⟩,
      ⟨new, hstep⟩, hhash⟩

omit hL hi in
/-- A step that writes no inode and no revision shows nothing new. -/
theorem Shows.keep (hsh : Shows L w)
    (hstep : Step rootInodeID H (treeOf w.toStore) none (treeOf w'.toStore))
    (hhash : HashSteps none w.toStore w'.toStore) (hver : VersionSteps none w.toStore w'.toStore)
    (hside : Side w w') : Shows L w' :=
  hsh.step hstep hhash hver nofun hside (Set.Subset.refl L)
    nofun hsh.token hsh.number (fun k hk hfile => .inr ⟨k, hk, rfl, hfile, rfl⟩)
    nofun

/-- A command that publishes nothing and draws nothing. -/
theorem Ledger.advances_still {e : Event}
    (he : e.Mild L) (hs : Still w w') (hver : VersionSteps none w.toStore w'.toStore) :
    Advances H L w mem i h e w' := by
  have hstep : Step rootInodeID H (treeOf w.toStore) none (treeOf w'.toStore) := by
    rw [hs.tree]
    exact .stay
  have hsh : Shows L w' := hL.shows.keep hstep hs.hashes hver hs.toSide
  refine ⟨⟨L, subset_rfl, hL.quiet hi he hsh hs.tokens.ge (by rw [hs.nextInode])
    fun j t ht => ?_⟩, ⟨none, hstep⟩, hs.hashes.weaken⟩
  exact (stored_cases hs.hashes ht).resolve_right (by simp)

theorem Ledger.exchange_deleteInode {a : DeleteArgs} {r : Except Err Reply}
    (hlinks : (treeOf w.toStore).Linked rootInodeID) (hexec : exec ctx o (.deleteInode a) w = (r, w')) :
    Advances H L w mem i h ⟨.deleteInode a, r⟩ w' := by
  have he : Event.Mild L ⟨.deleteInode a, r⟩ := by
    cases r <;> exact ⟨.inl ⟨rfl, rfl⟩, nofun, rfl, rfl, rfl⟩
  have hdone : Advances H L w mem i h ⟨.deleteInode a, r⟩ (effect ctx o w (.deleteInode a)).2 := by
    obtain ⟨⟨new, hstep, rfl⟩, hhash, hside⟩ :=
      deleteInode_lawful (H := H) hL hlinks (deleteInode_outcome ctx o w a)
    have hsh := hL.shows.keep hstep hhash
      (effect_versions (h := h) (c := .deleteInode a) ctx o w trivial) hside
    refine ⟨⟨L, subset_rfl, hL.quiet hi he hsh hside.tokens.ge (by rw [hside.nextInode])
      fun j t ht => ?_⟩, ⟨none, hstep⟩, hhash⟩
    exact (stored_cases hhash ht).resolve_right (by simp)
  obtain heff | ⟨-, -, rfl | rfl⟩ := exec_cases hexec
  · rwa [heff] at hdone
  · exact hL.advances_same hi he
  · exact hdone

theorem Ledger.exchange_createRoot {now : ℤ} {r : Except Err Unit} (hH : H.resets)
    (hexec : exec ctx o (.createRoot now) w = (r, w')) :
    Advances H L w mem i h ⟨.createRoot now, r⟩ w' := by
  have hplant : ∀ r, Advances H L w mem i h ⟨.createRoot now, r⟩ (createRootWrite now w) := by
    intro r
    obtain ⟨x, hstep, -⟩ := createRoot_step hH now w
    exact ⟨⟨_, Set.subset_union_left, hL.plant hi hH r⟩, ⟨_, hstep⟩,
      (HashSteps.hset rootInodeID (.inl rfl) (.inl rfl)).trans (.of_inode rfl)⟩
  have hfail : ∀ e, Advances H L w mem i h ⟨.createRoot now, .error e⟩ w := fun e =>
    hL.advances_same hi ⟨.inl ⟨rfl, rfl⟩, nofun, rfl, rfl, rfl⟩
  have heffect : effect ctx o w (.createRoot now) = (.error .workspaceChanged, w) ∨
      effect ctx o w (.createRoot now) = (.ok (), createRootWrite now w) := by
    simp only [effect]
    split_ifs
    · exact .inl rfl
    · exact .inr rfl
  obtain heff | ⟨-, rfl, rfl | rfl⟩ := exec_cases hexec
  · obtain he | he := heffect
    · rw [he] at heff
      cases heff
      exact hfail _
    · rw [he] at heff
      cases heff
      exact hplant _
  · exact hfail _
  · obtain he | he := heffect
    · rw [he]
      exact hfail _
    · rw [he]
      exact hplant _

theorem Ledger.exchange_newOriginID {r : Except Err Token} (hexec : exec ctx o .newOriginID w = (r, w')) :
    Admissible h .newOriginID r ∧ Advances H L w mem i h ⟨.newOriginID, r⟩ w' := by
  obtain ⟨rfl, rfl⟩ : r = .ok (w.tokens + 1) ∧ w' = { w with tokens := w.tokens + 1 } := by
    simpa [exec, Cmd.isLocal, effect, eq_comm] using hexec
  refine ⟨fun hspent => ?_, ⟨L, subset_rfl, hL.draw hi⟩, ⟨none, .stay⟩, .of_inode rfl⟩
  have hdrawn := (hL.faithful i h hi).spent _ hspent
  exact Nat.not_succ_le_self _ ((hL.supplied i h hi).drawn _ hdrawn).2

theorem Ledger.exchange_incrNextInode {r : Except Err Id} (hj : Rooted h)
    (hexec : exec ctx o .incrNextInode w = (r, w')) :
    Admissible h .incrNextInode r ∧ Advances H L w mem i h ⟨.incrNextInode, r⟩ w' := by
  have he : ∀ e, Event.Mild L ⟨.incrNextInode, .error e⟩ := fun e =>
    ⟨.inl ⟨rfl, rfl⟩, nofun, rfl, rfl, rfl⟩
  obtain heff | ⟨-, rfl, rfl | rfl⟩ := exec_cases hexec
  · cases heff
    refine ⟨⟨fun hplaced => ?_, fun d hd hid => ?_⟩, ⟨L, subset_rfl, hL.allocate hi hj⟩,
      ⟨none, .stay⟩, .of_inode rfl⟩
    · have halloc := (hL.faithful i h hi).placed _ hplaced
      exact Nat.not_succ_le_self _ ((hL.supplied i h hi).allocated _ halloc).1
    · have hnumber : d.id ≤ w.nextInode.getD 0 :=
        (hL.shows.number _ ((hL.faithful i h hi).seen d hd)).1
      exact Nat.not_succ_le_self _ (hid ▸ hnumber)
  · exact ⟨trivial, hL.advances_same hi (he _)⟩
  · exact ⟨trivial, ⟨L, subset_rfl, hL.quiet hi (he _) hL.shows.allocate le_rfl (Nat.le_succ _)
      fun j t ht => ht⟩, ⟨none, .stay⟩, .of_inode rfl⟩

theorem Ledger.exchange_cachePath {p : Path} {r : Except Err Unit} (hj : Known h (claimOf d))
    (hexec : exec ctx o (.cachePath p d) w = (r, w')) :
    Advances H L w mem i h ⟨.cachePath p d, r⟩ w' := by
  obtain ⟨rfl, rfl⟩ : r = .ok () ∧
      w' = { w with cached := (p, { d with content := [] }) :: w.cached } := by
    simpa [exec, Cmd.isLocal, effect, eq_comm] using hexec
  have hsh : Shows L { w with cached := (p, { d with content := [] }) :: w.cached } :=
    { hL.shows with
      cached := fun e he => by
        obtain rfl | he := List.mem_cons.mp he
        · exact (hL.faithful i h hi).known hL.coherent hj
        · exact hL.shows.cached e he }
  exact ⟨⟨L, subset_rfl, hL.quiet hi ⟨.inl ⟨rfl, rfl⟩, fun _ h => (by cases h), rfl, rfl, rfl⟩ hsh
    le_rfl le_rfl fun j t ht => ht⟩, ⟨none, .stay⟩, .of_inode rfl⟩

omit hL hi in
/-- A loaded inode is one of the tree. -/
theorem Shows.loaded (hsh : Shows L w) (hd : loadInodeByID w.toStore id = some d) :
    d.id = id ∧ claimOf d ∈ L := by
  obtain ⟨f, hf, hd⟩ := bind_eq_some_iff.mp hd
  obtain ⟨kind, hkind, rfl⟩ := map_eq_some_iff.mp hd
  refine ⟨rfl, ?_⟩
  have hnode := hsh.node id
  have href : refOf w.toStore id = f.contentRef := by simp [refOf, Store.fields, hf]
  simp only [treeOf, hf, bind_some, InodeHash.node, hkind, map_some, href] at hnode
  exact hnode _ rfl

omit hL hi in
theorem claimOf_nonneg (hL : Coherent L) (hd : claimOf d ∈ L) (hfile : d.type = .file) :
    0 ≤ d.size := by
  have h := hL.nonneg _ hd
  simpa [claimOf, Claim.of, hfile] using h

/-- What such a command answers is known. -/
theorem Ledger.answers (hc : c.still = true) (hexec : exec ctx o c w = (r, w')) :
    Admissible h c r ∧ ∀ d, Event.reads ⟨c, r⟩ = some d → claimOf d ∈ L := by
  cases c with
  | newOriginID => cases hc
  | incrNextInode => cases hc
  | loadInode id =>
    cases r with
    | error e => exact ⟨trivial, by simp [Event.reads]⟩
    | ok v =>
      have hv : loadInodeByID w.toStore id = v := by
        have heff := exec_ok hexec
        simpa [effect] using congrArg Prod.fst heff
      cases v with
      | none => exact ⟨trivial, by simp [Event.reads]⟩
      | some d =>
        obtain ⟨hid, hd⟩ := hL.shows.loaded hv
        refine ⟨⟨hid, claimOf_nonneg hL.coherent hd⟩, fun d' hd' => ?_⟩
        cases hd'
        exact hd
  | cacheGet p =>
    cases r with
    | error e => exact ⟨trivial, by simp [Event.reads]⟩
    | ok v =>
      cases v with
      | none => exact ⟨trivial, by simp [Event.reads]⟩
      | some d =>
        have hd : claimOf d ∈ L := by
          have heff := congrArg Prod.fst (exec_ok hexec)
          simp only [effect, Except.ok.injEq, filter_eq_some_iff] at heff
          exact hL.shows.cached _ (by simpa using heff.2)
        refine ⟨claimOf_nonneg hL.coherent hd, fun d' hd' => ?_⟩
        cases hd'
        exact hd
  | getRevision id =>
    refine ⟨?_, fun d hd => by cases r <;> cases hd⟩
    cases r with
    | error e => exact trivial
    | ok v =>
      cases v with
      | none => exact trivial
      | some t =>
        intro hdrawn
        by_contra hspent
        have hv : (w.inode id).bind (·.revision) = some t := by
          have heff := exec_ok hexec
          simpa [effect] using congrArg Prod.fst heff
        exact ((hL.supplied i h hi).held t ⟨hdrawn, hspent⟩).2 id hv
  | _ => exact ⟨by cases r <;> trivial, fun d hd => by cases r <;> cases hd⟩

/-- **One exchange.** A justified command is answered as its operation expects, and takes ledger
and tree one step on. -/
theorem Ledger.exchange
    (hlinks : (treeOf w.toStore).Linked rootInodeID) (hj : Justified h c) (hw : Within H c w)
    (hexec : Exec ctx c w r w') : Admissible h c r ∧ Advances H L w mem i h ⟨c, r⟩ w' := by
  obtain ⟨o, hexec⟩ := hexec
  by_cases ht : c.token.isSome
  · refine ⟨?_, hL.exchange_token hi hlinks hj hw ht hexec⟩
    cases c <;> first
      | (cases r <;> exact trivial)
      | cases ht
  by_cases hc : c.still = true
  · obtain ⟨hadm, hread⟩ := hL.answers hi hc hexec
    refine ⟨hadm, ?_⟩
    have he : Event.Mild L ⟨c, r⟩ := by
      cases c <;> first
        | exact ⟨.inl ⟨rfl, rfl⟩, hread, rfl, rfl, rfl⟩
        | cases hc
    have hs := effect_still ctx o w hc
    have hver := effect_versions ctx o w hj
    rw [not_isSome_iff_eq_none.mp ht] at hver
    obtain heff | ⟨-, -, rfl | rfl⟩ := exec_cases hexec
    · rw [heff] at hs hver
      exact hL.advances_still hi he hs hver
    · exact hL.advances_same hi he
    · exact hL.advances_still hi he hs hver
  cases c with
  | newOriginID => exact hL.exchange_newOriginID hi hexec
  | incrNextInode => exact hL.exchange_incrNextInode hi hj hexec
  | cachePath p d => exact ⟨by cases r <;> trivial, hL.exchange_cachePath hi hj hexec⟩
  | createRoot now =>
    exact ⟨by cases r <;> trivial, hL.exchange_createRoot hi (hw.resets now rfl) hexec⟩
  | deleteInode a => exact ⟨by cases r <;> trivial, hL.exchange_deleteInode hi hlinks hexec⟩
  | publishFile a => exact absurd rfl ht
  | updateInode a => exact absurd rfl ht
  | renameMetadata a replaced noReplace watched => exact absurd rfl ht
  | restoreVersion a => exact absurd rfl ht
  | createMetadata name a =>
    obtain ⟨⟨t, hrev, -⟩, -⟩ := hj
    exact absurd (by simp [Cmd.token, hrev]) ht
  | _ => exact absurd rfl hc

end

end Exchange

end Afs.Client
