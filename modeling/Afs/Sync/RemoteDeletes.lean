import Afs.Sync.Local

/-!
# Local deletions and newer versions

A deletion of the daemon reads the live tree three times before it removes anything: it takes the
inode and revision of the path, reads what is there, compares it with the baseline, and tells the
removal which inode and revision to expect. Other clients publish, create, remove and move inodes
in between.

Each call finds its way from the root. If a directory above the path is moved away and another one
takes its place, what is read can be of another file than the inode and the revision. As long as the
directory of the path stays where it is, only the baseline is removed.
-/

namespace Afs.Sync

open Relation Remote

/-- Whether an entry was recorded of an inode with the given bytes, entries or target. -/
def SyncEntry.IsOf (e : SyncEntry) : NodeBody → Prop
  | .file data => e.type = .file ∧ matchesBaseline e data
  | .symlink target => e.type = .symlink ∧ e.target = target
  | .dir => e.type = .dir

/-- A baseline: an entry and the version it was recorded of. -/
structure Baseline where
  entry : SyncEntry
  body : NodeBody
  isOf : entry.IsOf body

variable {α : Type} {r : Remote} {target : Bytes} {op : UploadOp} {a : SyncAction}

namespace Baseline

variable (b : Baseline) (p : Path)

/-- The inode is the version of the baseline, and has its permissions if they were recorded. -/
def Is (n : RemoteNode) : Prop :=
  n.body = b.body ∧ (b.entry.mode ≠ 0 → n.mode % 0o1000 = b.entry.mode % 0o1000)

/-- A deletion takes one inode away: the baseline, or a directory without entries. -/
def Takes (r r' : Remote) : Prop :=
  ∃ q n now, r.nodes.lookup q = some n ∧ r' = r.without now q ∧
    (b.Is n ∨ n.body = .dir ∧ r.nodes.names q = [])

/-- The hash that was recorded tells the baseline from what is at the path. A list of hashes is
hashed like a file, so a file that holds such a list can pass for the file it lists. -/
def Told (r : Remote) : Prop :=
  ∀ q n data, r.resolvePath p true = .ok (q, n) → n.body = .file data →
    matchesBaseline b.entry data → b.body = .file data

/-- A step of others: the live tree changes, while the directory of the path stays where it is. What
they do to the local folder and the sync state, and how late it gets, does not matter. -/
structure Others (w w' : World) : Prop where
  change : w'.remote = w.remote ∨ w.remote.Change w'.remote
  place : w'.remote.place p = w.remote.place p
  told : b.Told p w'.remote

/-- What a deletion relies on and guarantees. -/
def contract : Contract sig World where
  inv w := w.remote.Sound
  rely := b.Others p
  exec := Exec
  guar _ w _ w' := w'.remote = w.remote ∨ b.Takes w.remote w'.remote

/-! ## What survives the others -/

/-- What is known once `Stat` has shown an inode. -/
structure Seen (n : RemoteNode) (w : World) : Prop where
  sound : w.remote.Sound
  told : b.Told p w.remote
  knows : w.remote.Knows n.toStat n.timeless

/-- What is known once the inode was compared: it may be taken, or is not at the path any more. -/
structure Compared (n : RemoteNode) (w : World) : Prop extends Seen b p n w where
  isBaseline : n.body = .dir ∨ b.Is n ∨ w.remote.Lost p n.toStat

variable {b p} {w w' : World} {n : RemoteNode}

theorem Others.sound (h : b.Others p w w') (hw : w.remote.Sound) : w'.remote.Sound := by
  obtain heq | hc := h.change
  · rwa [heq]
  · exact hc.sound hw

theorem stable_told : (b.contract p).Stable fun w => w.remote.Sound ∧ b.Told p w.remote :=
  fun _ _ hw h => ⟨h.sound hw.1, h.told⟩

theorem Seen.others (hs : b.Seen p n w) (h : b.Others p w w') : b.Seen p n w' := by
  refine ⟨h.sound hs.sound, h.told, ?_⟩
  obtain heq | hc := h.change
  · rw [heq]
    exact hs.knows
  · exact hc.knows hs.knows

theorem stable_seen : (b.contract p).Stable (b.Seen p n) := fun _ _ => Seen.others

theorem ne_nil_of_isComponent (hc : IsComponent (baseName p)) : p ≠ [] := by
  rintro rfl
  exact hc.1 rfl

theorem stable_compared (hc : IsComponent (baseName p)) :
    (b.contract p).Stable (b.Compared p n) := by
  intro w w' hw h
  refine ⟨hw.toSeen.others h, ?_⟩
  rcases hw.isBaseline with hdir | his | hlost
  · exact .inl hdir
  · exact .inr (.inl his)
  · refine .inr (.inr ?_)
    obtain heq | hchange := h.change
    · rw [heq]
      exact hlost
    · exact hchange.lost hw.sound (ne_nil_of_isComponent hc) hc hw.knows.old h.place hlost

/-! ## Exchanges -/

/-- A command that leaves the live tree alone keeps the contract. -/
theorem keeps_of_isLocal {c : Cmd} {r : c.Rep} (hw : w.remote.Sound) (h : Exec c w r w')
    (hc : c.isLocal) : ((b.contract p).guar c w r w' ∧ (b.contract p).inv w') := by
  have heq := h.remote_eq hc
  refine ⟨.inl heq, ?_⟩
  show w'.remote.Sound
  rwa [heq]

/-- A program that leaves the live tree alone is safe. -/
theorem safe_of_local {x : Act α} (hx : Act.Local x) :
    Safe (b.contract p) (fun _ _ => True) x w := by
  refine (Prog.Only.safe (A := fun _ => True) hx (fun _ _ _ _ => trivial) ?_ trivial).mono
    fun _ _ _ => trivial
  intro c w r w' hc _ hw h
  exact ⟨keeps_of_isLocal hw h hc, trivial⟩

/-- Facts about the live tree survive a program that leaves it alone. -/
theorem safe_of_local_of_stable {x : Act α} {A : World → Prop} (hx : Act.Local x)
    (hA : (b.contract p).Stable A) (hremote : ∀ w w', w'.remote = w.remote → A w → A w')
    (hw : A w) : Safe (b.contract p) (fun _ w => A w) x w := by
  refine (Prog.Only.safe hx hA ?_ hw).mono fun _ _ h => h.2
  intro c w r w' hc hAw hw h
  exact ⟨keeps_of_isLocal hw h hc, hremote _ _ (h.remote_eq hc) hAw⟩

theorem Seen.of_remote_eq (h : w'.remote = w.remote) (hs : b.Seen p n w) : b.Seen p n w' := by
  obtain ⟨hsound, htold, hknows⟩ := hs
  rw [← h] at hsound htold hknows
  exact ⟨hsound, htold, hknows⟩

/-- The inode of the version, where it is still at the path. -/
theorem Seen.at_path (hs : b.Seen p n w) (hl : ¬ w.remote.Lost p n.toStat) :
    ∃ q m, w.remote.resolvePath p false = .ok (q, m) ∧ m.timeless = n.timeless := by
  unfold Lost at hl
  push Not at hl
  obtain ⟨q, m, hq, hinode, hrev⟩ := hl
  exact ⟨q, m, hq, hs.knows.same q _ (peek_of_lookup (lookup_of_resolveDepth hq)) hinode hrev⟩

/-- The inode the removal meets if it is the one expected. -/
theorem Seen.replaced {m : RemoteNode} {q : Path} (hs : b.Seen p n w)
    (hq : w.remote.resolvePath p false = .ok (q, m))
    (h : replaces { stat := some (some n.toStat) } m) :
    m.timeless = n.timeless ∧ ¬ w.remote.Lost p n.toStat := by
  have hsame : n.inode = m.inode ∧ n.revision = m.revision := of_decide_eq_true h
  refine ⟨hs.knows.same q _ (peek_of_lookup (lookup_of_resolveDepth hq)) hsame.1.symm hsame.2.symm,
    fun hl => hl q m hq ⟨hsame.1.symm, hsame.2.symm⟩⟩

theorem Compared.takes {m : RemoteNode} {q : Path} {now : ℕ} (hs : b.Compared p n w)
    (hq : w.remote.resolvePath p false = .ok (q, m))
    (h : replaces { stat := some (some n.toStat) } m)
    (hleaf : m.body = .dir → w.remote.nodes.names q = []) :
    b.Takes w.remote (w.remote.without now q) := by
  obtain ⟨htime, hthere⟩ := hs.toSeen.replaced hq h
  have hbody : m.body = n.body := (RemoteNode.mk.inj htime).2.2.2.2.2.1
  have hmode : m.mode = n.mode := (RemoteNode.mk.inj htime).2.2.1
  refine ⟨q, m, now, lookup_of_resolveDepth hq, rfl, ?_⟩
  rcases hs.isBaseline with hdir | his | hlost
  · exact .inr ⟨hbody.trans hdir, hleaf (hbody.trans hdir)⟩
  · exact .inl ⟨hbody.trans his.1, by rw [hmode]; exact his.2⟩
  · exact absurd hlost hthere

/-- The removal of the inode that `Stat` has shown. -/
theorem safe_rm (hc : IsComponent (baseName p)) (hs : b.Compared p n w) :
    Safe (b.contract p) (fun _ _ => True)
      (Cmd.rm { stat := some (some n.toStat) } p).issue w := by
  refine Safe.call (stable_compared hc) hs fun w r w' hw hinv hexec => ?_
  obtain ⟨f, hexec⟩ := hexec
  obtain rfl | ⟨r', hr', rfl⟩ := remoteWrite_eq hexec
  · exact ⟨⟨.inl rfl, hinv⟩, trivial⟩
  · have hsound := (change_rm hinv hc hr').sound hinv
    obtain ⟨-, q, m, hq, hrep, hleaf, rfl⟩ := of_rm hr'
    exact ⟨⟨.inr (hw.takes hq hrep hleaf), hsound⟩, trivial⟩

/-- The removal of nothing. -/
theorem safe_rm_none : Safe (b.contract p) (fun _ _ => True)
    (Cmd.rm { stat := some none } p).issue w := by
  refine Safe.call (A := fun _ => True) (fun _ _ _ _ => trivial) trivial
    fun w r w' _ hinv hexec => ?_
  obtain ⟨f, hexec⟩ := hexec
  obtain rfl | ⟨r', hr', rfl⟩ := remoteWrite_eq hexec
  · exact ⟨⟨.inl rfl, hinv⟩, trivial⟩
  · obtain ⟨-, q, m, -, hrep, -⟩ := of_rm hr'
    cases hrep

/-! ## Comparing -/

theorem stat_eq_some {s : StatResult} (h : r.stat p = .ok (some s)) :
    ∃ q n, r.resolvePath p false = .ok (q, n) ∧ s = n.toStat := by
  unfold Remote.stat at h
  rcases hd : r.resolvePath p false with e | ⟨q, n⟩
  · rw [hd] at h
    cases e <;> cases h
  · rw [hd] at h
    cases h
    exact ⟨q, n, rfl, rfl⟩

/-- What `Stat` shows is a version. -/
theorem safe_stat (hw : w.remote.Sound ∧ b.Told p w.remote) :
    Safe (b.contract p) (fun r w => (w.remote.Sound ∧ b.Told p w.remote) ∧
      ∀ s, r = .ok (some s) → ∃ n, s = n.toStat ∧ b.Seen p n w) (Cmd.stat p).issue w := by
  refine Safe.call stable_told hw fun w r w' hw hinv hexec => ?_
  refine ⟨keeps_of_isLocal hinv hexec trivial, ?_⟩
  obtain ⟨f, hexec⟩ := hexec
  obtain ⟨hr, rfl⟩ := remoteRead_eq hexec
  refine ⟨hw, ?_⟩
  rintro s rfl
  rcases hr with hr | hr
  · obtain ⟨q, n, hq, rfl⟩ := stat_eq_some hr.symm
    exact ⟨n, rfl, hinv, hw.2, hinv.knows (lookup_of_resolveDepth hq)⟩
  · cases hr

theorem of_cat {data : Bytes} (h : r.cat p = .ok data) :
    ∃ q n, r.resolvePath p true = .ok (q, n) ∧ n.body = .file data := by
  unfold Remote.cat at h
  rcases hd : r.resolvePath p true with e | ⟨q, n⟩
  · rw [hd] at h
    cases h
  · rw [hd] at h
    dsimp only at h
    cases hb : n.body with
    | file bytes =>
      rw [hb] at h
      cases h
      exact ⟨q, n, rfl, hb⟩
    | dir => rw [hb] at h; cases h
    | symlink target => rw [hb] at h; cases h

theorem of_readlink (h : r.readlink p = .ok target) :
    ∃ q n, r.resolvePath p false = .ok (q, n) ∧ n.body = .symlink target := by
  unfold Remote.readlink at h
  rcases hd : r.resolvePath p false with e | ⟨q, n⟩
  · rw [hd] at h
    cases h
  · rw [hd] at h
    dsimp only at h
    cases hb : n.body with
    | symlink bytes =>
      rw [hb] at h
      cases h
      exact ⟨q, n, rfl, hb⟩
    | dir => rw [hb] at h; cases h
    | file data => rw [hb] at h; cases h

/-- Bytes with the recorded hash, read at the path, are those of the version, or it has left. -/
theorem Seen.of_cat (hs : b.Seen p n w) (hfile : n.body.kind = .file) {data : Bytes}
    (h : w.remote.cat p = .ok data) (hmatch : matchesBaseline b.entry data) :
    n.body = b.body ∨ w.remote.Lost p n.toStat := by
  by_cases hl : w.remote.Lost p n.toStat
  · exact .inr hl
  obtain ⟨q, m, hq, htime⟩ := hs.at_path hl
  have hbody : m.body = n.body := (RemoteNode.mk.inj htime).2.2.2.2.2.1
  have hfollow := resolvePath_follow hq (by rw [hbody, hfile]; exact nofun)
  obtain ⟨q', m', hq', hm'⟩ := Baseline.of_cat h
  rw [hfollow] at hq'
  cases hq'
  left
  rw [hs.told _ _ _ hfollow hm' hmatch, ← hbody, hm']

/-- A target read at the path is that of the version, or it has left. -/
theorem Seen.of_readlink (hs : b.Seen p n w) (h : w.remote.readlink p = .ok target) :
    n.body = .symlink target ∨ w.remote.Lost p n.toStat := by
  by_cases hl : w.remote.Lost p n.toStat
  · exact .inr hl
  obtain ⟨q, m, hq, htime⟩ := hs.at_path hl
  obtain ⟨q', m', hq', hm'⟩ := Baseline.of_readlink h
  rw [hq] at hq'
  cases hq'
  exact .inl ((RemoteNode.mk.inj htime).2.2.2.2.2.1.symm.trans hm')

/-- A client call whose error ends the program is judged by its reply. -/
theorem safe_ofClient {C : Contract sig World} {Q : α → World → Prop}
    {x : Act (Except ClientErr α)} (h : Safe C (fun r w => ∀ a, r = .ok a → Q a w) x w) :
    SafeE C Q (ofClient x) w := by
  refine Safe.bind h fun r w hr => ?_
  cases r with
  | ok a =>
    rintro _ ⟨⟩
    exact hr a rfl
  | error e =>
    rintro _ ⟨⟩

theorem safe_cat (hs : b.Seen p n w) (hfile : n.body.kind = .file) :
    Safe (b.contract p) (fun r w => ∀ data, r = .ok data → b.Seen p n w ∧
      (matchesBaseline b.entry data → n.body = b.body ∨ w.remote.Lost p n.toStat))
      (Cmd.cat p).issue w := by
  refine Safe.call stable_seen hs fun w r w' hw hinv hexec => ?_
  refine ⟨keeps_of_isLocal hinv hexec trivial, ?_⟩
  obtain ⟨f, hexec⟩ := hexec
  obtain ⟨hr, rfl⟩ := remoteRead_eq hexec
  rintro data rfl
  rcases hr with hr | hr
  · exact ⟨hw, fun hmatch => hw.of_cat hfile hr.symm hmatch⟩
  · cases hr

theorem safe_readlink (hs : b.Seen p n w) :
    Safe (b.contract p) (fun r w => ∀ target, r = .ok target → b.Seen p n w ∧
      (n.body = .symlink target ∨ w.remote.Lost p n.toStat)) (Cmd.readlinkRemote p).issue w := by
  refine Safe.call stable_seen hs fun w r w' hw hinv hexec => ?_
  refine ⟨keeps_of_isLocal hinv hexec trivial, ?_⟩
  obtain ⟨f, hexec⟩ := hexec
  obtain ⟨hr, rfl⟩ := remoteRead_eq hexec
  rintro target rfl
  rcases hr with hr | hr
  · exact ⟨hw, hw.of_readlink hr.symm⟩
  · cases hr

/-- A link is the baseline if it has its target. -/
theorem body_eq_symlink (htype : b.entry.type = .symlink) (h : target = b.entry.target) :
    b.body = .symlink target := by
  have hof := b.isOf
  cases hb : b.body with
  | file data =>
    rw [hb] at hof
    cases htype.symm.trans hof.1
  | dir =>
    rw [hb] at hof
    cases htype.symm.trans hof
  | symlink target' =>
    rw [hb] at hof
    rw [h, hof.2]

/-- `syncRemoteMatchesStored` says yes only to what may be taken, if it is still there. -/
theorem safe_syncRemoteMatchesStored {stored : Option SyncEntry} (hs : b.Seen p n w)
    (hstored : ∀ e, stored = some e → e = b.entry) :
    SafeE (b.contract p) (fun same w => same = true → b.Compared p n w)
      (syncRemoteMatchesStored p n.toStat stored) w := by
  unfold syncRemoteMatchesStored
  cases stored with
  | none => exact SafeE.pure nofun
  | some e =>
    obtain rfl := hstored e rfl
    dsimp only
    split_ifs with hother
    · exact SafeE.pure nofun
    push Not at hother
    obtain ⟨htype, hmode⟩ := hother
    have hkind : n.body.kind = b.entry.type := htype
    split
    · next hfile =>
      refine SafeE.bind (safe_ofClient (safe_cat hs hfile)) fun data w hdata => SafeE.pure ?_
      intro hmatch
      refine ⟨hdata.1, .inr ?_⟩
      exact (hdata.2 hmatch).imp (fun hbody => ⟨hbody, hmode⟩) id
    · next hlink =>
      refine SafeE.bind (safe_ofClient (safe_readlink hs)) fun target w htarget => SafeE.pure ?_
      intro hmatch
      refine ⟨htarget.1, .inr ?_⟩
      refine htarget.2.imp (fun hbody => ⟨?_, hmode⟩) id
      rw [hbody, body_eq_symlink (hkind.symm.trans hlink) (of_decide_eq_true hmatch)]
    · next hdir =>
      refine SafeE.pure fun _ => ⟨hs, .inl ?_⟩
      cases hb : n.body with
      | dir => rfl
      | file data | symlink target => exact absurd hdir (by rw [RemoteNode.toStat, hb]; exact nofun)

/-! ## The two deletions -/

section Deletions

variable {cfg : Config} {depth : ℕ}

theorem safe_removeRemote (hc : IsComponent (baseName op.path)) (hs : b.Compared op.path n w) :
    Safe (b.contract op.path) (fun _ _ => True) (removeRemote op (some n.toStat)) w := by
  refine (safe_rm hc hs).bind fun r w _ => ?_
  split <;> trivial

theorem safe_removeRemote_none :
    Safe (b.contract op.path) (fun _ _ => True) (removeRemote op none) w := by
  refine safe_rm_none.bind fun r w _ => ?_
  split <;> trivial

/-- `processDelete` keeps its contract. -/
theorem safe_processDelete (hc : IsComponent (baseName op.path))
    (hstored : ∀ e, op.stored = some e → e = b.entry)
    (hw : w.remote.Sound ∧ b.Told op.path w.remote) :
    Safe (b.contract op.path) (fun _ _ => True) (processDelete op) w := by
  unfold processDelete
  have hlook : Safe (b.contract op.path) (fun _ w => w.remote.Sound ∧ b.Told op.path w.remote)
      (Cmd.lstat op.path).issue w :=
    safe_of_local_of_stable (.issue trivial) stable_told (fun w w' h hw => by rwa [h]) hw
  refine hlook.bind fun info w hw => ?_
  split
  · trivial
  · trivial
  refine (safe_stat hw).bind fun r w hr => ?_
  split
  · split_ifs
    · exact safe_removeRemote_none
    · trivial
  · exact safe_removeRemote_none
  · next stat =>
    obtain ⟨n, rfl, hs⟩ := hr.2 stat rfl
    refine Safe.bind (safe_syncRemoteMatchesStored hs hstored) fun same w hsame => ?_
    split
    · trivial
    · trivial
    · exact safe_removeRemote hc (hsame true rfl rfl)

theorem safe_statOrNone (hw : w.remote.Sound ∧ b.Told p w.remote) :
    Safe (b.contract p) (fun r w => ∀ stat, r = .ok stat → ∀ s, stat = some s →
      ∃ n, s = n.toStat ∧ b.Seen p n w) (statOrNone p) w := by
  refine (safe_stat hw).bind fun r w hr => ?_
  split
  · next stat =>
    rintro _ ⟨⟩ s rfl
    exact hr.2 s rfl
  · rintro stat hstat s rfl
    obtain ⟨-, h⟩ | ⟨-, h⟩ := ite_eq_iff.mp hstat <;> cases h

theorem safe_remoteStatStillCurrent (hw : w.remote.Sound ∧ b.Told a.path w.remote) :
    SafeE (b.contract a.path) (fun r w => ∀ s, r.1 = some s → ∃ n, s = n.toStat ∧
      b.Seen a.path n w) (remoteStatStillCurrent a) w := by
  refine SafeE.bind (safe_ofClient (safe_statOrNone hw)) fun stat w hstat => ?_
  cases stat with
  | none =>
    refine SafeE.bind (Q := fun _ _ => True) ?_ fun current w _ => SafeE.pure nofun
    exact (safe_of_local (Try.Local.lift local_orSweep)).mono fun _ _ _ _ _ => trivial
  | some s =>
    obtain ⟨n, rfl, hs⟩ := hstat s rfl
    refine SafeE.bind (Q := fun _ w => b.Seen a.path n w) ?_ fun current w hs => SafeE.pure ?_
    · exact (safe_of_local_of_stable (Try.Local.lift local_orSweep) stable_seen
        (fun _ _ => Seen.of_remote_eq) hs).mono fun _ _ h _ _ => h
    · rintro _ ⟨⟩
      exact ⟨n, rfl, hs⟩

theorem safeE_of_local {x : Try α} (hx : Try.Local x) :
    SafeE (b.contract p) (fun _ _ => True) x w := (safe_of_local hx).mono fun _ _ _ _ _ => trivial

theorem safe_removeBaseline {stat : Option StatResult}
    (h : Safe (b.contract a.path) (fun _ _ => True) (Cmd.rm { stat := some stat } a.path).issue w) :
    SafeE (b.contract a.path) (fun _ _ => True) (removeBaseline a stat) w := by
  refine SafeE.bind (SafeE.lift h) fun r w _ => safeE_of_local ?_
  split
  · refine .ite (.lift local_modifyState) ?_
    exact .bind (.lift local_orSweep) fun _ => .throw _
  · exact .lift local_modifyState

theorem local_keepRemote (a : SyncAction) (stat : StatResult) : Try.Local (keepRemote cfg a stat) :=
  .bind (.lift (.issue trivial)) fun _ => local_executeDownload

/-- `execDeleteRemote` keeps its contract. -/
theorem safe_execDeleteRemote (hc : IsComponent (baseName a.path))
    (hstored : ∀ e, a.stored = some e → e = b.entry)
    (hw : w.remote.Sound ∧ b.Told a.path w.remote) :
    SafeE (b.contract a.path) (fun _ _ => True) (execDeleteRemote cfg a) w := by
  refine SafeE.bind (safe_remoteStatStillCurrent hw) fun r w hr => ?_
  split_ifs
  · cases hstat : r.1 with
    | none => exact safe_removeBaseline safe_rm_none
    | some stat =>
      obtain ⟨n, rfl, hs⟩ := hr stat hstat
      refine SafeE.bind (safe_syncRemoteMatchesStored hs hstored) fun same w hsame => ?_
      cases same with
      | true => exact safe_removeBaseline (safe_rm hc (hsame rfl))
      | false => exact safeE_of_local (local_keepRemote a _)
  · exact safeE_of_local (.pure _)

/-- `executeAction` of a remote deletion keeps its contract. -/
theorem safe_executeAction (hkind : a.kind = .deleteRemote) (hc : IsComponent (baseName a.path))
    (hstored : ∀ e, a.stored = some e → e = b.entry)
    (hw : w.remote.Sound ∧ b.Told a.path w.remote) :
    SafeE (b.contract a.path) (fun _ _ => True) (executeAction cfg depth a) w := by
  have hcurrent : SafeE (b.contract a.path) (fun _ w => w.remote.Sound ∧ b.Told a.path w.remote)
      (liftM (actionStillCurrent a) : Try Bool) w :=
    SafeE.lift (safe_of_local_of_stable (local_actionStillCurrent a) stable_told
      (fun w w' h hw => by rwa [h]) hw)
  refine SafeE.bind hcurrent fun current w hw => ?_
  split_ifs
  · exact safeE_of_local (.throw _)
  · rw [hkind]
    exact safe_execDeleteRemote hc hstored hw
  · exact safeE_of_local (.pure _)

end Deletions

end Baseline

section Example

/-- A daemon that takes files of up to a hundred bytes. -/
def smallFiles : Config where
  chunkSize := 16
  chunkThreshold := 16
  maxFileBytes := 100
  chunkSize_pos := by decide
  chunkThreshold_pos := by decide

/-- The baseline of a file with one byte. -/
def oneByte : Baseline where
  entry := { type := .file, mode := 0o644, size := 1, remoteHash := sha256Hex [1], deleted := true }
  body := .file [1]
  isOf := ⟨rfl, by decide +kernel⟩

/-- The path of the file: `f` in `d`. -/
def inD : Path := [text "d", text "f"]

/-- A directory with the given inode. -/
def dirNode (inode : ℕ) : RemoteNode := ⟨inode, inode, 0o755, 0, 0, .dir, 0, []⟩

/-- A file with the given inode and one byte. -/
def byteNode (inode : ℕ) (byte : UInt8) : RemoteNode :=
  ⟨inode, inode, 0o644, 0, 1, .file [byte], 0, []⟩

/-- The file was deleted locally. The live tree has the given byte in `d` and the byte of the
baseline in `e`. -/
def deletedLocally (byte : UInt8) : World where
  disk := ⟨Table.ofList [([], ⟨0, 0o755, 0, .dir⟩)], 1⟩
  remote := {
    nodes := Table.ofList [([], dirNode 1), ([text "d"], dirNode 2), (inD, byteNode 3 byte),
      ([text "e"], dirNode 4), ([text "e", text "f"], byteNode 5 1)]
    nextInode := 6
    nextRevision := 6 }
  state := { entries := Table.ofList [(inD, oneByte.entry)], nextVersion := 1 }

/-- The deletion that is queued for it. -/
def deleteInD : UploadOp := { kind := .delete, path := inD, stored := some oneByte.entry }

/-- Another client moves a directory. -/
def moves (src dst : String) (w : World) : World :=
  (exec .none (.renameRemote {} [text src] [text dst] true) w).2

/-- While the deletion is under way, `e` takes the place of `d` before the file is read, and `d`
comes back before the file is removed. -/
def swapped : List (Prog.Exchange sig World) × UploadResult :=
  Prog.interleave (exec .none) [id, id, moves "e" "d" ∘ moves "d" "x", moves "x" "d" ∘ moves "d" "e"]
    (process smallFiles deleteInD) (deletedLocally 2)

/-- What a file at a path holds. -/
def bodyAt (p : Path) (w : World) : Option NodeBody := (w.remote.nodes.lookup p).map (·.body)

theorem sound_deletedLocally : (deletedLocally 1).remote.Sound :=
  .of_entries (by decide +kernel) (by decide +kernel) (by decide +kernel)

theorem told_deletedLocally : oneByte.Told inD (deletedLocally 1).remote := by
  intro q n data hq hn _
  rw [show (deletedLocally 1).remote.resolvePath inD true = .ok (inD, byteNode 3 1) by
    decide +kernel] at hq
  cases hq
  exact hn

/-- The deletion of the baseline, when nobody disturbs it. -/
def undisturbed : List (Prog.Exchange sig World) × UploadResult :=
  Prog.interleave (exec .none) [] (process smallFiles deleteInD) (deletedLocally 1)

end Example

end Afs.Sync
