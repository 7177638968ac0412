import Afs.Foundations.Ends
import Afs.Sync.Runs

/-!
# Downloads without anyone else

What the downloader does when nothing else happens and the network is up, to a path whose local
side is what its entry recorded: how it sees the path, and how it puts a file, a link or a
directory in its place or takes it away.
-/

namespace Afs.Sync

open List Option AList

/-- Run alone with the network up, the program returns `a` and leaves `w'`. -/
abbrev Does {α : Type} (x : Act α) (w : World) (a : α) (w' : World) : Prop :=
  Ends (S := sig) (exec .none) x w a w'

variable {w : World} {p q : Path} {d : DiskNode} {n : RemoteNode} {e : SyncEntry}

/-! ## Commands -/

variable {data target : Bytes} {w' : World}

section Commands

theorem Disk.lstat_eq {k : Disk} (h : k.nodes.lookup p = some d) : k.lstat p = .ok d.info := by
  unfold Disk.lstat
  rw [h]

theorem Disk.readFile_eq {k : Disk} (h : k.nodes.lookup p = some d) (hd : d.body = .file data) :
    k.readFile p = .ok data := by
  unfold Disk.readFile
  rw [h]
  dsimp only
  rw [hd]

theorem Disk.readlink_eq {k : Disk} (h : k.nodes.lookup p = some d)
    (hd : d.body = .symlink target) : k.readlink p = .ok target := by
  unfold Disk.readlink
  rw [h]
  dsimp only
  rw [hd]

theorem does_lstat (h : w.disk.nodes.lookup p = some d) :
    Does (Cmd.lstat p).issue w (.ok d.info) w := by
  refine Ends.call ?_
  rw [← Disk.lstat_eq h]
  rfl

theorem does_readFile (h : w.disk.nodes.lookup p = some d) (hd : d.body = .file data) :
    Does (Cmd.readFile p).issue w (.ok data) w := by
  refine Ends.call ?_
  rw [← Disk.readFile_eq h hd]
  rfl

theorem does_readlink (h : w.disk.nodes.lookup p = some d) (hd : d.body = .symlink target) :
    Does (Cmd.readlink p).issue w (.ok target) w := by
  refine Ends.call ?_
  rw [← Disk.readlink_eq h hd]
  rfl

theorem does_modifyState (f : SyncState → SyncState) :
    Does (modifyState f) w () { w with state := f w.state } :=
  Ends.bind (a := w.state) (Ends.call rfl) (.pure ..)

theorem does_ofOs {α : Type} {x : Act (Except OsErr α)} {a : α} (h : Does x w (.ok a) w') :
    Does (ofOs x).run w (.ok a) w' :=
  h.bind rfl

theorem does_ofOs_error {α : Type} {x : Act (Except OsErr α)} {o : OsErr}
    (h : Does x w (.error o) w') : Does (ofOs x).run w (.error (.os o)) w' :=
  h.bind rfl

end Commands

/-! ## Looking at the local path -/

/-- What an entry that describes the node on disk says. Only files above the threshold, which are
not empty, are recorded by their chunks. -/
def SyncEntry.Describes (e : SyncEntry) (d : DiskNode) : Prop :=
  e.deleted = false ∧ match d.body with
    | .file data => e.type = .file ∧ d.mode = e.mode % 0o1000 ∧ e.size = data.length ∧
        e.localHash = e.hashOf data ∧ (0 < e.chunkSize → data ≠ [])
    | .symlink target => e.type = .symlink ∧ e.target = target ∧ e.chunkSize = 0
    | .dir => e.type = .dir ∧ d.mode = e.mode % 0o1000 ∧ e.chunkSize = 0

/-- What a look at a node shows. -/
def DiskNode.seen (d : DiskNode) (chunkSize : ℕ) : LocalSnapshot :=
  match d.body with
  | .file data =>
    { info := some d.info, hash := sha256Hex data
      baselineHash := if chunkSize = 0 then sha256Hex data
        else compositeHash (uploadChunkHashes data chunkSize) }
  | .symlink target => { info := some d.info, target }
  | .dir => { info := some d.info }

variable {c : ℕ}

theorem DiskNode.info_seen : (d.seen c).info = some d.info := by
  unfold seen
  cases d.body <;> rfl

theorem DiskNode.kind_info : d.info.kind = d.body.kind := rfl

theorem does_snapshot (h : w.disk.nodes.lookup p = some d) (c : ℕ) :
    Does (snapshotDownloadLocal p c).run w (.ok (d.seen c)) w := by
  refine (does_lstat h).lift.andThen ?_
  dsimp only
  unfold snapshotNode DiskNode.seen
  rw [DiskNode.kind_info]
  cases hb : d.body with
  | file data =>
    refine (does_ofOs (does_readFile h hb)).andThen ?_
    dsimp only
    by_cases hc : c = 0
    · rw [if_pos hc, if_pos hc]
      exact .ok
    · rw [if_neg hc, if_neg hc]
      exact (does_ofOs (does_readFile h hb)).andThen .ok
  | symlink target => exact (does_ofOs (does_readlink h hb)).andThen .ok
  | dir => exact .ok

theorem does_unchanged {s : LocalSnapshot} (hs : s.info = some d.info)
    (h : w.disk.nodes.lookup p = some d) : Does (s.unchanged p) w true w := by
  refine (does_lstat h).bind ?_
  rw [show s.agrees (.ok d.info) = true by
    unfold LocalSnapshot.agrees
    rw [hs]
    simp]
  exact .pure ..

/-- A node that an entry describes is recognised, with either hash. -/
theorem SyncEntry.Describes.matchesStored (he : e.Describes d) :
    (d.seen e.chunkSize).matchesStored (some e) = true := by
  obtain ⟨hkept, he⟩ := he
  unfold LocalSnapshot.matchesStored LocalSnapshot.isEntry DiskNode.seen
  cases hb : d.body with
  | file data =>
    rw [hb] at he
    obtain ⟨htype, hmode, hsize, hhash, -⟩ := he
    have hinfo : d.info.kind = .file := by rw [DiskNode.kind_info, hb]; rfl
    have hlen : d.info.size = data.length := by unfold DiskNode.info; rw [hb]
    have hne : e.localHash ≠ [] := by
      rw [hhash, SyncEntry.hashOf]
      split_ifs
      · unfold compositeHash
        split_ifs <;> exact sha256Hex_ne_nil _
      · exact sha256Hex_ne_nil _
    have hsame : (if e.chunkSize = 0 then sha256Hex data
        else compositeHash (uploadChunkHashes data e.chunkSize)) = e.localHash := by
      rw [hhash, SyncEntry.hashOf]
      by_cases hc : e.chunkSize = 0
      · rw [if_pos hc, if_neg (by omega)]
      · rw [if_neg hc, if_pos (by omega)]
    simp only [hinfo, hkept, hsame, any_some, decide_eq_true_eq]
    exact ⟨by decide, htype, hmode, by rw [hlen, hsize], hne, .inr trivial⟩
  | symlink target =>
    rw [hb] at he
    have hinfo : d.info.kind = .symlink := by rw [DiskNode.kind_info, hb]; rfl
    simp [hinfo, hkept, he.1, he.2.1]
  | dir =>
    rw [hb] at he
    have hinfo : d.info.kind = .dir := by rw [DiskNode.kind_info, hb]; rfl
    have hmode : d.info.mode = e.mode % 0o1000 := he.2.1
    simp [hinfo, hkept, he.1, hmode]

/-! ## Putting something in place of a path -/

variable {k : ℕ}

section Staging

theorem parentOf_tempPath : parentOf (tempPath p k) = parentOf p := parentOf_joinPath ..

theorem tempPath_ne_nil : tempPath p k ≠ [] := by simp [tempPath, joinPath]

theorem length_tempPath (hp : p ≠ []) : (tempPath p k).length = p.length := by
  have hpos := length_pos_iff.mpr hp
  rw [tempPath, joinPath, length_append, length_singleton, parentOf, length_dropLast]
  omega

theorem tempPath_ne : tempPath p k ≠ p := by
  intro h
  have hbase := congrArg (fun x => (baseName x).length) h
  simp only [tempPath, baseName_joinPath, length_append] at hbase
  have htext : (text ".afssync.tmp.").length = 13 := by decide +kernel
  omega

theorem parentOf_ne (hp : p ≠ []) : p ≠ parentOf p := by
  intro h
  have hlen := congrArg List.length h
  have hpos := length_pos_iff.mpr hp
  rw [parentOf, length_dropLast] at hlen
  omega

/-- A path below the root with a node at it, next to which temporary names are free: the system
tries names until it finds one that is. -/
structure Place (w : World) (p : Path) (d : DiskNode) : Prop where
  sound : w.disk.Sound
  ne : p ≠ []
  node : w.disk.nodes.lookup p = some d
  free : ∀ k, w.names ≤ k → w.disk.nodes.lookup (tempPath p k) = none

/-- The world with something staged next to a path. -/
def World.staged (w : World) (p : Path) (mode : ℕ) (body : NodeBody) : World :=
  { w with
    disk := w.disk.add w.now (tempPath p w.names) (mode % 0o1000) body
    names := w.names + 1 }

/-- The name of what was staged. -/
def World.temp (w : World) (p : Path) : Path := tempPath p w.names

namespace Place

variable {mode : ℕ} {body : NodeBody}

section

variable (h : Place w p d)

include h

theorem parent : ∃ m, w.disk.nodes.lookup (parentOf p) = some m ∧ m.body = .dir :=
  h.sound p d h.node h.ne

theorem does_mkdirAll : Does (Cmd.mkdirAll (parentOf p)).issue w (.ok ()) w := by
  obtain ⟨m, hm, hdir⟩ := h.parent
  refine Ends.call ?_
  show diskWrite w (w.disk.mkdirAll w.now (parentOf p)) = _
  rw [h.sound.mkdirAll hm hdir]
  rfl

theorem does_make : Does (Cmd.make (w.temp p) mode body).issue
    { w with names := w.names + 1 } (.ok ()) (w.staged p mode body) := by
  have hholds : w.disk.holds (tempPath p w.names) = true := by
    have hp := h.sound.holds h.node h.ne
    unfold Disk.holds at hp ⊢
    rw [parentOf_tempPath]
    exact hp
  refine Ends.call ?_
  show diskWrite { w with names := w.names + 1 } (w.disk.make w.now (tempPath p w.names) mode body) =
    _
  unfold Disk.make
  rw [h.free _ le_rfl, if_neg (by decide), if_pos hholds]
  rfl

omit h in
theorem lookup_staged_temp : (w.staged p mode body).disk.nodes.lookup (w.temp p) =
      some ⟨w.disk.nextIdent, mode % 0o1000, w.now, body⟩ := Disk.lookup_add_self

/-- Staging changes nothing at or under the path. -/
theorem lookup_staged (r : List Name) :
    (w.staged p mode body).disk.nodes.lookup (p ++ r) = w.disk.nodes.lookup (p ++ r) := by
  have hlen := length_tempPath (k := w.names) h.ne
  have hpos := length_pos_iff.mpr h.ne
  refine Disk.lookup_add_of_ne ?_ ?_
  · intro heq
    have hr : r = [] := by
      have := congrArg List.length heq
      rw [length_append, hlen] at this
      exact eq_nil_of_length_eq_zero (by omega)
    rw [hr, append_nil] at heq
    exact tempPath_ne heq.symm
  · intro heq
    have := congrArg List.length heq
    rw [length_append, parentOf_tempPath, parentOf, length_dropLast] at this
    omega

theorem lookup_staged_self : (w.staged p mode body).disk.nodes.lookup p = some d := by
  have hself : (w.staged p mode body).disk.nodes.lookup (p ++ []) = _ := h.lookup_staged []
  rw [append_nil] at hself
  rw [hself, h.node]

theorem names_staged (hnames : w.disk.nodes.names p = []) :
    (w.staged p mode body).disk.nodes.names p = [] := by
  refine eq_nil_iff_forall_not_mem.mpr fun c hc => ?_
  have hmem := Table.mem_names.mp hc
  rw [h.lookup_staged, ← Table.mem_names, hnames] at hmem
  cases hmem

theorem holds_staged : (w.staged p mode body).disk.holds p = true := by
  obtain ⟨m, hm, hdir⟩ := h.parent
  unfold Disk.holds
  have hne : parentOf p ≠ tempPath p w.names := by
    intro heq
    have hlen := congrArg List.length heq
    have hpos := length_pos_iff.mpr h.ne
    rw [length_tempPath h.ne, parentOf, length_dropLast] at hlen
    omega
  have hbody : ((w.staged p mode body).disk.nodes.lookup (parentOf p)).map DiskNode.body =
      some .dir := by
    unfold World.staged Disk.add
    rw [lookup_insert_ne hne, Disk.body_touch, hm, map_some, hdir]
  obtain ⟨m', hm', hdir'⟩ := map_eq_some_iff.mp hbody
  rw [hm']
  simpa using hdir'

/-- The world with what was staged moved over the path. -/
def replaced (w : World) (p : Path) (mode : ℕ) (body : NodeBody) : World :=
  { w.staged p mode body with
    disk := (w.staged p mode body).disk.moveTo w.now (w.temp p) p }

theorem lookup_replaced : (replaced w p mode body).disk.nodes.lookup p =
    some ⟨w.disk.nextIdent, mode % 0o1000, w.now, body⟩ := by
  have hparent : p ≠ parentOf (w.temp p) := by
    rw [World.temp, parentOf_tempPath]
    exact parentOf_ne h.ne
  unfold replaced Disk.moveTo
  dsimp only
  rw [Disk.lookup_touch, if_neg (parentOf_ne h.ne), Disk.lookup_touch, if_neg hparent,
    Table.lookup_move, if_pos (prefix_refl p), Table.relocate, drop_length,
    append_nil]
  exact lookup_staged_temp

omit h in
theorem temp_ne : w.temp p ≠ p := tempPath_ne

theorem not_prefix_temp : ¬ w.temp p <+: p := fun hpre =>
  tempPath_ne (hpre.eq_of_length (length_tempPath h.ne))

theorem rename_staged (mode : ℕ) (body : NodeBody) :
    (w.staged p mode body).disk.rename w.now (w.temp p) p =
      if (body = .dir ↔ d.body = .dir) ∧ (w.staged p mode body).disk.nodes.names p = [] then
        .ok ((w.staged p mode body).disk.moveTo w.now (w.temp p) p)
      else .error .other := by
  unfold Disk.rename
  rw [lookup_staged_temp]
  dsimp only
  rw [if_neg temp_ne, if_neg (by simp [h.not_prefix_temp, h.holds_staged]), h.lookup_staged_self]

/-- What was staged takes the place of a file or a link. -/
theorem does_rename (hd : d.body ≠ .dir) (hbody : body ≠ .dir) :
    Does (Cmd.rename (w.temp p) p).issue (w.staged p mode body) (.ok ())
      (replaced w p mode body) := by
  have hnames : (w.staged p mode body).disk.nodes.names p = [] :=
    h.names_staged (h.sound.names_eq_nil h.node hd)
  have hrename := h.rename_staged mode body
  rw [if_pos ⟨iff_of_false hbody hd, hnames⟩] at hrename
  exact Ends.call (congrArg (diskWrite (w.staged p mode body)) hrename)

/-- Nothing but a directory takes the place of a directory. -/
theorem does_rename_dir (hd : d.body = .dir) (hbody : body ≠ .dir) :
    Does (Cmd.rename (w.temp p) p).issue (w.staged p mode body) (.error .other)
      (w.staged p mode body) := by
  have hrename := h.rename_staged mode body
  rw [if_neg fun hif => hbody (hif.1.mpr hd)] at hrename
  exact Ends.call (congrArg (diskWrite (w.staged p mode body)) hrename)

/-- The world with what was staged taken away again. -/
def unstaged (w : World) (p : Path) (mode : ℕ) (body : NodeBody) : World :=
  { w.staged p mode body with
    disk := { (w.staged p mode body).disk with
      nodes := Disk.touch ((w.staged p mode body).disk.nodes.erase (w.temp p))
        (parentOf (w.temp p)) w.now } }

theorem lookup_unstaged : (unstaged w p mode body).disk.nodes.lookup p = some d := by
  have hparent : p ≠ parentOf (w.temp p) := by
    rw [World.temp, parentOf_tempPath]
    exact parentOf_ne h.ne
  unfold unstaged
  rw [Disk.lookup_touch, if_neg hparent, lookup_erase_ne temp_ne.symm, h.lookup_staged_self]

theorem does_remove_temp : Does (Cmd.remove (w.temp p)).issue
    (w.staged p mode body) (.ok ()) (unstaged w p mode body) := by
  have hnames : (w.staged p mode body).disk.nodes.names (w.temp p) = [] := by
    refine eq_nil_iff_forall_not_mem.mpr fun c hc => ?_
    have hmem := Table.mem_names.mp hc
    have hlen : (w.temp p ++ [c]).length = (w.temp p).length + 1 := by simp
    -- nothing was under the name when it was free
    have hbefore : (w.staged p mode body).disk.nodes.lookup (w.temp p ++ [c]) =
        w.disk.nodes.lookup (w.temp p ++ [c]) := by
      refine Disk.lookup_add_of_ne (fun heq => ?_) fun heq => ?_
      · rw [heq] at hlen
        exact absurd hlen (by rw [World.temp]; omega)
      · rw [heq, parentOf, length_dropLast, World.temp] at hlen
        omega
    rw [hbefore] at hmem
    obtain ⟨m, hm⟩ := isSome_iff_exists.mp hmem
    obtain ⟨m', hm', -⟩ := h.sound.above hm (by simp)
    rw [World.temp, h.free _ le_rfl] at hm'
    cases hm'
  have hremove : (w.staged p mode body).disk.remove w.now (w.temp p) =
      .ok (unstaged w p mode body).disk := by
    unfold Disk.remove
    rw [lookup_staged_temp]
    dsimp only
    rw [if_pos hnames]
    rfl
  exact Ends.call (congrArg (diskWrite (w.staged p mode body)) hremove)

/-! ### Files -/

variable {data : Bytes}

theorem does_stageLocalFile :
    Does (stageLocalFile p mode (pure data) (pure ())).run w (.ok (w.temp p))
      (w.staged p mode (.file data)) := by
  refine (does_ofOs h.does_mkdirAll).andThen ((does_lstat h.node).lift.andThen ?_)
  refine Ends.andThen .ok (Ends.andThen (a := w.names) (Ends.call rfl).lift ?_)
  refine Ends.andThen .ok ((does_ofOs h.does_make).andThen ?_)
  refine Ends.andThen (Ends.lift (a := .ok ()) .ok) ?_
  dsimp only
  refine (does_unchanged rfl h.lookup_staged_self).lift.andThen ?_
  rw [if_pos rfl]
  exact .ok

/-- A file or a link makes place for a file. -/
theorem does_writeLocalFile (hd : d.body ≠ .dir) :
    Does (writeLocalFile p false mode (pure data) (pure ())) w (none, none)
      (replaced w p mode (.file data)) := by
  refine h.does_stageLocalFile.bind (Ends.bind .ok ?_)
  exact (h.does_rename hd (by exact nofun)).bind (.pure ..)

/-- A directory does not. -/
theorem does_writeLocalFile_dir (hd : d.body = .dir) :
    Does (writeLocalFile p false mode (pure data) (pure ())) w (none, some (.os .other))
      (unstaged w p mode (.file data)) := by
  refine h.does_stageLocalFile.bind (Ends.bind .ok ?_)
  refine (h.does_rename_dir hd (by exact nofun)).bind ?_
  exact h.does_remove_temp.bind (.pure ..)

/-! ### Links -/

variable {op : DownloadOp} {seen : LocalSnapshot}

/-- The first half of `stageLink`. -/
theorem does_stageLink_of (hpath : op.path = p)
    (hseen : seen.info = some d.info) {res : DownloadResult} (hrest : Does (do
      match ← op.replaceLink (w.temp p) (d.body.kind = .dir) with
      | (copy, .error e) => do
        let _ ← (Cmd.remove (w.temp p)).issue
        pure { op, outcome := .failed e, conflictPath := copy }
      | (copy, .ok info) => pure (op.linked copy info)) (w.staged p 0o777 (.symlink op.symlink))
      res w') : Does (op.stageLink seen) w res w' := by
  subst hpath
  refine h.does_mkdirAll.bind (Ends.bind (a := w.names) (Ends.call rfl) ?_)
  refine h.does_make.bind ((does_lstat h.lookup_staged_self).bind ?_)
  refine (does_unchanged hseen h.lookup_staged_self).bind ?_
  rw [if_neg (by decide)]
  exact hrest

omit h in
theorem kind_eq_dir : d.body.kind = .dir ↔ d.body = .dir := by
  cases d.body <;> simp [NodeBody.kind]

/-- The node a link becomes. -/
def linkNode (w : World) (op : DownloadOp) : DiskNode :=
  ⟨w.disk.nextIdent, 0o777, w.now, .symlink op.symlink⟩

/-- A file or a link makes place for a link. -/
theorem does_replaceLink (hpath : op.path = p) (hconflict : op.conflict = false)
    (hd : d.body ≠ .dir) : Does (op.replaceLink (w.temp p) (d.body.kind = .dir))
      (w.staged p 0o777 (.symlink op.symlink)) (none, .ok (linkNode w op).info)
      (replaced w p 0o777 (.symlink op.symlink)) := by
  subst hpath
  have hclear : DownloadOp.replaceLink.clear op (d.body.kind = .dir) = pure none := by
    unfold DownloadOp.replaceLink.clear
    simp [hconflict, kind_eq_dir, hd]
  unfold DownloadOp.replaceLink
  rw [hclear]
  refine Ends.bind .ok ((h.does_rename hd (by exact nofun)).bind ?_)
  exact (does_lstat h.lookup_replaced).bind (.pure ..)

/-- The world with the path of an empty directory cleared for what was staged. -/
def cleared (w : World) (p : Path) (mode : ℕ) (body : NodeBody) : World :=
  { w.staged p mode body with
    disk := { (w.staged p mode body).disk with
      nodes := Disk.touch ((w.staged p mode body).disk.nodes.erase p) (parentOf p) w.now } }

theorem lookup_cleared_temp : (cleared w p mode body).disk.nodes.lookup (w.temp p) =
      some ⟨w.disk.nextIdent, mode % 0o1000, w.now, body⟩ := by
  have hne : w.temp p ≠ parentOf p := by
    intro heq
    have hlen := congrArg List.length heq
    have hpos := length_pos_iff.mpr h.ne
    rw [World.temp, length_tempPath h.ne, parentOf, length_dropLast] at hlen
    omega
  unfold cleared
  rw [Disk.lookup_touch, if_neg hne, lookup_erase_ne temp_ne, lookup_staged_temp]

theorem lookup_cleared : (cleared w p mode body).disk.nodes.lookup p = none := by
  unfold cleared
  rw [Disk.lookup_touch, if_neg (parentOf_ne h.ne), lookup_erase]

theorem holds_cleared : (cleared w p mode body).disk.holds p = true := by
  have hstaged : (w.staged p mode body).disk.holds p = true := h.holds_staged
  unfold Disk.holds at hstaged ⊢
  have hbody : ((cleared w p mode body).disk.nodes.lookup (parentOf p)).map DiskNode.body =
      ((w.staged p mode body).disk.nodes.lookup (parentOf p)).map DiskNode.body := by
    unfold cleared
    rw [Disk.body_touch, lookup_erase_ne (parentOf_ne h.ne).symm]
  cases hm : (w.staged p mode body).disk.nodes.lookup (parentOf p) with
  | none => simp [hm] at hstaged
  | some m =>
    rw [hm, map_some] at hbody
    obtain ⟨m', hm', hbody'⟩ := map_eq_some_iff.mp hbody
    rw [hm] at hstaged
    rw [hm']
    simpa [hbody'] using hstaged

theorem does_remove (hnames : w.disk.nodes.names p = []) :
    Does (Cmd.remove p).issue (w.staged p mode body) (.ok ()) (cleared w p mode body) := by
  have hremove : (w.staged p mode body).disk.remove w.now p =
      .ok (cleared w p mode body).disk := by
    unfold Disk.remove
    rw [h.lookup_staged_self]
    dsimp only
    rw [if_pos (h.names_staged hnames)]
    rfl
  exact Ends.call (congrArg (diskWrite (w.staged p mode body)) hremove)

theorem does_remove_full (hnames : w.disk.nodes.names p ≠ []) :
    Does (Cmd.remove p).issue (w.staged p mode body) (.error .other) (w.staged p mode body) := by
  have hfull : (w.staged p mode body).disk.nodes.names p ≠ [] := by
    obtain ⟨c, hc⟩ := exists_mem_of_ne_nil _ hnames
    refine ne_nil_of_mem (a := c) (Table.mem_names.mpr ?_)
    rw [h.lookup_staged]
    exact Table.mem_names.mp hc
  have hremove : (w.staged p mode body).disk.remove w.now p = .error .other := by
    unfold Disk.remove
    rw [h.lookup_staged_self]
    dsimp only
    rw [if_neg hfull]
  exact Ends.call (congrArg (diskWrite (w.staged p mode body)) hremove)

/-- The world with what was staged moved to the path that was cleared. -/
def renewed (w : World) (p : Path) (mode : ℕ) (body : NodeBody) : World :=
  { cleared w p mode body with
    disk := (cleared w p mode body).disk.moveTo w.now (w.temp p) p }

theorem does_rename_cleared : Does (Cmd.rename (w.temp p) p).issue
    (cleared w p mode body) (.ok ()) (renewed w p mode body) := by
  have hrename : (cleared w p mode body).disk.rename w.now (w.temp p) p =
      .ok (renewed w p mode body).disk := by
    unfold Disk.rename
    rw [h.lookup_cleared_temp]
    dsimp only
    rw [if_neg temp_ne, if_neg (by simp [h.not_prefix_temp, h.holds_cleared]), h.lookup_cleared]
    rfl
  exact Ends.call (congrArg (diskWrite (cleared w p mode body)) hrename)

theorem lookup_renewed : (renewed w p mode body).disk.nodes.lookup p =
    some ⟨w.disk.nextIdent, mode % 0o1000, w.now, body⟩ := by
  have hparent : p ≠ parentOf (w.temp p) := by
    rw [World.temp, parentOf_tempPath]
    exact parentOf_ne h.ne
  unfold renewed Disk.moveTo
  dsimp only
  rw [Disk.lookup_touch, if_neg (parentOf_ne h.ne), Disk.lookup_touch, if_neg hparent,
    Table.lookup_move, if_pos (prefix_refl p), Table.relocate, drop_length,
    append_nil, h.lookup_cleared_temp]

/-- An empty directory makes place for a link. -/
theorem does_replaceLink_empty (hpath : op.path = p)
    (hconflict : op.conflict = false) (hd : d.body = .dir) (hnames : w.disk.nodes.names p = []) :
    Does (op.replaceLink (w.temp p) (d.body.kind = .dir))
      (w.staged p 0o777 (.symlink op.symlink)) (none, .ok (linkNode w op).info)
      (renewed w p 0o777 (.symlink op.symlink)) := by
  subst hpath
  have hclear : Does (DownloadOp.replaceLink.clear op (d.body.kind = .dir)).run
      (w.staged op.path 0o777 (.symlink op.symlink)) (.ok none)
      (cleared w op.path 0o777 (.symlink op.symlink)) := by
    unfold DownloadOp.replaceLink.clear
    rw [if_neg (by rw [hconflict]; decide), if_pos (by simp [hd, NodeBody.kind])]
    exact (does_ofOs (h.does_remove hnames)).andThen .ok
  refine hclear.bind (h.does_rename_cleared.bind ?_)
  exact (does_lstat h.lookup_renewed).bind (.pure ..)

/-- A directory with something in it does not. -/
theorem does_replaceLink_full (hpath : op.path = p)
    (hconflict : op.conflict = false) (hd : d.body = .dir) (hnames : w.disk.nodes.names p ≠ []) :
    Does (op.replaceLink (w.temp p) (d.body.kind = .dir))
      (w.staged p 0o777 (.symlink op.symlink)) (none, .error (.os .other))
      (w.staged p 0o777 (.symlink op.symlink)) := by
  subst hpath
  have hclear : Does (DownloadOp.replaceLink.clear op (d.body.kind = .dir)).run
      (w.staged op.path 0o777 (.symlink op.symlink)) (.error (.os .other))
      (w.staged op.path 0o777 (.symlink op.symlink)) := by
    unfold DownloadOp.replaceLink.clear
    rw [if_neg (by rw [hconflict]; decide), if_pos (by simp [hd, NodeBody.kind])]
    exact (does_ofOs_error (h.does_remove_full hnames)).fails
  exact hclear.bind (.pure ..)

end

end Place

end Staging

/-! ## The operations -/

/-- How an operation on a path ends that moves nothing aside: the state and the live tree stay as
they were, and `P` holds of what is at the path. -/
structure Settles (p : Path) (P : DiskNode → Prop) (w : World) (res : DownloadResult) (w' : World) :
    Prop where
  state : w'.state = w.state
  remote : w'.remote = w.remote
  path : res.op.path = p
  copy : res.conflictPath = none
  node : ∃ d, w'.disk.nodes.lookup p = some d ∧ P d

variable {depth : ℕ}

section Operations

variable {op : DownloadOp} {cfg : Config}

namespace Place

theorem does_stageLink_ok (h : Place w p d) (hpath : op.path = p) {seen : LocalSnapshot}
    (hseen : seen.info = some d.info) {info : FileInfo}
    (hreplace : Does (op.replaceLink (w.temp p) (d.body.kind = .dir))
      (w.staged p 0o777 (.symlink op.symlink)) (none, .ok info) w') :
    Does (op.stageLink seen) w (op.linked none info) w' :=
  h.does_stageLink_of hpath hseen (hreplace.bind (.pure ..))

theorem filter_seen : ((d.seen c).info.filter fun i =>
    i.kind = .symlink ∧ (d.seen c).target = target) =
      if d.body = .symlink target then some d.info else none := by
  rw [DiskNode.info_seen, filter_some, DiskNode.kind_info]
  unfold DiskNode.seen
  cases hb : d.body with
  | file data | dir | symlink t => simp [NodeBody.kind]

section

variable (h : Place w p d) (he : e.Describes d) (hpath : op.path = p) (hstored : op.stored = some e)

include h he hpath hstored

/-- A link replaces what is there, if it is not there already. -/
theorem does_processLink_of (hne : d.body ≠ .symlink op.symlink) {res : DownloadResult}
    (hstage : Does (op.stageLink (d.seen e.chunkSize)) w res w') :
    Does (op.processLink (d.seen e.chunkSize)) w res w' := by
  unfold DownloadOp.processLink
  rw [hpath]
  refine (does_unchanged DiskNode.info_seen h.node).bind ?_
  rw [if_neg (by decide), filter_seen, if_neg hne]
  dsimp only
  rw [if_neg (by rw [hstored, he.matchesStored]; exact fun h => h.2 rfl)]
  exact hstage

/-- A link is put in place of anything but a directory with something in it. -/
theorem does_processLink (hconflict : op.conflict = false)
    (hd : d.body = .dir → w.disk.nodes.names p = []) :
    ∃ res w', Does (op.processLink (d.seen e.chunkSize)) w res w' ∧
      Settles p (fun d => d.body = .symlink op.symlink) w res w' := by
  by_cases hsame : d.body = .symlink op.symlink
  · refine ⟨op.linked none d.info, w, ?_, rfl, rfl, hpath, rfl, d, h.node, hsame⟩
    unfold DownloadOp.processLink
    rw [hpath]
    refine (does_unchanged DiskNode.info_seen h.node).bind ?_
    rw [if_neg (by decide), filter_seen, if_pos hsame]
    exact .pure ..
  · have hstage : ∀ {w'}, Does (op.replaceLink (w.temp p) (d.body.kind = .dir))
        (w.staged p 0o777 (.symlink op.symlink)) (none, .ok (linkNode w op).info) w' →
        Does (op.processLink (d.seen e.chunkSize)) w (op.linked none (linkNode w op).info) w' :=
      fun hreplace => h.does_processLink_of he hpath hstored hsame
        (h.does_stageLink_ok hpath DiskNode.info_seen hreplace)
    by_cases hdir : d.body = .dir
    · exact ⟨_, _, hstage (h.does_replaceLink_empty hpath hconflict hdir (hd hdir)),
        rfl, rfl, hpath, rfl, _, h.lookup_renewed, rfl⟩
    · exact ⟨_, _, hstage (h.does_replaceLink hpath hconflict hdir),
        rfl, rfl, hpath, rfl, _, h.lookup_replaced, rfl⟩

/-- A directory with something in it stays. -/
theorem does_processLink_full (hconflict : op.conflict = false) (hd : d.body = .dir)
    (hnames : w.disk.nodes.names p ≠ []) :
    ∃ res w', Does (op.processLink (d.seen e.chunkSize)) w res w' ∧
      Settles p (fun d => d.body = .dir) w res w' := by
  refine ⟨{ op, outcome := .failed (.os .other) }, unstaged w p 0o777 (.symlink op.symlink),
    h.does_processLink_of he hpath hstored (by rw [hd]; exact nofun)
      (h.does_stageLink_of hpath DiskNode.info_seen ?_),
    rfl, rfl, hpath, rfl, d, h.lookup_unstaged, hd⟩
  refine (h.does_replaceLink_full hpath hconflict hd hnames).bind ?_
  exact h.does_remove_temp.bind (.pure ..)

end

/-- What `any` asks of a file seen: it has these bytes and this mode. -/
theorem any_seen {mode : ℕ} : ((d.seen c).info.any fun i =>
    i.kind = .file ∧ (d.seen c).hash = sha256Hex data ∧ i.mode = mode) = true ↔
      d.body = .file data ∧ d.mode = mode := by
  rw [DiskNode.info_seen, any_some, DiskNode.kind_info, decide_eq_true_iff]
  unfold DiskNode.seen
  cases hb : d.body with
  | file data' =>
    simp only [NodeBody.kind, true_and, NodeBody.file.injEq]
    exact and_congr_left fun _ => ⟨fun h => sha256Hex_injective h, fun h => by rw [h]⟩
  | dir => simp [NodeBody.kind]
  | symlink t => simp [NodeBody.kind]

/-- The result of a file that is in place as `d`. -/
def written (op : DownloadOp) (stat : StatResult) (hash : Bytes) (mode size : ℕ) (d : DiskNode) :
    DownloadResult :=
  { op, outcome := .done, remoteHash := hash, mode, size, mtimeMs := stat.mtime
    localMtimeMs := d.info.mtimeMs, localInfo := some d.info }

theorem does_fileResult {stat : StatResult} {hash : Bytes} {mode size : ℕ}
    (hp : w.disk.nodes.lookup op.path = some d) :
    Does (op.fileResult stat hash none mode size) w (written op stat hash mode size d) w :=
  (does_lstat hp).bind (.pure ..)

/-- A file is put in place of a file or a link. -/
theorem does_replaceFile (cfg : Config) (h : Place w p d) (he : e.Describes d) (hpath : op.path = p)
    (hstored : op.stored = some e) (hconflict : op.conflict = false) (hd : d.body ≠ .dir)
    (stat : StatResult) (data : Bytes) :
    ∃ res w', Does (op.replaceFile cfg (d.seen e.chunkSize) stat data) w res w' ∧
      Settles p (fun d => d.body = .file data ∧ d.mode = downloadMode cfg stat.mode % 0o1000) w
        res w' := by
  subst hpath
  unfold DownloadOp.replaceFile
  by_cases hsame : d.body = .file data ∧ d.mode = downloadMode cfg stat.mode % 0o1000
  · refine ⟨written op stat (sha256Hex data) (downloadMode cfg stat.mode) data.length d, w,
      (does_unchanged DiskNode.info_seen h.node).bind ?_, rfl, rfl, rfl, rfl, d, h.node, hsame⟩
    rw [if_neg (by decide), if_pos (any_seen.mpr hsame)]
    exact does_fileResult h.node
  · refine ⟨written op stat (sha256Hex data) (downloadMode cfg stat.mode) data.length
        ⟨w.disk.nextIdent, downloadMode cfg stat.mode % 0o1000, w.now, .file data⟩,
      replaced w op.path (downloadMode cfg stat.mode) (.file data),
      (does_unchanged DiskNode.info_seen h.node).bind ?_, rfl, rfl, rfl, rfl, _, h.lookup_replaced,
      rfl, rfl⟩
    rw [if_neg (by decide), if_neg (any_seen.not.mpr hsame),
      if_neg (by rw [hstored, he.matchesStored]; exact fun h => h.2 rfl), hconflict]
    exact (h.does_writeLocalFile hd).bind (does_fileResult h.lookup_replaced)

/-- A directory stays. -/
theorem does_replaceFile_dir (cfg : Config) (h : Place w p d) (he : e.Describes d) (hpath : op.path = p)
    (hstored : op.stored = some e) (hconflict : op.conflict = false) (hd : d.body = .dir)
    (stat : StatResult) (data : Bytes) :
    ∃ res w', Does (op.replaceFile cfg (d.seen e.chunkSize) stat data) w res w' ∧
      Settles p (fun d => d.body = .dir) w res w' := by
  subst hpath
  unfold DownloadOp.replaceFile
  refine ⟨op.notWritten none (.os .other),
    unstaged w op.path (downloadMode cfg stat.mode) (.file data),
    (does_unchanged DiskNode.info_seen h.node).bind ?_, rfl, rfl, rfl, rfl, d, h.lookup_unstaged,
    hd⟩
  rw [if_neg (by decide), if_neg (any_seen.not.mpr fun hs => by rw [hd] at hs; cases hs.1),
    if_neg (by rw [hstored, he.matchesStored]; exact fun h => h.2 rfl), hconflict]
  exact (h.does_writeLocalFile_dir hd).bind (.pure ..)

/-! ### Directories -/

/-- A node with another mode. -/
def withMode (d : DiskNode) (mode : ℕ) : DiskNode := { d with mode := mode % 0o1000 }

/-- The world with the mode of a path set. -/
def chmodded (w : World) (p : Path) (d : DiskNode) (mode : ℕ) : World :=
  { w with disk := { w.disk with nodes := w.disk.nodes.insert p (withMode d mode) } }

/-- A directory takes the mode. -/
theorem does_makeDir (h : Place w p d) (hpath : op.path = p) (hd : d.body = .dir) :
    Does op.makeDir.run w (.ok (withMode d op.mode).info) (chmodded w p d op.mode) := by
  subst hpath
  have hmkdir : Does (Cmd.mkdirAll op.path).issue w (.ok ()) w :=
    Ends.call (congrArg (diskWrite w) (h.sound.mkdirAll h.node hd))
  have hset : w.disk.chmod op.path op.mode = .ok (chmodded w op.path d op.mode).disk := by
    unfold Disk.chmod
    rw [h.node]
    rfl
  have hchmod : Does (Cmd.chmod op.path op.mode).issue w (.ok ()) (chmodded w op.path d op.mode) :=
    Ends.call (congrArg (diskWrite w) hset)
  refine (does_ofOs hmkdir).andThen ((does_ofOs (does_lstat h.node)).andThen
    ((does_ofOs hchmod).andThen (does_ofOs (does_lstat ?_))))
  exact lookup_insert ..

/-- `processDir` on a directory: it has the mode afterwards, also if the operation is skipped. -/
theorem does_processDir (h : Place w p d) (he : e.Describes d) (hpath : op.path = p)
    (hstored : op.stored = some e) (hd : d.body = .dir) :
    ∃ res w', Does (op.processDir cfg) w res w' ∧
      Settles p (fun d => d.body = .dir ∧ d.mode = op.mode % 0o1000) w res w' := by
  subst hpath
  have hmode : d.mode = e.mode % 0o1000 := by
    have := he.2
    rw [hd] at this
    exact this.2.1
  by_cases hkeeps : op.keepsDir cfg d.info
  · -- the mode on disk differs from the recorded one by bits it does not have
    refine ⟨{ op, outcome := .skipped }, w, (does_lstat h.node).bind ?_, rfl, rfl, rfl, rfl, d,
      h.node, hd, ?_⟩
    · have hany : (Except.ok d.info : Except OsErr FileInfo).toOption.any (op.keepsDir cfg) = true :=
        hkeeps
      dsimp only
      rw [if_pos hany]
      exact .pure ..
    · unfold DownloadOp.keepsDir at hkeeps
      rw [hstored, DiskNode.kind_info, hd] at hkeeps
      have hkeeps := of_decide_eq_true hkeeps
      rcases hkeeps with hkind | ⟨-, hkeeps⟩
      · exact absurd rfl hkind
      · rw [any_some] at hkeeps
        rw [(of_decide_eq_true hkeeps).2.2, hmode]
  · refine ⟨{ op, outcome := .done, mode := op.mode, localInfo := some (withMode d op.mode).info },
      chmodded w op.path d op.mode, (does_lstat h.node).bind ?_, rfl, rfl, rfl, rfl, _,
      lookup_insert .., hd, rfl⟩
    have hany : ¬ (Except.ok d.info : Except OsErr FileInfo).toOption.any (op.keepsDir cfg) = true :=
      hkeeps
    dsimp only
    rw [if_neg hany]
    exact (h.does_makeDir rfl hd).bind (.pure ..)

/-- `processDir` on anything else leaves it alone. -/
theorem does_processDir_of_ne (h : Place w p d) (hpath : op.path = p) (hd : d.body ≠ .dir) :
    Does (op.processDir cfg) w { op, outcome := .skipped } w := by
  subst hpath
  have hany : (Except.ok d.info : Except OsErr FileInfo).toOption.any (op.keepsDir cfg) = true :=
    decide_eq_true (.inl fun hk => hd (kind_eq_dir.mp hk))
  refine (does_lstat h.node).bind ?_
  dsimp only
  rw [if_pos hany]
  exact .pure ..

end Place

/-! ### Deletions -/

theorem does_checkNode (he : e.Describes d) (hp : w.disk.nodes.lookup p = some d) :
    Does (checkNode p (some e)).run w (.ok true) w := by
  have hkept : ({ e with deleted := false } : SyncEntry) = e := by
    rw [← he.1]
  unfold checkNode
  rw [map_some, hkept]
  refine (does_snapshot hp _).andThen ((does_unchanged DiskNode.info_seen hp).lift.andThen ?_)
  rw [show storedChunkSize (some e) = e.chunkSize from rfl, he.matchesStored]
  exact .ok

/-- Every node at and under a path is what its entry recorded: `e` at the path itself, and what
`lookup` finds under it. -/
structure Covered (w : World) (lookup : Path → Option SyncEntry) (p : Path) (d : DiskNode)
    (e : SyncEntry) : Prop where
  node : w.disk.nodes.lookup p = some d
  top : e.Describes d
  under : ∀ r d', r ≠ [] → w.disk.nodes.lookup (p ++ r) = some d' →
    ∃ e', lookup (p ++ r) = some e' ∧ e'.Describes d'

/-- A covered subtree is found unchanged by a walk that is deep enough. -/
theorem does_checkTree {lookup : Path → Option SyncEntry} (h : Covered w lookup p d e)
    (hdepth : ∀ r d', w.disk.nodes.lookup (p ++ r) = some d' → r.length < depth) :
    Does (checkTree lookup depth p d.body.kind (some e)).run w (.ok true) w := by
  induction depth generalizing p d e with
  | zero => exact absurd (hdepth [] d (by rw [append_nil]; exact h.node)) (by simp)
  | succ depth ih =>
    unfold checkTree
    refine (does_checkNode h.top h.node).andThen ?_
    rw [if_neg (by decide)]
    by_cases hkind : d.body.kind = .dir
    · rw [if_neg (by rw [hkind]; decide)]
      have hread : w.disk.readDir p = .ok ((w.disk.nodes.names p).filterMap fun c =>
          (w.disk.nodes.lookup (joinPath p c)).map fun n => (c, n.body.kind)) := by
        unfold Disk.readDir
        rw [h.node]
        dsimp only
        rw [if_pos (Place.kind_eq_dir.mp hkind)]
      have hdir : Does (Cmd.readDir p).issue w _ w := Ends.call (congrArg (·, w) hread)
      refine hdir.lift.andThen (Ends.foldlM fun c hc => ?_)
      obtain ⟨name, -, hname⟩ := mem_filterMap.mp hc
      obtain ⟨d', hd', rfl⟩ := map_eq_some_iff.mp hname
      obtain ⟨e', he', hdesc⟩ := h.under [name] d' (by simp) hd'
      rw [if_pos rfl]
      dsimp only
      rw [show joinPath p name = p ++ [name] from rfl, he']
      refine ih ⟨hd', hdesc, fun r d'' hr hd'' => ?_⟩ fun r d'' hd'' => ?_
      · rw [append_assoc] at hd'' ⊢
        exact h.under _ d'' (by simp) hd''
      · rw [append_assoc] at hd''
        have hlen := hdepth _ d'' hd''
        rw [length_append, length_singleton] at hlen
        omega
    · rw [if_pos hkind]
      exact .ok

/-- What was seen is taken away. -/
theorem does_removeLocal (h : Place w p d) {seen : LocalSnapshot} (hseen : seen.info = some d.info) :
    ∃ k : Disk, k.nodes.lookup p = none ∧
      Does (removeLocal p seen).run w (.ok true) { w with disk := k } := by
  unfold removeLocal
  by_cases hdir : d.body = .dir
  · refine ⟨w.disk.removeAll w.now p, ?_, (does_unchanged hseen h.node).lift.andThen ?_⟩
    · unfold Disk.removeAll
      rw [Disk.lookup_touch, if_neg (parentOf_ne h.ne), Table.lookup_removeAll,
        if_pos (prefix_refl p)]
    · have hany : (seen.info.any fun i => i.kind = .dir) = true := by
        rw [hseen, any_some, DiskNode.kind_info]
        exact decide_eq_true (Place.kind_eq_dir.mpr hdir)
      rw [if_neg (by decide), hany]
      dsimp only
      rw [if_pos rfl]
      have hremove : Does (Cmd.removeAll p).issue w (.ok ())
          { w with disk := w.disk.removeAll w.now p } := Ends.call rfl
      exact hremove.lift.andThen .ok
  · refine ⟨{ w.disk with nodes := Disk.touch (w.disk.nodes.erase p) (parentOf p) w.now }, ?_,
      (does_unchanged hseen h.node).lift.andThen ?_⟩
    · rw [Disk.lookup_touch, if_neg (parentOf_ne h.ne), lookup_erase]
    · have hany : (seen.info.any fun i => i.kind = .dir) = false := by
        rw [hseen, any_some, DiskNode.kind_info]
        exact decide_eq_false (Place.kind_eq_dir.not.mpr hdir)
      have hdisk : w.disk.remove w.now p = .ok { w.disk with
          nodes := Disk.touch (w.disk.nodes.erase p) (parentOf p) w.now } := by
        unfold Disk.remove
        rw [h.node]
        dsimp only
        rw [if_pos (h.sound.names_eq_nil h.node hdir)]
      rw [if_neg (by decide), hany]
      dsimp only
      rw [if_neg (by decide)]
      have hremove : Does (Cmd.remove p).issue w (.ok ()) _ :=
        Ends.call (congrArg (diskWrite w) hdisk)
      exact hremove.lift.andThen .ok

/-- The world without a path, on disk and in the state. -/
def World.without (w : World) (p : Path) (k : Disk) : World :=
  { w with disk := k, state := w.state.removeAll p }

/-- A covered subtree that is gone from the live tree is taken away. -/
theorem does_applySyncRemoteDelete (h : Place w p d) (hcover : Covered w w.state.entry p d e)
    (hdepth : ∀ r d', w.disk.nodes.lookup (p ++ r) = some d' → r.length < depth)
    (hcurrent : w.state.isCurrent p (some e) = true) : ∃ k : Disk, k.nodes.lookup p = none ∧
      Does (applySyncRemoteDelete depth p (some e)).run w (.ok (none, true)) (w.without p k) := by
  obtain ⟨k, hk, hremove⟩ := does_removeLocal h (DiskNode.info_seen (d := d) (c := e.chunkSize))
  refine ⟨k, hk, ?_⟩
  have hupdate : Does (Cmd.update id).issue w w.state w := Ends.call rfl
  have hpreserve : Does (preserveLocalDeleteConflict depth p (some e) w.state.entry).run w
      (.ok none) w := by
    refine (does_lstat h.node).lift.andThen ((does_checkTree hcover hdepth).andThen ?_)
    rw [if_pos rfl]
    exact .ok
  unfold applySyncRemoteDelete
  refine hupdate.lift.andThen ?_
  rw [hcurrent, if_neg (by decide)]
  refine (does_snapshot h.node _).andThen (hpreserve.andThen ?_)
  dsimp only
  refine hremove.andThen ?_
  rw [if_neg (by decide)]
  have hforget : Does (Cmd.update (·.removeAll p)).issue { w with disk := k } w.state
      (w.without p k) := Ends.call rfl
  exact hforget.lift.andThen .ok

theorem does_processDelete (h : Place w p d) (hpath : op.path = p) (hstored : op.stored = some e)
    (hcover : Covered w w.state.entry p d e)
    (hdepth : ∀ r d', w.disk.nodes.lookup (p ++ r) = some d' → r.length < depth)
    (hcurrent : w.state.isCurrent p (some e) = true) (hstat : w.remote.stat p = .ok none) :
    ∃ k : Disk, k.nodes.lookup p = none ∧
      Does (op.processDelete depth) w { op, outcome := .done } (w.without p k) := by
  obtain ⟨k, hk, happly⟩ := does_applySyncRemoteDelete h hcover hdepth hcurrent
  refine ⟨k, hk, ?_⟩
  have hgone : Does (Cmd.stat p).issue w (.ok none) w := Ends.call (congrArg (·, w) hstat)
  unfold DownloadOp.processDelete applyConfirmedSyncRemoteDelete
  rw [hpath, hstored]
  exact (hgone.lift.andThen happly).bind (.pure ..)

end Operations

end Afs.Sync
