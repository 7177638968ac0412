import Afs.Client.Justified
import Afs.Client.Steps

/-!
# A workspace and its clients

Any number of clients work on one workspace. Each runs requests command by command, the commands
of all of them mixed in any order, and any command or reply may be lost. What holds of the
workspace in every state they reach:

* entries and inodes agree (`LinksConsistent`), unless a rename goes to its own slot;
* the counters count (`Accounted`), on the same condition and if the root was there to begin with;
* the directories are a tree (`TreeShaped`), unless a rename goes below what it moves. Nothing in
  the code prevents that: the test for it compares path strings, and it is made before the
  transaction.
-/

namespace Afs.Client

open History LinkTree Option Function

/-! ## Clients -/

/-- A client may start any request, by itself or within a session. -/
def Starts (ctx : Ctx) (p : Prog sig (Except Err Unit)) : Prop :=
  ∃ r : Request, p = (r.op ctx).run ∨ p = (r.inSession ctx).run

/-- The commands as they are, where every rename that goes through meets `ok`. -/
def Renames (ok : RenameArgs → World → Prop) (ctx : Ctx) (c : Cmd) (w : World)
    (r : Except Err (Val c)) (w' : World) : Prop :=
  Exec ctx c w r w' ∧ ∀ a replaced noReplace watched,
    c = .renameMetadata a replaced noReplace watched →
    renameGuard a replaced noReplace watched w.toStore = .ok () →
    renameMetadataCheck a w.toStore = none → ok a w

variable {ctx : Ctx}

theorem proper_of_starts {p : Prog sig (Except Err Unit)} (hp : Starts ctx p) :
    Prog.Track provenance (fun _ _ => True) [] p := by
  obtain ⟨r, rfl | rfl⟩ := hp
  · exact Prog.Track.mono (Request.proper (.inl rfl)) fun _ _ _ => trivial
  · exact Prog.Track.mono (Request.proper (.inr rfl)) fun _ _ _ => trivial

/-! ## The beginning -/

/-- A workspace to start from: a whole tree, with nothing in it from the future. -/
structure WellFormed (w : World) : Prop where
  whole : (treeOf w.toStore).Whole rootInodeID
  root : (treeOf w.toStore).IsDir rootInodeID ∨ ∀ i, (treeOf w.toStore).node i = none
  sizes : ∀ i, w.kind i = some .file → 0 ≤ w.size i
  numbers : ∀ i, (w.kind i).isSome → i ≤ w.nextInode.getD 0
  started : ∀ n, w.nextInode = some n → rootInodeID ≤ n
  revisions : ∀ i t, (w.inode i).bind (·.revision) = some t → t ≤ w.tokens
  tidy : ∀ i f, w.inode i = some f → f.type = none → f.size = none
  cold : w.cached = []

/-- The claims of the inodes that are there. -/
def present (w : World) : Set Claim :=
  {k | ∃ i x, (treeOf w.toStore).node i = some x ∧ k = nodeClaim (refOf w.toStore i) i x}

variable {w : World}

theorem WellFormed.coherent (hw : WellFormed w) : Coherent (present w) where
  kind := by
    rintro _ ⟨i, x, hx, rfl⟩ _ ⟨j, y, hy, rfl⟩ (rfl : i = j)
    rw [hx] at hy
    cases hy
    rfl
  size := by
    rintro _ ⟨i, x, hx, rfl⟩ _ ⟨j, y, hy, rfl⟩ (rfl : i = j) -
    rw [hx] at hy
    cases hy
    rfl
  ref := by
    rintro _ ⟨i, x, hx, rfl⟩ _ ⟨j, y, hy, rfl⟩ (rfl : i = j) -
    rw [hx] at hy
    cases hy
    rfl
  nonneg := by
    rintro _ ⟨i, x, hx, rfl⟩
    by_cases hk : x.kind = .file
    · have hsize := hw.sizes i (hk ▸ kind_of_node hx)
      rw [size_of_node hx] at hsize
      simpa [nodeClaim, Claim.of, hk] using hsize
    · simp [nodeClaim, Claim.of, hk]
  plain := by
    rintro _ ⟨i, x, hx, rfl⟩ hk
    exact Claim.of_plain hk
  root := by
    rintro _ ⟨i, x, hx, rfl⟩ (rfl : i = rootInodeID)
    exact hw.whole.root_dir x hx

theorem WellFormed.shows (hw : WellFormed w) : Shows (present w) w where
  node i x hx := ⟨i, x, hx, rfl⟩
  entry p i hi := by
    obtain ⟨x, hx⟩ := hw.whole.live p i hi
    exact ⟨_, ⟨i, x, hx, rfl⟩, rfl⟩
  cached e he := by
    rw [hw.cold] at he
    cases he
  token := by
    rintro _ ⟨i, x, hx, rfl⟩
    have hrev := revision_of_node hx
    show x.revision ≤ w.tokens
    rw [← hrev, Store.revision]
    cases ht : (w.inode i).bind (·.revision) with
    | none => exact Nat.zero_le _
    | some t => exact hw.revisions i t ht
  stored := hw.revisions
  number := by
    rintro _ ⟨i, x, hx, rfl⟩
    refine ⟨hw.numbers i (by simp [kind_of_node hx]), ?_⟩
    obtain ⟨y, hy, -⟩ | hnone := hw.root
    · exact hw.numbers rootInodeID (by simp [kind_of_node hy])
    · rw [hnone i] at hx
      cases hx
  started := hw.started
  tidy := hw.tidy
  formed := by
    rintro _ f hf hnone - _ ⟨i, x, hx, rfl⟩ rfl -
    have hkind := kind_of_node hx
    have hinode : w.inode i = some f := hf
    simp [Store.kind, hinode, hnone] at hkind

/-- A workspace to start from has a ledger. -/
theorem WellFormed.ledger (hw : WellFormed w) : Ledger (present w) w fun _ => none where
  coherent := hw.coherent
  shows := hw.shows
  faithful _ _ hi := by cases hi
  supplied _ _ hi := by cases hi
  apart _ _ _ _ _ hi := by cases hi

variable {mem : ℕ → Option Memory}

/-- What holds of all operations but one, and of the new memory of that one. -/
theorem forall_update {i : ℕ} {h₀ : Memory} {p : Memory → Prop}
    (hnew : p h₀) (hold : ∀ j h, mem j = some h → p h) (j : ℕ) (h : Memory)
    (hj : Function.update mem i (some h₀) j = some h) : p h := by
  by_cases hji : j = i
  · subst hji
    rw [update_self] at hj
    cases hj
    exact hnew
  · rw [update_of_ne hji] at hj
    exact hold j h hj

theorem Faithful.nil (L : Set Claim) : Faithful L [] where
  seen d hd := by rcases hd with ⟨_, hm⟩ | ⟨_, hm⟩ <;> cases hm
  based e he := by cases he
  created e he := by cases he
  spent t ht := by
    obtain ⟨e, he, -⟩ := ht
    cases he
  placed i hi := by
    obtain ⟨e, he, -⟩ := hi
    cases he

theorem not_drawn_nil (t : Token) : ¬ Drawn [] t := by
  rintro ⟨e, he, -⟩
  cases he

theorem not_allocated_nil (i : Id) : ¬ Allocated [] i := by
  rintro ⟨e, he, -⟩
  cases he

theorem Supplied.nil (L : Set Claim) (w : World) : Supplied L w [] where
  drawn t ht := absurd ht (not_drawn_nil t)
  allocated i hi := absurd hi (not_allocated_nil i)
  held t ht := by cases ht.1
  vacant i hi := by cases hi.1

/-- An operation that has done nothing remembers nothing. -/
theorem Ledger.start {L : Set Claim} (hL : Ledger L w mem) (i : ℕ) :
    Ledger L w (Function.update mem i (some [])) := by
  refine ⟨hL.coherent, hL.shows, forall_update (.nil L) hL.faithful,
    forall_update (.nil L w) hL.supplied, fun j k h h' hjk hj hk => ?_⟩
  by_cases hji : j = i
  · subst hji
    rw [update_self] at hj
    cases hj
    exact ⟨fun t ht => absurd ht (not_drawn_nil t), fun j hj => absurd hj (not_allocated_nil j)⟩
  · rw [update_of_ne hji] at hj
    by_cases hki : k = i
    · subst hki
      rw [update_self] at hk
      cases hk
      exact ⟨fun t _ => not_drawn_nil t, fun j _ => not_allocated_nil j⟩
    · rw [update_of_ne hki] at hk
      exact hL.apart j k h h' hjk hj hk

/-! ## One client by itself -/

/-- The command is a rename. -/
def Cmd.renames : Cmd → Bool
  | .renameMetadata .. => true
  | _ => false

/-- One client runs requests one after the other, and nobody else does anything. -/
def runRequests (w : World) (rs : List Request) : World :=
  rs.foldl (fun w r => ((r.op {}).run.run (seqExec {}) w).2) w

theorem slot_requests (rs : List Request) (j : ℕ) (P : Clients) :
    ∃ threads, Pool.Slot Starts Exec j P ⟨runRequests P.store rs, threads⟩ := by
  induction rs generalizing P with
  | nil => exact ⟨P.threads, .refl⟩
  | cons r rs ih =>
    have hstart : Starts {} (r.op {}).run := ⟨r, .inl rfl⟩
    obtain ⟨threads, h⟩ :=
      Pool.slot_program hstart j (P := P) fun _ he => (seqExec_trace {} _ _).mem he
    obtain ⟨threads', h'⟩ := ih ⟨_, threads⟩
    exact ⟨threads', h.trans h'⟩

theorem run_requests (rs : List Request) (P : Clients) :
    ∃ threads, Pool.Run Starts Exec P ⟨runRequests P.store rs, threads⟩ := by
  obtain ⟨threads, h⟩ := slot_requests rs 0 P
  exact ⟨threads, h.run⟩

/-- What one client does before each exchange of another. -/
def between (env : List (List Request)) : List (World → World) :=
  env.map fun rs w => runRequests w rs

/-- A call in slot 1 while the client in slot 0 runs requests between its exchanges. -/
theorem call_between {β : Type} (ctx : Ctx) (env : List (List Request)) (p : Prog sig β) {P : Clients}
    (hfree : P.threads 1 = none) : ∃ Q, Pool.Call Starts Exec 1 ctx P p
      (Prog.interleave (seqExec ctx) (between env) p P.store).1
      (.ret (Prog.interleave (seqExec ctx) (between env) p P.store).2) Q := by
  refine Pool.Call.scheduled (j := 0) (fun _ _ => ⟨{}, rfl⟩) (by decide) _ (fun f hf P => ?_) p P hfree
  obtain ⟨rs, -, rfl⟩ := List.mem_map.mp hf
  exact slot_requests rs 0 P

/-- A request that renames nothing is within `Renames`. -/
theorem run_request_still {ok : RenameArgs → World → Prop} {r : Request} {P : Clients}
    (hr : ∀ e ∈ (Prog.interleave (seqExec ctx) [] (r.op ctx).run P.store).1,
      e.cmd.renames = false) : ∃ threads, Pool.Run Starts (Renames ok) P
      ⟨((r.op ctx).run.run (seqExec ctx) P.store).2, threads⟩ := by
  refine Pool.run_program ⟨r, .inl rfl⟩ fun e he => ⟨?_, fun a replaced noReplace watched hc => ?_⟩
  · exact (seqExec_trace ctx _ _).mem he
  · have hnot := hr e he
    rw [hc] at hnot
    cases hnot

/-- A workspace with nothing but its root. -/
def bareWorld : World :=
  { inode := fun id =>
      if id = rootInodeID then some { type := some .dir, parent := some 0, name := some [] }
      else none
    info := some { directories := 1 }
    nextInode := some rootInodeID }

theorem kind_bareWorld (i : Id) :
    bareWorld.kind i = if i = rootInodeID then some .dir else none := by
  unfold Store.kind bareWorld
  dsimp only
  split_ifs <;> rfl

variable {i : Id}

theorem kind_bareWorld_eq_some {k : Kind} :
    bareWorld.kind i = some k ↔ i = rootInodeID ∧ k = .dir := by
  rw [kind_bareWorld]
  split_ifs with hi <;> simp [hi, eq_comm]

theorem node_bareWorld {x : Node Id Name} (hx : (treeOf bareWorld.toStore).node i = some x) :
    i = rootInodeID ∧ x.kind = .dir := kind_bareWorld_eq_some.mp (kind_of_node hx)

theorem wellFormed_bareWorld : WellFormed bareWorld where
  whole :=
    { root_dir := fun x hx => (node_bareWorld hx).2
      root_free := fun s => (by cases s; exact nofun)
      home := fun i x hx hi => absurd (node_bareWorld hx).1 hi
      dirs := nofun
      once := fun s s' i hi => by cases hi
      live := nofun
      content := nofun }
  root := .inl (isDir_of_kind (kind_bareWorld_eq_some.mpr ⟨rfl, rfl⟩))
  sizes i hi := by cases (kind_bareWorld_eq_some.mp hi).2
  numbers i hi := by
    obtain ⟨k, hk⟩ := isSome_iff_exists.mp hi
    exact (kind_bareWorld_eq_some.mp hk).1.le
  started n hn := by
    cases hn
    exact le_rfl
  revisions i t ht := by
    obtain ⟨f, hf, ht⟩ := bind_eq_some_iff.mp ht
    simp only [bareWorld] at hf
    split_ifs at hf
    cases hf
    cases ht
  tidy i f hf ht := by
    simp only [bareWorld] at hf
    split_ifs at hf
    cases hf
    rfl
  cold := rfl

/-- The workspace after one client has created `/a`. -/
def oneDir : World := (((Request.mkdir [47, 97] 0o755).op {}).run.run (seqExec {}) bareWorld).2

theorem run_oneDir (ok : RenameArgs → World → Prop) :
    ∃ threads, Pool.Run Starts (Renames ok) (idle bareWorld) ⟨oneDir, threads⟩ :=
  run_request_still (P := idle bareWorld) (by decide +kernel)

/-! ## Entries and inodes -/

/-- Entries and inodes agree. An inode is there when its hash has a type, as for the client. -/
structure LinksConsistent (s : Store) : Prop where
  /-- An entry leads to an inode that names the entry. -/
  entry : ∀ d n i, s.lookup d n = some i →
    (s.kind i).isSome ∧ (s.fields i).parent = some d ∧ (s.fields i).name = some n
  /-- Every inode but the root has one entry. -/
  linked : ∀ i, (s.kind i).isSome → i ≠ rootInodeID → ∃! p : Id × Name, s.lookup p.1 p.2 = some i
  /-- Only directories have entries. -/
  dirs : ∀ d n i, s.lookup d n = some i → s.kind d = some .dir
  /-- Only inodes have content. -/
  content : ∀ i, (s.content i).isSome → (s.kind i).isSome

variable {s : Store}

/-- The slot of an inode is what its fields say. -/
theorem fields_of_slot {x : Node Id Name} {p : Id × Name} (hx : (treeOf s).node i = some x)
    (hp : x.slot = some p) : (s.fields i).parent = some p.1 ∧ (s.fields i).name = some p.2 := by
  rw [← fields_node] at hx
  obtain ⟨k, -, rfl⟩ := map_eq_some_iff.mp hx
  obtain ⟨d, hd, hslot⟩ := bind_eq_some_iff.mp hp
  obtain ⟨n, hn, rfl⟩ := map_eq_some_iff.mp hslot
  exact ⟨hd, hn⟩

theorem linksConsistent_of_whole (h : (treeOf s).Whole rootInodeID) : LinksConsistent s where
  entry d n i hi := by
    obtain ⟨x, hx⟩ := h.live (d, n) i hi
    have hroot : i ≠ rootInodeID := by
      rintro rfl
      exact h.root_free (d, n) hi
    obtain ⟨p, hp, hentry⟩ := h.home i x hx hroot
    obtain rfl := h.once _ (d, n) _ hentry hi
    exact ⟨by simp [kind_of_node hx], fields_of_slot hx hp⟩
  linked i hi hroot := by
    obtain ⟨k, hk⟩ := isSome_iff_exists.mp hi
    obtain ⟨x, hx, -⟩ := node_of_kind hk
    obtain ⟨p, -, hentry⟩ := h.home i x hx hroot
    exact ⟨p, hentry, fun q hq => h.once q p i hq hentry⟩
  dirs d n i hi := by
    obtain ⟨x, hx, hk⟩ := h.dirs (d, n) i hi
    rw [← hk]
    exact kind_of_node hx
  content i hi := by
    obtain ⟨x, hx⟩ := h.content i hi
    simp [kind_of_node hx]

/-- Habits of clients whose renames leave their slot. -/
def leaving (resets : Prop) : Habits Id Name := ⟨fun _ _ _ => True, False, resets⟩

/-- A rename between two slots. -/
def LeavesSlot (a : RenameArgs) (_ : World) : Prop := a.source ≠ a.target

variable {c : Cmd} {w' : World} {r : Except Err (Val c)}

theorem within_leaving {resets : Prop} (h : Renames LeavesSlot ctx c w r w')
    (hr : ∀ now, c = .createRoot now → resets) : Within (leaving resets) c w where
  ownSlot a r n wt hc hg hp heq := h.2 a r n wt hc hg hp heq
  moves _ _ _ _ _ _ _ := trivial
  resets := hr

/-- **Entries and inodes agree in every state the clients reach.** -/
theorem links_consistent {w : World} (hw : WellFormed w) {P : Clients}
    (h : Pool.Run Starts (Renames LeavesSlot) (idle w) P) : LinksConsistent P.store.toStore := by
  have hinv := Pool.invariant (M := provenance)
    (I := fun w mem => (∃ L, Ledger L w mem) ∧ (treeOf w.toStore).Whole rootInodeID)
    (fun ctx p hp => proper_of_starts hp)
    (fun w mem i ⟨⟨L, hL⟩, ht⟩ => ⟨⟨L, hL.start i⟩, ht⟩)
    (fun ctx w mem i h c r w' ⟨⟨L, hL⟩, ht⟩ hi hj hexec => ?_)
    ⟨⟨_, hw.ledger⟩, hw.whole⟩ h
  · obtain ⟨mem, ⟨-, ht⟩, -⟩ := hinv
    exact linksConsistent_of_whole ht
  · obtain ⟨hadm, ⟨L', -, hL'⟩, ⟨new, hstep⟩, -⟩ :=
      hL.exchange hi ht.toLinked hj (within_leaving hexec fun _ _ => True.intro) hexec.1
    exact ⟨hadm, ⟨L', hL'⟩, hstep.whole id ht⟩

theorem oneDir_links_consistent : oneDir.lookup rootInodeID [97] = some 2 ∧
    LinksConsistent oneDir.toStore := by
  obtain ⟨threads, h⟩ := run_oneDir LeavesSlot
  exact ⟨by decide +kernel, links_consistent wellFormed_bareWorld h⟩

/-! ## The counters -/

/-- The counters count the inodes there are and the bytes of the files. -/
structure Accounted (s : Store) : Prop where
  finite : {i | (s.kind i).isSome}.Finite
  files : s.counters.files = ({i | s.kind i = some .file} : Set Id).ncard
  directories : s.counters.directories = ({i | s.kind i = some .dir} : Set Id).ncard
  symlinks : s.counters.symlinks = ({i | s.kind i = some .symlink} : Set Id).ncard
  bytes : s.counters.totalDataBytes = ∑ᶠ i, if s.kind i = some .file then s.size i else 0

theorem places_treeOf (s : Store) : places (treeOf s).node = {i | (s.kind i).isSome} := by
  ext i
  rw [places, Set.mem_ofPred_eq, Set.mem_ofPred_eq, ne_eq, node_eq_none_iff, isSome_iff_ne_none]

theorem setOf_node_kind (s : Store) (k : Kind) :
    {i | ∃ x, (treeOf s).node i = some x ∧ x.kind = k} = {i | s.kind i = some k} := by
  ext i
  constructor
  · rintro ⟨x, hx, rfl⟩
    exact kind_of_node hx
  · exact node_of_kind

/-- What the counters should be. -/
theorem tally_treeOf (hf : (places (treeOf s).node).Finite) (m : Measure) :
    tally (Node.weight m) (treeOf s).node =
      match m with
      | .files => (({i | s.kind i = some .file} : Set Id).ncard : ℤ)
      | .directories => ({i | s.kind i = some .dir} : Set Id).ncard
      | .symlinks => ({i | s.kind i = some .symlink} : Set Id).ncard
      | .bytes => ∑ᶠ i, if s.kind i = some .file then s.size i else 0 := by
  have hcount : ∀ (m : Measure) (k : Kind),
      (∀ x : Node Id Name, x.kind = k → x.weight m = 1) →
      (∀ x : Node Id Name, x.kind ≠ k → x.weight m = 0) →
      tally (Node.weight m) (treeOf s).node = (({i | s.kind i = some k} : Set Id).ncard : ℤ) := by
    intro m k hone hzero
    rw [tally_eq_ncard hf hone hzero, setOf_node_kind]
  cases m with
  | files =>
    refine hcount .files .file (fun x hx => by simp [Node.weight, hx]) fun x hx => ?_
    cases hk : x.kind <;> simp [Node.weight, hk]
    exact hx hk
  | directories =>
    refine hcount .directories .dir (fun x hx => by simp [Node.weight, hx]) fun x hx => ?_
    cases hk : x.kind <;> simp [Node.weight, hk]
    exact hx hk
  | symlinks =>
    refine hcount .symlinks .symlink (fun x hx => by simp [Node.weight, hx]) fun x hx => ?_
    cases hk : x.kind <;> simp [Node.weight, hk]
    exact hx hk
  | bytes =>
    refine finsum_congr fun i => ?_
    cases hx : (treeOf s).node i with
    | none => simp [node_eq_none_iff.mp hx]
    | some x =>
      rw [kind_of_node hx, size_of_node hx, weigh_some]
      cases hk : x.kind <;> simp [Node.weight, hk]

theorem balanced_iff : (treeOf s).Balanced rootInodeID ↔
    s.kind rootInodeID = some .dir ∧ Accounted s := by
  have hbooks : ∀ m, (treeOf s).books m = s.counters.measure m := fun _ => rfl
  constructor
  · rintro ⟨⟨x, hx, hk⟩, hf, hb⟩
    refine ⟨hk ▸ kind_of_node hx, places_treeOf s ▸ hf, ?_, ?_, ?_, ?_⟩
    · exact (hb .files).trans (tally_treeOf hf .files)
    · exact (hb .directories).trans (tally_treeOf hf .directories)
    · exact (hb .symlinks).trans (tally_treeOf hf .symlinks)
    · exact (hb .bytes).trans (tally_treeOf hf .bytes)
  · rintro ⟨hroot, hfin, hfiles, hdirs, hlinks, hbytes⟩
    have hf : (places (treeOf s).node).Finite := places_treeOf s ▸ hfin
    refine ⟨isDir_of_kind hroot, hf, fun m => ?_⟩
    rw [tally_treeOf hf m, hbooks]
    cases m with
    | files => exact hfiles
    | directories => exact hdirs
    | symlinks => exact hlinks
    | bytes => exact hbytes

/-- The operation has not seen the root missing. -/
def RootSeen (h : Memory) : Prop := ⟨.loadInode rootInodeID, .ok none⟩ ∉ h

/-- As long as the root is there, nobody sees it missing. -/
theorem RootSeen.cons {h : Memory} (hh : RootSeen h) (hroot : w.kind rootInodeID = some .dir)
    (hexec : Exec ctx c w r w') : RootSeen (⟨c, r⟩ :: h) := by
  intro hm
  obtain heq | hm := List.mem_cons.mp hm
  · cases heq
    obtain ⟨o, ho⟩ := hexec
    have hload : loadInodeByID w.toStore rootInodeID = none := by
      simpa [effect] using congrArg Prod.fst (exec_ok ho)
    obtain ⟨f, hf, hk⟩ := bind_eq_some_iff.mp hroot
    simp [loadInodeByID, hf, inodeFromHash, hk] at hload
  · exact hh hm

theorem accounted_bareWorld : Accounted bareWorld.toStore := by
  have hset : ∀ k, {i | bareWorld.kind i = some k} = {i | i = rootInodeID ∧ k = .dir} := fun k =>
    Set.ext fun _ => kind_bareWorld_eq_some
  refine ⟨?_, ?_, ?_, ?_, ?_⟩
  · refine (Set.finite_singleton rootInodeID).subset fun i hi => ?_
    obtain ⟨k, hk⟩ := isSome_iff_exists.mp hi
    exact (kind_bareWorld_eq_some.mp hk).1
  · rw [hset]
    simp [bareWorld, Store.counters]
  · rw [hset]
    simp [bareWorld, Store.counters]
  · rw [hset]
    simp [bareWorld, Store.counters]
  · have hzero : ∀ i, (if bareWorld.kind i = some .file then bareWorld.size i else 0) = 0 := by
      simp [kind_bareWorld_eq_some]
    rw [finsum_congr hzero, finsum_zero]
    rfl

section Shape

open Forest

/-- The parent an inode names; the root has none. -/
def parentField (s : Store) (i : Id) : Option Id :=
  if i = rootInodeID then none else (s.kind i).bind fun _ => (s.fields i).parent

/-- The directories are a tree below the root. -/
structure TreeShaped (s : Store) : Prop where
  /-- Following parents from an inode leads to the root. -/
  climbs : ∀ i, (s.kind i).isSome → Climbs (parentField s) i rootInodeID
  /-- Nothing is its own ancestor. -/
  acyclic : ∀ i p, (s.kind i).isSome → parentField s i = some p → ¬ Climbs (parentField s) p i
  /-- Entries lead from the root to every inode. -/
  reachable : ∀ i, (s.kind i).isSome → ∃ path, walk s path rootInodeID = some i

/-- The directory a rename goes to is not the inode it moves, and not below it. -/
def GoesOutside (a : RenameArgs) (w : World) : Prop :=
  ¬ Climbs (parentField w.toStore) a.newParent a.id

theorem up_treeOf (h : (treeOf s).Linked rootInodeID) :
    up rootInodeID (treeOf s).node = parentField s := by
  funext i
  unfold up parentField
  split_ifs with hi
  · rfl
  · cases hx : (treeOf s).node i with
    | none => rw [node_eq_none_iff.mp hx]; rfl
    | some x =>
      obtain ⟨p, hp, -⟩ := h.home i x hx hi
      rw [kind_of_node hx, bind_some, bind_some, (fields_of_slot hx hp).1, hp]
      rfl

theorem walk_append (s : Store) (path : Path) (n : Name) (d i : Id) :
    walk s (path ++ [n]) i = some d ↔ ∃ p, walk s path i = some p ∧ s.lookup p n = some d := by
  induction path generalizing i with
  | nil => cases h : s.lookup i n <;> simp [walk, h]
  | cons m path ih => cases h : s.lookup i m <;> simp [walk, h, ih]

/-- What climbs to the root is reached from it. -/
theorem walk_of_climbs (h : (treeOf s).Linked rootInodeID)
    (hi : Climbs (up rootInodeID (treeOf s).node) i rootInodeID) :
    ∃ path, walk s path rootInodeID = some i := by
  induction hi using Relation.ReflTransGen.head_induction_on with
  | refl => exact ⟨[], rfl⟩
  | head hstep _ ih =>
    obtain ⟨path, hpath⟩ := ih
    obtain ⟨-, -, n, -, -, hentry⟩ := h.up_eq_some hstep
    exact ⟨path ++ [n], (walk_append s path n _ _).mpr ⟨_, hpath, hentry⟩⟩

theorem treeShaped_of_grown (h : (treeOf s).Linked rootInodeID)
    (hg : (treeOf s).Grown rootInodeID) : TreeShaped s := by
  have hclimbs : ∀ i, (s.kind i).isSome → Climbs (up rootInodeID (treeOf s).node) i rootInodeID := by
    intro i hi
    obtain ⟨k, hk⟩ := isSome_iff_exists.mp hi
    obtain ⟨x, hx, -⟩ := node_of_kind hk
    exact hg i x hx
  refine ⟨fun i hi => ?_, fun i p hi hp => ?_, fun i hi => walk_of_climbs h (hclimbs i hi)⟩
  · rw [← up_treeOf h]
    exact hclimbs i hi
  · rw [← up_treeOf h] at hp ⊢
    exact not_cycle (up_root _) (hclimbs i hi) hp

/-- Habits of clients that move nothing below itself. -/
def outward : Habits Id Name :=
  ⟨fun t i d => ¬ Climbs (up rootInodeID t.node) d i, True, True⟩

theorem within_outward (hlinks : (treeOf w.toStore).Linked rootInodeID)
    (h : Renames GoesOutside ctx c w r w') : Within outward c w where
  ownSlot _ _ _ _ _ _ _ _ := trivial
  moves a r n wt hc hg hp := by
    have ha : GoesOutside a w := h.2 a r n wt hc hg hp
    rwa [GoesOutside, ← up_treeOf hlinks] at ha
  resets _ _ := trivial

/-- **The directories are a tree in every state the clients reach**, if no rename that goes
through moves an inode below itself. -/
theorem tree_shaped {w : World} (hw : WellFormed w) (hshape : TreeShaped w.toStore) {P : Clients}
    (h : Pool.Run Starts (Renames GoesOutside) (idle w) P) : TreeShaped P.store.toStore := by
  have hgrown : (treeOf w.toStore).Grown rootInodeID := by
    intro i x hx
    rw [up_treeOf hw.whole.toLinked]
    exact hshape.climbs i (by simp [kind_of_node hx])
  have hinv := Pool.invariant (M := provenance)
    (I := fun w mem => (∃ L, Ledger L w mem) ∧ (treeOf w.toStore).Linked rootInodeID ∧
      (treeOf w.toStore).Grown rootInodeID)
    (fun ctx p hp => proper_of_starts hp)
    (fun w mem i ⟨⟨L, hL⟩, ht, hg⟩ => ⟨⟨L, hL.start i⟩, ht, hg⟩)
    (fun ctx w mem i h c r w' ⟨⟨L, hL⟩, ht, hg⟩ hi hj hexec => ?_)
    ⟨⟨_, hw.ledger⟩, hw.whole.toLinked, hgrown⟩ h
  · obtain ⟨mem, ⟨-, ht, hg⟩, -⟩ := hinv
    exact treeShaped_of_grown ht hg
  · obtain ⟨hadm, ⟨L', -, hL'⟩, ⟨new, hstep⟩, -⟩ :=
      hL.exchange hi ht hj (within_outward ht hexec) hexec.1
    exact ⟨hadm, ⟨L', hL'⟩, hstep.linked ht, hstep.grown (fun _ _ hm => hm) ht hg⟩

theorem treeShaped_bareWorld : TreeShaped bareWorld.toStore := by
  refine treeShaped_of_grown wellFormed_bareWorld.whole.toLinked fun i x hx => ?_
  obtain ⟨rfl, -⟩ := node_bareWorld hx
  exact .refl _

theorem oneDir_tree_shaped : (oneDir.kind 2).isSome ∧ TreeShaped oneDir.toStore := by
  obtain ⟨threads, h⟩ := run_oneDir GoesOutside
  exact ⟨by decide +kernel, tree_shaped wellFormed_bareWorld treeShaped_bareWorld h⟩

/-- The workspace after a client has created `/d` and the link `/l` to it and renamed `/d` to
`/l/x`. -/
def lostDir : World :=
  runRequests bareWorld [.mkdir [47, 100] 0o755, .ln [47, 100] [47, 108],
    .rename [47, 100] [47, 108, 47, 120] {} 8]

/-- **A rename may move a directory below itself.** One client creates `/d` and a link `/l` to it
and renames `/d` to `/l/x`: the directory becomes its own parent. -/
theorem rename_below_itself :
    WellFormed bareWorld ∧ TreeShaped bareWorld.toStore ∧
    ∃ threads, Pool.Run Starts Exec (idle bareWorld) ⟨lostDir, threads⟩ ∧
      lostDir.kind 2 = some .dir ∧ parentField lostDir.toStore 2 = some 2 ∧
      ¬ TreeShaped lostDir.toStore := by
  obtain ⟨threads, h⟩ := run_requests [.mkdir [47, 100] 0o755, .ln [47, 100] [47, 108],
    .rename [47, 100] [47, 108, 47, 120] {} 8] (idle bareWorld)
  have hkind : lostDir.kind 2 = some .dir := by decide +kernel
  have hparent : parentField lostDir.toStore 2 = some 2 := by decide +kernel
  refine ⟨wellFormed_bareWorld, treeShaped_bareWorld, threads, h, hkind, hparent, fun hshape => ?_⟩
  exact hshape.acyclic 2 2 (by simp [hkind]) hparent (.refl 2)

end Shape

end Afs.Client
