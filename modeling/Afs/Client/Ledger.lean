import Afs.Client.Versions

/-!
# The ledger

Operations act on what they have read, and what they have read may be long gone. What stays true is
what the *ledger* records: every claim (an identity, a revision, a kind, a size, a form of content)
that was ever published, whether or not the store still shows it. No two claims of an identity
differ in kind, and at one revision they do not differ at all: a revision is a token that one
operation has drawn and uses once.

`Ledger` is the invariant of a store and the memories of all operations under way, and
`Ledger.exchange` keeps it: a justified command finds in the store only what the ledger knows, and
adds to the ledger what it publishes.
-/

namespace Afs.Client

open Function (update update_of_ne update_self)

open History LinkTree List Option Nat

/-- The claim of an inode of the tree with content of the form `r`. -/
def nodeClaim (r : Option ContentRef) (i : Id) (x : Node Id Name) : Claim :=
  .of i x.revision x.kind x.size r

/-! ## Events -/

/-- The inode an exchange has read. -/
def Event.reads : Event → Option InodeData
  | ⟨.loadInode _, .ok d⟩ | ⟨.cacheGet _, .ok d⟩ => d
  | _ => none

/-- The token an exchange has drawn. -/
def Event.draws : Event → Option Token
  | ⟨.newOriginID, .ok t⟩ => some t
  | _ => none

/-- The identity an exchange has allocated. -/
def Event.allocates : Event → Option Id
  | ⟨.incrNextInode, .ok i⟩ => some i
  | _ => none

/-- The exchange has created the root. -/
def Event.roots : Event → Bool
  | ⟨.createRoot _, .ok _⟩ => true
  | _ => false

/-- The operation has drawn the token. -/
def Drawn (h : Memory) (t : Token) : Prop := ∃ e ∈ h, e.draws = some t

/-- The operation has allocated the identity. -/
def Allocated (h : Memory) (i : Id) : Prop := ∃ e ∈ h, e.allocates = some i

variable {e : Event}

theorem reads_eq_some {d : InodeData} (h : e.reads = some d) :
    (∃ id, e = ⟨.loadInode id, .ok (some d)⟩) ∨ ∃ p, e = ⟨.cacheGet p, .ok (some d)⟩ := by
  obtain ⟨c, r⟩ := e
  cases c <;> cases r <;> first
    | (cases h; exact .inl ⟨_, rfl⟩)
    | (cases h; exact .inr ⟨_, rfl⟩)
    | cases h

variable {t : Token}

theorem draws_eq_some (h : e.draws = some t) : e = ⟨.newOriginID, .ok t⟩ := by
  obtain ⟨c, r⟩ := e
  cases c <;> cases r <;> first
    | (cases h; rfl)
    | cases h

variable {i : Id}

theorem allocates_eq_some (h : e.allocates = some i) : e = ⟨.incrNextInode, .ok i⟩ := by
  obtain ⟨c, r⟩ := e
  cases c <;> cases r <;> first
    | (cases h; rfl)
    | cases h

variable {h : Memory}

theorem seen_iff {d : InodeData} : Seen h d ↔ ∃ e ∈ h, e.reads = some d := by
  constructor
  · rintro (⟨id, hm⟩ | ⟨p, hm⟩)
    · exact ⟨_, hm, rfl⟩
    · exact ⟨_, hm, rfl⟩
  · rintro ⟨e, he, hd⟩
    obtain ⟨id, rfl⟩ | ⟨p, rfl⟩ := reads_eq_some hd
    · exact .inl ⟨id, he⟩
    · exact .inr ⟨p, he⟩

theorem drawn_iff : Drawn h t ↔ ⟨.newOriginID, .ok t⟩ ∈ h := by
  constructor
  · rintro ⟨e, he, ht⟩
    exact draws_eq_some ht ▸ he
  · exact fun hm => ⟨_, hm, rfl⟩

theorem allocated_iff : Allocated h i ↔ ⟨.incrNextInode, .ok i⟩ ∈ h := by
  constructor
  · rintro ⟨e, he, hi⟩
    exact allocates_eq_some hi ▸ he
  · exact fun hm => ⟨_, hm, rfl⟩

/-! ## The invariant -/

/-- The claims agree with one another. -/
structure Coherent (L : Set Claim) : Prop where
  kind : ∀ k ∈ L, ∀ k' ∈ L, k.id = k'.id → k.kind = k'.kind
  size : ∀ k ∈ L, ∀ k' ∈ L, k.id = k'.id → k.revision = k'.revision → k.size = k'.size
  ref : ∀ k ∈ L, ∀ k' ∈ L, k.id = k'.id → k.revision = k'.revision → k.ref = k'.ref
  nonneg : ∀ k ∈ L, 0 ≤ k.size
  plain : ∀ k ∈ L, k.kind ≠ .file → k.size = 0 ∧ k.ref = none
  root : ∀ k ∈ L, k.id = rootInodeID → k.kind = .dir

/-- The store shows only what the claims know. -/
structure Shows (L : Set Claim) (w : World) : Prop where
  node : ∀ i x, (treeOf w.toStore).node i = some x → nodeClaim (refOf w.toStore i) i x ∈ L
  entry : ∀ p i, (treeOf w.toStore).entry p = some i → ∃ k ∈ L, k.id = i
  cached : ∀ e ∈ w.cached, claimOf e.2 ∈ L
  token : ∀ k ∈ L, k.revision ≤ w.tokens
  stored : ∀ i t, (w.inode i).bind (·.revision) = some t → t ≤ w.tokens
  number : ∀ k ∈ L, k.id ≤ w.nextInode.getD 0 ∧ rootInodeID ≤ w.nextInode.getD 0
  started : ∀ n, w.nextInode = some n → rootInodeID ≤ n
  tidy : ∀ i f, w.inode i = some f → f.type = none → f.size = none
  /-- A hash that is no inode does not pass a form on to a file without one. -/
  formed : ∀ i f, w.inode i = some f → f.type = none → f.contentRef.isSome →
    ∀ k ∈ L, k.id = i → k.kind = .file → k.ref.isSome

/-- What an operation remembers is known. -/
structure Faithful (L : Set Claim) (h : Memory) : Prop where
  seen : ∀ d, Seen h d → claimOf d ∈ L
  based : ∀ e ∈ h, e.idle = false → e.cmd.token.isSome → ∃ k ∈ L, Backed h e.cmd k
  created : ∀ e ∈ h, e.roots = true → rootClaim ∈ L
  spent : ∀ t, Spent h t → Drawn h t
  placed : ∀ i, Placed h i → Allocated h i

/-- The tokens and identities an operation has drawn are real, and those it has not used are
unknown. -/
structure Supplied (L : Set Claim) (w : World) (h : Memory) : Prop where
  drawn : ∀ t, Drawn h t → 0 < t ∧ t ≤ w.tokens
  allocated : ∀ i, Allocated h i → i ≤ w.nextInode.getD 0 ∧ rootInodeID < i
  held : ∀ t, Held h t → (∀ k ∈ L, k.revision ≠ t) ∧ ∀ i, (w.inode i).bind (·.revision) ≠ some t
  vacant : ∀ i, Vacant h i → ∀ k ∈ L, k.id ≠ i

/-- No two operations have drawn the same token or identity. -/
def Apart (h h' : Memory) : Prop :=
  (∀ t, Drawn h t → ¬ Drawn h' t) ∧ ∀ i, Allocated h i → ¬ Allocated h' i

/-- The claims `L` explain the store and the memories of the operations under way. -/
structure Ledger (L : Set Claim) (w : World) (mem : ℕ → Option Memory) : Prop where
  coherent : Coherent L
  shows : Shows L w
  faithful : ∀ i h, mem i = some h → Faithful L h
  supplied : ∀ i h, mem i = some h → Supplied L w h
  apart : ∀ i j h h', i ≠ j → mem i = some h → mem j = some h' → Apart h h'

/-! ## Claims -/

section Claims

variable {L L' : Set Claim} {h : Memory} {e : Event} {c : Cmd} {k k' : Claim} {d d' : InodeData}

/-- Two known inodes of one identity at one revision make the same claim. -/
theorem Coherent.of_eq (hL : Coherent L) (hd : claimOf d ∈ L) (hd' : claimOf d' ∈ L)
    (hid : d.id = d'.id) (hrev : d.revision = d'.revision) (id : Id) (revision : Rev) :
    Claim.of id revision d.type d.size d.contentRef =
      Claim.of id revision d'.type d'.size d'.contentRef := by
  have hkind : d.type = d'.type := hL.kind _ hd _ hd' hid
  have hsize : (claimOf d).size = (claimOf d').size := hL.size _ hd _ hd' hid hrev
  have href : (claimOf d).ref = (claimOf d').ref := hL.ref _ hd _ hd' hid hrev
  unfold Claim.of
  rw [Claim.mk.injEq]
  exact ⟨rfl, rfl, hkind, hsize, href⟩

/-- A publication makes one claim. -/
theorem Coherent.backed_unique (hL : Coherent L) (hseen : ∀ d, Seen h d → claimOf d ∈ L)
    (hk : Backed h c k) (hk' : Backed h c k') : k = k' := by
  cases c with
  | publishFile a => exact Eq.trans hk (Eq.symm hk')
  | updateInode a | renameMetadata a r n w =>
    obtain ⟨d, hd, hid, hrev, rfl⟩ := hk
    obtain ⟨d', hd', hid', hrev', rfl⟩ := hk'
    exact hL.of_eq (hseen d hd) (hseen d' hd') (hid.trans hid'.symm) (hrev.trans hrev'.symm) _ _
  | createMetadata name a =>
    obtain ⟨t, kind, ht, hkind, rfl⟩ := hk
    obtain ⟨t', kind', ht', hkind', rfl⟩ := hk'
    rw [ht] at ht'
    rw [hkind] at hkind'
    cases ht'
    cases hkind'
    rfl
  | restoreVersion a =>
    obtain ⟨kind, hkind, rfl⟩ := hk
    obtain ⟨kind', hkind', rfl⟩ := hk'
    rw [hkind] at hkind'
    cases hkind'
    rfl
  | _ => cases hk

theorem Backed.token (hk : Backed h c k) : c.token = some k.revision := by
  cases c with
  | publishFile a => rw [show k = _ from hk]; rfl
  | updateInode a | renameMetadata a r n w =>
    obtain ⟨d, -, -, -, rfl⟩ := hk
    rfl
  | createMetadata name a =>
    obtain ⟨t, kind, ht, -, rfl⟩ := hk
    exact ht
  | restoreVersion a =>
    obtain ⟨kind, -, rfl⟩ := hk
    rfl
  | _ => cases hk

theorem Claim.of_plain {id : Id} {revision : Rev} {kind : Kind} {size : ℤ} {r : Option ContentRef}
    (hkind : (Claim.of id revision kind size r).kind ≠ .file) :
    (Claim.of id revision kind size r).size = 0 ∧ (Claim.of id revision kind size r).ref = none :=
  ⟨if_neg hkind, if_neg hkind⟩

theorem Backed.plain (hk : Backed h c k) (hkind : k.kind ≠ .file) : k.size = 0 ∧ k.ref = none := by
  cases c with
  | publishFile a =>
    rw [show k = _ from hk] at hkind ⊢
    exact Claim.of_plain hkind
  | updateInode a | renameMetadata a r n w =>
    obtain ⟨d, -, -, -, rfl⟩ := hk
    exact Claim.of_plain hkind
  | createMetadata name a =>
    obtain ⟨t, kind, -, -, rfl⟩ := hk
    exact Claim.of_plain hkind
  | restoreVersion a =>
    obtain ⟨kind, -, rfl⟩ := hk
    exact Claim.of_plain hkind
  | _ => cases hk

theorem Faithful.mono (hs : L ⊆ L') (hf : Faithful L h) : Faithful L' h where
  seen d hd := hs (hf.seen d hd)
  based e he hi ht := by
    obtain ⟨k, hk, hb⟩ := hf.based e he hi ht
    exact ⟨k, hs hk, hb⟩
  created e he hr := hs (hf.created e he hr)
  spent := hf.spent
  placed := hf.placed

/-- What the operation may have published is known. -/
theorem Faithful.backed (hL : Coherent L) (hf : Faithful L h) (he : e ∈ h) (hi : e.idle = false)
    (hk : Backed h e.cmd k) : k ∈ L := by
  obtain ⟨k', hk', hb⟩ := hf.based e he hi (by simp [hk.token])
  rwa [hL.backed_unique hf.seen hk hb]

theorem Faithful.known (hL : Coherent L) (hf : Faithful L h) (hk : Known h k) : k ∈ L := by
  obtain ⟨d, hd, rfl⟩ | ⟨e, he, hi, hb⟩ | ⟨rfl, now, hm⟩ := hk
  · exact hf.seen d hd
  · exact hf.backed hL he hi hb
  · exact hf.created _ hm rfl

theorem drawn_cons (hd : Drawn (e :: h) t) : e.draws = some t ∨ Drawn h t := by
  obtain ⟨e', he, ht⟩ := hd
  obtain rfl | he := mem_cons.mp he
  · exact .inl ht
  · exact .inr ⟨e', he, ht⟩

theorem Drawn.cons (hd : Drawn h t) : Drawn (e :: h) t := by
  obtain ⟨e', he, ht⟩ := hd
  exact ⟨e', mem_cons_of_mem e he, ht⟩

theorem allocated_cons (hd : Allocated (e :: h) i) : e.allocates = some i ∨ Allocated h i := by
  obtain ⟨e', he, ht⟩ := hd
  obtain rfl | he := mem_cons.mp he
  · exact .inl ht
  · exact .inr ⟨e', he, ht⟩

theorem Allocated.cons (hd : Allocated h i) : Allocated (e :: h) i := by
  obtain ⟨e', he, ht⟩ := hd
  exact ⟨e', mem_cons_of_mem e he, ht⟩

/-- A token still unused was unused before, unless it is new. -/
theorem held_cons (hh : Held (e :: h) t) : e.draws = some t ∨ Held h t := by
  obtain ⟨hd, hs⟩ := hh
  obtain hd | hd := drawn_cons (drawn_iff.mpr hd)
  · exact .inl hd
  · refine .inr ⟨drawn_iff.mp hd, fun hspent => hs ?_⟩
    obtain ⟨e', he, hrest⟩ := hspent
    exact ⟨e', mem_cons_of_mem e he, hrest⟩

theorem vacant_cons (hv : Vacant (e :: h) i) : e.allocates = some i ∨ Vacant h i := by
  obtain ⟨hd, hs⟩ := hv
  obtain hd | hd := allocated_cons (allocated_iff.mpr hd)
  · exact .inl hd
  · refine .inr ⟨allocated_iff.mp hd, fun hplaced => hs ?_⟩
    obtain ⟨e', he, hrest⟩ := hplaced
    exact ⟨e', mem_cons_of_mem e he, hrest⟩

/-- One exchange more to remember. -/
theorem Faithful.cons (hf : Faithful L h) (hread : ∀ d, e.reads = some d → claimOf d ∈ L)
    (hbased : e.idle = false → e.cmd.token.isSome → ∃ k ∈ L, Backed h e.cmd k)
    (hroot : e.roots = true → rootClaim ∈ L)
    (hspent : ∀ t, e.cmd.token = some t → e.idle = false → Drawn h t)
    (hplaced : ∀ i, e.cmd.places = some i → e.idle = false → Allocated h i) :
    Faithful L (e :: h) where
  seen d hd := by
    obtain ⟨e', he, hr⟩ := seen_iff.mp hd
    obtain rfl | he := mem_cons.mp he
    · exact hread d hr
    · exact hf.seen d (seen_iff.mpr ⟨e', he, hr⟩)
  based e' he hi ht := by
    have hsub : h ⊆ e :: h := subset_cons_self e h
    obtain rfl | he := mem_cons.mp he
    · obtain ⟨k, hk, hb⟩ := hbased hi ht
      exact ⟨k, hk, hb.mono hsub⟩
    · obtain ⟨k, hk, hb⟩ := hf.based e' he hi ht
      exact ⟨k, hk, hb.mono hsub⟩
  created e' he hr := by
    obtain rfl | he := mem_cons.mp he
    · exact hroot hr
    · exact hf.created e' he hr
  spent t ht := by
    obtain ⟨e', he, htok, hi⟩ := ht
    obtain rfl | he := mem_cons.mp he
    · exact (hspent t htok hi).cons
    · exact (hf.spent t ⟨e', he, htok, hi⟩).cons
  placed i hp := by
    obtain ⟨e', he, hpl, hi⟩ := hp
    obtain rfl | he := mem_cons.mp he
    · exact (hplaced i hpl hi).cons
    · exact (hf.placed i ⟨e', he, hpl, hi⟩).cons

/-- An exchange that publishes nothing. -/
theorem Faithful.cons_quiet (hf : Faithful L h) (hquiet : e.quiet)
    (hread : ∀ d, e.reads = some d → claimOf d ∈ L) (hroot : e.roots = true → rootClaim ∈ L) :
    Faithful L (e :: h) := by
  have hnone : ∀ {α : Type} {o : Option α} {a : α}, (o = none ∨ e.idle = true) → o = some a →
      e.idle = false → False := by
    intro α o a ho ha hidle
    obtain ho | ho := ho
    · rw [ho] at ha
      cases ha
    · rw [ho] at hidle
      cases hidle
  have htoken : e.cmd.token = none ∨ e.idle = true := hquiet.imp_left And.left
  have hplaces : e.cmd.places = none ∨ e.idle = true := hquiet.imp_left And.right
  refine hf.cons hread (fun hidle ht => ?_) hroot
    (fun t ht hidle => (hnone htoken ht hidle).elim) fun n hn hidle => (hnone hplaces hn hidle).elim
  obtain ⟨t, ht⟩ := isSome_iff_exists.mp ht
  exact (hnone htoken ht hidle).elim

end Claims

/-! ## Supplies -/

section Supplies

variable {L L' : Set Claim} {w w' : World} {h : Memory} {e : Event}

/-- The store moves on while the operation waits: what is new is not of its making. -/
theorem Supplied.mono (hs : Supplied L w h) (htok : w.tokens ≤ w'.tokens)
    (hnext : w.nextInode.getD 0 ≤ w'.nextInode.getD 0)
    (hclaims : ∀ k ∈ L', k ∈ L ∨ (∀ t, Held h t → k.revision ≠ t) ∧ ∀ i, Vacant h i → k.id ≠ i)
    (hstored : ∀ i t, (w'.inode i).bind (·.revision) = some t →
      (w.inode i).bind (·.revision) = some t ∨ ¬ Held h t) : Supplied L' w' h where
  drawn t ht := ⟨(hs.drawn t ht).1, (hs.drawn t ht).2.trans htok⟩
  allocated i hi := ⟨(hs.allocated i hi).1.trans hnext, (hs.allocated i hi).2⟩
  held t ht := by
    refine ⟨fun k hk => ?_, fun i hi => ?_⟩
    · obtain hk | hk := hclaims k hk
      · exact (hs.held t ht).1 k hk
      · exact hk.1 t ht
    · obtain hi | hi := hstored i t hi
      · exact (hs.held t ht).2 i hi
      · exact hi ht
  vacant i hi k hk := by
    obtain hk | hk := hclaims k hk
    · exact hs.vacant i hi k hk
    · exact hk.2 i hi

/-- The operation has one exchange more: what it has drawn is new, and what it has published it no
longer holds. -/
theorem Supplied.cons (hs : Supplied L w h) (htok : w.tokens ≤ w'.tokens)
    (hnext : w.nextInode.getD 0 ≤ w'.nextInode.getD 0)
    (hdraw : ∀ t, e.draws = some t → 0 < t ∧ t ≤ w'.tokens ∧ (∀ k ∈ L, k.revision ≠ t) ∧
      ∀ i, (w.inode i).bind (·.revision) ≠ some t) (halloc : ∀ i, e.allocates = some i →
      i ≤ w'.nextInode.getD 0 ∧ rootInodeID < i ∧ ∀ k ∈ L, k.id ≠ i) (hclaims : ∀ k ∈ L', k ∈ L ∨
      (∀ t, Held (e :: h) t → k.revision ≠ t) ∧ ∀ i, Vacant (e :: h) i → k.id ≠ i)
    (hstored : ∀ i t, (w'.inode i).bind (·.revision) = some t →
      (w.inode i).bind (·.revision) = some t ∨ ¬ Held (e :: h) t) : Supplied L' w' (e :: h) where
  drawn t ht := by
    obtain ht | ht := drawn_cons ht
    · exact ⟨(hdraw t ht).1, (hdraw t ht).2.1⟩
    · exact ⟨(hs.drawn t ht).1, (hs.drawn t ht).2.trans htok⟩
  allocated i hi := by
    obtain hi | hi := allocated_cons hi
    · exact ⟨(halloc i hi).1, (halloc i hi).2.1⟩
    · exact ⟨(hs.allocated i hi).1.trans hnext, (hs.allocated i hi).2⟩
  held t ht := by
    have hold : (∀ k ∈ L, k.revision ≠ t) ∧ ∀ i, (w.inode i).bind (·.revision) ≠ some t := by
      obtain hd | hh := held_cons ht
      · exact (hdraw t hd).2.2
      · exact hs.held t hh
    refine ⟨fun k hk => ?_, fun i hi => ?_⟩
    · obtain hk | hk := hclaims k hk
      · exact hold.1 k hk
      · exact hk.1 t ht
    · obtain hi | hi := hstored i t hi
      · exact hold.2 i hi
      · exact hi ht
  vacant i hi k hk := by
    have hold : ∀ k ∈ L, k.id ≠ i := by
      obtain hd | hh := vacant_cons hi
      · exact (halloc i hd).2.2
      · exact hs.vacant i hh
    obtain hk | hk := hclaims k hk
    · exact hold k hk
    · exact hk.2 i hi

end Supplies

/-! ## One exchange more -/

variable {j : Id}

section Exchange

variable {L L' : Set Claim} {w w' : World} {mem : ℕ → Option Memory} {i : ℕ} {h : Memory}
  {e : Event} {c : Cmd} {k : Claim} {H : Habits Id Name}

theorem Ledger.advance (hL : Ledger L w mem) (hsub : L ⊆ L') (hco : Coherent L')
    (hsh : Shows L' w') (hf : Faithful L' (e :: h)) (hs : Supplied L' w' (e :: h))
    (hothers : ∀ j h', j ≠ i → mem j = some h' → Supplied L' w' h')
    (hapart : ∀ j h', j ≠ i → mem j = some h' → Apart (e :: h) h') :
    Ledger L' w' (update mem i (some (e :: h))) where
  coherent := hco
  shows := hsh
  faithful j h' hj := by
    by_cases hji : j = i
    · subst hji
      rw [update_self] at hj
      cases hj
      exact hf
    · rw [update_of_ne hji] at hj
      exact (hL.faithful j h' hj).mono hsub
  supplied j h' hj := by
    by_cases hji : j = i
    · subst hji
      rw [update_self] at hj
      cases hj
      exact hs
    · rw [update_of_ne hji] at hj
      exact hothers j h' hji hj
  apart j j' h₁ h₂ hne h₁j h₂j := by
    by_cases hji : j = i
    · subst hji
      rw [update_self] at h₁j
      rw [update_of_ne (Ne.symm hne)] at h₂j
      cases h₁j
      exact hapart j' h₂ (Ne.symm hne) h₂j
    · rw [update_of_ne hji] at h₁j
      by_cases hji' : j' = i
      · subst hji'
        rw [update_self] at h₂j
        cases h₂j
        obtain ⟨ht, hn⟩ := hapart j h₁ hji h₁j
        exact ⟨fun t h₁ h₂ => ht t h₂ h₁, fun n h₁ h₂ => hn n h₂ h₁⟩
      · rw [update_of_ne hji'] at h₂j
        exact hL.apart j j' h₁ h₂ hne h₁j h₂j

theorem Apart.cons {h' : Memory} (ha : Apart h h') (hdraw : ∀ t, e.draws = some t → ¬ Drawn h' t)
    (halloc : ∀ n, e.allocates = some n → ¬ Allocated h' n) : Apart (e :: h) h' := by
  refine ⟨fun t ht => ?_, fun n hn => ?_⟩
  · obtain ht | ht := drawn_cons ht
    · exact hdraw t ht
    · exact ha.1 t ht
  · obtain hn | hn := allocated_cons hn
    · exact halloc n hn
    · exact ha.2 n hn

/-- An exchange that publishes nothing, draws nothing, and reads what the ledger knows. -/
structure Event.Mild (L : Set Claim) (e : Event) : Prop where
  quiet : e.quiet
  reads : ∀ d, e.reads = some d → claimOf d ∈ L
  roots : e.roots = false
  draws : e.draws = none
  allocates : e.allocates = none

theorem Ledger.quiet (hL : Ledger L w mem) (hi : mem i = some h) (he : e.Mild L) (hsh : Shows L w')
    (htok : w.tokens ≤ w'.tokens) (hnext : w.nextInode.getD 0 ≤ w'.nextInode.getD 0)
    (hstored : ∀ j t, (w'.inode j).bind (·.revision) = some t →
      (w.inode j).bind (·.revision) = some t) : Ledger L w' (update mem i (some (e :: h))) := by
  refine hL.advance (Set.Subset.refl L) hL.coherent hsh
    ((hL.faithful i h hi).cons_quiet he.quiet he.reads fun hr => ?_) ?_ (fun j h' hj hm => ?_)
    fun j h' hj hm => ?_
  · rw [he.roots] at hr
    cases hr
  · refine (hL.supplied i h hi).cons htok hnext (fun t ht => ?_) (fun n hn => ?_)
      (fun k hk => .inl hk) fun j t ht => .inl (hstored j t ht)
    · rw [he.draws] at ht
      cases ht
    · rw [he.allocates] at hn
      cases hn
  · exact (hL.supplied j h' hm).mono htok hnext (fun k hk => .inl hk)
      fun j t ht => .inl (hstored j t ht)
  · refine (hL.apart i j h h' (Ne.symm hj) hi hm).cons (fun t ht => ?_) fun n hn => ?_
    · rw [he.draws] at ht
      cases ht
    · rw [he.allocates] at hn
      cases hn

variable {t : Option Token}

/-- Where the revisions a command leaves come from. -/
theorem stored_cases (hhash : HashSteps t w.toStore w'.toStore) {t' : Token}
    (hj : (w'.inode j).bind (·.revision) = some t') :
    (w.inode j).bind (·.revision) = some t' ∨ t = some t' := by
  obtain ⟨f, hf, hr⟩ := bind_eq_some_iff.mp hj
  obtain hrev | hrev | hrev := (hhash j f hf).revision
  · rw [hrev] at hr
    cases hr
  · rw [hr] at hrev
    cases hs : w.inode j with
    | none => simp [Store.fields, hs] at hrev
    | some f₀ => exact .inl (by simpa [Store.fields, hs] using hrev.symm)
  · exact .inr (by rw [← hrev, hr])

/-- A hash without a type still has no size. -/
theorem tidy_after (hhash : HashSteps t w.toStore w'.toStore)
    (htidy : ∀ j f, w.inode j = some f → f.type = none → f.size = none) {f : InodeHash}
    (hf : w'.inode j = some f) (hnone : f.type = none) : f.size = none := by
  obtain htyped | hsize | ⟨htype, hsize⟩ := (hhash j f hf).typed
  · simp [hnone] at htyped
  · exact hsize.1
  · rw [hsize.1]
    cases hs : w.inode j with
    | none => simp [Store.fields, hs]
    | some f₀ =>
      have hfields : w.fields j = f₀ := by simp [Store.fields, hs]
      rw [hfields] at htype ⊢
      exact htidy j f₀ hs (by rw [← htype, hnone])

/-- A hash without a type has the form it had. -/
theorem formed_before (hhash : HashSteps t w.toStore w'.toStore)
    {f : InodeHash} (hf : w'.inode j = some f) (hnone : f.type = none)
    (href : f.contentRef.isSome) :
    ∃ f₀, w.inode j = some f₀ ∧ f₀.type = none ∧ f₀.contentRef.isSome := by
  obtain htyped | ⟨-, hr⟩ | ⟨htype, -, hr⟩ := (hhash j f hf).typed
  · simp [hnone] at htyped
  · simp [hr] at href
  · cases hs : w.inode j with
    | none => simp [Store.fields, hs, hr] at href
    | some f₀ =>
      have hfields : w.fields j = f₀ := by simp [Store.fields, hs]
      rw [hfields] at htype hr
      exact ⟨f₀, rfl, by rw [← htype, hnone], by rwa [← hr]⟩

/-- An inode that is as it was makes the claim it made. -/
theorem Shows.unchanged (hsh : Shows L w) (hver : VersionSteps t w.toStore w'.toStore)
    (hfresh : ∀ t', t = some t' → ∀ k ∈ L, k.revision ≠ t') {x : Node Id Name}
    (hx : (treeOf w.toStore).node j = some x) (hx' : (treeOf w'.toStore).node j = some x) :
    nodeClaim (refOf w'.toStore j) j x ∈ L := by
  have hclaim := hsh.node j x hx
  by_cases hfile : x.kind = .file
  · obtain ⟨v, hv, hrev⟩ := version_of_node hx' hfile
    obtain hold | hnew := hver j v hv
    · rwa [refOf_of_version hv, ← refOf_of_version hold]
    · exact absurd hrev.symm (hfresh _ hnew.symm _ hclaim)
  · simpa [nodeClaim, Claim.of, hfile] using hclaim

variable {new : Option (Id × Node Id Name)}

/-- The store after a step of its tree shows what it showed, and what was written. -/
theorem Shows.step (hsh : Shows L w)
    (hstep : Step rootInodeID H (treeOf w.toStore) new (treeOf w'.toStore))
    (hhash : HashSteps t w.toStore w'.toStore) (hver : VersionSteps t w.toStore w'.toStore)
    (hfresh : ∀ t', t = some t' → ∀ k ∈ L, k.revision ≠ t') (hside : Side w w') (hsub : L ⊆ L')
    (hnew : ∀ j x, new = some (j, x) → nodeClaim (refOf w'.toStore j) j x ∈ L')
    (htoken : ∀ k ∈ L', k.revision ≤ w.tokens)
    (hnumber : ∀ k ∈ L', k.id ≤ w.nextInode.getD 0 ∧ rootInodeID ≤ w.nextInode.getD 0)
    (hform : ∀ k ∈ L', k.kind = .file → k.ref.isSome ∨
      ∃ k₀ ∈ L, k₀.id = k.id ∧ k₀.kind = .file ∧ k₀.ref = k.ref)
    (ht : ∀ t', t = some t' → t' ≤ w.tokens) : Shows L' w' where
  node j x hx := by
    obtain hold | hx := hstep.node_cases hx
    · exact hsub (hsh.unchanged hver hfresh hold hx)
    · exact hnew j x hx
  entry p j hj := by
    obtain hj | ⟨x, hx⟩ := hstep.entry_cases hj
    · obtain ⟨k, hk, hid⟩ := hsh.entry p j hj
      exact ⟨k, hsub hk, hid⟩
    · exact ⟨_, hnew j x hx, rfl⟩
  cached c hc := by
    rw [hside.cached] at hc
    exact hsub (hsh.cached c hc)
  token k hk := by
    rw [hside.tokens]
    exact htoken k hk
  stored j t' hj := by
    rw [hside.tokens]
    obtain hj | hj := stored_cases hhash hj
    · exact hsh.stored j t' hj
    · exact ht t' hj
  number k hk := by
    rw [hside.nextInode]
    exact hnumber k hk
  started n hn := hsh.started n (by rw [← hside.nextInode, hn])
  tidy _ _ hf hnone := tidy_after hhash hsh.tidy hf hnone
  formed j f hf hnone href k hk hid hfile := by
    obtain hsome | ⟨k₀, hk₀, hid₀, hfile₀, href₀⟩ := hform k hk hfile
    · exact hsome
    · obtain ⟨f₀, hf₀, hnone₀, hr₀⟩ := formed_before hhash hf hnone href
      exact href₀ ▸ hsh.formed j f₀ hf₀ hnone₀ hr₀ k₀ hk₀ (hid₀.trans hid) hfile₀

/-- The claim a publication makes is new at its revision, and of a new identity or of one of the
same kind. -/
structure Makes (L : Set Claim) (h : Memory) (c : Cmd) (k : Claim) : Prop where
  backed : Backed h c k
  held : Held h k.revision
  origin : c.places = some k.id ∧ Vacant h k.id ∨
    c.places = none ∧ ∃ k₀ ∈ L, k₀.id = k.id ∧ k₀.kind = k.kind
  form : k.kind = .file → k.ref.isSome ∨ ∃ k₀ ∈ L, k₀.id = k.id ∧ k₀.kind = .file ∧ k₀.ref = k.ref
  nonneg : 0 ≤ k.size

theorem Makes.coherent (hk : Makes L h c k) (hL : Coherent L) (hs : Supplied L w h) :
    Coherent (insert k L) := by
  have hrev : ∀ k' ∈ L, k'.revision ≠ k.revision := (hs.held _ hk.held).1
  have hkind : ∀ k' ∈ L, k'.id = k.id → k'.kind = k.kind := by
    intro k' hk' hid
    obtain ⟨-, hv⟩ | ⟨-, k₀, hk₀, hid₀, hkind₀⟩ := hk.origin
    · exact absurd hid (hs.vacant _ hv k' hk')
    · rw [← hkind₀]
      exact hL.kind k' hk' k₀ hk₀ (hid.trans hid₀.symm)
  refine ⟨?_, ?_, ?_, ?_, ?_, ?_⟩
  · rintro k₁ (rfl | h₁) k₂ (rfl | h₂) hid
    · rfl
    · exact (hkind k₂ h₂ hid.symm).symm
    · exact hkind k₁ h₁ hid
    · exact hL.kind k₁ h₁ k₂ h₂ hid
  · rintro k₁ (rfl | h₁) k₂ (rfl | h₂) hid hr
    · rfl
    · exact absurd hr.symm (hrev k₂ h₂)
    · exact absurd hr (hrev k₁ h₁)
    · exact hL.size k₁ h₁ k₂ h₂ hid hr
  · rintro k₁ (rfl | h₁) k₂ (rfl | h₂) hid hr
    · rfl
    · exact absurd hr.symm (hrev k₂ h₂)
    · exact absurd hr (hrev k₁ h₁)
    · exact hL.ref k₁ h₁ k₂ h₂ hid hr
  · rintro k₁ (rfl | h₁)
    · exact hk.nonneg
    · exact hL.nonneg k₁ h₁
  · rintro k₁ (rfl | h₁) hkind
    · exact hk.backed.plain hkind
    · exact hL.plain k₁ h₁ hkind
  · rintro k₁ (rfl | h₁) hid
    · obtain ⟨-, hv⟩ | ⟨-, k₀, hk₀, hid₀, hkind₀⟩ := hk.origin
      · exact absurd hid (hs.allocated _ (allocated_iff.mpr hv.1)).2.ne'
      · rw [← hkind₀]
        exact hL.root k₀ hk₀ (hid₀.trans hid)
    · exact hL.root k₁ h₁ hid

/-- A command that writes a revision reads and draws nothing. -/
theorem of_token (ht : e.cmd.token.isSome) :
    e.reads = none ∧ e.roots = false ∧ e.draws = none ∧ e.allocates = none := by
  obtain ⟨c, r⟩ := e
  cases c <;> first
    | exact ⟨rfl, rfl, rfl, rfl⟩
    | cases ht

section

variable (hL : Ledger L w mem) (hi : mem i = some h)

include hL hi

/-- A publication that may have gone through: its claim is in the ledger from now on. -/
theorem Ledger.publish (hk : Makes L h e.cmd k) (hidle : e.idle = false)
    (hstep : Step rootInodeID H (treeOf w.toStore) new (treeOf w'.toStore))
    (hnew : ∀ j x, new = some (j, x) → nodeClaim (refOf w'.toStore j) j x = k)
    (hhash : HashSteps e.cmd.token w.toStore w'.toStore)
    (hver : VersionSteps e.cmd.token w.toStore w'.toStore) (hside : Side w w') :
    Ledger (insert k L) w' (update mem i (some (e :: h))) := by
  have htok : e.cmd.token = some k.revision := hk.backed.token
  obtain ⟨hreads, hroots, hdraws, halloc⟩ := of_token (e := e) (by simp [htok])
  have hs := hL.supplied i h hi
  have hdrawn : Drawn h k.revision := drawn_iff.mpr hk.held.1
  have hspent : Spent (e :: h) k.revision := ⟨e, mem_cons_self, htok, hidle⟩
  have hsub : L ⊆ insert k L := Set.subset_insert k L
  have hnumber : k.id ≤ w.nextInode.getD 0 ∧ rootInodeID ≤ w.nextInode.getD 0 := by
    obtain ⟨-, hv⟩ | ⟨-, k₀, hk₀, hid, -⟩ := hk.origin
    · obtain ⟨h₁, h₂⟩ := hs.allocated _ (allocated_iff.mpr hv.1)
      exact ⟨h₁, h₂.le.trans h₁⟩
    · exact hid ▸ hL.shows.number k₀ hk₀
  refine hL.advance hsub (hk.coherent hL.coherent hs) ?_ ?_ ?_ (fun j h' hj hm => ?_)
    fun j h' hj hm => ?_
  · have hfresh : ∀ t', e.cmd.token = some t' → ∀ k' ∈ L, k'.revision ≠ t' := by
      intro t' ht'
      rw [htok] at ht'
      cases ht'
      exact (hs.held _ hk.held).1
    refine hL.shows.step hstep hhash hver hfresh hside hsub (fun j x hx => .inl (hnew j x hx)) ?_ ?_
      ?_ ?_
    · rintro k' (rfl | hk')
      · exact (hs.drawn _ hdrawn).2
      · exact hL.shows.token k' hk'
    · rintro k' (rfl | hk')
      · exact hnumber
      · exact hL.shows.number k' hk'
    · rintro k' (rfl | hk') hfile
      · exact hk.form hfile
      · exact .inr ⟨k', hk', rfl, hfile, rfl⟩
    · intro t' ht'
      rw [htok] at ht'
      cases ht'
      exact (hs.drawn _ hdrawn).2
  · refine ((hL.faithful i h hi).mono hsub).cons (fun d hd => ?_)
      (fun _ _ => ⟨k, .inl rfl, hk.backed⟩) (fun hr => ?_) (fun t ht _ => ?_) fun n hn _ => ?_
    · rw [hreads] at hd
      cases hd
    · rw [hroots] at hr
      cases hr
    · rw [htok] at ht
      cases ht
      exact hdrawn
    · obtain ⟨hp, hv⟩ | ⟨hp, -⟩ := hk.origin
      · rw [hp] at hn
        cases hn
        exact allocated_iff.mpr hv.1
      · rw [hp] at hn
        cases hn
  · refine hs.cons hside.tokens.ge (by rw [hside.nextInode]) (fun t ht => ?_) (fun n hn => ?_) ?_
      fun j t ht => ?_
    · rw [hdraws] at ht
      cases ht
    · rw [halloc] at hn
      cases hn
    · rintro k' (rfl | hk')
      · refine .inr ⟨fun t ht hr => ht.2 (hr ▸ hspent), fun n hn hid => ?_⟩
        obtain ⟨hp, -⟩ | ⟨-, k₀, hk₀, hid₀, -⟩ := hk.origin
        · exact hn.2 ⟨e, mem_cons_self, hid ▸ hp, hidle⟩
        · obtain ha | hv := vacant_cons hn
          · rw [halloc] at ha
            cases ha
          · exact hs.vacant n hv k₀ hk₀ (hid₀.trans hid)
      · exact .inl hk'
    · refine (stored_cases hhash ht).imp_right fun heq hheld => ?_
      rw [htok] at heq
      cases heq
      exact hheld.2 hspent
  · have ha := hL.apart i j h h' (Ne.symm hj) hi hm
    have hs' := hL.supplied j h' hm
    refine hs'.mono hside.tokens.ge (by rw [hside.nextInode]) ?_ fun j t ht => ?_
    · rintro k' (rfl | hk')
      · refine .inr ⟨fun t ht hr => ha.1 _ hdrawn (hr ▸ drawn_iff.mpr ht.1), fun n hn hid => ?_⟩
        obtain ⟨-, hv⟩ | ⟨-, k₀, hk₀, hid₀, -⟩ := hk.origin
        · exact ha.2 _ (allocated_iff.mpr hv.1) (hid ▸ allocated_iff.mpr hn.1)
        · exact hs'.vacant n hn k₀ hk₀ (hid₀.trans hid)
      · exact .inl hk'
    · refine (stored_cases hhash ht).imp_right fun heq hheld => ?_
      rw [htok] at heq
      cases heq
      exact ha.1 _ hdrawn (drawn_iff.mpr hheld.1)
  · refine (hL.apart i j h h' (Ne.symm hj) hi hm).cons (fun t ht => ?_) fun n hn => ?_
    · rw [hdraws] at ht
      cases ht
    · rw [halloc] at hn
      cases hn

/-- A token is drawn. -/
theorem Ledger.draw : Ledger L { w with tokens := w.tokens + 1 }
      (update mem i (some (⟨.newOriginID, .ok (w.tokens + 1)⟩ :: h))) := by
  have hsh := hL.shows
  have hle : w.tokens ≤ w.tokens + 1 := le_succ _
  refine hL.advance (Set.Subset.refl L) hL.coherent ?_ ?_ ?_ (fun j h' hj hm => ?_)
    fun j h' hj hm => ?_
  · exact { hsh with
      token := fun k hk => (hsh.token k hk).trans hle
      stored := fun j t ht => (hsh.stored j t ht).trans hle }
  · exact (hL.faithful i h hi).cons_quiet (.inl ⟨rfl, rfl⟩) nofun
      nofun
  · refine (hL.supplied i h hi).cons hle le_rfl (fun t ht => ?_) nofun
      (fun k hk => .inl hk) fun j t ht => .inl ht
    cases ht
    refine ⟨succ_pos _, le_rfl, fun k hk hr => ?_, fun j hj => ?_⟩
    · exact not_succ_le_self _ (hr ▸ hsh.token k hk)
    · exact not_succ_le_self _ (hsh.stored j _ hj)
  · exact (hL.supplied j h' hm).mono hle le_rfl (fun k hk => .inl hk) fun j t ht => .inl ht
  · refine (hL.apart i j h h' (Ne.symm hj) hi hm).cons (fun t ht hd => ?_) nofun
    cases ht
    exact not_succ_le_self _ ((hL.supplied j h' hm).drawn _ hd).2

/-- An operation that has read or created something is not the first. -/
theorem Ledger.rooted (hr : Rooted h) : rootInodeID ≤ w.nextInode.getD 0 := by
  obtain ⟨d, hd⟩ | ⟨now, hm⟩ := hr
  · exact (hL.shows.number _ ((hL.faithful i h hi).seen d hd)).2
  · exact (hL.shows.number _ ((hL.faithful i h hi).created _ hm rfl)).2

omit hL hi in
/-- The store after `INCR`. -/
theorem Shows.allocate (hsh : Shows L w) :
    Shows L { w with nextInode := some (w.nextInode.getD 0 + 1) } :=
  { hsh with
    number := fun k hk => by
      obtain ⟨h₁, h₂⟩ := hsh.number k hk
      exact ⟨h₁.trans (le_succ _), h₂.trans (le_succ _)⟩
    started := fun n hn => by
      cases hn
      exact succ_le_succ (zero_le _) }

/-- An identity is allocated. -/
theorem Ledger.allocate (hr : Rooted h) :
    Ledger L { w with nextInode := some (w.nextInode.getD 0 + 1) }
      (update mem i (some (⟨.incrNextInode, .ok (w.nextInode.getD 0 + 1)⟩ :: h))) := by
  have hsh := hL.shows
  have hroot := hL.rooted hi hr
  have hle : w.nextInode.getD 0 ≤ w.nextInode.getD 0 + 1 := le_succ _
  refine hL.advance (Set.Subset.refl L) hL.coherent hsh.allocate ?_ ?_ (fun j h' hj hm => ?_)
    fun j h' hj hm => ?_
  · exact (hL.faithful i h hi).cons_quiet (.inl ⟨rfl, rfl⟩) nofun
      nofun
  · refine (hL.supplied i h hi).cons le_rfl hle nofun (fun n hn => ?_)
      (fun k hk => .inl hk) fun j t ht => .inl ht
    cases hn
    refine ⟨le_rfl, lt_succ_of_le hroot, fun k hk hid => ?_⟩
    exact not_succ_le_self _ (hid ▸ (hsh.number k hk).1)
  · exact (hL.supplied j h' hm).mono le_rfl hle (fun k hk => .inl hk) fun j t ht => .inl ht
  · refine (hL.apart i j h h' (Ne.symm hj) hi hm).cons nofun fun n hn ha => ?_
    cases hn
    exact not_succ_le_self _ ((hL.supplied j h' hm).allocated _ ha).1

/-- The claims a new root makes. -/
def rootClaims (w : World) : Set Claim :=
  {k | k.id = rootInodeID ∧ k.kind = .dir ∧ (k.size = 0 ∧ k.ref = none) ∧
    (k.revision = 0 ∨ k.revision = w.revision rootInodeID)}

omit hL hi in
theorem coherent_rootClaims (hL : Coherent L) : Coherent (L ∪ rootClaims w) := by
  -- a claim that the root has now agrees with any it had
  have hroot : ∀ k ∈ L ∪ rootClaims w, k.id = rootInodeID →
      k.kind = .dir ∧ k.size = 0 ∧ k.ref = none := by
    rintro k (hk | ⟨-, hkind, hs, -⟩) hid
    · have hkind := hL.root k hk hid
      exact ⟨hkind, hL.plain k hk (by simp [hkind])⟩
    · exact ⟨hkind, hs⟩
  have hsame : ∀ k₁ ∈ L ∪ rootClaims w, ∀ k₂ ∈ L ∪ rootClaims w, k₁.id = k₂.id →
      (k₁ ∈ L ∧ k₂ ∈ L) ∨ k₁.kind = k₂.kind ∧ k₁.size = k₂.size ∧ k₁.ref = k₂.ref := by
    intro k₁ h₁ k₂ h₂ hid
    by_cases hr : k₁.id = rootInodeID
    · obtain ⟨hk₁, hs₁, hr₁⟩ := hroot k₁ h₁ hr
      obtain ⟨hk₂, hs₂, hr₂⟩ := hroot k₂ h₂ (hid.symm.trans hr)
      exact .inr ⟨hk₁.trans hk₂.symm, hs₁.trans hs₂.symm, hr₁.trans hr₂.symm⟩
    · exact .inl ⟨h₁.resolve_right fun h => hr h.1, h₂.resolve_right fun h => hr (hid.trans h.1)⟩
  refine ⟨fun k₁ h₁ k₂ h₂ hid => ?_, fun k₁ h₁ k₂ h₂ hid hr => ?_, fun k₁ h₁ k₂ h₂ hid hr => ?_,
    ?_, ?_, fun k hk hid => (hroot k hk hid).1⟩
  · obtain ⟨h₁, h₂⟩ | ⟨hk, -⟩ := hsame k₁ h₁ k₂ h₂ hid
    · exact hL.kind k₁ h₁ k₂ h₂ hid
    · exact hk
  · obtain ⟨h₁, h₂⟩ | ⟨-, hs, -⟩ := hsame k₁ h₁ k₂ h₂ hid
    · exact hL.size k₁ h₁ k₂ h₂ hid hr
    · exact hs
  · obtain ⟨h₁, h₂⟩ | ⟨-, -, href⟩ := hsame k₁ h₁ k₂ h₂ hid
    · exact hL.ref k₁ h₁ k₂ h₂ hid hr
    · exact href
  · rintro k (hk | ⟨-, -, hs, -⟩)
    · exact hL.nonneg k hk
    · exact hs.1.ge
  · rintro k (hk | ⟨-, -, hs, -⟩) hkind
    · exact hL.plain k hk hkind
    · exact hs

omit hL hi in
/-- The root's claims use no token that an operation holds. -/
theorem Supplied.rootClaims (hs : Supplied L w h) (hk : k ∈ rootClaims w) :
    (∀ t, Held h t → k.revision ≠ t) ∧ ∀ n, Vacant h n → k.id ≠ n := by
  obtain ⟨hid, -, -, hrev⟩ := hk
  refine ⟨fun t ht hr => ?_, fun n hn hkn => ?_⟩
  · have hpos := (hs.drawn t (drawn_iff.mpr ht.1)).1
    obtain hrev | hrev := hrev
    · rw [← hr, hrev] at hpos
      exact lt_irrefl 0 hpos
    · cases hstored : (w.inode rootInodeID).bind (·.revision) with
      | none =>
        rw [← hr, hrev] at hpos
        simp [Store.revision, hstored] at hpos
      | some t' =>
        have heq : t' = t := by
          rw [← hr, hrev]
          simp [Store.revision, hstored]
        exact (hs.held t ht).2 rootInodeID (heq ▸ hstored)
  · exact (hs.allocated n (allocated_iff.mpr hn.1)).2.ne (hid.symm.trans hkn)

omit hL hi in
theorem nextInode_createRootWrite (now : ℤ) (w : World) :
    (createRootWrite now w).nextInode = some (w.nextInode.getD rootInodeID) := rfl

omit hL hi in
theorem Shows.plant (hsh : Shows L w) (hH : H.resets) (now : ℤ) :
    Shows (L ∪ rootClaims w) (createRootWrite now w) := by
  obtain ⟨x, hstep, hkind, hrev⟩ := createRoot_step hH now w
  have hhash : HashSteps none w.toStore (createRootWrite now w).toStore :=
    .trans (.hset rootInodeID (.inl rfl) (.inl rfl)) (.of_inode rfl)
  have hx : nodeClaim (refOf (createRootWrite now w).toStore rootInodeID) rootInodeID x ∈
      rootClaims w := by
    refine ⟨rfl, hkind, ?_, .inr hrev⟩
    simp [nodeClaim, Claim.of, hkind]
  have hver : VersionSteps none w.toStore (createRootWrite now w).toStore :=
    .of_removed (fileVersion_createRootWrite now)
  have hnext : rootInodeID ≤ w.nextInode.getD rootInodeID ∧
      w.nextInode.getD 0 ≤ w.nextInode.getD rootInodeID := by
    cases hn : w.nextInode with
    | none => exact ⟨le_rfl, zero_le _⟩
    | some n => exact ⟨hsh.started n hn, le_rfl⟩
  refine ⟨fun j y hy => ?_, fun p j hj => ?_, fun c hc => .inl (hsh.cached c hc), ?_,
    fun j t ht => ?_, ?_, fun n hn => ?_, fun j f hf hnone => ?_, fun j f hf hnone href k hk => ?_⟩
  · obtain hold | hnew := hstep.node_cases hy
    · exact .inl (hsh.unchanged hver nofun hold hy)
    · cases hnew
      exact .inr hx
  · obtain hj | ⟨y, hy⟩ := hstep.entry_cases hj
    · obtain ⟨k, hk, hid⟩ := hsh.entry p j hj
      exact ⟨k, .inl hk, hid⟩
    · cases hy
      exact ⟨_, .inr hx, rfl⟩
  · rintro k (hk | ⟨-, -, -, hr | hr⟩)
    · exact hsh.token k hk
    · rw [hr]
      exact zero_le _
    · rw [hr]
      cases hstored : (w.inode rootInodeID).bind (·.revision) with
      | none =>
        simp only [Store.revision, hstored, getD_none]
        exact zero_le _
      | some t =>
        simp only [Store.revision, hstored, getD_some]
        exact hsh.stored rootInodeID t hstored
  · obtain ht | ht := stored_cases hhash ht
    · exact hsh.stored j t ht
    · cases ht
  · rintro k (hk | ⟨hid, -⟩)
    · exact ⟨(hsh.number k hk).1.trans hnext.2, hnext.1⟩
    · exact ⟨hid ▸ hnext.1, hnext.1⟩
  · rw [nextInode_createRootWrite] at hn
    cases hn
    exact hnext.1
  · exact tidy_after hhash hsh.tidy hf hnone
  · intro hid hfile
    obtain hk | ⟨-, hdir, -⟩ := hk
    · obtain ⟨f₀, hf₀, hnone₀, hr₀⟩ := formed_before hhash hf hnone href
      exact hsh.formed j f₀ hf₀ hnone₀ hr₀ k hk hid hfile
    · rw [hdir] at hfile
      cases hfile

/-- The root is created. -/
theorem Ledger.plant (hH : H.resets) {now : ℤ} (r : Except Err Unit) :
    Ledger (L ∪ rootClaims w) (createRootWrite now w)
      (update mem i (some (⟨.createRoot now, r⟩ :: h))) := by
  have hroot : rootClaim ∈ L ∪ rootClaims w := .inr ⟨rfl, rfl, ⟨rfl, rfl⟩, .inl rfl⟩
  have hnext : w.nextInode.getD 0 ≤ (createRootWrite now w).nextInode.getD 0 := by
    rw [nextInode_createRootWrite]
    cases w.nextInode with
    | none => exact zero_le _
    | some n => exact le_rfl
  have hstored : ∀ j t, ((createRootWrite now w).inode j).bind (·.revision) = some t →
      (w.inode j).bind (·.revision) = some t := by
    intro j t ht
    have hhash : HashSteps none w.toStore (createRootWrite now w).toStore :=
      .trans (.hset rootInodeID (.inl rfl) (.inl rfl)) (.of_inode rfl)
    exact (stored_cases hhash ht).resolve_right (by simp)
  have hsupplied : ∀ j h', mem j = some h' →
      Supplied (L ∪ rootClaims w) (createRootWrite now w) h' := by
    intro j h' hm
    refine (hL.supplied j h' hm).mono le_rfl hnext ?_ fun j t ht => .inl (hstored j t ht)
    rintro k (hk | hk)
    · exact .inl hk
    · exact .inr ((hL.supplied j h' hm).rootClaims hk)
  refine hL.advance Set.subset_union_left (coherent_rootClaims hL.coherent)
    (hL.shows.plant hH now) ?_ ?_ (fun j h' _ hm => hsupplied j h' hm) fun j h' hj hm => ?_
  · refine ((hL.faithful i h hi).mono Set.subset_union_left).cons_quiet (.inl ⟨rfl, rfl⟩)
      (fun d hd => ?_) fun _ => hroot
    cases r <;> cases hd
  · refine (hsupplied i h hi).cons le_rfl le_rfl (fun t ht => ?_) (fun n hn => ?_)
      (fun k hk => .inl hk) fun j t ht => .inl ht
    · cases r <;> cases ht
    · cases r <;> cases hn
  · refine (hL.apart i j h h' (Ne.symm hj) hi hm).cons (fun t ht => ?_) fun n hn => ?_
    · cases r <;> cases ht
    · cases r <;> cases hn

/-! ## What publications claim -/

/-- Every justified publication makes a claim. -/
theorem Ledger.makes (hj : Justified h c) (ht : c.token.isSome) : ∃ k, Makes L h c k := by
  have hf := hL.faithful i h hi
  -- an inode that was read and keeps its kind, size and form
  have hkept : ∀ d, Seen h d → ∀ id revision, d.id = id →
      (∃ k₀ ∈ L, k₀.id = id ∧ k₀.kind = d.type) ∧
      (d.type = .file → (claimOf d).ref.isSome ∨
        ∃ k₀ ∈ L, k₀.id = id ∧ k₀.kind = .file ∧
          k₀.ref = (Claim.of id revision d.type d.size d.contentRef).ref) ∧
      0 ≤ (claimOf d).size := by
    rintro d hd id revision rfl
    have hk := hf.seen d hd
    exact ⟨⟨_, hk, rfl, rfl⟩, fun hfile => .inr ⟨_, hk, rfl, hfile, rfl⟩, hL.coherent.nonneg _ hk⟩
  cases c with
  | publishFile a =>
    obtain ⟨hheld, -, hsize, -, href, hnew, hold⟩ := hj
    refine ⟨_, rfl, hheld, ?_, fun _ => .inl href, ?_⟩
    · cases hc : a.create with
      | true => exact .inl ⟨by simp [Cmd.places, hc, Claim.of], hnew hc⟩
      | false =>
        obtain ⟨d, hd, hid, -, hkind⟩ := hold hc
        exact .inr ⟨by simp [Cmd.places, hc], _, hf.seen d hd, hid, hkind⟩
    · simpa [Claim.of] using hsize
  | updateInode a | renameMetadata a replaced noReplace watched =>
    obtain ⟨hheld, ⟨d, hd, hid, hrev, -⟩, -⟩ := hj
    obtain ⟨horigin, hform, hsize⟩ := hkept d hd a.id a.revision hid
    exact ⟨_, ⟨d, hd, hid, hrev, rfl⟩, hheld, .inr ⟨rfl, horigin⟩, hform, hsize⟩
  | createMetadata name a =>
    obtain ⟨⟨t, hrev, hheld⟩, hv, hkind, -⟩ := hj
    obtain ⟨kind, htype, hne⟩ : ∃ kind, a.fields.type = some kind ∧ kind ≠ .file := by
      obtain hk | hk := hkind
      · exact ⟨_, hk, by simp⟩
      · exact ⟨_, hk, by simp⟩
    refine ⟨_, ⟨t, kind, hrev, htype, rfl⟩, hheld, .inl ⟨rfl, hv⟩, fun hfile => absurd hfile hne, ?_⟩
    simp [Claim.of, hne]
  | restoreVersion a =>
    obtain ⟨hheld, -, -, -, ⟨kind, size, htype, hsize, -, hfile, hsame, hnew⟩, -⟩ := hj
    refine ⟨_, ⟨kind, htype, rfl⟩, hheld, ?_, fun hk => .inl ?_, ?_⟩
    · by_cases he : a.expectedId = some a.id
      · obtain ⟨d, hd, hid, hkind⟩ := hsame he
        exact .inr ⟨by simp [Cmd.places, he], _, hf.seen d hd, hid, hkind⟩
      · exact .inl ⟨by simp [Cmd.places, he, Claim.of], hnew he⟩
    · have hk : kind = .file := hk
      simpa [Claim.of, hk] using (hfile hk).2
    · by_cases hk : kind = .file
      · simpa [Claim.of, hk, hsize] using (hfile hk).1
      · simp [Claim.of, hk]
  | _ => cases ht

end

end Exchange

end Afs.Client
