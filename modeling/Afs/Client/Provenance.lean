import Afs.Client.Solo
import Afs.Client.Replies

/-!
# Where the arguments of a publication come from

Every publication is built from what its operation has read: the revision it replaces belongs to
an inode the operation has loaded or found in its cache, the revision it writes is a fresh token
that no earlier publication may have used, a created inode has a freshly allocated identity.

The observer `provenance` remembers the exchanges of one operation (`Memory`) and allows a command
only if it is `Justified` by them. `Request.proper` says that every request is allowed all its
commands. What the store makes of justified commands is in `Client/Ledger.lean`.
-/

namespace Afs.Client

open History List Prog

/-! ## What an operation remembers -/

/-- One exchange, as an operation remembers it. -/
structure Event where
  cmd : Cmd
  reply : Except Err (Val cmd)

/-- The exchanges of an operation, the last one first. -/
abbrev Memory := List Event

/-- The reply shows that a publication has not gone through: it came back with an error other than
a network fault, or asked for a preparation. -/
def Event.idle : Event → Bool
  | ⟨_, .error e⟩ => e != .network
  | ⟨.publishFile _, .ok v⟩ | ⟨.deleteInode _, .ok v⟩ | ⟨.updateInode _, .ok v⟩
  | ⟨.createMetadata _ _, .ok v⟩ | ⟨.renameMetadata _ _ _ _, .ok v⟩ =>
    v == .raised .preparationRequired
  | _ => false

/-- The revision a command writes. -/
def Cmd.token : Cmd → Option Token
  | .publishFile a => some a.revision
  | .updateInode a => some a.revision
  | .createMetadata _ a => a.fields.revision
  | .renameMetadata a _ _ _ => some a.revision
  | .restoreVersion a => some a.operation
  | _ => none

/-- The inode a command creates. -/
def Cmd.places : Cmd → Option Id
  | .publishFile a => if a.create then some a.id else none
  | .createMetadata _ a => some a.id
  | .restoreVersion a => if a.expectedId = some a.id then none else some a.id
  | _ => none

/-- A publication that wrote the token may have gone through. -/
def Spent (h : Memory) (t : Token) : Prop := ∃ e ∈ h, e.cmd.token = some t ∧ e.idle = false

/-- A publication that created the inode may have gone through. -/
def Placed (h : Memory) (i : Id) : Prop := ∃ e ∈ h, e.cmd.places = some i ∧ e.idle = false

/-- A token of the operation. -/
def Owns (h : Memory) (t : Token) : Prop := ⟨.newOriginID, .ok t⟩ ∈ h

/-- A token of the operation that it has not used. -/
def Held (h : Memory) (t : Token) : Prop := Owns h t ∧ ¬ Spent h t

/-- An identity the operation has allocated and not used. -/
def Vacant (h : Memory) (i : Id) : Prop := ⟨.incrNextInode, .ok i⟩ ∈ h ∧ ¬ Placed h i

/-- The operation has read the inode from Redis or from its cache. -/
def Seen (h : Memory) (d : InodeData) : Prop :=
  (∃ id, ⟨.loadInode id, .ok (some d)⟩ ∈ h) ∨ ∃ p, ⟨.cacheGet p, .ok (some d)⟩ ∈ h

/-- The part of an inode that its revision fixes. -/
structure Claim where
  id : Id
  revision : Rev
  kind : Kind
  /-- Only files have one. -/
  size : ℤ
  /-- The form of the content of a file. -/
  ref : Option ContentRef
  deriving DecidableEq

/-- The claim of an inode with the given fields. -/
def Claim.of (id : Id) (revision : Rev) (kind : Kind) (size : ℤ) (ref : Option ContentRef) : Claim :=
  ⟨id, revision, kind, if kind = .file then size else 0, if kind = .file then ref else none⟩

/-- The claim of an inode as the client holds it. -/
def claimOf (d : InodeData) : Claim := .of d.id d.revision d.type d.size d.contentRef

/-- The claim of a new root. -/
def rootClaim : Claim := .of rootInodeID 0 .dir 0 none

/-- Some inode the operation has read is the one at the revision a publication replaces. -/
def Replaces (h : Memory) (id : Id) (revision : Rev) (P : InodeData → Prop) : Prop :=
  ∃ d, Seen h d ∧ d.id = id ∧ d.revision = revision ∧ P d

/-- The claim a publication makes. -/
def Backed (h : Memory) : Cmd → Claim → Prop
  | .publishFile a, k => k = .of a.id a.revision .file a.size a.fields.contentRef
  | .updateInode a, k =>
    Replaces h a.id a.expected fun d => k = .of a.id a.revision d.type d.size d.contentRef
  | .renameMetadata a _ _ _, k =>
    Replaces h a.id a.expected fun d => k = .of a.id a.revision d.type d.size d.contentRef
  | .createMetadata _ a, k => ∃ t kind, a.fields.revision = some t ∧ a.fields.type = some kind ∧
    k = .of a.id t kind (a.fields.size.getD 0) a.fields.contentRef
  | .restoreVersion a, k => ∃ kind, a.fields.type = some kind ∧
    k = .of a.id a.operation kind (a.fields.size.getD 0) a.fields.contentRef
  | _, _ => False

/-- The operation has read an inode, or has created the root. -/
def Rooted (h : Memory) : Prop :=
  (∃ d, Seen h d) ∨ ∃ now, ⟨.createRoot now, .ok ()⟩ ∈ h

/-- The operation has read the claim, or a publication that made it may have gone through. -/
def Known (h : Memory) (k : Claim) : Prop :=
  (∃ d, Seen h d ∧ claimOf d = k) ∨ (∃ e ∈ h, e.idle = false ∧ Backed h e.cmd k) ∨
    k = rootClaim ∧ ∃ now, ⟨.createRoot now, .ok ()⟩ ∈ h

/-- What a command must be able to refer to in the memory of its operation. -/
def Justified (h : Memory) : Cmd → Prop
  | .createRoot _ => ⟨.loadInode rootInodeID, .ok none⟩ ∈ h
  | .incrNextInode => Rooted h
  | .cachePath _ d => Known h (claimOf d)
  | .stage t op => Owns h t ∧ op.Fits
  | .publishFile a =>
    Held h a.revision ∧ Owns h a.stage ∧ 0 ≤ a.size ∧
    (a.fields.type = some .file ∧ a.fields.size = some a.size ∧ a.fields.parent = some a.parent ∧
      a.fields.name = some a.name) ∧
    a.fields.contentRef.isSome ∧
    (a.create = true → Vacant h a.id) ∧
    (a.create = false → Replaces h a.id a.expected fun d => d.type = .file)
  | .updateInode a =>
    Held h a.revision ∧
    (Replaces h a.id a.expected fun d =>
      (∀ k, a.fields.type = some k → k = d.type) ∧ (∀ n, a.fields.size = some n → n = d.size) ∧
      a.fields.contentRef = if a.fields.type.isSome then d.contentRef else none) ∧
    (∀ p, a.fields.parent = some p → p = a.parent) ∧ (∀ n, a.fields.name = some n → n = a.name) ∧
    (a.fields.type.isSome → a.fields.parent.isSome ∧ a.fields.name.isSome) ∧
    a.fields.size.isSome = a.fields.type.isSome ∧ a.fields.content = none
  | .createMetadata name a =>
    (∃ t, a.fields.revision = some t ∧ Held h t) ∧ Vacant h a.id ∧
    (a.fields.type = some .dir ∨ a.fields.type = some .symlink) ∧
    a.fields.parent = some a.parent ∧ a.fields.name = some name ∧ a.fields.content = none
  | .renameMetadata a replaced _ _ =>
    Held h a.revision ∧ (Replaces h a.id a.expected fun _ => True) ∧
    a.replaced = (replaced.bind (·.2)).map (fun i => (i.id, i.revision)) ∧
    ∀ id i, replaced = some (id, some i) → Seen h i ∧ i.id = id
  | .restoreVersion a =>
    Held h a.operation ∧ (∀ t, a.stage = some t → Owns h t) ∧ a.fields.content = none ∧
    a.fields.revision = some a.operation ∧
    (∃ kind size, a.fields.type = some kind ∧ a.fields.size = some size ∧ kind ≠ .dir ∧
      (kind = .file → 0 ≤ size ∧ a.fields.contentRef.isSome) ∧
      (a.expectedId = some a.id → ∃ d, Seen h d ∧ d.id = a.id ∧ d.type = kind) ∧
      (a.expectedId ≠ some a.id → Vacant h a.id)) ∧
    a.fields.parent.isSome ∧ a.fields.name.isSome
  | _ => True

/-- The replies the operation can rely on: an inode is loaded under its own identity, files have
sizes, tokens and identities are fresh, and a token found in the store has been published. -/
def Admissible (h : Memory) (c : Cmd) (r : Except Err (Val c)) : Prop :=
  match c, r with
  | .loadInode id, .ok (some d) => d.id = id ∧ (d.type = .file → 0 ≤ d.size)
  | .cacheGet _, .ok (some d) => d.type = .file → 0 ≤ d.size
  | .newOriginID, .ok t => ¬ Spent h t
  | .incrNextInode, .ok i => ¬ Placed h i ∧ ∀ d, Seen h d → d.id ≠ i
  | .getRevision _, .ok (some t) => Owns h t → Spent h t
  | _, _ => True

/-- The observer of an operation's memory. -/
def provenance : Monitor sig Memory where
  next h c r := ⟨c, r⟩ :: h
  admits := Admissible
  allows := Justified

/-! ## How memory grows -/

theorem Seen.mono {h h' : Memory} {d : InodeData} (hs : h ⊆ h') (hd : Seen h d) : Seen h' d := by
  obtain ⟨id, hm⟩ | ⟨p, hm⟩ := hd
  · exact .inl ⟨id, hs hm⟩
  · exact .inr ⟨p, hs hm⟩

theorem Replaces.mono {h h' : Memory} {id : Id} {revision : Rev} {P P' : InodeData → Prop}
    (hs : h ⊆ h') (hP : ∀ d, P d → P' d) (hr : Replaces h id revision P) :
    Replaces h' id revision P' := by
  obtain ⟨d, hd, hid, hrev, hp⟩ := hr
  exact ⟨d, hd.mono hs, hid, hrev, hP d hp⟩

variable {c : Cmd}

theorem Backed.mono {h h' : Memory} {k : Claim} (hs : h ⊆ h') (hb : Backed h c k) :
    Backed h' c k := by
  cases c with
  | updateInode a | renameMetadata a r n w => exact Replaces.mono hs (fun _ h => h) hb
  | _ => exact hb

theorem Known.mono {h h' : Memory} {k : Claim} (hs : h ⊆ h') (hk : Known h k) : Known h' k := by
  obtain ⟨d, hd, hrest⟩ | ⟨e, he, hi, hb⟩ | ⟨hk, now, hm⟩ := hk
  · exact .inl ⟨d, hd.mono hs, hrest⟩
  · exact .inr (.inl ⟨e, hs he, hi, hb.mono hs⟩)
  · exact .inr (.inr ⟨hk, now, hs hm⟩)

theorem Rooted.mono {h h' : Memory} (hs : h ⊆ h') (hr : Rooted h) : Rooted h' := by
  obtain ⟨d, hd⟩ | ⟨now, hm⟩ := hr
  · exact .inl ⟨d, hd.mono hs⟩
  · exact .inr ⟨now, hs hm⟩

theorem Seen.known {h : Memory} {d : InodeData} (hd : Seen h d) : Known h (claimOf d) :=
  .inl ⟨d, hd, rfl⟩

/-- An exchange that cannot have used up a token or an identity. -/
def Event.quiet (e : Event) : Prop := (e.cmd.token = none ∧ e.cmd.places = none) ∨ e.idle = true

/-- Nothing has been published between two memories. -/
def Quietly (h h' : Memory) : Prop := ∃ l, h' = l ++ h ∧ ∀ e ∈ l, e.quiet

namespace Quietly

variable {h h₁ h₂ h₃ : Memory}

theorem refl (h : Memory) : Quietly h h := ⟨[], rfl, fun _ he => (by cases he)⟩

section

variable (hq : Quietly h₁ h₂)

include hq

theorem trans (hq' : Quietly h₂ h₃) : Quietly h₁ h₃ := by
  obtain ⟨l, rfl, hl⟩ := hq
  obtain ⟨l', rfl, hl'⟩ := hq'
  refine ⟨l' ++ l, by simp, fun e he => ?_⟩
  rcases mem_append.mp he with he | he
  · exact hl' e he
  · exact hl e he

theorem subset : h₁ ⊆ h₂ := by
  obtain ⟨l, rfl, -⟩ := hq
  exact subset_append_right l h₁

omit hq in
theorem cons {e : Event} (he : e.quiet) : Quietly h (e :: h) := by
  refine ⟨[e], rfl, fun e' he' => ?_⟩
  obtain rfl := mem_singleton.mp he'
  exact he

theorem spent {t : Token} (ht : Spent h₂ t) : Spent h₁ t := by
  obtain ⟨l, rfl, hl⟩ := hq
  obtain ⟨e, he, htok, hi⟩ := ht
  rcases mem_append.mp he with he | he
  · obtain ⟨hnone, -⟩ | hidle := hl e he
    · rw [hnone] at htok
      cases htok
    · rw [hidle] at hi
      cases hi
  · exact ⟨e, he, htok, hi⟩

theorem placed {i : Id} (hp : Placed h₂ i) : Placed h₁ i := by
  obtain ⟨l, rfl, hl⟩ := hq
  obtain ⟨e, he, hpl, hi⟩ := hp
  rcases mem_append.mp he with he | he
  · obtain ⟨-, hnone⟩ | hidle := hl e he
    · rw [hnone] at hpl
      cases hpl
    · rw [hidle] at hi
      cases hi
  · exact ⟨e, he, hpl, hi⟩

theorem held {t : Token} (ht : Held h₁ t) : Held h₂ t :=
  ⟨hq.subset ht.1, fun hs => ht.2 (hq.spent hs)⟩

theorem vacant {i : Id} (hv : Vacant h₁ i) : Vacant h₂ i :=
  ⟨hq.subset hv.1, fun hp => hv.2 (hq.placed hp)⟩

end

end Quietly

/-! ## Rules -/

section Rules

variable {α β : Type} {x : Op α} {f : α → Op β} {h : Memory} {Q Q' : Memory → α → Prop}
  {R : Memory → β → Prop}

/-- Started with memory `h`, the operation is allowed every command, and what it returns satisfies
`Q` together with the memory it then has. -/
def Proper (h : Memory) (x : Op α) (Q : Memory → α → Prop) : Prop :=
  Track provenance (fun h' r => ∀ a, r = .ok a → Q h' a) h x.run

/-- An operation forgets nothing. -/
theorem track_subset {E : Memory → Except Err α → Prop} (hx : Track provenance E h x.run) :
    Track provenance (fun h' r => E h' r ∧ h ⊆ h') h x.run :=
  hx.chain (fun _ => List.Subset.refl _) List.Subset.trans
    fun _ _ _ => subset_cons_self _ _

theorem Proper.mono (hx : Proper h x Q) (hQ : ∀ h' a, Q h' a → Q' h' a) : Proper h x Q' :=
  Track.mono hx fun h' _ hr a ha => hQ h' a (hr a ha)

/-- The program issues only commands that are justified. -/
abbrev Fair (h : Memory) (x : Op α) : Prop := Proper h x fun _ _ => True

theorem Proper.fair (hx : Proper h x Q) : Fair h x := hx.mono fun _ _ _ => trivial

theorem Proper.bind (hx : Proper h x Q) (hf : ∀ h' a, h ⊆ h' → Q h' a → Proper h' (f a) R) :
    Proper h (x >>= f) R := by
  refine Track.exceptBind (track_subset hx) (fun h' a hq => ?_) fun h' e _ a ha => (by cases ha)
  exact hf h' a hq.2 (hq.1 a rfl)

theorem Proper.ret {a : α} (hq : Q h a) : Proper h (pure a) Q := fun _ ha => by
  cases ha
  exact hq

theorem Proper.fail {e : Err} : Proper h (throw e : Op α) Q := nofun

theorem Proper.lift {r : Except Err α} (hr : ∀ a, r = .ok a → Q h a) : Proper h (lift r) Q := hr

theorem Proper.command {Q : Memory → Val c → Prop} (hj : Justified h c)
    (hq : ∀ v, Admissible h c (.ok v) → Q (⟨c, .ok v⟩ :: h) v) : Proper h (call c) Q := by
  refine ⟨hj, fun r hr v hv => ?_⟩
  cases hv
  exact hq v hr

theorem Proper.onlyIf {b : Prop} [Decidable b] {x : Op Unit} {Q : Memory → Unit → Prop}
    (hx : b → Proper h x Q) (hq : ¬ b → Q h ()) : Proper h (onlyIf b x) Q := by
  unfold Client.onlyIf
  split
  · next hb => exact hx hb
  · next hb => exact .ret (hq hb)

variable {k : Except Err α → Op β}

/-- An error caught: what was remembered still is. -/
theorem Proper.caught (hx : Proper h x Q) (hok : ∀ h' a, h ⊆ h' → Q h' a → Proper h' (k (.ok a)) R)
    (herr : ∀ h' e, h ⊆ h' → Proper h' (k (.error e)) R) : Proper h (attempt x >>= k) R := by
  refine track_caught (track_subset hx) fun h' r hr => ?_
  cases r with
  | ok a => exact hok h' a hr.2 (hr.1 a rfl)
  | error e => exact herr h' e hr.2

/-- The program publishes nothing and may be run at any time. -/
def Calm (x : Op α) : Prop := ∀ h, Track provenance (fun h' _ => Quietly h h') h x.run

theorem Calm.proper (hx : Calm x) : Proper h x fun h' _ => Quietly h h' :=
  Track.mono (hx h) fun _ _ hq _ _ => hq

theorem Calm.fair (hx : Calm x) : Fair h x := hx.proper.fair

theorem Calm.bind (hx : Calm x) (hf : ∀ a, Calm (f a)) : Calm (x >>= f) := fun h =>
  Track.exceptBind (hx h) (fun h' a hq => (hf a h').mono fun _ _ hq' => hq.trans hq')
    fun _ _ hq => hq

theorem Calm.ret (a : α) : Calm (pure a : Op α) := fun h => Quietly.refl h

theorem Calm.fail (e : Err) : Calm (throw e : Op α) := fun h => Quietly.refl h

theorem Calm.lift (r : Except Err α) : Calm (lift r) := fun h => Quietly.refl h

theorem Calm.onlyIf {b : Prop} [Decidable b] {x : Op Unit} (hx : Calm x) : Calm (onlyIf b x) :=
  fun h => track_onlyIf (hx h) (.refl h)

theorem Calm.caught (hx : Calm x) (hk : ∀ r, Calm (k r)) : Calm (attempt x >>= k) := fun h =>
  track_caught (hx h) fun h' r hq => (hk r h').mono fun _ _ hq' => hq.trans hq'

theorem Calm.ignore (hx : Calm x) : Calm (ignore x) := .caught hx fun _ => .ret _

/-- The commands that need no justification and publish nothing. -/
def Cmd.calm : Cmd → Bool
  | .createRoot _ | .incrNextInode | .cachePath _ _ | .stage _ _ | .publishFile _
  | .deleteInode _ | .updateInode _ | .createMetadata _ _ | .renameMetadata _ _ _ _
  | .restoreVersion _ => false
  | _ => true

theorem Cmd.quiet_of_calm (hc : c.calm = true) (r : Except Err (Val c)) : Event.quiet ⟨c, r⟩ := by
  cases c <;> first | exact .inl ⟨rfl, rfl⟩ | cases hc

theorem Cmd.justified_of_calm (hc : c.calm = true) : Justified h c := by
  cases c <;> first | exact trivial | cases hc

theorem Calm.command (hc : c.calm = true) : Calm (call c) := fun _ =>
  ⟨c.justified_of_calm hc, fun r _ => .cons (c.quiet_of_calm hc r)⟩

/-- The next step after a calm one. -/
theorem Proper.after_calm (hx : Calm x) (hf : ∀ h' a, Quietly h h' → Proper h' (f a) R) :
    Proper h (x >>= f) R :=
  .bind hx.proper fun h' a _ hq => hf h' a hq

/-- A calm command whose answer is used. -/
theorem Proper.read {k : Val c → Op β} (hc : c.calm = true)
    (hk : ∀ v, Admissible h c (.ok v) → Proper (⟨c, .ok v⟩ :: h) (k v) R) :
    Proper h (call c >>= k) R := by
  refine Proper.bind (Q := fun h' v => h' = ⟨c, .ok v⟩ :: h ∧ Admissible h c (.ok v))
    (.command (c.justified_of_calm hc) fun v hv => ⟨rfl, hv⟩) ?_
  rintro h' v - ⟨rfl, hv⟩
  exact hk v hv

/-! ### Private stages -/

/-- The program publishes nothing and writes to no stage but `t`, which must be the operation's. -/
def Staging (t : Token) (x : Op α) : Prop :=
  ∀ h, Owns h t → Track provenance (fun h' _ => Quietly h h') h x.run

variable {t : Token}

theorem Solo.quietly {o : Option Token} (hx : Solo o x) (ho : ∀ t, o = some t → Owns h t) :
    Track provenance (fun h' _ => Quietly h h') h x.run := by
  refine Only.track hx (fun h' c hq hc => ⟨?_, fun r _ => hq.trans (.cons ?_)⟩) (.refl h)
  · cases c with
    | stage t op => exact ⟨hq.subset (ho t hc.1), hc.2⟩
    | _ => trivial
  · cases c <;> first | exact .inl ⟨rfl, rfl⟩ | exact hc.elim

theorem Solo.calm (hx : Solo none x) : Calm x := fun _ => hx.quietly nofun

theorem Solo.staging (hx : Solo (some t) x) : Staging t x := fun _ ht =>
  hx.quietly fun t' h => by cases h; exact ht

/-- The next step after one on the operation's own stage. -/
theorem Proper.after_staging (ht : Owns h t) (hx : Solo (some t) x)
    (hf : ∀ h' a, Quietly h h' → Proper h' (f a) R) : Proper h (x >>= f) R :=
  .bind (Track.mono (hx.staging h ht) fun _ _ hq _ _ => hq) fun h' a _ hq => hf h' a hq

end Rules

end Afs.Client
