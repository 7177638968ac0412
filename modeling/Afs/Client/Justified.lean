import Afs.Client.Provenance
import Afs.Workspace.ArrayContent

/-!
# Every command is justified

One lemma for each operation of the client: it is allowed its commands by the observer
`provenance`, whatever memory it starts with. The lemmas say what the operation has learnt when it
returns: a lookup returns an inode that was read, an allocation an identity that is not used yet.

The result is `Request.proper`.
-/

namespace Afs.Client

open History List Prog Option

variable {ctx : Ctx} {h : Memory} {α : Type}

/-! ## Looking paths up -/

theorem calm_checkGeneration : Calm (checkGeneration ctx) := by
  unfold checkGeneration
  split
  · exact .ret _
  split
  · exact .ret _
  · refine .bind (.command rfl) fun ⟨actual, alive⟩ => ?_
    dsimp only
    split_ifs
    · exact .fail _
    · exact .ret _
    · exact .fail _
  · refine .bind (.command rfl) fun v => ?_
    split_ifs
    · exact .fail _
    · exact .ret _

variable {p : Path} {d : InodeData}

theorem proper_cachePath (hk : Known h (claimOf d)) :
    Proper h (call (.cachePath p d)) fun h' _ => Quietly h h' :=
  .command hk fun _ _ => .cons (.inl ⟨rfl, rfl⟩)

/-- A lookup publishes nothing and returns an inode that was read. -/
def Found (h h' : Memory) (i : InodeData) : Prop := Quietly h h' ∧ Seen h' i

variable {id : Id}

theorem seen_loadInode : Seen (⟨.loadInode id, .ok (some d)⟩ :: h) d :=
  .inl ⟨id, by simp⟩

theorem seen_cacheGet : Seen (⟨.cacheGet p, .ok (some d)⟩ :: h) d :=
  .inr ⟨p, by simp⟩

theorem quietly_cons {c : Cmd} (hc : c.calm = true) (r : Except Err (Val c)) :
    Quietly h (⟨c, r⟩ :: h) := .cons (c.quiet_of_calm hc r)

variable {i : InodeData}

/-- Put what was found into the cache and return it. -/
theorem proper_cacheFound {h₀ : Memory} (hi : Found h₀ h i) :
    Proper h (do call (.cachePath p i); pure i) (Found h₀) :=
  .bind (proper_cachePath hi.2.known) fun _ _ hs hq =>
    .ret ⟨hi.1.trans hq, hi.2.mono hs⟩

theorem proper_loadRootInode : Proper h loadRootInode fun h' r =>
    Quietly h h' ∧ (∀ root, r = some root → Seen h' root) ∧
      (r = none → ⟨.loadInode rootInodeID, .ok none⟩ ∈ h') := by
  refine .read rfl fun hit _ => ?_
  cases hit with
  | some root =>
    refine .ret ⟨quietly_cons rfl _, fun r hr => ?_, nofun⟩
    cases hr
    exact seen_cacheGet
  | none =>
    refine .read rfl fun found _ => ?_
    have hq := (quietly_cons (h := h) (c := .cacheGet []) rfl (.ok none)).trans
      (quietly_cons (c := .loadInode rootInodeID) rfl (.ok found))
    cases found with
    | none => exact .ret ⟨hq, nofun, fun _ => by simp⟩
    | some root =>
      refine .bind (proper_cachePath seen_loadInode.known) fun h' _ hs hq' => .ret ?_
      refine ⟨hq.trans hq', fun r hr => ?_, nofun⟩
      cases hr
      exact seen_loadInode.mono hs

theorem proper_ensureRoot : Proper h (ensureRoot ctx) fun h' _ => Quietly h h' ∧ Rooted h' := by
  refine .after_calm calm_checkGeneration fun h₁ _ hq₁ => ?_
  refine .bind proper_loadRootInode fun h₂ root _ ⟨hq₂, hsome, hnone⟩ => ?_
  cases root with
  | some root => exact .ret ⟨hq₁.trans hq₂, .inl ⟨root, hsome root rfl⟩⟩
  | none =>
    refine .after_calm (.command rfl) fun h₃ now hq₃ => ?_
    have hmissing := hq₃.subset (hnone rfl)
    refine Proper.bind (Q := fun h' _ => Quietly h₃ h' ∧ ⟨.createRoot now, .ok ()⟩ ∈ h')
      (.command hmissing fun v _ => ⟨.cons (.inl ⟨rfl, rfl⟩), by simp⟩) ?_
    rintro h₄ _ - ⟨hq₄, hm⟩
    have hknown : Known h₄ (claimOf (freshRoot now)) := .inr (.inr ⟨rfl, now, hm⟩)
    refine (proper_cachePath hknown).mono fun h' _ hq₅ => ?_
    exact ⟨hq₁.trans (hq₂.trans (hq₃.trans (hq₄.trans hq₅))), .inr ⟨now, hq₅.subset hm⟩⟩

variable {p : Path}

theorem proper_loadComponent {cur : InodeData} {n : Name} :
    Proper h (loadComponent cur p n) (Found h) := by
  refine .read rfl fun hit _ => ?_
  cases hit with
  | some i => exact .ret ⟨quietly_cons rfl _, seen_cacheGet⟩
  | none =>
    refine .read rfl fun id _ => ?_
    cases id with
    | none => exact .fail
    | some id =>
      refine .read rfl fun found _ => ?_
      cases found with
      | none => exact .fail
      | some i =>
        refine proper_cacheFound ⟨?_, seen_loadInode⟩
        exact ((quietly_cons rfl _).trans (quietly_cons rfl _)).trans (quietly_cons rfl _)

/-- Resolving returns a path and an inode that was read. -/
def Resolved (h h' : Memory) (v : Path × InodeData) : Prop := Found h h' v.2

variable {cur : InodeData}

theorem proper_resolveLoop {followFinal : Bool}
    {restart : Path → Bytes → List Name → Op (Path × InodeData)}
    (hr : ∀ h p t l, Proper h (restart p t l) (Resolved h)) {curPath : Path} (hcur : Seen h cur)
    {l : List Name} : Proper h (resolveLoop followFinal restart curPath cur l) (Resolved h) := by
  induction l generalizing curPath cur h with
  | nil => exact .ret ⟨.refl _, hcur⟩
  | cons n rest ih =>
    refine .bind proper_loadComponent fun h' i _ hi => ?_
    split_ifs
    · exact (hr _ _ _ _).mono fun _ v hv => ⟨hi.1.trans hv.1, hv.2⟩
    · exact .ret hi
    · exact .fail
    · exact (ih hi.2).mono fun _ v hv => ⟨hi.1.trans hv.1, hv.2⟩

theorem proper_resolveDepth {followFinal : Bool} {depth : ℕ} :
    Proper h (resolveDepth followFinal depth p) (Resolved h) := by
  induction depth generalizing p h with
  | zero =>
    refine .bind proper_loadRootInode fun h' root _ ⟨hq, hsome, _⟩ => ?_
    cases root with
    | none => exact .fail
    | some root =>
      refine (proper_resolveLoop (fun _ _ _ _ => .fail) (hsome root rfl)).mono fun _ v hv => ?_
      exact ⟨hq.trans hv.1, hv.2⟩
  | succ depth ih =>
    refine .bind proper_loadRootInode fun h' root _ ⟨hq, hsome, _⟩ => ?_
    cases root with
    | none => exact .fail
    | some root =>
      refine (proper_resolveLoop (fun _ _ _ _ => ?_) (hsome root rfl)).mono fun _ v hv => ?_
      · split
        · exact .fail
        · exact ih
      · exact ⟨hq.trans hv.1, hv.2⟩

theorem proper_resolvePath (p : Path) (followFinal : Bool) :
    Proper h (resolvePath ctx p followFinal) (Resolved h) :=
  .bind proper_ensureRoot fun _ _ _ hq =>
    proper_resolveDepth.mono fun _ _ hv => ⟨hq.1.trans hv.1, hv.2⟩

theorem proper_loadInode : Fair h (loadInode ctx p) := by
  refine .read rfl fun hit _ => ?_
  cases hit with
  | some i => exact .ret trivial
  | none =>
    refine .caught (proper_resolvePath p false) (fun h' v _ hv => ?_) fun h' e _ => ?_
    · refine .bind (proper_cachePath hv.2.known) fun h'' _ hs _ => ?_
      refine .bind (Q := fun _ _ => True) (.onlyIf (fun _ => ?_) fun _ => trivial) fun _ _ _ _ =>
        .ret trivial
      exact (proper_cachePath (hv.2.mono hs).known).fair
    · cases e <;> first | exact .fail | exact .ret trivial

theorem calm_publishInvalidate {op : InvalidateOp} {paths : List Path} :
    Calm (publishInvalidate ctx op paths) := by
  unfold publishInvalidate
  split
  · exact .ret _
  · exact .ignore (.command rfl)

theorem calm_pruneHistory (code : ℤ) : Calm (pruneHistory code) := by
  unfold pruneHistory
  split
  · exact .ignore (.command rfl)
  · exact .ret _

theorem calm_markRootDirty : Calm markRootDirty := by
  refine .bind (.command rfl) fun throttled => ?_
  split
  · exact .ret _
  · exact .command rfl

/-- An allocated identity is new to the operation. -/
theorem proper_allocInodeID : Proper h (allocInodeID ctx) fun h' i =>
    Quietly h h' ∧ Vacant h' i ∧ ∀ d, Seen h d → d.id ≠ i := by
  refine .bind proper_ensureRoot fun h' _ hs ⟨hq, hroot⟩ => .command hroot fun i hi => ?_
  have hcons : Quietly h' (⟨.incrNextInode, .ok i⟩ :: h') := .cons (.inl ⟨rfl, rfl⟩)
  refine ⟨hq.trans hcons, ⟨by simp, fun hp => hi.1 (hcons.placed hp)⟩, fun d hd => ?_⟩
  exact hi.2 d (hd.mono hs)

/-! ## Publications -/

/-- What justifies a command keeps doing so while nothing is published. -/
theorem Justified.quietly {h' : Memory} {c : Cmd} (hq : Quietly h h') (hj : Justified h c) :
    Justified h' c := by
  have hs : h ⊆ h' := hq.subset
  cases c with
  | createRoot now => exact hs hj
  | incrNextInode => exact Rooted.mono hs hj
  | cachePath p d => exact Known.mono hs hj
  | stage t op => exact ⟨hs hj.1, hj.2⟩
  | publishFile a =>
    obtain ⟨ht, hstage, hsize, hfields, href, hnew, hold⟩ := hj
    exact ⟨hq.held ht, hs hstage, hsize, hfields, href, fun hc => hq.vacant (hnew hc), fun hc =>
      (hold hc).mono hs fun _ hd => hd⟩
  | updateInode a =>
    obtain ⟨ht, hr, hrest⟩ := hj
    exact ⟨hq.held ht, hr.mono hs fun _ hd => hd, hrest⟩
  | createMetadata name a =>
    obtain ⟨⟨t, ht, hheld⟩, hv, hrest⟩ := hj
    exact ⟨⟨t, ht, hq.held hheld⟩, hq.vacant hv, hrest⟩
  | renameMetadata a replaced noReplace watched =>
    obtain ⟨ht, hr, heq, hseen⟩ := hj
    exact ⟨hq.held ht, hr.mono hs fun _ hd => hd, heq, fun id i hi =>
      ⟨(hseen id i hi).1.mono hs, (hseen id i hi).2⟩⟩
  | restoreVersion a =>
    obtain ⟨ht, hstage, hinline, hrev, ⟨kind, size, hk, hsz, hdir, hpos, hold, hnew⟩, hrest⟩ := hj
    refine ⟨hq.held ht, fun t h => hs (hstage t h), hinline, hrev, ⟨kind, size, hk, hsz, hdir, hpos,
      fun he => ?_, fun he => hq.vacant (hnew he)⟩, hrest⟩
    obtain ⟨d, hd, hid, hkind⟩ := hold he
    exact ⟨d, hd.mono hs, hid, hkind⟩
  | _ => trivial

/-- How the attempts to send one publication end: nothing else was published, nothing at all if
there is to be another attempt, and a code means that the publication may have gone through. -/
structure Sent (c : Cmd) (h h' : Memory) (r : Except Err ℤ) : Prop where
  only : ∃ l, h' = l ++ h ∧ ∀ e ∈ l, e.quiet ∨ e.cmd = c
  again : r = .error .txFailed ∨ r = .error (.lua .preparationRequired) → Quietly h h'
  done : ∀ code, r = .ok code → ∃ e ∈ h', e.cmd = c ∧ e.idle = false

variable {t : Token}

namespace Sent

variable {c : Cmd} {h₀ h' : Memory} {r : Except Err ℤ}

theorem of_error (e : Err) : Sent c h (⟨c, .error e⟩ :: h) (.error e) where
  only := ⟨[_], rfl, fun e' he' => by simp_all⟩
  again he := by
    refine .cons (.inr ?_)
    rcases he with he | he
    · cases he
      rfl
    · cases he
      rfl
  done code hc := by cases hc

theorem of_ok {v : Val c} {reply : Reply}
    (hidle : Event.idle ⟨c, .ok v⟩ = (reply == .raised .preparationRequired)) :
    Sent c h (⟨c, .ok v⟩ :: h) reply.toCode where
  only := ⟨[_], rfl, fun e' he' => by simp_all⟩
  again he := by
    refine .cons (.inr ?_)
    rw [hidle]
    cases reply with
    | raised e =>
      rcases he with he | he
      · cases he
      · cases he
        rfl
    | code n | record r | refused n => rcases he with he | he <;> cases he
  done code hc := by
    refine ⟨_, mem_cons_self, rfl, ?_⟩
    rw [hidle]
    cases reply <;> cases hc
    rfl

theorem of_quietly (hq : Quietly h h') {e : Err} : Sent c h h' (.error e) where
  only := by
    obtain ⟨l, rfl, hl⟩ := hq
    exact ⟨l, rfl, fun e' he' => .inl (hl e' he')⟩
  again _ := hq
  done code hc := by cases hc

theorem from_quietly (hq : Quietly h₀ h) (hs : Sent c h h' r) : Sent c h₀ h' r where
  only := by
    obtain ⟨l, rfl, hl⟩ := hq
    obtain ⟨l', rfl, hl'⟩ := hs.only
    refine ⟨l' ++ l, by simp, fun e he => ?_⟩
    rcases mem_append.mp he with he | he
    · exact hl' e he
    · exact .inl (hl e he)
  again he := hq.trans (hs.again he)
  done := hs.done

theorem then_quietly {h'' : Memory} (hs : Sent c h h' r) (hq : Quietly h' h'') : Sent c h h'' r where
  only := by
    obtain ⟨l, rfl, hl⟩ := hs.only
    obtain ⟨l', rfl, hl'⟩ := hq
    refine ⟨l' ++ l, by simp, fun e he => ?_⟩
    rcases mem_append.mp he with he | he
    · exact .inl (hl' e he)
    · exact hl e he
  again he := (hs.again he).trans hq
  done code hc := by
    obtain ⟨e, he, hrest⟩ := hs.done code hc
    exact ⟨e, hq.subset he, hrest⟩

/-- If a token was spent meanwhile, the publication may have gone through. -/
theorem spent (hs : Sent c h h' r) (ht : Spent h' t) (hfresh : ¬ Spent h t) :
    ∃ e ∈ h', e.cmd = c ∧ e.idle = false := by
  obtain ⟨l, rfl, hl⟩ := hs.only
  obtain ⟨e, he, htok, hi⟩ := ht
  rcases mem_append.mp he with hel | heh
  · obtain (⟨hnone, -⟩ | hidle) | hc := hl e hel
    · rw [hnone] at htok
      cases htok
    · rw [hidle] at hi
      cases hi
    · exact ⟨e, he, hc, hi⟩
  · exact absurd ⟨e, heh, htok, hi⟩ hfresh

end Sent

theorem sent_publishFile {a : PublishArgs} (hj : Justified h (.publishFile a)) :
    Track provenance (Sent (.publishFile a) h) h (scriptCode (call (.publishFile a))).run := by
  refine ⟨hj, fun r _ => ?_⟩
  cases r with
  | error e => exact .of_error e
  | ok v => exact .of_ok rfl

theorem sent_deleteInode {a : DeleteArgs} (hj : Justified h (.deleteInode a)) :
    Track provenance (Sent (.deleteInode a) h) h (scriptCode (call (.deleteInode a))).run := by
  refine ⟨hj, fun r _ => ?_⟩
  cases r with
  | error e => exact .of_error e
  | ok v => exact .of_ok rfl

theorem sent_updateInode {a : UpdateArgs} (hj : Justified h (.updateInode a)) :
    Track provenance (Sent (.updateInode a) h) h (scriptCode (call (.updateInode a))).run := by
  refine ⟨hj, fun r _ => ?_⟩
  cases r with
  | error e => exact .of_error e
  | ok v => exact .of_ok rfl

theorem sent_createMetadata {name : Name} {a : CreateArgs} (hj : Justified h (.createMetadata name a)) :
    Track provenance (Sent (.createMetadata name a) h) h
      (scriptCode (call (.createMetadata name a))).run := by
  refine ⟨hj, fun r _ => ?_⟩
  cases r with
  | error e => exact .of_error e
  | ok v => exact .of_ok rfl

variable {watched : Option Id}

theorem sent_renameMetadata {a : RenameArgs} {replaced : Option (Id × Option InodeData)}
    {noReplace : Bool} (hj : Justified h (.renameMetadata a replaced noReplace watched)) :
    Track provenance (Sent (.renameMetadata a replaced noReplace watched) h) h
      (scriptCode (call (.renameMetadata a replaced noReplace watched))).run := by
  refine ⟨hj, fun r _ => ?_⟩
  cases r with
  | error e => exact .of_error e
  | ok v => exact .of_ok rfl

variable {n : ℕ}

section Prepared

variable {script : Op Reply} {c : Cmd}
  (hs : ∀ {h}, Justified h c → Track provenance (Sent c h) h (scriptCode script).run)

include hs in
theorem sent_retryWatch (hj : Justified h c) :
    Track provenance (Sent c h) h (retryWatch (scriptCode script) n).run := by
  induction n generalizing h with
  | zero => exact .of_quietly (.refl h)
  | succ n ih =>
    refine track_caught (hs hj) fun h' r hr => ?_
    split
    · have hq := hr.again (.inl rfl)
      exact (ih (hj.quietly hq)).mono fun _ _ hr' => hr'.from_quietly hq
    · exact hr

include hs in
theorem sent_runMutationScript (hj : Justified h c) :
    Track provenance (Sent c h) h (runMutationScript ctx script).run := by
  unfold runMutationScript
  split
  · exact hs hj
  · exact sent_retryWatch hs hj

include hs in
theorem sent_preparedAttempts (hj : Justified h c) (operation : Token)
    (requests : List PrepareRequest) (n : ℕ) (prepared : Bool) :
    Track provenance (fun h' r => ∃ v, r = .ok v ∧ Sent c h h' v.1) h
      (preparedAttempts (runMutationScript ctx script) operation requests n prepared).run := by
  induction n generalizing h prepared with
  | zero => exact ⟨_, rfl, .of_quietly (.refl h)⟩
  | succ n ih =>
    refine track_caught (sent_runMutationScript hs hj) fun h' r hr => ?_
    split
    · have hq := hr.again (.inr rfl)
      refine track_caught (Calm.command rfl h') fun h'' r' hq' => ?_
      cases r' with
      | error e => exact ⟨_, rfl, .of_quietly (hq.trans hq')⟩
      | ok u =>
        refine (ih (hj.quietly (hq.trans hq')) true).mono ?_
        rintro h₃ r ⟨v, hv, hr'⟩
        exact ⟨v, hv, hr'.from_quietly (hq.trans hq')⟩
    · exact ⟨_, rfl, hr⟩

include hs in
theorem sent_runPreparedMutation (hj : Justified h c) (operation : Token)
    (requests : List PrepareRequest) :
    Track provenance (Sent c h) h (runPreparedMutation ctx script operation requests).run := by
  refine Track.exceptBind (sent_preparedAttempts hs hj operation requests 3 false) ?_ ?_
  · rintro h' ⟨r, prepared⟩ ⟨v, hv, hr⟩
    cases hv
    refine Track.exceptBind (E := fun h'' u => Quietly h' h'' ∧ u = .ok ()) ?_ ?_ ?_
    · unfold onlyIf
      split
      · refine track_caught (Calm.command rfl h') fun h'' _ hq => ⟨hq, rfl⟩
      · exact ⟨.refl h', rfl⟩
    · rintro h'' u ⟨hq, -⟩
      exact hr.then_quietly hq
    · rintro h'' e ⟨-, he⟩
      cases he
  · rintro h' e ⟨v, hv, -⟩
    cases hv

end Prepared

/-- Reading the operation's token back shows that it was published. -/
theorem proper_committed {revision : Rev} : Proper h (committed id revision) fun h' b =>
      Quietly h h' ∧ (b = true → ⟨.newOriginID, .ok revision⟩ ∈ h → Spent h revision) := by
  have no : ∀ {r}, Proper (⟨.getRevision id, r⟩ :: h) (pure false) fun h' b =>
      Quietly h h' ∧ (b = true → ⟨.newOriginID, .ok revision⟩ ∈ h → Spent h revision) :=
    fun {r} => .ret ⟨quietly_cons rfl r, nofun⟩
  refine ⟨trivial, fun r hr => ?_⟩
  cases r with
  | error e => exact no
  | ok v =>
    cases v with
    | none => exact no
    | some t =>
      refine Proper.ret ⟨quietly_cons rfl _, fun hb hm => ?_⟩
      obtain rfl : t = revision := by simpa using hb
      exact hr hm

/-- The code of a publication means that it may have gone through. -/
theorem proper_publishCode {args : PublishArgs} (hj : Justified h (.publishFile args))
    {request : PrepareRequest} : Proper h (publishCode ctx args request) fun h' _ =>
      ∃ e ∈ h', e.cmd = .publishFile args ∧ e.idle = false := by
  have hheld : Held h args.revision := hj.1
  refine track_caught (sent_runPreparedMutation sent_publishFile hj _ _) fun h' r hr => ?_
  cases r with
  | ok code => exact Proper.ret (hr.done code rfl)
  | error e =>
    refine Proper.bind proper_committed fun h'' b hsub ⟨hq, hb⟩ => ?_
    split
    · next hbt =>
      have hm : ⟨.newOriginID, .ok args.revision⟩ ∈ h' := by
        obtain ⟨l, rfl, -⟩ := hr.only
        exact mem_append_right l hheld.1
      obtain ⟨e', he', hrest⟩ := hr.spent (hb hbt hm) hheld.2
      exact .ret ⟨e', hsub he', hrest⟩
    · exact .fail

/-- The fields an operation adds to a published file name no link, kind, size or form. -/
def Incidental (extra : InodeHash) : Prop :=
  extra.type = none ∧ extra.size = none ∧ extra.parent = none ∧ extra.name = none ∧
    extra.contentRef = none

theorem held_newOriginID (ht : Admissible h .newOriginID (.ok t)) :
    Held (⟨.newOriginID, .ok t⟩ :: h) t :=
  ⟨mem_cons_self, fun hs => ht ((quietly_cons rfl _).spent hs)⟩

theorem publishArgs_fields (ctx : Ctx) (p : Path) (i : InodeData) (stage : Token) (creating : Bool)
    {extra : InodeHash} (revision : Rev) (hx : Incidental extra) :
    let a := publishArgs ctx p i stage creating extra revision
    a.fields.contentRef = i.contentRef ∧ a.fields.type = some i.type ∧
      a.fields.size = some i.size ∧ a.fields.parent = some i.parent ∧ a.fields.name = some i.name := by
  obtain ⟨h1, h2, h3, h4, h5⟩ := hx
  dsimp only [publishArgs]
  split <;> simp [InodeHash.merge, inodeFieldsAtPath, h1, h2, h3, h4, h5]

theorem proper_publishStagedFile (p : Path) {stage : Token} {creating : Bool} {extra : InodeHash}
    (hx : Incidental extra) (hstage : Owns h stage) (hfile : i.type = .file) (hsize : 0 ≤ i.size)
    (href : i.contentRef.isSome) (hnew : creating = true → Vacant h i.id)
    (hold : creating = false → Replaces h i.id i.revision fun d => d.type = .file) :
    Proper h (publishStagedFile ctx p i stage creating extra) fun h' i' => Known h' (claimOf i') := by
  refine .after_calm (.lift _) fun h₁ _ hq₁ => .after_calm (.lift _) fun h₂ _ hq₂ => ?_
  refine .read rfl fun revision hrev => ?_
  have hq : Quietly h (⟨.newOriginID, .ok revision⟩ :: h₂) :=
    hq₁.trans (hq₂.trans (quietly_cons rfl _))
  have hj : Justified (⟨.newOriginID, .ok revision⟩ :: h₂)
      (.publishFile (publishArgs ctx p i stage creating extra revision)) := by
    obtain ⟨hr, ht, hrest⟩ := publishArgs_fields ctx p i stage creating revision hx
    refine ⟨held_newOriginID hrev, hq.subset hstage, hsize, ⟨?_, hrest⟩, ?_,
      fun hc => hq.vacant (hnew hc), fun hc => ?_⟩
    · rw [ht, hfile]
    · rwa [hr]
    · exact (hold hc).mono hq.subset fun _ hd => hd
  refine .bind (proper_publishCode hj) fun h₃ code _ ⟨e, he, hc, hi⟩ => ?_
  have hknown : Known h₃ (claimOf { i with revision := revision }) := by
    refine .inr (.inl ⟨e, he, hi, ?_⟩)
    rw [hc]
    have hr := (publishArgs_fields ctx p i stage creating revision hx).1
    simp only [Backed, hr, claimOf, hfile]
    rfl
  split
  · exact .fail
  split
  · exact .fail
  · refine .after_calm (calm_pruneHistory _) fun h₄ _ hq₄ => ?_
    have hknown₄ := hknown.mono hq₄.subset
    refine .bind (Q := fun h' _ => Known h' (claimOf { i with revision := revision })) ?_
      fun _ _ _ hk => .ret hk
    refine .onlyIf (fun _ => ?_) fun _ => hknown₄
    exact (proper_cachePath hknown₄).mono fun _ _ hq' => hknown₄.mono hq'.subset

variable {i : InodeData}

theorem proper_deletePublishedInode : Fair h (deletePublishedInode ctx p i) := by
  refine .after_calm (.lift _) fun h₁ _ _ => .after_calm (.lift _) fun h₂ _ _ => ?_
  refine .after_calm (.command rfl) fun h₃ operation _ => .after_calm (.command rfl) fun h₄ now _ => ?_
  refine .bind (Q := fun _ _ => True) ?_ fun _ code _ _ => ?_
  · exact Track.mono (sent_runPreparedMutation sent_deleteInode trivial _ _) fun _ _ _ _ _ => trivial
  · split
    · exact .fail
    split
    · exact .fail
    · exact (calm_pruneHistory _).fair

/-- The fields of an update are those of the inode it is made from, as far as links, kind, size and
form are concerned. -/
structure Fits (i : InodeData) (fields : InodeHash) : Prop where
  kind : ∀ k, fields.type = some k → k = i.type
  size : ∀ n, fields.size = some n → n = i.size
  ref : fields.contentRef = if fields.type.isSome then i.contentRef else none
  parent : ∀ p, fields.parent = some p → p = i.parent
  name : ∀ n, fields.name = some n → n = i.name
  linked : fields.type.isSome → fields.parent.isSome ∧ fields.name.isSome
  sized : fields.size.isSome = fields.type.isSome
  content : fields.content = none

theorem fits_inodeFieldsAtPath (i : InodeData) (p : Path) :
    Fits i (inodeFieldsAtPath i p false) where
  kind k hk := by simpa [inodeFieldsAtPath] using hk.symm
  size n hn := by simpa [inodeFieldsAtPath] using hn.symm
  ref := rfl
  parent d hd := by simpa [inodeFieldsAtPath] using hd.symm
  name n hn := by simpa [inodeFieldsAtPath] using hn.symm
  linked _ := ⟨rfl, rfl⟩
  sized := rfl
  content := by simp [inodeFieldsAtPath]

/-- The inode has the identity, revision, kind, size and form of one that was read. -/
def Stems (h : Memory) (i : InodeData) : Prop :=
  Replaces h i.id i.revision fun d =>
    d.type = i.type ∧ d.size = i.size ∧ d.contentRef = i.contentRef

theorem proper_updatePublishedInode (p : Path) {fields : InodeHash} (hi : Stems h i)
    (hf : Fits i fields) :
    Proper h (updatePublishedInode ctx p i fields) fun h' i' => Known h' (claimOf i') := by
  refine .after_calm (.lift _) fun h₁ _ hq₁ => .after_calm (.lift _) fun h₂ _ hq₂ => ?_
  refine .read rfl fun revision hrev => ?_
  have hq : Quietly h (⟨.newOriginID, .ok revision⟩ :: h₂) :=
    hq₁.trans (hq₂.trans (quietly_cons rfl _))
  refine .bind (Q := fun h' _ => Known h' (claimOf { i with revision := revision })) ?_
    fun h₃ code _ hk => ?_
  · refine Track.mono (sent_runPreparedMutation sent_updateInode ?_ _ _) fun h' r hr code hc => ?_
    · refine ⟨held_newOriginID hrev, hi.mono hq.subset fun d hd => ?_, hf.parent, hf.name, hf.linked,
        hf.sized, hf.content⟩
      exact ⟨fun k hk => (hf.kind k hk).trans hd.1.symm,
        fun n hn => (hf.size n hn).trans hd.2.1.symm, by rw [hd.2.2]; exact hf.ref⟩
    · obtain ⟨e, he, hcmd, hidle⟩ := hr.done code hc
      refine .inr (.inl ⟨e, he, hidle, ?_⟩)
      rw [hcmd]
      have hsub : h ⊆ h' := by
        obtain ⟨l, rfl, -⟩ := hr.only
        exact List.Subset.trans hq.subset (subset_append_right l _)
      refine hi.mono hsub fun d hd => ?_
      simp only [claimOf, hd.1, hd.2.1, hd.2.2]
  · split
    · exact .fail
    · exact .after_calm (calm_pruneHistory _) fun _ _ hq' => .ret (hk.mono hq'.subset)

theorem proper_saveInodeMeta (hi : Stems h i) : Fair h (saveInodeMeta ctx p i) :=
  .bind (proper_updatePublishedInode p hi (fits_inodeFieldsAtPath i p)) fun _ _ _ hk =>
    (proper_cachePath hk).fair

/-! ## Staging -/

/-- Discarding a stage keeps what further memory keeps. -/
theorem Proper.withStage {Q : Memory → α → Prop} {body : Op α} (ht : Owns h t)
    (hb : Proper h body Q) (hQ : ∀ {h₁ h₂ a}, Quietly h₁ h₂ → Q h₁ a → Q h₂ a) :
    Proper h (withStage t body) Q := by
  refine track_caught (track_subset hb) fun h' r ⟨hr, hs⟩ => ?_
  refine Proper.after_staging (hs ht) (.caught (.command ⟨rfl, trivial⟩) fun _ => .ret ()) fun h'' _ hq => ?_
  exact .lift fun a ha => hQ hq (hr a ha)

/-- Only the form of the content is chosen. -/
theorem proper_selectContentRef (i : InodeData) : Proper h (selectContentRef i) fun h' i' =>
    Quietly h h' ∧ ∃ ref, (i.type = .file → ref.isSome) ∧ i' = { i with contentRef := ref } := by
  unfold selectContentRef
  split
  · next hne => exact .ret ⟨.refl h, i.contentRef, fun hfile => absurd hfile hne, rfl⟩
  · exact .after_calm (.command rfl) fun _ _ hq => .ret ⟨hq, _, fun _ => rfl, rfl⟩

/-- The staged file has a token of the operation. -/
theorem proper_stageFullFile : Proper h (stageFullFile i) fun h' t => Quietly h h' ∧ Owns h' t := by
  refine .read rfl fun t _ => ?_
  have hown : Owns (⟨.newOriginID, .ok t⟩ :: h) t := mem_cons_self
  refine .after_staging hown (.command ⟨rfl, ?_⟩) fun h' _ hq => .ret ⟨?_, hq.subset hown⟩
  · split <;> exact trivial
  · exact (quietly_cons rfl _).trans hq

theorem proper_stageInodeRange (ht : Owns h t) {off : ℕ} :
    Proper h (stageInodeRange t i payload off newSize) fun h' i' =>
      Quietly h h' ∧ ∃ ref, (i.type = .file → ref.isSome) ∧ i' = { i with contentRef := ref } := by
  refine .bind (proper_selectContentRef i) fun h₁ next hs₁ ⟨hq₁, hnext⟩ => ?_
  refine .after_staging (hs₁ ht) solo_stageOldBytes fun h₂ _ hq₂ => ?_
  have ht₂ : Owns h₂ t := hq₂.subset (hs₁ ht)
  refine .after_staging ht₂ solo_stageNewBytes fun h₃ _ hq₃ => ?_
  refine .after_staging (hq₃.subset ht₂) (.onlyIf (solo_stageDo t trivial)) fun h₄ _ hq₄ => ?_
  exact .ret ⟨hq₁.trans (hq₂.trans (hq₃.trans hq₄)), hnext⟩

theorem proper_saveInode (p : Path) (hfile : i.type = .file) (hsize : 0 ≤ i.size)
    (hi : Replaces h i.id i.revision fun d => d.type = .file) : Fair h (saveInode ctx p i) := by
  refine .bind (proper_selectContentRef i) ?_
  rintro h₁ i' - ⟨hq₁, ref, href, rfl⟩
  rw [if_neg (by simp [hfile])]
  refine .after_calm (.lift _) fun h₂ _ hq₂ => .bind proper_stageFullFile ?_
  rintro h₃ t - ⟨hq₃, ht⟩
  refine .withStage ht (.bind (Q := fun _ _ => True) ?_ fun _ _ _ _ => .ret trivial) fun _ hq => hq
  have hsub : h ⊆ h₃ := (hq₁.trans (hq₂.trans hq₃)).subset
  refine Proper.mono (proper_publishStagedFile p ⟨rfl, rfl, rfl, rfl, rfl⟩ ht ?_ ?_ ?_ ?_ ?_)
    fun _ _ _ => trivial
  · exact hfile
  · exact hsize
  · exact href hfile
  · exact nofun
  · exact fun _ => hi.mono hsub fun _ hd => hd

variable {off size : ℤ}

theorem rangeTarget_nonneg {truncate : ℤ} (hs : 0 ≤ size) :
    0 ≤ (rangeTarget size payload off truncate).2 := by
  simp only [rangeTarget]
  split_ifs <;> omega

theorem proper_changeInodeRange {truncate : ℤ} :
    Fair h (changeInodeRange ctx id payload off truncate n) := by
  induction n generalizing h with
  | zero => exact .fail
  | succ n ih =>
    refine .after_calm calm_checkGeneration fun h₁ _ _ => .read rfl fun found hfound => ?_
    cases found with
    | none => exact .fail
    | some i =>
      dsimp only
      split
      · exact .fail
      next hfile =>
      rw [not_not] at hfile
      refine .after_calm (.lift _) fun h₂ _ hq₂ => .after_calm (.command rfl) fun h₃ p hq₃ => ?_
      have hseen : Seen h₃ i := seen_loadInode.mono (hq₂.trans hq₃).subset
      split
      · exact .fail
      split
      · exact .ret trivial
      · refine .read rfl fun t _ => ?_
        have ht : Owns (⟨.newOriginID, .ok t⟩ :: h₃) t := mem_cons_self
        refine .caught (Q := fun _ _ => True) (.withStage ht ?_ fun _ hq => hq)
          (fun _ _ _ _ => .ret trivial) fun h' e _ => ?_
        · refine .bind (proper_stageInodeRange ht) ?_
          rintro h₅ next - ⟨hq₅, ref, href, rfl⟩
          refine .after_calm (.command rfl) fun h₆ now hq₆ => ?_
          have hsub : h₃ ⊆ h₆ :=
            List.Subset.trans (subset_cons_self _ _) (hq₅.trans hq₆).subset
          refine .bind (Q := fun _ _ => True) ?_ fun _ _ _ _ => .ret trivial
          refine Proper.mono (proper_publishStagedFile p ⟨rfl, rfl, rfl, rfl, rfl⟩
            ((hq₅.trans hq₆).subset ht) ?_ ?_ ?_ ?_ ?_) fun _ _ _ => trivial
          · exact hfile
          · exact rangeTarget_nonneg (hfound.2 hfile)
          · exact href hfile
          · exact nofun
          · exact fun _ => ⟨i, hseen.mono hsub, rfl, rfl, hfile⟩
        · cases e with
          | writeConflict =>
            dsimp only
            split
            · exact .fail
            · exact ih
          | _ => exact .fail

theorem proper_writeInodeAt : Fair h (writeInodeAt ctx id payload off) := by
  unfold writeInodeAt
  split
  · exact .fail
  · exact proper_changeInodeRange

theorem proper_truncateInode : Fair h (truncateInode ctx id size) := by
  unfold truncateInode
  split
  · exact .fail
  · exact proper_changeInodeRange

/-! ## The tree -/

/-- The created inode is a directory or a symbolic link. -/
def Created (i : InodeData) : Prop := i.type = .dir ∨ i.type = .symlink

/-- An identity is used up only by an attempt that may have gone through. -/
theorem proper_createAttempts (childPath : Path) {name : Name} (hk : Created i)
    (hn : i.name = name) (hv : Vacant h i.id) (n : ℕ) :
    Proper h (createAttempts ctx childPath name i n) fun h' i' => Known h' (claimOf i') := by
  induction n generalizing h i with
  | zero => exact .fail
  | succ n ih =>
    refine .read rfl fun revision hrev => ?_
    have hq : Quietly h (⟨.newOriginID, .ok revision⟩ :: h) := quietly_cons rfl _
    refine track_caught (sent_createMetadata ?_) fun h' r hr => ?_
    · exact ⟨⟨revision, rfl, held_newOriginID hrev⟩, hq.vacant hv,
        hk.imp (congrArg some) (congrArg some), rfl, congrArg some hn, rfl⟩
    · split
      · have hq' := hr.again (.inl rfl)
        exact ih (i := { i with revision := revision }) hk hn ((hq.trans hq').vacant hv)
      · exact Proper.fail
      · next code =>
        split
        · exact Proper.fail
        · refine Proper.after_calm (calm_pruneHistory _) fun h'' _ hq'' => .ret ?_
          obtain ⟨e, he, hc, hi⟩ := hr.done code rfl
          refine .inr (.inl ⟨e, hq''.subset he, hi, ?_⟩)
          rw [hc]
          exact ⟨revision, i.type, rfl, rfl, rfl⟩

/-- Creating a directory or a symbolic link below a directory that is known. -/
theorem proper_createInodeUnderParent (childPath : Path) {parent : InodeData}
    (hp : Known h (claimOf parent)) (name : Name) (hk : Created i) :
    Proper h (createInodeUnderParent ctx childPath parent name i) fun h' i' =>
      Known h' (claimOf i') := by
  unfold createInodeUnderParent
  split
  · exact .fail
  refine .after_calm (.lift _) fun h₁ _ hq₁ => .read rfl fun linked _ => ?_
  cases linked with
  | some id => exact .fail
  | none =>
    refine .bind proper_allocInodeID fun h₂ id hs₂ ⟨_, hv, _⟩ => ?_
    refine .after_calm (.command rfl) fun h₃ now hq₃ => ?_
    refine .bind (proper_createAttempts (i := { i with id := id, parent := parent.id, name := name })
      childPath hk rfl (hq₃.vacant hv) _) fun h₄ i' hs₄ hknown => ?_
    have hsub : h ⊆ h₄ := fun e he =>
      hs₄ (hq₃.subset (hs₂ (mem_cons_of_mem _ (hq₁.subset he))))
    have hparent : Known h₄ (claimOf { parent with mtimeMs := now, ctimeMs := now }) := hp.mono hsub
    refine .bind (proper_cachePath hparent) fun h₅ _ hs₅ _ => ?_
    refine .after_calm calm_publishInvalidate fun h₆ _ hq₆ => ?_
    have hknown₆ := hknown.mono (List.Subset.trans hs₅ hq₆.subset)
    refine .bind (proper_cachePath hknown₆) fun h₇ _ _ hq₇ => ?_
    refine .after_calm calm_publishInvalidate fun h₈ _ hq₈ => .ret ?_
    exact hknown₆.mono (hq₇.trans hq₈).subset

theorem proper_ensureComponent (hc : Known h (claimOf cur)) {n : Name} :
    Proper h (ensureComponent ctx cur p n) fun h' i => Known h' (claimOf i) := by
  refine .read rfl fun hit _ => ?_
  split
  · next child hchild =>
    refine .ret (Seen.known ?_)
    obtain ⟨rfl, -⟩ := filter_eq_some_iff.mp hchild
    exact seen_cacheGet
  · refine .read rfl fun id _ => ?_
    cases id with
    | none =>
      refine .after_calm (.command rfl) fun h' now hq => ?_
      refine proper_createInodeUnderParent p (hc.mono fun e he => ?_) n (.inl rfl)
      exact hq.subset (mem_cons_of_mem _ (mem_cons_of_mem _ he))
    | some id =>
      refine .read rfl fun child _ => ?_
      cases child with
      | none => exact .fail
      | some child =>
        dsimp only
        split
        · exact .fail
        · exact .bind (proper_cachePath seen_loadInode.known) fun _ _ hs _ =>
            .ret (seen_loadInode.mono hs).known

theorem proper_ensureLoop (hc : Known h (claimOf cur)) {l : List Name} :
    Fair h (ensureLoop ctx p cur l) := by
  induction l generalizing h p cur with
  | nil => exact .ret trivial
  | cons n rest ih => exact .bind (proper_ensureComponent hc) fun _ _ _ hk => ih hk

theorem proper_ensureParents : Fair h (ensureParents ctx p) := by
  unfold ensureParents
  split
  · refine .caught (proper_resolvePath _ _) (fun _ _ _ _ => .lift fun _ _ => trivial) fun _ e _ => ?_
    cases e <;> exact .fail
  · refine .bind proper_ensureRoot fun _ _ _ _ => ?_
    split
    · exact .ret trivial
    · refine .bind proper_loadRootInode fun _ root _ ⟨_, hsome, _⟩ => ?_
      cases root with
      | none => exact .fail
      | some root => exact proper_ensureLoop (hsome root rfl).known

theorem proper_createInodeAtPath (hk : Created i) : Fair h (createInodeAtPath ctx p i) := by
  unfold createInodeAtPath
  split
  · exact .fail
  · exact .bind (proper_resolvePath _ _) fun _ _ _ hv =>
      (proper_createInodeUnderParent p hv.2.known _ hk).fair

variable {path : Bytes} {mode : ℕ}

theorem proper_mkdirMode : Fair h (mkdirMode ctx path mode) := by
  simp only [mkdirMode]
  split
  · exact proper_ensureRoot.fair
  refine .bind proper_ensureParents fun _ _ _ _ => .bind proper_loadInode fun _ i _ _ => ?_
  cases i with
  | some i =>
    dsimp only
    split
    · exact .ret trivial
    · exact .fail
  | none =>
    refine .bind proper_ensureParents fun _ _ _ _ => .after_calm (.command rfl) fun _ now _ => ?_
    exact .bind (proper_createInodeAtPath (.inl rfl)) fun _ _ _ _ =>
      calm_markRootDirty.fair

theorem proper_ln {target linkpath : Bytes} : Fair h (ln ctx target linkpath) := by
  simp only [ln]
  split
  · exact .fail
  refine .bind proper_ensureParents fun _ _ _ _ => .bind proper_loadInode fun _ i _ _ => ?_
  cases i with
  | some i => exact .fail
  | none =>
    refine .after_calm (.command rfl) fun _ now _ => ?_
    exact .bind (proper_createInodeAtPath (.inr rfl)) fun _ _ _ _ =>
      calm_markRootDirty.fair

theorem proper_rm : Fair h (rm ctx path) := by
  simp only [rm]
  split
  · exact .fail
  refine .bind (proper_resolvePath _ _) fun _ _ _ _ => ?_
  refine .bind proper_deletePublishedInode fun _ _ _ _ => ?_
  refine .after_calm calm_publishInvalidate fun _ _ _ => ?_
  exact calm_publishInvalidate.fair

/-! ## Renaming -/

theorem Calm.retryWatch {block : Op α} (hb : Calm block) (n : ℕ) : Calm (retryWatch block n) := by
  induction n with
  | zero => exact .fail _
  | succ n ih =>
    refine .caught hb fun r => ?_
    split
    · exact ih
    · exact .lift _

theorem calm_collectChildren {collect : Path → InodeData → Op (List (Id × Path))}
    (hc : ∀ p i, Calm (collect p i)) {path : Path} {l : List (Name × Id)} :
    Calm (collectChildren collect path l) := by
  induction l with
  | nil => exact .ret _
  | cons e rest ih =>
    obtain ⟨n, id⟩ := e
    refine .bind (.command rfl) fun child => ?_
    cases child with
    | none => exact ih
    | some child => exact .bind (hc _ _) fun _ => .bind ih fun _ => .ret _

variable {fuel : ℕ}

theorem calm_collectPaths {path : Path} : Calm (collectPaths fuel path i) := by
  induction fuel generalizing path i with
  | zero => exact .fail _
  | succ fuel ih =>
    unfold collectPaths
    split
    · exact .ret _
    · exact .bind (.command rfl) fun _ => .bind (calm_collectChildren fun _ _ => ih) fun _ => .ret _

theorem calm_refreshIndexedSubtree {path : Path} : Calm (refreshIndexedSubtree fuel path i) := by
  unfold refreshIndexedSubtree
  refine .retryWatch (.bind calm_collectPaths fun paths => ?_) _
  exact .command rfl

theorem calm_discardAll {l : List Token} : Calm (discardAll l) := by
  induction l with
  | nil => exact .ret _
  | cons t l ih => exact .bind (.ignore (.command rfl)) fun _ => ih

/-- The inode at the destination was read under the identity the entry has. -/
theorem proper_destination (r : RenamePlan) : Proper h r.destination fun h' replaced =>
    Quietly h h' ∧ ∀ id i, replaced = some (id, some i) → Seen h' i ∧ i.id = id := by
  refine .read rfl fun id _ => ?_
  cases id with
  | none => exact .ret ⟨quietly_cons rfl _, nofun⟩
  | some id =>
    refine .read rfl fun inode hinode => .ret ⟨?_, fun id' i he => ?_⟩
    · exact (quietly_cons rfl _).trans (quietly_cons rfl _)
    · cases he
      exact ⟨seen_loadInode, hinode.1⟩

section Rename

variable {r : RenamePlan}

section

variable (hr : Replaces h r.inode.id r.inode.revision fun _ => True)

include hr

theorem proper_renameAttempts {operation : Token} (hop : Held h operation) {prepared : Bool} :
    Fair h (renameAttempts ctx r watched operation n prepared) := by
  induction n generalizing h prepared with
  | zero => exact .ret trivial
  | succ n ih =>
    have again : ∀ {h'} b, Quietly h h' →
        Fair h' (renameAttempts ctx r watched operation n b) :=
      fun b hq => ih (hr.mono hq.subset fun _ hd => hd) (hq.held hop)
    refine .bind (proper_destination r) fun h₁ replaced _ ⟨hq₁, hseen⟩ => ?_
    refine .after_calm (.command rfl) fun h₂ now hq₂ => ?_
    have hq := hq₁.trans hq₂
    refine track_caught (sent_renameMetadata ?_) fun h' v hv => ?_
    · refine ⟨hq.held hop, hr.mono hq.subset fun _ hd => hd, rfl, fun id i he => ?_⟩
      exact ⟨(hseen id i he).1.mono hq₂.subset, (hseen id i he).2⟩
    · split
      · exact again _ (hq.trans (hv.again (.inl rfl)))
      · exact Proper.ret trivial
      · have hq' := hq.trans (hv.again (.inr rfl))
        refine track_caught (Calm.command rfl h') fun h'' r' hq'' => ?_
        cases r' with
        | error e => exact Proper.ret trivial
        | ok u => exact again _ (hq'.trans hq'')
      · exact Proper.ret trivial
      · split
        · exact Proper.ret trivial
        · exact Proper.after_calm (calm_pruneHistory _) fun _ _ _ => .ret trivial

theorem proper_renameLoop
    {prepared : List Token} : Fair h (renameLoop ctx r n watched prepared) := by
  induction n generalizing h watched prepared with
  | zero => exact .ret trivial
  | succ n ih =>
    refine .read rfl fun operation hop => ?_
    have hr' := hr.mono (subset_cons_self ⟨.newOriginID, .ok operation⟩ h) fun _ hd => hd
    refine .bind (proper_renameAttempts hr' (held_newOriginID hop)) fun h' v hs _ => ?_
    obtain ⟨outcome, did⟩ := v
    cases outcome with
    | failed e => exact .ret trivial
    | watchDir id => exact ih (hr'.mono hs fun _ hd => hd)
    | done i => exact .ret trivial

theorem proper_renamePath : Fair h (renamePath ctx fuel r) := by
  refine .after_calm (.lift _) fun h₁ _ hq₁ => .after_calm (.lift _) fun h₂ _ hq₂ => ?_
  refine .after_calm (.lift _) fun h₃ _ hq₃ => ?_
  have hsub : h ⊆ h₃ := (hq₁.trans (hq₂.trans hq₃)).subset
  split
  · exact .fail
  refine .bind (proper_renameLoop (hr.mono hsub fun _ hd => hd)) fun h₄ v _ _ => ?_
  refine (Calm.caught ?_ fun _ => .bind calm_discardAll fun _ => .lift _).fair
  exact .bind (.lift _) fun _ => .bind calm_publishInvalidate fun _ =>
    .bind calm_publishInvalidate fun _ => .bind calm_publishInvalidate fun _ =>
      .bind calm_publishInvalidate fun _ => calm_refreshIndexedSubtree

end

end Rename

theorem proper_rename {source destination : Bytes} {flags : RenameFlags} :
    Fair h (rename ctx fuel source destination flags) := by
  simp only [rename]
  split
  · exact .fail
  split
  · exact .ret trivial
  split
  · exact .fail
  refine .bind (proper_resolvePath _ _) fun h₁ src _ hsrc => ?_
  split
  · exact .fail
  refine .bind (proper_resolvePath _ _) fun h₂ dst hs _ => ?_
  split
  · exact .fail
  · refine .bind (proper_renamePath ⟨src.2, hsrc.2.mono hs, rfl, rfl, trivial⟩) fun _ _ _ _ => ?_
    exact calm_markRootDirty.fair

/-! ## Files -/

theorem proper_existingFile {parent : Id} :
    Proper h (existingFile parent p) fun h' i => Seen h' i := by
  refine .read rfl fun existing _ => ?_
  cases existing with
  | none => exact .fail
  | some existing =>
    refine .read rfl fun i _ => ?_
    cases i with
    | none => exact .fail
    | some i =>
      dsimp only
      split
      · exact .fail
      · exact .bind (proper_cachePath seen_loadInode.known) fun _ _ hs _ =>
          .ret (seen_loadInode.mono hs)

variable {content : Bytes}

theorem proper_createFileIfMissing {exclusive : Bool} :
    Proper h (createFileIfMissing ctx p content mode exclusive) fun h' v =>
      Known h' (claimOf v.1) := by
  unfold createFileIfMissing
  split
  · exact .fail
  refine .bind (proper_resolvePath _ _) fun h₁ ⟨_, parent⟩ _ hparent => ?_
  dsimp only
  split
  · exact .fail
  refine .after_calm (.lift _) fun h₂ _ hq₂ => ?_
  refine .bind proper_allocInodeID fun h₃ id _ ⟨hq₃, hv, _⟩ => ?_
  refine .after_calm (.command rfl) fun h₄ now hq₄ => .bind (proper_selectContentRef _) ?_
  rintro h₅ i - ⟨hq₅, ref, href, rfl⟩
  refine .after_calm (.lift _) fun h₆ _ hq₆ => .bind proper_stageFullFile ?_
  rintro h₇ t - ⟨hq₇, ht⟩
  have hq : Quietly h₃ h₇ := hq₄.trans (hq₅.trans (hq₆.trans hq₇))
  have hknown : Known h₇ (claimOf parent) := hparent.2.known.mono ((hq₂.trans hq₃).trans hq).subset
  refine .withStage ht ?_ fun hq' hk => hk.mono hq'.subset
  refine .caught (proper_publishStagedFile p ⟨rfl, rfl, rfl, rfl, rfl⟩ ht ?_ ?_ ?_ ?_ ?_)
    (fun h₈ i hs₈ hi => ?_) fun h₈ e _ => ?_
  · rfl
  · exact Int.natCast_nonneg _
  · exact href rfl
  · exact fun _ => hq.vacant hv
  · exact nofun
  · have hparent₈ : Known h₈ (claimOf { parent with mtimeMs := now, ctimeMs := now }) :=
      hknown.mono hs₈
    refine .bind (proper_cachePath hparent₈) fun h₉ _ hs₉ _ => ?_
    refine .after_calm calm_publishInvalidate fun h₁₀ _ hq₁₀ => ?_
    refine .after_calm calm_publishInvalidate fun h₁₁ _ hq₁₁ => .ret ?_
    exact hi.mono (List.Subset.trans hs₉ (hq₁₀.trans hq₁₁).subset)
  · cases e with
    | writeConflict =>
      dsimp only
      split
      · exact .fail
      split
      · exact .fail
      · exact .bind proper_existingFile fun _ _ _ hi => .ret hi.known
    | _ => exact .fail

theorem proper_createFile : Fair h (createFile ctx p content mode) := by
  refine .bind proper_createFileIfMissing fun _ ⟨i, created⟩ _ _ => ?_
  dsimp only
  split
  · refine .after_calm (solo_loadContentExternal _ _).calm fun _ published _ => ?_
    split
    · exact .fail
    · exact calm_markRootDirty.fair
  · exact calm_markRootDirty.fair

theorem proper_createFileOp {exclusive : Bool} : Fair h (createFileOp ctx path mode exclusive) := by
  simp only [createFileOp]
  split
  · exact .fail
  refine .bind proper_ensureParents fun _ _ _ _ => ?_
  refine .bind proper_createFileIfMissing fun _ v _ hi => ?_
  refine .bind (proper_cachePath hi) fun _ _ _ _ => ?_
  exact (Calm.onlyIf calm_markRootDirty).fair

/-- The new bytes of a file that was read. -/
theorem proper_rewriteFile (resolved : Path) (hfile : i.type = .file)
    (hi : Replaces h i.id i.revision fun d => d.type = .file) (content : Bytes) :
    Fair h (rewriteFile ctx resolved i content) := by
  refine .after_calm (.command rfl) fun h₁ now hq₁ => ?_
  refine .bind (Q := fun _ _ => True) ?_ fun _ _ _ _ => ?_
  · exact proper_saveInode resolved hfile (Int.natCast_nonneg _) (hi.mono hq₁.subset fun _ hd => hd)
  · exact (Calm.bind calm_publishInvalidate fun _ => calm_markRootDirty).fair

theorem proper_writeFileWithMode {data : Bytes} :
    Fair h (writeFileWithMode ctx path data mode) := by
  simp only [writeFileWithMode]
  split
  · exact .fail
  refine .bind proper_ensureParents fun _ _ _ _ => ?_
  refine .caught (proper_resolvePath _ _) (fun h' ⟨resolved, i⟩ _ hi => ?_) fun _ e _ => ?_
  · dsimp only
    split
    · exact .fail
    next hfile =>
    rw [not_not] at hfile
    refine proper_rewriteFile resolved ?_ ?_ data
    · exact hfile
    · exact ⟨i, hi.2, rfl, rfl, hfile⟩
  · cases e <;> first | exact proper_createFile | exact .fail

theorem proper_writeFile {data : Bytes} {append : Bool} :
    Fair h (writeFile ctx path data append) := by
  simp only [writeFile]
  split
  · exact .fail
  refine .caught (proper_resolvePath _ _) (fun h' ⟨resolved, i⟩ _ hi => ?_) fun _ e _ => ?_
  · dsimp only
    split
    · exact .fail
    next hfile =>
    rw [not_not] at hfile
    refine .after_calm (solo_loadContentIf i).calm fun h'' existing hq => ?_
    exact proper_rewriteFile resolved hfile ⟨i, hi.2.mono hq.subset, rfl, rfl, hfile⟩ _
  · cases e <;> first
      | exact .bind proper_ensureParents fun _ _ _ _ => proper_createFile
      | exact .fail

theorem proper_truncate : Fair h (truncate ctx path size) := by
  unfold truncate
  split
  · exact .fail
  refine .bind (proper_resolvePath _ _) fun h' ⟨resolved, i⟩ _ hi => ?_
  dsimp only
  split
  · exact .fail
  next hfile =>
  rw [not_not] at hfile
  refine .after_calm (solo_loadContentIf i).calm fun h'' content hq => ?_
  exact proper_rewriteFile resolved hfile ⟨i, hi.2.mono hq.subset, rfl, rfl, hfile⟩ _

theorem proper_saveAttributes {resolved : Path} (hi : Stems h i) :
    Fair h (saveAttributes ctx resolved i) :=
  .bind (proper_saveInodeMeta hi) fun _ _ _ _ =>
    (Calm.bind calm_publishInvalidate fun _ => calm_markRootDirty).fair

theorem proper_touch : Fair h (touch ctx path) := by
  simp only [touch]
  split
  · exact .fail
  refine .bind proper_ensureParents fun _ _ _ _ => ?_
  refine .caught (proper_resolvePath _ _) (fun h' ⟨resolved, i⟩ _ hi => ?_) fun _ e _ => ?_
  · dsimp only
    split
    · exact .fail
    · refine .after_calm (.command rfl) fun h'' now hq => ?_
      exact proper_saveAttributes ⟨i, hi.2.mono hq.subset, rfl, rfl, rfl, rfl, rfl⟩
  · cases e <;> first | exact proper_createFileOp | exact .fail

theorem proper_chmod : Fair h (chmod ctx path mode) :=
  .bind (proper_resolvePath _ _) fun _ v _ hi =>
    proper_saveAttributes ⟨v.2, hi.2, rfl, rfl, rfl, rfl, rfl⟩

theorem proper_chown {uid gid : ℕ} : Fair h (chown ctx path uid gid) :=
  .bind (proper_resolvePath _ _) fun _ v _ hi =>
    proper_saveAttributes ⟨v.2, hi.2, rfl, rfl, rfl, rfl, rfl⟩

theorem proper_utimens {atimeMs mtimeMs : ℤ} : Fair h (utimens ctx path atimeMs mtimeMs) :=
  .bind (proper_resolvePath _ _) fun _ v _ hi =>
    proper_saveAttributes ⟨v.2, hi.2, rfl, rfl, rfl, rfl, rfl⟩

theorem proper_setAttrs {u : AttrUpdate} : Fair h (setAttrs ctx path u) := by
  unfold setAttrs
  split
  · exact .ret trivial
  refine .bind (proper_resolvePath _ _) fun h' ⟨resolved, i⟩ _ hi => ?_
  refine .bind (proper_updatePublishedInode resolved ⟨i, hi.2, rfl, rfl, rfl, rfl, rfl⟩ ?_)
    fun h'' next _ hnext => ?_
  · exact ⟨nofun, nofun, rfl, nofun,
      nofun, nofun, rfl, rfl⟩
  · refine .bind (proper_cachePath hnext) fun _ _ _ _ => ?_
    exact (Calm.bind calm_publishInvalidate fun _ => calm_markRootDirty).fair

/-! ## Chunk uploads -/

variable {chunkSize : ℕ} {chunks : Chunks}

theorem proper_newChunkFile :
    Proper h (newChunkFile ctx p chunks chunkSize newSize) fun h' i => Vacant h' i.id := by
  unfold newChunkFile
  split
  · exact .fail
  refine .bind proper_ensureParents fun _ _ _ _ => .bind (proper_resolvePath _ _) fun _ _ _ _ => ?_
  refine .bind proper_allocInodeID fun h₁ id _ ⟨_, hv, _⟩ => ?_
  refine .after_calm (.command rfl) fun h₂ now hq => ?_
  split
  · exact .ret (hq.vacant hv)
  · exact .fail

/-- The file of an upload has a new identity or was read. -/
def Target (h : Memory) (i : InodeData) (creating : Bool) : Prop :=
  (creating = true → Vacant h i.id) ∧ (creating = false → Seen h i)

theorem proper_chunkFile :
    Proper h (chunkFile ctx p chunks chunkSize newSize) fun h' v => Target h' v.2.1 v.2.2 := by
  refine .caught (proper_resolvePath _ _) (fun _ v _ hv => ?_) fun _ e _ => ?_
  · exact .ret ⟨nofun, fun _ => hv.2⟩
  · cases e <;> first
      | exact .bind proper_newChunkFile fun _ _ _ hi =>
          .ret ⟨fun _ => hi, nofun⟩
      | exact .fail

theorem proper_publishChunks {chunkSize newSize : ℤ} (hashes : List Bytes) :
    Fair h (publishChunks ctx path chunks chunkSize newSize hashes) := by
  unfold publishChunks
  split
  · exact .fail
  next hvalid =>
  refine .bind proper_chunkFile ?_
  rintro h₁ ⟨resolved, i, creating⟩ _ htarget
  dsimp only
  split
  · exact .fail
  next hfile =>
  rw [not_not] at hfile
  refine .after_calm (.lift _) fun h₂ _ hq₂ => .bind (proper_selectContentRef _) ?_
  rintro h₃ next - ⟨hq₃, ref, href, rfl⟩
  refine .read rfl fun t _ => ?_
  have ht : Owns (⟨.newOriginID, .ok t⟩ :: h₃) t := mem_cons_self
  refine .withStage ht ?_ fun _ hq => hq
  refine .after_staging ht solo_stageChunks fun h₅ _ hq₅ => ?_
  refine .after_calm (.command rfl) fun h₆ now hq₆ => ?_
  have hq : Quietly h₁ h₆ :=
    hq₂.trans (hq₃.trans ((quietly_cons rfl _).trans (hq₅.trans hq₆)))
  refine .bind (proper_publishStagedFile resolved ⟨rfl, rfl, rfl, rfl, rfl⟩
    ((hq₅.trans hq₆).subset ht) ?_ ?_ ?_ ?_ ?_)
    fun _ _ _ _ => ?_
  · exact hfile
  · show 0 ≤ newSize
    omega
  · exact href hfile
  · exact fun hc => hq.vacant (htarget.1 hc)
  · exact fun hc => ⟨i, (htarget.2 hc).mono hq.subset, rfl, rfl, hfile⟩
  · exact (Calm.bind calm_publishInvalidate fun _ =>
      .onlyIf calm_publishInvalidate).fair

/-! ## Restores and locks -/

theorem proper_runRestore {a : RestoreArgs} (hj : Justified h (.restoreVersion a)) :
    Fair h (runRestore a) := by
  refine track_caught (E := fun _ _ => True) ⟨hj, fun _ _ => trivial⟩ fun h' r _ => ?_
  refine Track.mono (Q := fun h'' _ => Quietly h' h'') ?_ fun _ _ _ _ _ => trivial
  split
  · exact calm_pruneHistory _ _
  · refine Calm.caught (.command rfl) (fun r => ?_) _
    split
    · exact calm_pruneHistory _
    · exact .fail _

/-- What the script of a restore needs: a token, and an inode that was read and has the right kind
or is new. -/
structure RestoreReady (h : Memory) (before : Option InodeData) (after : InodeData) : Prop where
  held : Held h after.revision
  kind : after.type ≠ .dir
  size : after.type = .file → 0 ≤ after.size
  same : before.map (·.id) = some after.id → ∃ d, Seen h d ∧ d.id = after.id ∧ d.type = after.type
  other : before.map (·.id) ≠ some after.id → Vacant h after.id

variable {before : Option InodeData} {after : InodeData}

theorem RestoreReady.quietly {h' : Memory} (hq : Quietly h h') (hr : RestoreReady h before after) :
    RestoreReady h' before after where
  held := hq.held hr.held
  kind := hr.kind
  size := hr.size
  same he := by
    obtain ⟨d, hd, hrest⟩ := hr.same he
    exact ⟨d, hd.mono hq.subset, hrest⟩
  other he := hq.vacant (hr.other he)

theorem RestoreReady.justified (hr : RestoreReady h before after)
    (href : after.type = .file → after.contentRef.isSome) (parentPath p : Path)
    (selected : Record) {stage : Option Token} (hstage : ∀ t, stage = some t → Owns h t)
    (beforeHash afterHash : Hash) (undelete : Bool) :
    Justified h (.restoreVersion (restoreArgs ctx parentPath p selected before after stage beforeHash
      afterHash undelete)) :=
  ⟨hr.held, hstage, rfl, rfl, ⟨after.type, after.size, rfl, rfl, hr.kind,
    fun hfile => ⟨hr.size hfile, by simpa [restoreArgs, inodeFieldsAtPath, InodeHash.merge] using href hfile⟩,
    hr.same, hr.other⟩, rfl, rfl⟩

variable {selected : Record} {undelete : Bool}

theorem proper_publishRestore (hr : RestoreReady h before after) {parentPath : Path}
    {beforeHash : Hash} :
    Fair h (publishRestore ctx parentPath p selected content before after beforeHash undelete) := by
  unfold publishRestore
  split
  · next hne =>
    exact proper_runRestore (hr.justified (fun hfile => absurd hfile hne) _ _ _
      (fun _ ht => (by cases ht)) _ _ _)
  refine .bind (proper_selectContentRef _) ?_
  rintro h₁ after' - ⟨hq₁, ref, href, rfl⟩
  split
  · exact .fail
  · refine .bind proper_stageFullFile ?_
    rintro h₂ t - ⟨hq₂, ht⟩
    refine .withStage ht ?_ fun _ hq => hq
    have hr₂ : RestoreReady h₂ before { after with contentRef := ref } := by
      obtain ⟨h1, h2, h3, h4, h5⟩ := hr.quietly (hq₁.trans hq₂)
      exact ⟨h1, h2, h3, h4, h5⟩
    refine proper_runRestore (hr₂.justified href _ _ _ (fun t' ht' => ?_) _ _ _)
    cases ht'
    exact ht

theorem proper_restoreBefore : Proper h (restoreBefore ctx p) fun h' before =>
    ∀ i, before = some i → Seen h' i := by
  refine .caught (proper_resolvePath _ _) (fun _ v _ hv => ?_) fun _ e _ => ?_
  · refine .ret fun i hi => ?_
    cases hi
    exact hv.2
  · cases e <;> first | exact .ret nofun | exact .fail

theorem proper_restoreId {kind : Kind} : Proper h (restoreId ctx before kind) fun h' id =>
      h ⊆ h' ∧ ((∃ i, before = some i ∧ i.type = kind ∧ i.id = id) ∨
        Vacant h' id ∧ ∀ d, Seen h d → d.id ≠ id) := by
  unfold restoreId
  split
  · next i =>
    split
    · next hk => exact .ret ⟨List.Subset.refl _, .inl ⟨i, rfl, hk, rfl⟩⟩
    · exact proper_allocInodeID.mono fun _ _ hv => ⟨hv.1.subset, .inr hv.2⟩
  · exact proper_allocInodeID.mono fun _ _ hv => ⟨hv.1.subset, .inr hv.2⟩

variable {expected : Option Stat}

/-- What the checks of a restore say about the version it restores. -/
theorem restoreChecks_ok (hc : restoreChecks ctx selected content expected undelete = .ok ()) :
    selected.type.getD .file ≠ .dir ∧ (selected.type.getD .file = .file → 0 ≤ selected.size) := by
  unfold restoreChecks at hc
  split at hc
  · cases hc
  next h1 =>
  split at hc
  · cases hc
  next h2 =>
  simp only [not_or] at h1
  simp only [not_and, not_not] at h1 h2
  cases htype : selected.type with
  | none => simp [htype] at h1
  | some kind =>
    rw [htype] at h1 h2
    refine ⟨fun hdir => ?_, fun hf => ?_⟩
    · obtain rfl : kind = .dir := hdir
      simp at h1
    · obtain rfl : kind = .file := hf
      rw [← h2 rfl]
      exact Int.natCast_nonneg _

theorem proper_restoreFileVersion :
    Fair h (restoreFileVersion ctx path selected content expected undelete) := by
  refine .after_calm (.lift _) fun _ p _ => ?_
  refine .bind (Q := fun _ _ => selected.type.getD .file ≠ .dir ∧
      (selected.type.getD .file = .file → 0 ≤ selected.size))
    (.lift fun _ hc => restoreChecks_ok hc) fun _ _ _ hsel => ?_
  refine .after_calm calm_checkGeneration fun _ _ _ => ?_
  refine .bind (Q := fun _ _ => True) (.onlyIf (fun _ => proper_ensureParents) fun _ => trivial)
    fun _ _ _ _ => ?_
  refine .bind (Q := fun _ _ => True) ?_ fun h₁ ⟨parentPath, parent⟩ _ _ => ?_
  · refine .caught (proper_resolvePath _ _) (fun _ _ _ _ => .ret trivial) fun _ e _ => ?_
    cases e <;> exact .fail
  refine .bind proper_restoreBefore fun h₂ before _ hbefore => ?_
  refine .after_calm (.lift _) fun h₃ _ hq₃ => ?_
  split
  · exact .fail
  refine .after_calm solo_restoreBeforeHash.calm fun h₄ beforeHash hq₄ => ?_
  have hseen : ∀ i, before = some i → Seen h₄ i := fun i hi =>
    (hbefore i hi).mono (hq₃.trans hq₄).subset
  refine .bind proper_restoreId fun h₅ id _ ⟨hs₅, hid⟩ => .read rfl fun operation hop => ?_
  refine .after_calm (.command rfl) fun h₆ now hq₆ => ?_
  have hq : Quietly h₅ h₆ := (quietly_cons rfl _).trans hq₆
  refine proper_publishRestore ⟨hq₆.held (held_newOriginID hop), hsel.1, hsel.2, fun he => ?_,
    fun he => ?_⟩
  · obtain ⟨i, rfl, hk, hi⟩ | ⟨-, hfresh⟩ := hid
    · exact ⟨i, (hseen i rfl).mono (List.Subset.trans hs₅ hq.subset), hi, hk⟩
    · obtain ⟨i, rfl, hi⟩ := map_eq_some_iff.mp he
      exact absurd hi (hfresh i (hseen i rfl))
  · obtain ⟨i, rfl, -, hi⟩ | ⟨hv, -⟩ := hid
    · exact absurd (congrArg some hi) he
    · exact hq.vacant hv

theorem calm_setlk {inode : Id} {owner : LockOwner} {lk : FileLock} :
    Calm (setlk inode owner lk) := by
  unfold setlk
  split_ifs
  · exact .fail _
  · exact .fail _
  · exact .retryWatch (.command rfl) _

theorem calm_unlockAll {inode : Id} {owner : LockOwner} : Calm (unlockAll inode owner) := by
  unfold unlockAll
  exact .retryWatch (.command rfl) _

/-! ## Every request -/

theorem Request.proper_op (r : Request) : Fair h (r.op ctx) := by
  cases r with
  | echo p data => exact proper_writeFile
  | echoCreate p data mode => exact proper_writeFileWithMode
  | echoAppend p data => exact proper_writeFile
  | touch p => exact proper_touch
  | createFile p mode exclusive => exact proper_createFileOp
  | mkdir p mode => exact proper_mkdirMode
  | rm p => exact proper_rm
  | rename src dst flags fuel => exact proper_rename
  | ln target linkpath => exact proper_ln
  | chmod p mode => exact proper_chmod
  | chown p uid gid => exact proper_chown
  | truncate p size => exact proper_truncate
  | utimens p atimeMs mtimeMs => exact proper_utimens
  | setAttrs p u => exact proper_setAttrs
  | writeChunks p chunks chunkSize newSize hashes => exact proper_publishChunks _
  | writeInodeAt inode payload off => exact proper_writeInodeAt
  | truncateInode inode size => exact proper_truncateInode
  | restore p selected content expected undelete => exact proper_restoreFileVersion
  | setlk inode owner lk => exact calm_setlk.fair
  | unlockAll inode owner => exact calm_unlockAll.fair

/-- **Every command of every request is justified.** -/
theorem Request.proper {r : Request} {x : Op Unit} (hx : x = r.op ctx ∨ x = r.inSession ctx) :
    Fair h x := by
  obtain rfl | rfl := hx
  · exact r.proper_op
  · refine .after_calm calm_checkGeneration fun _ _ _ => .bind r.proper_op fun _ _ _ _ => ?_
    exact calm_checkGeneration.fair

end Afs.Client
