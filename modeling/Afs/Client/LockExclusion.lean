import Afs.Client.Request

/-!
# Exclusion between the locks of sessions

Native sessions take byte-range locks under `WATCH`, in the name of an owner that carries the
session's lease. Leases expire, and the locks of a session that has lost its lease are dropped by
whoever comes next. The leases of the other owners are read outside of the watch, so one that
was found may be gone by `EXEC`; one that was not found stays gone, for a session never takes the
same lease twice.

A session renews its lease and the keys of its locks. Nothing here depends on when a lease
expires; the key of the locks on an inode is assumed to outlive the leases of those who hold them.
-/

namespace Afs.Client

open AList

open Function (update update_of_ne update_self)

/-! ## Sessions -/

/-- The session of an owner has its lease. -/
def Live (w : World) (o : LockOwner) : Prop := ∃ t, o.lease = some t ∧ w.session t = true

/-- The lock requests of a session: `lockOwner` puts the lease into the owner. -/
def Request.locksAs (lease : Option Token) : Request → Prop
  | .setlk _ owner _ | .unlockAll _ owner => owner.lease = lease
  | _ => False

/-- A session starts lock requests. -/
def StartsLock (ctx : Ctx) (p : Prog sig (Except Err Unit)) : Prop :=
  ctx.lease ≠ none ∧ ∃ r : Request, r.locksAs ctx.lease ∧ p = (r.inSession ctx).run

/-- `NewNative`: a lease under a fresh token. -/
def openSession (w : World) : World :=
  { w with
    tokens := w.tokens + 1
    session := update w.session (w.tokens + 1) true }

/-- A lease expires, or `Close` deletes it. -/
def endSession (t : Token) (w : World) : World :=
  { w with session := update w.session t false }

/-- The key of the locks on an inode expires. -/
def dropLocks (i : Id) (w : World) : World := { w with locks := update w.locks i ∅ }

/-- One step of the sessions of a workspace. -/
inductive SessionStep : Clients → Clients → Prop
  /-- A session starts a lock request, or a request under way has its next exchange. -/
  | request {P Q : Clients} (h : Pool.Step StartsLock Exec P Q) : SessionStep P Q
  | opened (P : Clients) : SessionStep P ⟨openSession P.store, P.threads⟩
  /-- `renewNativeSession` changes nothing but expiry times. -/
  | renewed (P : Clients) : SessionStep P P
  | ended (P : Clients) (t : Token) : SessionStep P ⟨endSession t P.store, P.threads⟩
  | dropped (P : Clients) (i : Id) (hdead : ∀ o ∈ P.store.locks i, ¬ Live P.store o) :
      SessionStep P ⟨dropLocks i P.store, P.threads⟩
  /-- Whatever else happens in the workspace. -/
  | elsewhere (P : Clients) (w : World) (hsession : w.session = P.store.session)
      (hlocks : w.locks = P.store.locks) (htokens : P.store.tokens ≤ w.tokens) :
      SessionStep P ⟨w, P.threads⟩

/-! ## The commands of lock requests -/

/-- The commands a lock request issues. -/
def Cmd.locksAs (lease : Option Token) : Cmd → Prop
  | .getGeneration | .getGenerationAndLease _ => True
  | .setLock _ owner _ | .unlockAll _ owner => owner.lease = lease
  | _ => False

/-- An observer that only looks at which commands are issued. -/
def lockMonitor (lease : Option Token) : Prog.Monitor sig Unit where
  next _ _ _ := ()
  admits _ _ _ := True
  allows _ c := c.locksAs lease

/-- The program issues lock commands in the name of a session only. -/
abbrev LocksAs {α : Type} (lease : Option Token) (p : Prog sig α) : Prop :=
  Prog.Track (lockMonitor lease) (fun _ _ => True) () p

theorem LocksAs.bind {α β : Type} {lease : Option Token} {x : Op α} {f : α → Op β}
    (hx : LocksAs lease x.run) (hf : ∀ a, LocksAs lease (f a).run) : LocksAs lease (x >>= f).run :=
  Prog.Track.exceptBind hx (fun _ a _ => hf a) fun _ _ _ => trivial

theorem locksAs_checkGeneration (lease : Option Token) (ctx : Ctx) :
    LocksAs lease (checkGeneration ctx).run := by
  unfold checkGeneration
  split_ifs
  · trivial
  · split
    · trivial
    · refine LocksAs.bind ⟨trivial, fun _ _ => trivial⟩ fun a => ?_
      dsimp only
      split_ifs <;> trivial
    · refine LocksAs.bind ⟨trivial, fun _ _ => trivial⟩ fun a => ?_
      split_ifs <;> trivial

variable {c : Cmd}

theorem locksAs_retryWatch {lease : Option Token} (hc : c.locksAs lease) (n : ℕ) :
    LocksAs lease (retryWatch (call c) n).run := by
  induction n with
  | zero => trivial
  | succ n ih =>
    refine LocksAs.bind ⟨hc, fun _ _ => trivial⟩ fun r => ?_
    split
    · exact ih
    · exact (trivial : LocksAs lease (Prog.ret r))

variable {ctx : Ctx} {p : Prog sig (Except Err Unit)}

theorem StartsLock.locksAs (h : StartsLock ctx p) : LocksAs ctx.lease p := by
  obtain ⟨-, r, hr, rfl⟩ := h
  refine LocksAs.bind (locksAs_checkGeneration _ _) fun _ =>
    LocksAs.bind ?_ fun _ => locksAs_checkGeneration _ _
  cases r with
  | setlk i owner lk =>
    change LocksAs ctx.lease (setlk i owner lk).run
    unfold setlk
    split_ifs
    · trivial
    · trivial
    · exact locksAs_retryWatch (c := .setLock i owner lk) hr _
  | unlockAll i owner => exact locksAs_retryWatch (c := .unlockAll i owner) hr _
  | _ => exact hr.elim

variable {w : World}

/-- A block under `WATCH` that went through has found the lease. -/
theorem live_of_watchGuard {t : Token} (ht : ctx.lease = some t)
    (h : watchGuard ctx w.toStore = .ok ()) : w.session t = true := by
  unfold watchGuard at h
  split_ifs at h with hlost
  simpa [Guard.leaseLost, Ctx.guard, ht] using hlost

/-- What a lock command does, if anything: it is its owner's, and the owner's session is live. -/
inductive LockEffect (w : World) : Cmd → World → Prop
  | same (c : Cmd) : LockEffect w c w
  /-- Every live lease was found. -/
  | set (seen : Token → Bool) (i : Id) (o : LockOwner) (lk : FileLock) (hlive : Live w o)
      (hseen : ∀ t, w.session t = true → seen t = true)
      (hfree : lockBlocked seen (w.locks i) o lk = false) :
      LockEffect w (.setLock i o lk)
        { w with locks := update w.locks i (lockTable seen (w.locks i) o lk) }
  | unlock (i : Id) (o : LockOwner) (hlive : Live w o) :
      LockEffect w (.unlockAll i o)
        { w with locks := update w.locks i ((w.locks i).erase o) }

theorem lockEffect_watch {o : Choice} {block : World → Except Err Unit × World}
    (hlease : ctx.lease ≠ none)
    (h : (∃ t, ctx.lease = some t ∧ w.session t = true) → LockEffect w c (block w).2) :
    LockEffect w c (watch ctx o w block).2 := by
  unfold watch
  split_ifs
  · exact .same c
  · split
    · exact .same c
    · rename_i hguard
      obtain ⟨t, ht⟩ := Option.ne_none_iff_exists'.mp hlease
      exact h ⟨t, ht, live_of_watchGuard ht hguard⟩

theorem effect_lock (hlease : ctx.lease ≠ none) (o : Choice) (w : World)
    (hc : c.locksAs ctx.lease) : LockEffect w c (effect ctx o w c).2 := by
  cases c with
  | getGeneration => exact .same _
  | getGenerationAndLease t => exact .same _
  | setLock i owner lk =>
    refine lockEffect_watch hlease fun hlive => ?_
    rw [← show owner.lease = ctx.lease from hc] at hlive
    unfold setLockBlock
    split
    · exact .same _
    · split_ifs with hblock
      · exact .same _
      · exact .set _ i owner lk hlive (fun t ht => by rw [ht]; rfl) (by simpa using hblock)
    · exact .same _
  | unlockAll i owner =>
    refine lockEffect_watch hlease fun hlive => ?_
    rw [← show owner.lease = ctx.lease from hc] at hlive
    exact .unlock i owner hlive
  | _ => exact hc.elim

variable {w' : World} {r : Except Err (Val c)}

theorem exec_lock (hlease : ctx.lease ≠ none) (hc : c.locksAs ctx.lease)
    (h : Exec ctx c w r w') : LockEffect w c w' := by
  obtain ⟨o, ho⟩ := h
  unfold exec at ho
  have heffect := effect_lock hlease o w hc
  split_ifs at ho
  · rw [ho] at heffect
    exact heffect
  · split at ho
    · rw [ho] at heffect
      exact heffect
    · cases ho
      exact .same c
    · cases ho
      exact heffect

/-! ## The invariant -/

/-- The locks of live sessions exclude each other. -/
def Exclusive (w : World) : Prop :=
  ∀ i o o' b x x', o ≠ o' → Live w o → Live w o' → Locked (w.locks i) o b x →
    Locked (w.locks i) o' b x' → x = false ∧ x' = false

/-- What holds of the leases and locks of a workspace. -/
structure LocksSound (w : World) : Prop where
  leases : ∀ t, w.session t = true → t ≤ w.tokens
  /-- No lease is handed out again under a lock. -/
  owners : ∀ i o, o ∈ w.locks i → ∃ t, o.lease = some t ∧ t ≤ w.tokens
  exclusive : Exclusive w

theorem LocksSound.of_none (hleases : ∀ t, w.session t = true → t ≤ w.tokens)
    (hlocks : ∀ i, w.locks i = ∅) : LocksSound w := by
  have hnone : ∀ i o, o ∉ w.locks i := fun i o => by rw [hlocks]; exact notMem_empty o
  exact ⟨hleases, fun i o ho => absurd ho (hnone i o),
    fun i o o' b x x' _ _ _ hlock _ => absurd hlock.mem (hnone i o)⟩

/-- Fewer live sessions and locks only make it easier. -/
theorem LocksSound.shrink (h : LocksSound w) (hleases : ∀ t, w'.session t = true → t ≤ w'.tokens)
    (htokens : w.tokens ≤ w'.tokens) (howners : ∀ i o, o ∈ w'.locks i → o ∈ w.locks i)
    (hlocked : ∀ i o b x, Live w' o → Locked (w'.locks i) o b x →
      Live w o ∧ Locked (w.locks i) o b x) : LocksSound w' := by
  refine ⟨hleases, fun i o ho => ?_, fun i o o' b x x' hne hlive hlive' hlock hlock' => ?_⟩
  · obtain ⟨t, ht, hle⟩ := h.owners i o (howners i o ho)
    exact ⟨t, ht, hle.trans htokens⟩
  · obtain ⟨hl, hk⟩ := hlocked i o b x hlive hlock
    obtain ⟨hl', hk'⟩ := hlocked i o' b x' hlive' hlock'
    exact h.exclusive i o o' b x x' hne hl hl' hk hk'

variable {o : LockOwner}

theorem not_stale_of_live {seen : Token → Bool} {table : LockTable}
    (hseen : ∀ t, w.session t = true → seen t = true) (hlive : Live w o) :
    o ∉ staleOwners seen table := by
  intro hstale
  obtain ⟨-, t, ht, hdead⟩ := mem_staleOwners.mp hstale
  obtain ⟨t', ht', hlive⟩ := hlive
  obtain rfl : t = t' := Option.some.inj (ht.symm.trans ht')
  rw [hseen t hlive] at hdead
  cases hdead

/-- **A lock request keeps the locks of live sessions apart.** -/
theorem LocksSound.effect (h : LocksSound w) (heff : LockEffect w c w') : LocksSound w' := by
  cases heff with
  | same => exact h
  | unlock i o hlive =>
    have hsub : ∀ j o', ((update w.locks i ((w.locks i).erase o)) j).lookup o' =
        (w.locks j).lookup o' ∨
        ((update w.locks i ((w.locks i).erase o)) j).lookup o' = none := by
      intro j o'
      by_cases hj : j = i
      · subst hj
        rw [update_self]
        by_cases ho : o' = o
        · subst ho
          exact .inr (lookup_erase ..)
        · exact .inl (lookup_erase_ne ho)
      · rw [update_of_ne hj]
        exact .inl rfl
    refine h.shrink h.leases le_rfl (fun j o' ho' => ?_) fun j o' b x hlive' hlock => ⟨hlive', ?_⟩
    · rw [← lookup_isSome] at ho' ⊢
      obtain hsame | hgone := hsub j o'
      · rwa [← hsame]
      · rw [hgone] at ho'
        cases ho'
    · unfold Locked at hlock ⊢
      obtain hsame | hgone := hsub j o'
      · rwa [← hsame]
      · rw [hgone] at hlock
        exact absurd hlock covers_nil
  | set seen i o lk hlive hseen hfree =>
    refine ⟨h.leases, fun j o' ho' => ?_, fun j o₁ o₂ b x y hne hlive₁ hlive₂ hlock₁ hlock₂ => ?_⟩
    · dsimp only at ho'
      by_cases hj : j = i
      · subst hj
        rw [update_self] at ho'
        by_cases ho : o' = o
        · obtain ⟨t, ht, hsession⟩ := hlive
          exact ⟨t, ho ▸ ht, h.leases t hsession⟩
        · exact h.owners j o' (mem_of_mem_lockTable ho' ho)
      · rw [update_of_ne hj] at ho'
        exact h.owners j o' ho'
    · dsimp only at hlock₁ hlock₂
      by_cases hj : j = i
      · subst hj
        rw [update_self] at hlock₁ hlock₂
        have hother : ∀ {o' z}, o' ≠ o → Locked (lockTable seen (w.locks j) o lk) o' b z →
            Locked (w.locks j) o' b z :=
          fun ho hlock => ((locked_lockTable_other ho).mp hlock).2
        -- the owner of the request against another one
        have hagainst : ∀ {o' z z'}, o' ≠ o → Live w o' →
            Locked (lockTable seen (w.locks j) o lk) o b z →
            Locked (lockTable seen (w.locks j) o lk) o' b z' → z = false ∧ z' = false := by
          intro o' z z' ho hlive' hlock hlock'
          have hold := hother ho hlock'
          rw [locked_lockTable_self] at hlock
          split_ifs at hlock with hb
          · exact (shared_of_not_blocked hfree ho (not_stale_of_live hseen hlive') hold hb
              hlock).symm
          · exact h.exclusive j o o' b z z' ho.symm hlive hlive' hlock.2 hold
        by_cases ho₁ : o₁ = o
        · subst ho₁
          exact hagainst hne.symm hlive₂ hlock₁ hlock₂
        · by_cases ho₂ : o₂ = o
          · subst ho₂
            exact (hagainst ho₁ hlive₁ hlock₂ hlock₁).symm
          · exact h.exclusive j o₁ o₂ b x y hne hlive₁ hlive₂ (hother ho₁ hlock₁)
              (hother ho₂ hlock₂)
      · rw [update_of_ne hj] at hlock₁ hlock₂
        exact h.exclusive j o₁ o₂ b x y hne hlive₁ hlive₂ hlock₁ hlock₂

/-- The command takes the lock on a byte away from its owner: it gives the range up, or asks for
another type. -/
def Cmd.releases (i : Id) (o : LockOwner) (b : ℕ) (x : Bool) : Cmd → Prop
  | .setLock i' o' lk => i' = i ∧ o' = o ∧ InRange lk b ∧ lk.type ≠ some x
  | .unlockAll i' o' => i' = i ∧ o' = o
  | _ => False

variable {i : Id}

/-- **Only its owner takes a lock away**, as long as the owner's session is live. -/
theorem LockEffect.keeps (heff : LockEffect w c w') {b : ℕ} {x : Bool}
    (hlock : Locked (w.locks i) o b x) (hlive : Live w' o) :
    Locked (w'.locks i) o b x ∨ c.releases i o b x := by
  cases heff with
  | same => exact .inl hlock
  | unlock j o' _ =>
    dsimp only
    by_cases hj : i = j
    · subst hj
      by_cases ho : o = o'
      · exact .inr ⟨rfl, ho.symm⟩
      · left
        rw [update_self]
        unfold Locked
        rwa [lookup_erase_ne ho]
    · rw [update_of_ne hj]
      exact .inl hlock
  | set seen j o' lk _ hseen _ =>
    dsimp only
    have hstale : o ∉ staleOwners seen (w.locks i) := not_stale_of_live hseen hlive
    by_cases hj : i = j
    · subst hj
      rw [update_self]
      by_cases ho : o = o'
      · subst ho
        rw [locked_lockTable_self]
        split_ifs with hb
        · by_cases hx : lk.type = some x
          · exact .inl hx
          · exact .inr ⟨rfl, rfl, hb, hx⟩
        · exact .inl ⟨hstale, hlock⟩
      · exact .inl ((locked_lockTable_other ho).mpr ⟨hstale, hlock⟩)
    · rw [update_of_ne hj]
      exact .inl hlock

/-! ## Runs -/

/-- The lock of `o` on a byte of `i` is taken away by a request of its own session. -/
def Released (P Q : Clients) (i : Id) (o : LockOwner) (b : ℕ) (x : Bool) : Prop :=
  ∃ j ctx c k r, P.threads j = some ⟨ctx, .ask c k⟩ ∧
    Q.threads = update P.threads j (some ⟨ctx, k r⟩) ∧ Exec ctx c P.store r Q.store ∧
    ctx.lease = o.lease ∧ c.releases i o b x

/-- The programs under way are lock requests of sessions. -/
def LockRequests (P : Clients) : Prop :=
  ∀ j T, P.threads j = some T → T.ctx.lease ≠ none ∧ LocksAs T.ctx.lease T.rest

variable {P : Clients}

/-- An exchange of a program under way is one of a lock request. -/
theorem LockRequests.exchange (h : LockRequests P) {j : ℕ}
    {k : Except Err (Val c) → Prog sig (Except Err Unit)}
    (hj : P.threads j = some ⟨ctx, .ask c k⟩) (hexec : Exec ctx c P.store r w) :
    c.locksAs ctx.lease ∧ LockEffect P.store c w := by
  obtain ⟨hlease, hc, -⟩ := h j _ hj
  exact ⟨hc, exec_lock hlease hc hexec⟩

theorem LockRequests.update (h : LockRequests P) {j : ℕ}
    (hlease : ctx.lease ≠ none) (hp : LocksAs ctx.lease p) (w : World) :
    LockRequests ⟨w, update P.threads j (some ⟨ctx, p⟩)⟩ := by
  intro j' T hT
  dsimp only at hT
  by_cases hj : j' = j
  · subst hj
    rw [update_self] at hT
    cases hT
    exact ⟨hlease, hp⟩
  · rw [update_of_ne hj] at hT
    exact h j' T hT

/-- A fresh lease revives no lock. -/
theorem LocksSound.openSession (h : LocksSound w) : LocksSound (openSession w) := by
  have hold : ∀ i o, o ∈ w.locks i → Live (Client.openSession w) o → Live w o := by
    rintro i o ho ⟨t, ht, hsession⟩
    obtain ⟨t', ht', hle⟩ := h.owners i o ho
    obtain rfl : t = t' := Option.some.inj (ht.symm.trans ht')
    have hne : t ≠ w.tokens + 1 := fun heq => Nat.not_succ_le_self _ (heq ▸ hle)
    exact ⟨t, ht, (update_of_ne hne true w.session) ▸ hsession⟩
  refine h.shrink (fun t ht => ?_) (Nat.le_succ _) (fun i o ho => ho) fun i o b x hlive hlock =>
    ⟨hold i o hlock.mem hlive, hlock⟩
  change update w.session (w.tokens + 1) true t = true at ht
  change t ≤ w.tokens + 1
  by_cases heq : t = w.tokens + 1
  · exact heq.le
  · rw [update_of_ne heq] at ht
    exact (h.leases t ht).trans (Nat.le_succ _)

theorem session_of_endSession {t t' : Token} (h : (endSession t w).session t' = true) :
    w.session t' = true := by
  change update w.session t false t' = true at h
  by_cases heq : t' = t
  · rw [heq, update_self] at h
    cases h
  · rwa [update_of_ne heq] at h

theorem locks_dropLocks {j : Id} (h : o ∈ (dropLocks i w).locks j) :
    (dropLocks i w).locks j = w.locks j := by
  change o ∈ update w.locks i ∅ j at h
  change update w.locks i ∅ j = w.locks j
  by_cases hj : j = i
  · rw [hj, update_self] at h
    exact absurd h (notMem_empty o)
  · rw [update_of_ne hj]

/-- **One step** leaves the sessions sound. -/
theorem SessionStep.sound {Q : Clients} (hstep : SessionStep P Q) (hreqs : LockRequests P)
    (hsound : LocksSound P.store) : LockRequests Q ∧ LocksSound Q.store := by
  cases hstep with
  | request h =>
    cases h with
    | start j ctx p hp => exact ⟨hreqs.update hp.1 hp.locksAs _, hsound⟩
    | exchange j ctx c k r w hj hexec =>
      obtain ⟨hc, heff⟩ := hreqs.exchange hj hexec
      obtain ⟨hlease, -, hrest⟩ := hreqs j _ hj
      exact ⟨hreqs.update hlease (hrest r trivial) _, hsound.effect heff⟩
  | opened => exact ⟨hreqs, hsound.openSession⟩
  | renewed => exact ⟨hreqs, hsound⟩
  | ended t =>
    refine ⟨hreqs, hsound.shrink (fun t' ht' => hsound.leases t' (session_of_endSession ht')) le_rfl
      (fun i o ho => ho) fun i o b x hlive hlock => ⟨?_, hlock⟩⟩
    obtain ⟨t', ht', hsession⟩ := hlive
    exact ⟨t', ht', session_of_endSession hsession⟩
  | dropped i hdead =>
    exact ⟨hreqs, hsound.shrink hsound.leases le_rfl (fun j o ho => locks_dropLocks ho ▸ ho)
      fun j o b x hlive hlock => ⟨hlive, locks_dropLocks hlock.mem ▸ hlock⟩⟩
  | elsewhere w hsession hlocks htokens =>
    refine ⟨hreqs, hsound.shrink (fun t ht => ?_) htokens (fun i o ho => hlocks ▸ ho)
      fun i o b x hlive hlock => ⟨?_, hlocks ▸ hlock⟩⟩
    · rw [hsession] at ht
      exact (hsound.leases t ht).trans htokens
    · obtain ⟨t, ht, hs⟩ := hlive
      exact ⟨t, ht, hsession ▸ hs⟩

/-- **One step** takes a lock of a live session away only as a request of that session. -/
theorem SessionStep.keeps {Q : Clients} (hstep : SessionStep P Q) (hreqs : LockRequests P) {b : ℕ}
    {x : Bool} (hlock : Locked (P.store.locks i) o b x) (hlive : Live Q.store o) :
    Locked (Q.store.locks i) o b x ∨ Released P Q i o b x := by
  cases hstep with
  | request h =>
    cases h with
    | start j ctx p hp => exact .inl hlock
    | exchange j ctx c k r w hj hexec =>
      obtain ⟨hc, heff⟩ := hreqs.exchange hj hexec
      refine (heff.keeps hlock hlive).imp_right fun hrel =>
        ⟨j, ctx, c, k, r, hj, rfl, hexec, ?_, hrel⟩
      cases c with
      | setLock i' o' lk => exact (show o'.lease = ctx.lease from hc) ▸ hrel.2.1 ▸ rfl
      | unlockAll i' o' => exact (show o'.lease = ctx.lease from hc) ▸ hrel.2 ▸ rfl
      | _ => exact hrel.elim
  | opened => exact .inl hlock
  | renewed => exact .inl hlock
  | ended t => exact .inl hlock
  | dropped j hdead =>
    left
    change Locked (update P.store.locks j ∅ i) o b x
    by_cases hij : i = j
    · subst hij
      exact absurd hlive (hdead o hlock.mem)
    · rwa [update_of_ne hij]
  | elsewhere w hsession hlocks htokens =>
    left
    change Locked (w.locks i) o b x
    rwa [hlocks]

/-- What holds in every state the sessions reach. -/
theorem sessions_sound {w₀ : World} (h₀ : LocksSound w₀)
    (hrun : Relation.ReflTransGen SessionStep (idle w₀) P) :
    LockRequests P ∧ LocksSound P.store := by
  induction hrun with
  | refl => exact ⟨fun j T hT => (by cases hT), h₀⟩
  | tail _ hstep ih => exact hstep.sound ih.1 ih.2

/-- **Advisory locks exclude each other.** In every state that native sessions reach from a
workspace without locks, however their requests, renewals, expiries and closings are mixed, no
byte is locked by two owners with live leases unless both locks are shared; and a lock is only
taken away by a request of its owner's session, as long as that session is live. -/
theorem locks_exclusive {w₀ : World} (hleases : ∀ t, w₀.session t = true → t ≤ w₀.tokens)
    (hlocks : ∀ i, w₀.locks i = ∅) {P : Clients}
    (hrun : Relation.ReflTransGen SessionStep (idle w₀) P) :
    (∀ i o o' b x x', o ≠ o' → Live P.store o → Live P.store o' →
      Locked (P.store.locks i) o b x → Locked (P.store.locks i) o' b x' →
        x = false ∧ x' = false) ∧
    ∀ Q, SessionStep P Q → ∀ i o b x, Locked (P.store.locks i) o b x → Live Q.store o →
      Locked (Q.store.locks i) o b x ∨ Released P Q i o b x := by
  obtain ⟨hreqs, hsound⟩ := sessions_sound (.of_none hleases hlocks) hrun
  exact ⟨hsound.exclusive, fun Q hstep i o b x hlock hlive => hstep.keeps hreqs hlock hlive⟩

/-- A workspace with a file and two sessions. -/
def twoSessions : World :=
  { generation := some (.live 1)
    inode := fun id => if id = 2 then some { type := some .file } else none
    session := fun t => t == 1 || t == 2
    tokens := 2 }

/-- A request of the first of them. -/
def firstSession : Ctx := { generation := some (.live 1), lease := some 1 }

/-- The first session has taken a write lock. -/
def firstLocked : World :=
  (((Request.setlk 2 ⟨some 1, []⟩ ⟨10, 19, some true, 7⟩).inSession firstSession).run.run
    (seqExec firstSession) twoSessions).2

theorem firstLocked_exclusive :
    Locked (firstLocked.locks 2) ⟨some 1, []⟩ 15 true ∧ Exclusive firstLocked := by
  have hstarts : StartsLock firstSession
      ((Request.setlk 2 ⟨some 1, []⟩ ⟨10, 19, some true, 7⟩).inSession firstSession).run :=
    ⟨by decide, .setlk 2 ⟨some 1, []⟩ ⟨10, 19, some true, 7⟩, by rfl, rfl⟩
  obtain ⟨threads, hrun⟩ := Pool.run_program hstarts (P := idle twoSessions)
    fun _ he => (seqExec_trace _ _ _).mem he
  have hsteps : Relation.ReflTransGen SessionStep (idle twoSessions) ⟨firstLocked, threads⟩ :=
    Relation.ReflTransGen.mono (fun _ _ h => .request h) _ _ hrun
  refine ⟨by decide +kernel, (locks_exclusive (fun t ht => ?_) (fun _ => rfl) hsteps).1⟩
  obtain rfl | rfl : t = 1 ∨ t = 2 := by
    simpa only [twoSessions, Bool.or_eq_true, beq_iff_eq] using ht
  · decide
  · decide

end Afs.Client
